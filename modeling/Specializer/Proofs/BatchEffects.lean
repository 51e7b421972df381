import Specializer.Proofs.JobResults

set_option autoImplicit false

namespace Specializer

def JobResult.textAt (home : Path) (place : Place) (result : JobResult) : Option (List Char) :=
  if result.ok ∧ result.output.map (·.place home) = some place then result.text else none

/-- The text of the last of several jobs that put one at the place. -/
def lastTextAt (home : Path) (place : Place) (ended : List (Except BadPath JobResult)) :
    Option (List Char) :=
  (ended.filterMap fun one => one.toOption.bind (JobResult.textAt home place)).getLast?

namespace Job

variable {tree : FileTree} {home : Path} {place : Place} {job : Job} {jobs rest : List Job}

def MakesRoom (home : Path) (place : Place) (job : Job) : Prop :=
  ¬ job.Fails ∧ ∃ path above : Path, job.output = some path ∧ above.Holds path ∧
    above.place home = place

/-- What a place comes to hold, given the last text that jobs put there. -/
def Settles (home : Path) (place : Place) (jobs : List Job) (before : Option FileEntry) :
    (text : Option (List Char)) → (after : Option FileEntry) → Prop
  | some text, after => after = some (.file (Utf8.encode text))
  | none, after => after = before ∨
      before = none ∧ after = some .directory ∧ ∃ job ∈ jobs, job.MakesRoom home place

theorem Settles.trans {first second : Option (List Char)} {before middle after : Option FileEntry}
    (earlier : Settles home place [job] before first middle)
    (later : Settles home place rest middle second after) :
    Settles home place (job :: rest) before (second.or first) after := by
  cases second with
  | some text => exact later
  | none =>
    rw [Option.none_or]
    rcases later with rfl | ⟨free, made, other, member, room⟩
    next =>
      cases first with
      | some text => exact earlier
      | none =>
        apply earlier.imp_right
        rintro ⟨free, made, other, member, room⟩
        exact ⟨free, made, other, List.mem_cons.mpr (.inl (List.mem_singleton.mp member)), room⟩
    next =>
      -- A place that is free in between was free before, so no text was put there first.
      cases first with
      | some text => simp [Settles, free] at earlier
      | none =>
        rcases earlier with same | ⟨-, there, -⟩
        next => exact .inr ⟨same ▸ free, made, other, List.mem_cons_of_mem _ member, room⟩
        next => simp [free] at there

theorem process_textAt {text : List Char} {path : Path} (made : job.process.text = some text)
    (target : job.output = some path) :
    job.process.textAt home place = if path.place home = place then some text else none := by
  have output := (process_concerns job).output
  have well : job.process.ok = true := by rw [process_ok, made, Option.isSome_some]
  simp [JobResult.textAt, well, output, target, made]

theorem run_home (tree : FileTree) (job : Job) : (run tree job).1.home = tree.home := by
  rcases run_cases tree job with ⟨stopped, -⟩ | ⟨text, path, -, -, left, -⟩
  next => rw [stopped]
  next =>
    obtain ⟨middle, grows, ⟨-, put, -⟩ | ⟨-, same⟩⟩ := tree.save_grows path (Utf8.encode text)
    next => rw [left, put, FileTree.put_home, grows.home]
    next => rw [left, same, grows.home]

theorem run_settles (tree : FileTree) (job : Job) (place : Place) :
    Settles tree.home place [job] (tree.get? place)
      ((run tree job).2.toOption.bind (JobResult.textAt tree.home place))
      ((run tree job).1.get? place) := by
  rcases run_cases tree job with ⟨stopped, unmade⟩ | ⟨text, path, made, target, left, ends⟩
  next =>
    rw [stopped]
    have none_ : job.process.textAt tree.home place = none := by
      have output := (process_concerns job).output
      rcases unmade with unmade | unmade <;> simp [JobResult.textAt, output, unmade]
    rw [show (Except.ok job.process : Except BadPath JobResult).toOption = some job.process from rfl,
      Option.bind_some, none_]
    exact .inl rfl
  next =>
    -- Directories are made for the output even if it cannot be written, in places that were free.
    have room {middle : FileTree}
        (grows : tree.Grows (fun place => ∃ above : Path, above.Holds path ∧
          above.place tree.home = place) middle) :
        Settles tree.home place [job] (tree.get? place) none (middle.get? place) := by
      apply (grows.entries place).imp_right
      rintro ⟨free, dir, above, holds, there⟩
      have lives : ¬ job.Fails := by rw [← process_text_none, made]; nofun
      exact ⟨free, dir, job, List.mem_singleton_self job, lives, path, above, target, holds, there⟩
    obtain ⟨middle, grows, ⟨well, put, down⟩ | ⟨ill, same⟩⟩ := tree.save_grows path (Utf8.encode text)
    next =>
      rw [well] at ends
      rw [left, put]
      generalize (run tree job).2 = ended at ends
      cases ends
      rw [show (Except.ok job.process : Except BadPath JobResult).toOption = some job.process from rfl,
        Option.bind_some, process_textAt made target]
      by_cases here : path.place tree.home = place
      next =>
        rw [if_pos here, ← here]
        exact FileTree.get?_put_self ((FileTree.isAbove_congr grows.home).trans down)
      next =>
        rw [if_neg here, FileTree.get?_put_other (Ne.symm here)]
        exact room grows
    next =>
      have unwritten : (run tree job).2.toOption.bind (JobResult.textAt tree.home place) = none := by
        generalize (run tree job).2 = ended at ends
        generalize (tree.save path (Utf8.encode text)).fault = fault at ends ill
        cases ends with
        | written => exact absurd rfl ill
        | badPath => rfl
        | unwritten => simp [Except.toOption, JobResult.textAt, JobResult.ok, Report.addFault_hasErrors]
      rw [unwritten, left, same]
      exact room grows

theorem runEach_settles (tree : FileTree) (jobs : List Job) (place : Place) :
    Settles tree.home place jobs (tree.get? place) (lastTextAt tree.home place (runEach tree jobs).2)
      ((runEach tree jobs).1.get? place) := by
  induction jobs generalizing tree with
  | nil => exact .inl rfl
  | cons job rest ih =>
    have later := ih (run tree job).1
    rw [run_home] at later
    have both := (run_settles tree job place).trans later
    have last : lastTextAt tree.home place (runEach tree (job :: rest)).2 =
        (lastTextAt tree.home place (runEach (run tree job).1 rest).2).or
          ((run tree job).2.toOption.bind (JobResult.textAt tree.home place)) := by
      rw [runEach, lastTextAt, lastTextAt, List.filterMap_cons]
      split
      next free => rw [free, Option.or_none]
      next text put => rw [put, List.getLast?_cons, Option.or_some]
    rw [last]
    exact both

theorem runEach_concerns (tree : FileTree) (jobs : List Job) :
    List.Forall₂ (fun job ended => ∀ result, ended = .ok result → job.Concerns result) jobs
      (runEach tree jobs).2 := by
  induction jobs generalizing tree with
  | nil => exact .nil
  | cons job rest ih => exact .cons (fun _ => run_concerns) (ih _)

theorem runEach_fails {failing : Job} (fails : failing.Fails) (tree : FileTree)
    (before after : List Job) :
    runEach tree (before ++ failing :: after) =
      ((runEach tree (before ++ after)).1,
        (runEach tree (before ++ after)).2.insertIdx before.length (.ok failing.process)) := by
  induction before generalizing tree with
  | nil => simp [runEach, run_fails fails]
  | cons job more ih => simp [runEach, ih]

theorem runAll_ok {after : FileTree} {results : List JobResult}
    (ended : runAll tree jobs = .ok (after, results)) :
    runEach tree jobs = (after, results.map .ok) := by
  simp only [runAll, bind_eq_ok, pure_eq_ok, Prod.mk.injEq] at ended
  obtain ⟨found, each, rfl, rfl⟩ := ended
  have same : List.Forall₂ Eq (runEach tree jobs).2 (found.map .ok) :=
    List.forall₂_map_right_iff.mpr (mapM_eq_ok each)
  rw [List.forall₂_eq_eq_eq] at same
  rw [← same]

/-- What jobs that run one after the other do to the files, whatever files there are. Each place holds
the text of the last job that put one there. Where none did nothing has changed, unless a directory was
made there on the way to an output. There is a result for each job, about that job; and a job whose
template has no text changes no file and no other result. -/
theorem runEach_effects (tree : FileTree) (jobs : List Job) :
    (∀ place, Settles tree.home place jobs (tree.get? place)
        (lastTextAt tree.home place (runEach tree jobs).2) ((runEach tree jobs).1.get? place)) ∧
      List.Forall₂ (fun job ended => ∀ result, ended = .ok result → job.Concerns result) jobs
        (runEach tree jobs).2 ∧
      (∀ after results, runAll tree jobs = .ok (after, results) →
        runEach tree jobs = (after, results.map .ok)) ∧
      ∀ before failing after, jobs = before ++ failing :: after → failing.Fails →
        runEach tree jobs =
          ((runEach tree (before ++ after)).1,
            (runEach tree (before ++ after)).2.insertIdx before.length (.ok failing.process)) := by
  refine ⟨runEach_settles tree jobs, runEach_concerns tree jobs, fun _ _ => runAll_ok, ?_⟩
  rintro before failing after rfl fails
  exact runEach_fails fails tree before after

-- Of two jobs with one output the later one has the file, and the one between them, which fails, might
-- as well not be there.
theorem runEach_effects_overwritten :
    ∃ good bad : Template,
      Template.read "class KTypeA<KType> { KType x; }".toList "A.java" = .ok good ∧
      Template.read "class KTypeB { KType<B> x; }".toList "B.java" = .ok bad ∧
      ∃ tree first failing last, tree = (⟨Path.ofString "/work", []⟩ : FileTree) ∧
        first = (⟨good, ⟨.int, none⟩, some (Path.ofString "out/A.java")⟩ : Job) ∧
        failing = (⟨bad, ⟨.int, none⟩, some (Path.ofString "out/B.java")⟩ : Job) ∧
        last = (⟨good, ⟨.long, none⟩, some (Path.ofString "out/A.java")⟩ : Job) ∧
        failing.Fails ∧
        (runEach tree [first, failing, last]).1.get? ["work".toList, "out".toList, "A.java".toList] =
          some (.file (Utf8.encode "class LongA { long x; }".toList)) ∧
        (runEach tree [first, failing, last]).1 = (runEach tree [first, last]).1 := by
  obtain ⟨made, read, passes⟩ := ok_of_any
    (show (do
        let good ← Template.read "class KTypeA<KType> { KType x; }".toList "A.java"
        let bad ← Template.read "class KTypeB { KType<B> x; }".toList "B.java"
        pure (good, bad)).toOption.any (fun made : Template × Template =>
      (made.2.specialize ⟨.int, none⟩).result.toOption.isNone &&
        lastTextAt (Path.ofString "/work") ["work".toList, "out".toList, "A.java".toList]
          (runEach ⟨Path.ofString "/work", []⟩
            [⟨made.1, ⟨.int, none⟩, some (Path.ofString "out/A.java")⟩,
             ⟨made.2, ⟨.int, none⟩, some (Path.ofString "out/B.java")⟩,
             ⟨made.1, ⟨.long, none⟩, some (Path.ofString "out/A.java")⟩]).2 ==
          some "class LongA { long x; }".toList) = true by decide +kernel)
  -- Both templates are read, and the run is computed; that the failing job changes nothing is the
  -- general result.
  simp only [bind_eq_ok, pure_eq_ok] at read
  obtain ⟨good, readGood, bad, readBad, rfl⟩ := read
  simp only [Bool.and_eq_true, beq_iff_eq, Option.isNone_iff_eq_none] at passes
  refine ⟨good, bad, readGood, readBad, _, _, _, _, rfl, rfl, rfl, rfl, ?_⟩
  have fails : (⟨bad, ⟨.int, none⟩, some (Path.ofString "out/B.java")⟩ : Job).Fails :=
    process_text_none.mp (process_text.trans passes.1)
  have effects := runEach_effects ⟨Path.ofString "/work", []⟩
    [⟨good, ⟨.int, none⟩, some (Path.ofString "out/A.java")⟩,
     ⟨bad, ⟨.int, none⟩, some (Path.ofString "out/B.java")⟩,
     ⟨good, ⟨.long, none⟩, some (Path.ofString "out/A.java")⟩]
  have settled := effects.1 ["work".toList, "out".toList, "A.java".toList]
  rw [passes.2] at settled
  have without := effects.2.2.2 [_] _ [_] rfl fails
  exact ⟨fails, settled, by rw [without]; rfl⟩

end Job

end Specializer
