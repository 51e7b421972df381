import Specializer.Proofs.BatchEffects
import Specializer.Proofs.Directories

set_option autoImplicit false

namespace Specializer

def Path.Apart (home path other : Path) : Prop :=
  ¬ path.place home <+: other.place home ∧ ¬ other.place home <+: path.place home

instance (home path other : Path) : Decidable (Path.Apart home path other) :=
  inferInstanceAs (Decidable (_ ∧ _))

theorem Path.Straight.parent_place {path : Path} (straight : path.Straight) (home : Path) :
    path.parent.place home <+: path.place home := by
  rw [straight.place, straight.parent.place]
  exact List.prefix_append_right_inj _ |>.mpr (List.dropLast_prefix _)

namespace Job

variable {tree now after : FileTree} {home : Path} {job : Job} {jobs done : List Job}

/-- Runs jobs one at a time, in the order of the numbers given; the results are listed as the jobs are. -/
def runInOrder (tree : FileTree) (jobs : List Job) (order : List Nat) :
    FileTree × List (Except BadPath JobResult) :=
  let ended := runEach tree (order.filterMap fun n => jobs[n]?)
  (ended.1, (List.range jobs.length).filterMap fun n => (order.zip ended.2).lookup n)

def Apart (home : Path) (first second : Job) : Prop :=
  ∀ path, first.output = some path → ∀ other, second.output = some other → Path.Apart home path other

theorem Apart.symm {first second : Job} (apart : Apart home first second) : Apart home second first :=
  fun path target other beside => (apart other beside path target).symm

structure Effect where
  made : List Place
  file : Option (Place × Bytes)

def effect (tree : FileTree) (job : Job) : Effect :=
  match job.process.text, job.output with
  | some text, some path =>
    ⟨(tree.ahead path.parent).1,
      if tree.saveFault path = none then some (path.place tree.home, Utf8.encode text) else none⟩
  | _, _ => ⟨[], none⟩

/-- The later tree is the earlier one with the effects of some jobs, in no particular order. -/
structure Laid (tree : FileTree) (effects : List Effect) (after : FileTree) : Prop where
  home : after.home = tree.home
  connected : after.Connected
  files : ∀ effect ∈ effects, ∀ place bytes, effect.file = some (place, bytes) →
    after.get? place = some (.file bytes)
  others : ∀ place, (∀ effect ∈ effects, ∀ bytes, effect.file ≠ some (place, bytes)) →
    after.get? place =
      (tree.get? place).or (if place ∈ effects.flatMap Effect.made then some .directory else none)

namespace Laid

variable {effects : List Effect}

theorem start (connected : tree.Connected) : Laid tree [] tree :=
  ⟨rfl, connected, by simp, by simp⟩

theorem add {extra : Effect} (laid : Laid tree effects now) (home : after.home = now.home)
    (connected : after.Connected)
    (clear : ∀ effect ∈ effects, ∀ place bytes, effect.file = some (place, bytes) →
      ∀ content, extra.file ≠ some (place, content))
    (file : ∀ place bytes, extra.file = some (place, bytes) → after.get? place = some (.file bytes))
    (rest : ∀ place, (∀ bytes, extra.file ≠ some (place, bytes)) →
      after.get? place =
        (now.get? place).or (if place ∈ extra.made then some .directory else none)) :
    Laid tree (effects ++ [extra]) after := by
  refine ⟨home.trans laid.home, connected, fun effect member place bytes here => ?_, fun place free => ?_⟩
  next =>
    rcases List.mem_append.mp member with earlier | own
    next => rw [rest place (clear effect earlier place bytes here),
      laid.files effect earlier place bytes here, Option.some_or]
    next =>
      cases List.mem_singleton.mp own
      exact file place bytes here
  next =>
    have before : ∀ effect ∈ effects, ∀ bytes, effect.file ≠ some (place, bytes) :=
      fun effect member => free effect (List.mem_append_left _ member)
    rw [rest place (free extra (by simp)), laid.others place before, Option.or_assoc,
      List.flatMap_append, List.flatMap_singleton]
    by_cases early : place ∈ effects.flatMap Effect.made <;> by_cases late : place ∈ extra.made <;>
      simp only [List.mem_append, early, late, if_true, if_false, true_or, false_or, Option.some_or,
        Option.none_or]

-- Effects leave the same files in whatever order they came.
theorem get?_eq {others : List Effect} {other : FileTree} (laid : Laid tree effects after)
    (beside : Laid tree others other) (same : effects.Perm others) (place : Place) :
    after.get? place = other.get? place := by
  by_cases written : ∃ effect ∈ effects, ∃ bytes, effect.file = some (place, bytes)
  next =>
    obtain ⟨effect, member, bytes, file⟩ := written
    rw [laid.files effect member place bytes file,
      beside.files effect (same.mem_iff.mp member) place bytes file]
  next =>
    have free : ∀ effect ∈ effects, ∀ bytes, effect.file ≠ some (place, bytes) :=
      fun effect member bytes file => written ⟨effect, member, bytes, file⟩
    have also : ∀ effect ∈ others, ∀ bytes, effect.file ≠ some (place, bytes) :=
      fun effect member => free effect (same.mem_iff.mpr member)
    rw [laid.others place free, beside.others place also]
    simp only [(same.flatMap_right Effect.made).mem_iff]

end Laid

theorem effect_file {place : Place} {bytes : Bytes} (file : (effect tree job).file = some (place, bytes)) :
    ∃ path, job.output = some path ∧ place = path.place tree.home := by
  rw [effect] at file
  split at file
  next text path made target =>
    dsimp only at file
    split at file
    next =>
      cases file
      exact ⟨path, target, rfl⟩
    next => cases file
  next => cases file

theorem effect_made {place : Place} (made : place ∈ (effect tree job).made) :
    ∃ path, job.output = some path ∧ place ∈ (tree.ahead path.parent).1 := by
  rw [effect] at made
  split at made
  next text path there target => exact ⟨path, target, made⟩
  next => cases made

theorem ends_unique {result : JobResult} {path : Path} {fault : Option FileFault}
    {first second : Except BadPath JobResult} (one : Ends result path fault first)
    (two : Ends result path fault second) : first = second := by
  cases one <;> cases two <;> first | rfl | contradiction

theorem Laid.alike {path : Path} (laid : Laid tree (done.map (effect tree)) now)
    (target : job.output = some path) (straight : path.Straight)
    (others : ∀ other ∈ done, ∀ beside, other.output = some beside → beside.Straight)
    (apart : ∀ other ∈ done, Apart tree.home other job) : tree.Alike path now := by
  refine ⟨laid.home, fun found within bytes => ?_, ?_⟩
  next =>
    -- A file above the output would be that of a job whose output is above this one.
    have unwritten : ∀ trace ∈ done.map (effect tree), ∀ bytes, trace.file ≠ some (found, bytes) := by
      intro trace member bytes file
      obtain ⟨other, earlier, rfl⟩ := List.mem_map.mp member
      obtain ⟨beside, output, rfl⟩ := effect_file file
      exact (apart other earlier beside output path target).1 (within.trans (straight.parent_place tree.home))
    rw [laid.others found unwritten]
    cases tree.get? found with
    | some entry => simp
    | none => split <;> simp
  next =>
    have unwritten : ∀ trace ∈ done.map (effect tree), ∀ bytes,
        trace.file ≠ some (path.place tree.home, bytes) := by
      intro trace member bytes file
      obtain ⟨other, earlier, rfl⟩ := List.mem_map.mp member
      obtain ⟨beside, output, same⟩ := effect_file file
      exact (apart other earlier beside output path target).1 (same ▸ List.prefix_rfl)
    have unmade : path.place tree.home ∉ (done.map (effect tree)).flatMap Effect.made := by
      intro member
      obtain ⟨trace, member, made⟩ := List.mem_flatMap.mp member
      obtain ⟨other, earlier, rfl⟩ := List.mem_map.mp member
      obtain ⟨beside, output, made⟩ := effect_made made
      have straight := others other earlier beside output
      apply (apart other earlier beside output path target).2
      exact (FileTree.ahead_within straight.parent made).trans (straight.parent_place tree.home)
    rw [laid.others _ unwritten, if_neg unmade, Option.or_none]

theorem run_unmade (unmade : job.process.text = none ∨ job.output = none) (tree : FileTree) :
    run tree job = (tree, .ok job.process) := by
  rcases run_cases tree job with ⟨stopped, -⟩ | ⟨text, path, made, target, -, -⟩
  next => exact stopped
  next => rcases unmade with unmade | unmade <;> simp_all

theorem effect_unmade (unmade : job.process.text = none ∨ job.output = none) :
    effect tree job = ⟨[], none⟩ := by
  rw [effect]
  rcases unmade with unmade | unmade <;> simp [unmade]

theorem effect_text {text : List Char} {path : Path} (made : job.process.text = some text)
    (target : job.output = some path) :
    effect tree job = ⟨(tree.ahead path.parent).1,
      if tree.saveFault path = none then some (path.place tree.home, Utf8.encode text) else none⟩ := by
  simp only [effect, made, target]

-- The file of a job is none that jobs apart from it leave.
theorem effect_apart (apart : ∀ other ∈ done, Apart tree.home other job) :
    ∀ trace ∈ done.map (effect tree), ∀ place bytes, trace.file = some (place, bytes) →
      ∀ content, (effect tree job).file ≠ some (place, content) := by
  intro trace member place bytes file content own
  obtain ⟨other, earlier, rfl⟩ := List.mem_map.mp member
  obtain ⟨beside, output, rfl⟩ := effect_file file
  obtain ⟨path, target, same⟩ := effect_file own
  exact (apart other earlier beside output path target).1 (same ▸ List.prefix_rfl)

theorem run_alike {path : Path} (target : job.output = some path) (straight : path.Straight)
    (connected : tree.Connected) (later : now.Connected) (alike : tree.Alike path now) :
    (run now job).2 = (run tree job).2 := by
  rcases run_cases tree job with ⟨-, unmade⟩ | ⟨text, path', made, target', -, ends⟩
  next => rw [run_unmade unmade, run_unmade unmade]
  next =>
    cases target.symm.trans target'
    obtain ⟨text', path', made', target', -, ended⟩ := (run_cases now job).resolve_left
      (by rintro ⟨-, unmade | unmade⟩ <;> simp_all)
    cases made.symm.trans made'
    cases target.symm.trans target'
    obtain ⟨-, -, first, -⟩ := FileTree.save_eq connected straight (Utf8.encode text)
    obtain ⟨-, -, second, -⟩ := FileTree.save_eq later straight (Utf8.encode text)
    rw [second, FileTree.saveFault_alike straight alike, ← first] at ended
    exact ends_unique ended ends

theorem run_laid (laid : Laid tree (done.map (effect tree)) now) (connected : tree.Connected)
    (straight : ∀ other ∈ done ++ [job], ∀ path, other.output = some path → path.Straight)
    (apart : ∀ other ∈ done, Apart tree.home other job) :
    (run now job).2 = (run tree job).2 ∧
      Laid tree ((done ++ [job]).map (effect tree)) (run now job).1 := by
  rw [List.map_append, List.map_singleton]
  rcases run_cases now job with ⟨stopped, unmade⟩ | ⟨text, path, made, target, left, -⟩
  next =>
    have empty : effect tree job = ⟨[], none⟩ := effect_unmade unmade
    rw [stopped, run_unmade unmade tree, empty]
    exact ⟨rfl, laid.add rfl laid.connected (by simp) (by simp) (by simp)⟩
  next =>
    have level := straight job (by simp) path target
    -- The files that this job looks at are as they were first: no job before it has touched them.
    have alike := laid.alike target level (fun other member => straight other (by simp [member])) apart
    have own : effect tree job = _ := effect_text made target
    have saved := FileTree.save_entries laid.connected level (Utf8.encode text)
    rw [FileTree.saveFault_alike level alike, FileTree.ahead_alike level alike, laid.home, ← left] at saved
    refine ⟨run_alike target level connected laid.connected alike,
      laid.add (run_home now job) ?_ (effect_apart apart) ?_ ?_⟩
    next =>
      rw [left]
      exact FileTree.save_connected laid.connected level _
    next =>
      intro place bytes file
      rw [own] at file
      by_cases fits : tree.saveFault path = none
      next =>
        simp only [fits, if_true, Option.some.injEq, Prod.mk.injEq] at file
        obtain ⟨rfl, rfl⟩ := file
        rw [saved, if_pos ⟨fits, rfl⟩]
      next => simp [fits] at file
    next =>
      intro place free
      rw [own] at free ⊢
      rw [saved, if_neg]
      rintro ⟨fits, rfl⟩
      exact free _ (if_pos fits)

theorem runEach_laid (laid : Laid tree (done.map (effect tree)) now) (connected : tree.Connected)
    (straight : ∀ job ∈ done ++ jobs, ∀ path, job.output = some path → path.Straight)
    (apart : (done ++ jobs).Pairwise (Apart tree.home)) :
    (runEach now jobs).2 = jobs.map (fun job => (run tree job).2) ∧
      Laid tree ((done ++ jobs).map (effect tree)) (runEach now jobs).1 := by
  induction jobs generalizing now done with
  | nil =>
    rw [List.append_nil]
    exact ⟨rfl, laid⟩
  | cons job rest ih =>
    have next : done ++ job :: rest = (done ++ [job]) ++ rest := by simp
    rw [next] at straight apart ⊢
    have here : ∀ other ∈ done, Apart tree.home other job := by
      intro other member
      exact (List.pairwise_append.mp (List.pairwise_append.mp apart).1).2.2 other member job (by simp)
    obtain ⟨same, step⟩ := run_laid laid connected
      (fun other member => straight other (List.mem_append_left _ member)) here
    obtain ⟨results, all⟩ := ih step straight apart
    exact ⟨by rw [runEach, results, same, List.map_cons], all⟩

section Numbers

variable {order : List Nat} {α : Type}

theorem filterMap_range (jobs : List Job) :
    ((List.range jobs.length).filterMap fun n => jobs[n]?) = jobs := by
  induction jobs using List.reverseRecOn with
  | nil => rfl
  | append_singleton jobs job ih =>
    have before : ∀ n ∈ List.range jobs.length, (jobs ++ [job])[n]? = jobs[n]? :=
      fun n member => List.getElem?_append_left (List.mem_range.mp member)
    rw [List.length_append, List.length_singleton, List.range_succ, List.filterMap_append,
      List.filterMap_congr before, ih]
    simp

theorem perm_jobs (schedule : order.Perm (List.range jobs.length)) :
    (order.filterMap fun n => jobs[n]?).Perm jobs := by
  have same := schedule.filterMap fun n => jobs[n]?
  rwa [filterMap_range] at same

theorem lookup_results (results : Job → α) (within : ∀ n ∈ order, n < jobs.length) (n : Nat) :
    (order.zip ((order.filterMap fun n => jobs[n]?).map results)).lookup n =
      if n ∈ order then jobs[n]?.map results else none := by
  induction order with
  | nil => simp
  | cons first rest ih =>
    have bound := within first (by simp)
    have later := ih fun n member => within n (by simp [member])
    simp only [List.filterMap_cons, List.getElem?_eq_getElem bound, List.map_cons, List.zip_cons_cons,
      List.lookup_cons, later]
    by_cases same : n = first
    next => simp [same, bound]
    next => simp [same, beq_false_of_ne same]

end Numbers

/-- Whatever the order in which jobs are run, one at a time, the files in the end are the same, and so are
the results as the jobs list them: those of the jobs run one after the other. For this, everything in the
tree stands in a directory, and the outputs of the jobs never go up and lead to different places, none
above another. -/
theorem runInOrder_eq (tree : FileTree) (jobs : List Job) (order : List Nat) (connected : tree.Connected)
    (straight : ∀ path ∈ jobs.filterMap Job.output, path.Straight)
    (apart : (jobs.filterMap Job.output).Pairwise (Path.Apart tree.home))
    (schedule : order.Perm (List.range jobs.length)) :
    (∀ place, (runInOrder tree jobs order).1.get? place = (runEach tree jobs).1.get? place) ∧
      (runInOrder tree jobs order).1.home = (runEach tree jobs).1.home ∧
      (runInOrder tree jobs order).2 = (runEach tree jobs).2 := by
  have shuffled := perm_jobs schedule
  have straight : ∀ job ∈ jobs, ∀ path, job.output = some path → path.Straight :=
    fun job member path target => straight path (List.mem_filterMap.mpr ⟨job, member, target⟩)
  have apart : jobs.Pairwise (Apart tree.home) := List.pairwise_filterMap.mp apart
  -- Both orders start from the same tree, and each job adds its effect to those before it.
  have start : Laid tree ([].map (effect tree)) tree := .start connected
  obtain ⟨listed, inOrder⟩ := @runEach_laid _ _ _ [] start connected straight apart
  obtain ⟨results, anyOrder⟩ := @runEach_laid _ _ (order.filterMap fun n => jobs[n]?) []
    start connected (fun job member => straight job (shuffled.mem_iff.mp member))
    ((shuffled.pairwise_iff fun apart => apart.symm).mpr apart)
  refine ⟨fun place => ?_, ?_, ?_⟩
  next => exact anyOrder.get?_eq inOrder (shuffled.map _) place
  next => exact anyOrder.home.trans inOrder.home.symm
  next =>
    have bound : ∀ n ∈ order, n < jobs.length :=
      fun n member => List.mem_range.mp (schedule.mem_iff.mp member)
    have found : ∀ n ∈ List.range jobs.length,
        (order.zip (runEach tree (order.filterMap fun n => jobs[n]?)).2).lookup n =
          jobs[n]?.map fun job => (run tree job).2 := by
      intro n member
      rw [results, lookup_results _ bound, if_pos (schedule.mem_iff.mpr member)]
    rw [runInOrder, listed, List.filterMap_congr found, ← List.map_filterMap, filterMap_range]

-- Two jobs with outputs in one directory, which one of them finds and the other makes; a third fails at a
-- file that stands in its way.
theorem runInOrder_eq_shared :
    ∃ template tree first second third,
      Template.read "class KTypeA<KType> { KType x; }".toList "A.java" = .ok template ∧
      tree = (⟨Path.ofString "/work", [(["work".toList, "f".toList], .file [])]⟩ : FileTree) ∧
      first = (⟨template, ⟨.int, none⟩, some (Path.ofString "out/IntA.java")⟩ : Job) ∧
      second = (⟨template, ⟨.long, none⟩, some (Path.ofString "/work/out/LongA.java")⟩ : Job) ∧
      third = (⟨template, ⟨.byte, none⟩, some (Path.ofString "f/ByteA.java")⟩ : Job) ∧
      [2, 1, 0].Perm (List.range 3) ∧
      (runInOrder tree [first, second, third] [2, 1, 0]).2 = (runEach tree [first, second, third]).2 ∧
      (runInOrder tree [first, second, third] [2, 1, 0]).1.get? ["work".toList, "out".toList, "LongA.java".toList] =
        some (.file (Utf8.encode "class LongA { long x; }".toList)) := by
  obtain ⟨template, read, passes⟩ := ok_of_any
    (show (Template.read "class KTypeA<KType> { KType x; }".toList "A.java").toOption.any
      (fun template : Template =>
        (runEach ⟨Path.ofString "/work", [(["work".toList, "f".toList], .file [])]⟩
            [⟨template, ⟨.int, none⟩, some (Path.ofString "out/IntA.java")⟩,
             ⟨template, ⟨.long, none⟩, some (Path.ofString "/work/out/LongA.java")⟩,
             ⟨template, ⟨.byte, none⟩, some (Path.ofString "f/ByteA.java")⟩]).1.get?
          ["work".toList, "out".toList, "LongA.java".toList] ==
            some (.file (Utf8.encode "class LongA { long x; }".toList))) = true by decide +kernel)
  rw [beq_iff_eq] at passes
  refine ⟨template, _, _, _, _, read, rfl, rfl, rfl, rfl, by decide, ?_⟩
  have same := runInOrder_eq ⟨Path.ofString "/work", [(["work".toList, "f".toList], .file [])]⟩
    [⟨template, ⟨.int, none⟩, some (Path.ofString "out/IntA.java")⟩,
     ⟨template, ⟨.long, none⟩, some (Path.ofString "/work/out/LongA.java")⟩,
     ⟨template, ⟨.byte, none⟩, some (Path.ofString "f/ByteA.java")⟩] [2, 1, 0]
    (FileTree.connected_of_entries (by decide))
    (show ∀ path ∈ [Path.ofString "out/IntA.java", Path.ofString "/work/out/LongA.java",
      Path.ofString "f/ByteA.java"], path.Straight by decide)
    (show [Path.ofString "out/IntA.java", Path.ofString "/work/out/LongA.java",
      Path.ofString "f/ByteA.java"].Pairwise (Path.Apart (Path.ofString "/work")) by decide)
    (show [2, 1, 0].Perm (List.range 3) by decide)
  exact ⟨same.2.2, by rw [same.1, passes]⟩

/-- Outputs that go up can tell the order, though each leads to its own place. A file stands in the way of
the first output; what its job reports of it depends on whether the directory that the path passes through
has been made for the second. -/
theorem runInOrder_up_differs :
    ∃ template tree jobs,
      Template.read "class KTypeA<KType> { KType x; }".toList "A.java" = .ok template ∧
      tree = (⟨Path.ofString "/work",
        [(["work".toList, "out".toList], .directory),
          (["work".toList, "out".toList, "f".toList], .file [])]⟩ : FileTree) ∧
      jobs = [⟨template, ⟨.int, none⟩, some (Path.ofString "out/x/../f/g/IntA.java")⟩,
        (⟨template, ⟨.long, none⟩, some (Path.ofString "out/x/LongA.java")⟩ : Job)] ∧
      tree.Connected ∧ (jobs.filterMap Job.output).Pairwise (Path.Apart tree.home) ∧
      [1, 0].Perm (List.range jobs.length) ∧
      (runInOrder tree jobs [1, 0]).2 ≠ (runEach tree jobs).2 := by
  obtain ⟨template, read, passes⟩ := ok_of_any
    (show (Template.read "class KTypeA<KType> { KType x; }".toList "A.java").toOption.any
      (fun template : Template =>
        let tree : FileTree := ⟨Path.ofString "/work",
          [(["work".toList, "out".toList], .directory),
          (["work".toList, "out".toList, "f".toList], .file [])]⟩
        let jobs : List Job := [⟨template, ⟨.int, none⟩, some (Path.ofString "out/x/../f/g/IntA.java")⟩,
          ⟨template, ⟨.long, none⟩, some (Path.ofString "out/x/LongA.java")⟩]
        let messages (ended : List (Except BadPath JobResult)) : List (List String) :=
          ended.map fun one => (one.toOption.map fun result =>
            result.report.items.map Diagnostic.message).getD []
        messages (runInOrder tree jobs [1, 0]).2 =
            [["cannot write out/x/../f/g/IntA.java: Not a directory"], []] &&
          messages (runEach tree jobs).2 =
            [["cannot write out/x/../f/g/IntA.java: File exists"], []]) = true by decide +kernel)
  refine ⟨template, _, _, read, rfl, rfl, FileTree.connected_of_entries (by decide), ?_, ?_, ?_⟩
  next =>
    exact (show [Path.ofString "out/x/../f/g/IntA.java", Path.ofString "out/x/LongA.java"].Pairwise
      (Path.Apart (Path.ofString "/work")) by decide)
  next => exact (show [1, 0].Perm (List.range 2) by decide)
  next =>
    intro same
    dsimp only at passes
    rw [same, Bool.and_eq_true, decide_eq_true_eq, decide_eq_true_eq] at passes
    have equal := passes.1.symm.trans passes.2
    exact absurd equal (by decide)

end Job

end Specializer
