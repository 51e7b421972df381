import Specializer.Proofs.Accounting
import Specializer.Proofs.JobEndings
import Specializer.Proofs.Searches

set_option autoImplicit false

namespace Specializer

namespace Manifest

variable {tree : FileTree} {argument : List Char} {path file : Path} {bytes : Bytes} {entries table : Table}
  {key : String}

def ofBytes (bytes : Bytes) (file : Path) : Except LoadFault Manifest :=
  match Utf8.decode bytes with
  | .error offset => .error (.undecodable offset)
  | .ok text => parse text file.description file

structure Stands (tree : FileTree) (argument : List Char) (file : Path) (bytes : Bytes) : Prop where
  located : locate tree (some (Path.parse argument)) = .ok file
  present : tree.find? file = .ok (some (.file bytes))

theorem load_stands (stands : Stands tree argument file bytes) :
    load tree (some (Path.parse argument)) = ofBytes bytes file := by
  obtain ⟨place, located, there⟩ : ∃ place, tree.locate file = .ok place ∧
      tree.get? place = some (.file bytes) := by
    have present := stands.present
    rw [FileTree.find?] at present
    split at present
    next place located => exact ⟨place, located, Except.ok.inj present⟩
    next => cases present
    next => cases present
  have read : tree.read file = .ok bytes := by
    rw [FileTree.read, located]
    simp only [bind, Except.bind, there]
    rfl
  have found : readIfPresent tree file = .ok (some bytes) := by
    rw [readIfPresent, FileTree.isPresent, stands.present, read]
    rfl
  rw [load, stands.located, ofBytes]
  simp only [Except.mapError, bind, Except.bind, found]
  cases Utf8.decode bytes <;> rfl

/-- If the check of a field fails, it is for a fault of the manifest. -/
def Rejects {α : Type} (path : Path) (result : Except Fault α) : Prop :=
  ∀ fault, result = .error fault → ∃ reason, fault = .badManifest path.description reason

theorem Rejects.rejected {α : Type} {result : Except Fault α} {fault : LoadFault}
    (rejects : Rejects path result) (failed : result.mapError .rejected = .error fault) :
    ∃ reason, fault = .rejected (.badManifest path.description reason) := by
  cases result with
  | ok value => cases failed
  | error cause =>
    cases failed
    obtain ⟨reason, rfl⟩ := rejects cause rfl
    exact ⟨reason, rfl⟩

theorem requiredText_rejects : Rejects path (requiredText path entries key) := by
  intro fault failed
  rw [requiredText] at failed
  split at failed <;> cases failed
  exact ⟨_, rfl⟩

theorem patternsOf_rejects : Rejects path (patternsOf path entries) := by
  intro fault failed
  rw [patternsOf] at failed
  split at failed
  next => cases failed
  next => cases failed
  next =>
    split at failed <;> cases failed
    exact ⟨_, rfl⟩
  next =>
    cases failed
    exact ⟨_, rfl⟩

theorem workersOf_rejects : Rejects path (workersOf path entries) := by
  intro fault failed
  rw [workersOf] at failed
  split at failed
  next => cases failed
  next => cases failed
  next => cases failed
  next =>
    split at failed <;> cases failed
    exact ⟨_, rfl⟩
  next =>
    cases failed
    exact ⟨_, rfl⟩

def Overlong (entries : Table) (key : String) : Prop :=
  ∃ items, entries.find? key = some (.list items) ∧ ∃ item ∈ items, item.isShowable = false

theorem typesOf_rejects {fault : LoadFault} (failed : typesOf path entries key = .error fault) :
    (∃ reason, fault = .rejected (.badManifest path.description reason)) ∨
      fault = .unshowable ∧ Overlong entries key := by
  rw [typesOf] at failed
  split at failed
  next => cases failed
  next => cases failed
  next first rest listed =>
    cases each : (first :: rest).mapM (typeOf path) with
    | ok types => simp [each] at failed
    | error cause =>
      rw [each] at failed
      cases failed
      obtain ⟨item, member, failed⟩ := mapM_eq_error each
      rw [typeOf] at failed
      split at failed
      next =>
        cases known : SlotType.parse (String.ofList item.shown) <;> rw [known] at failed <;>
          cases failed
        exact .inl ⟨_, rfl⟩
      next unshown =>
        cases failed
        exact .inr ⟨rfl, _, listed, item, member, Bool.eq_false_iff.mpr unshown⟩
  next =>
    cases failed
    exact .inl ⟨_, rfl⟩

theorem ofTable_rejects {fault : LoadFault} (failed : ofTable table path = .error fault) :
    (∃ reason, fault = .rejected (.badManifest path.description reason)) ∨
      fault = .unshowable ∧ ∃ entries, table.find? "templates" = some (.table entries) ∧
        (Overlong entries "ktypes" ∨ Overlong entries "vtypes") := by
  rw [ofTable] at failed
  split at failed
  next entries section_ =>
    -- One field after the other: the first that fails gives the fault.
    rcases bind_eq_error.mp failed with failed | ⟨source, -, failed⟩
    next => exact .inl (requiredText_rejects.rejected failed)
    rcases bind_eq_error.mp failed with failed | ⟨output, -, failed⟩
    next => exact .inl (requiredText_rejects.rejected failed)
    rcases bind_eq_error.mp failed with failed | ⟨patterns, -, failed⟩
    next => exact .inl (patternsOf_rejects.rejected failed)
    rcases bind_eq_error.mp failed with failed | ⟨workers, -, failed⟩
    next => exact .inl (workersOf_rejects.rejected failed)
    rcases bind_eq_error.mp failed with failed | ⟨keyTypes, -, failed⟩
    next =>
      apply (typesOf_rejects failed).imp_right
      rintro ⟨rfl, overlong⟩
      exact ⟨rfl, entries, section_, .inl overlong⟩
    rcases bind_eq_error.mp failed with failed | ⟨valueTypes, -, done⟩
    next =>
      apply (typesOf_rejects failed).imp_right
      rintro ⟨rfl, overlong⟩
      exact ⟨rfl, entries, section_, .inr overlong⟩
    cases done
  next =>
    cases failed
    exact .inl ⟨_, rfl⟩

/-- The faults of a manifest, or of the search for its templates, that are not reported. -/
inductive Unforeseen (tree : FileTree) (file : Path) (bytes : Bytes) : LoadFault → Prop
  | undecodable {offset : Nat} (broken : Utf8.decode bytes = .error offset) :
      Unforeseen tree file bytes (.undecodable offset)
  | digits {text : List Char} {fault : Toml.Fault} (decoded : Utf8.decode bytes = .ok text)
      (failed : Toml.parse text = .error fault) (many : fault.reason = .tooManyDigits) :
      Unforeseen tree file bytes (.malformed file.description fault)
  | unshowable {text : List Char} {table entries : Table} (decoded : Utf8.decode bytes = .ok text)
      (parsed : Toml.parse text = .ok table) (failed : ofTable table file = .error .unshowable)
      (among : table.find? "templates" = some (.table entries))
      (overlong : Overlong entries "ktypes" ∨ Overlong entries "vtypes") :
      Unforeseen tree file bytes .unshowable
  | pattern {manifest : Manifest} {before after : List (List Char)} {pattern : List Char}
      {cause : Glob.Fault} (made : ofBytes bytes file = .ok manifest)
      (cut : manifest.patterns = before ++ pattern :: after)
      (earlier : ∀ other ∈ before, ∃ found, matching tree manifest.source other = .ok found)
      (broken : Glob.parse pattern = .error cause) : Unforeseen tree file bytes (.badPattern cause)
  | search {manifest : Manifest} {before after : List (List Char)} {pattern : List Char} {glob : Glob}
      (made : ofBytes bytes file = .ok manifest)
      (cut : manifest.patterns = before ++ pattern :: after)
      (earlier : ∀ other ∈ before, ∃ found, matching tree manifest.source other = .ok found)
      (parsed : Glob.parse pattern = .ok glob)
      (refused : search tree manifest.source glob = .error .tooLong) :
      Unforeseen tree file bytes (.refused .tooLong)

theorem ofBytes_faults {fault : LoadFault} (failed : ofBytes bytes file = .error fault) :
    (∃ reason, fault.reported? = some (.badManifest file.description reason) ∧
        ¬ Unforeseen tree file bytes fault) ∨
      fault.reported? = none ∧ Unforeseen tree file bytes fault := by
  have named {reason : String} (fault : LoadFault)
      (reports : fault.reported? = some (.badManifest file.description reason)) :
      ¬ Unforeseen tree file bytes fault := by
    intro unforeseen
    cases unforeseen with
    | digits decoded failed many => simp [LoadFault.reported?, many] at reports
    | _ => cases reports
  rw [ofBytes] at failed
  split at failed
  next offset broken =>
    cases failed
    exact .inr ⟨rfl, .undecodable broken⟩
  next text decoded =>
    rw [parse] at failed
    split at failed
    next cause malformed =>
      cases failed
      by_cases many : cause.reason = .tooManyDigits
      next => exact .inr ⟨if_pos many, .digits decoded malformed many⟩
      next => exact .inl ⟨_, if_neg many, named _ (if_neg many)⟩
    next table parsed =>
      rcases ofTable_rejects failed with ⟨reason, rfl⟩ | ⟨rfl, entries, among, overlong⟩
      next => exact .inl ⟨reason, rfl, named _ rfl⟩
      next => exact .inr ⟨rfl, .unshowable decoded parsed failed among overlong⟩

theorem Unforeseen.cause {fault : LoadFault} (unforeseen : Unforeseen tree file bytes fault) :
    ofBytes bytes file = .error fault ∨
      ∃ manifest, ofBytes bytes file = .ok manifest ∧ manifest.templates tree = .error fault := by
  cases unforeseen with
  | undecodable broken =>
    left
    rw [ofBytes, broken]
  | digits decoded malformed =>
    left
    rw [ofBytes, decoded]
    simp only [parse, malformed]
  | unshowable decoded parsed rejected =>
    left
    rw [ofBytes, decoded]
    simp only [parse, parsed, rejected]
  | pattern made cut earlier broken =>
    right
    refine ⟨_, made, templates_error.mpr ⟨_, _, _, cut, earlier, ?_⟩⟩
    exact matching_error.mpr (.inl ⟨_, broken, rfl⟩)
  | search made cut earlier parsed refused =>
    right
    refine ⟨_, made, templates_error.mpr ⟨_, _, _, cut, earlier, ?_⟩⟩
    exact matching_error.mpr (.inr ⟨_, parsed, refused, rfl⟩)

theorem Unforeseen.of_error {fault cause : LoadFault} (unforeseen : Unforeseen tree file bytes fault)
    (failed : ofBytes bytes file = .error cause) : fault = cause := by
  rcases unforeseen.cause with same | ⟨manifest, made, -⟩
  next => exact Except.error.inj (same.symm.trans failed)
  next => cases made.symm.trans failed

theorem templates_faults {manifest : Manifest} {fault : LoadFault}
    (made : ofBytes bytes file = .ok manifest) :
    manifest.templates tree = .error fault ↔ Unforeseen tree file bytes fault := by
  constructor
  next =>
    intro failed
    obtain ⟨before, pattern, after, cut, earlier, failed⟩ := templates_error.mp failed
    rcases matching_error.mp failed with ⟨cause, broken, rfl⟩ | ⟨glob, parsed, refused, rfl⟩
    next => exact .pattern made cut earlier broken
    next => exact .search made cut earlier parsed refused
  next =>
    intro unforeseen
    rcases unforeseen.cause with failed | ⟨other, madeToo, failed⟩
    next => cases made.symm.trans failed
    next =>
      cases made.symm.trans madeToo
      exact failed

def batch (manifest : Manifest) : BatchOptions :=
  ⟨manifest.source, some manifest.output, manifest.keyTypes, manifest.valueTypes⟩

end Manifest

namespace CommandLine

variable {tree : FileTree} {argument : List Char} {file : Path} {bytes : Bytes}

/-- The argument can be the value of the option in front of it, and is not empty. -/
def IsValue (argument : List Char) : Prop :=
  argument ≠ [] ∧ classify argument = .ok (.plain argument)

instance (argument : List Char) : Decidable (IsValue argument) :=
  inferInstanceAs (Decidable (argument ≠ [] ∧ classify argument = .ok (.plain argument)))

theorem candidates_option {text spelling : List Char} {word : Word}
    (member : (spelling, word) ∈ candidates text) : ∃ switch value, word = .option switch value := by
  rw [candidates] at member
  generalize cutAtEquals text = cut at member
  obtain ⟨front, value⟩ := cut
  split at member
  next =>
    obtain ⟨⟨known, switch⟩, -, chosen⟩ := List.mem_filterMap.mp member
    dsimp only at chosen
    split at chosen <;> cases chosen
    exact ⟨_, _, rfl⟩
  next =>
    obtain ⟨⟨known, switch⟩, -, chosen⟩ := List.mem_filterMap.mp member
    dsimp only at chosen
    split at chosen <;> cases chosen
    exact ⟨_, _, rfl⟩

theorem classify_plain {text other : List Char} (plain : classify text = .ok (.plain other)) :
    other = text := by
  rw [classify] at plain
  split at plain
  next => cases plain; rfl
  next =>
    split at plain
    next => cases plain
    next =>
      split at plain
      next => cases plain; rfl
      next =>
        dsimp only at plain
        split at plain
        next => cases plain
        next =>
          split at plain
          next spelling word only =>
            cases plain
            have member : (spelling, Word.plain other) ∈ candidates text := by
              rw [only]
              exact List.mem_singleton_self _
            obtain ⟨switch, value, named⟩ := candidates_option member
            cases named
          next =>
            split at plain <;> cases plain
            rfl
          next => cases plain

/-- Arguments that ask for the run of a manifest and nothing else. -/
def forManifest (argument : List Char) : List (List Char) := ["--manifest".toList, argument]

theorem parse_forManifest (argument : List Char) :
    parse (forManifest argument) =
      classifyAll [argument] >>= fun words => take .empty (.option .manifest none :: words) := by
  have first : classify "--manifest".toList = .ok (.option .manifest none) := by decide +kernel
  have other : "--manifest".toList ≠ ['-', '-'] := by decide
  rw [parse, forManifest, classifyAll, if_neg other, first]
  cases classifyAll [argument] <;> rfl

theorem parse_value (value : classify argument = .ok (.plain argument)) :
    parse (forManifest argument) = .ok (.run { Settings.empty with manifest := some argument }) := by
  have other : argument ≠ ['-', '-'] := by
    rintro rfl
    revert value
    decide +kernel
  rw [parse_forManifest, classifyAll, if_neg other, value]
  rfl

theorem parse_other (other : classify argument ≠ .ok (.plain argument)) :
    ∃ fault, parse (forManifest argument) = .error fault := by
  rw [parse_forManifest, classifyAll]
  split
  next => exact ⟨_, rfl⟩
  next =>
    cases classed : classify argument with
    | error fault => exact ⟨fault, rfl⟩
    | ok word =>
      cases word with
      | plain text =>
        cases classify_plain classed
        exact absurd classed other
      | divider => exact ⟨_, rfl⟩
      | option switch value => exact ⟨_, rfl⟩
      | unknown text => exact ⟨_, rfl⟩

theorem run_value (value : IsValue argument) :
    run tree (forManifest argument) =
      runManifest tree { Settings.empty with manifest := some argument } argument := by
  have chosen : nonEmpty (some argument) = some argument := by
    simp [nonEmpty, Option.filter, value.1]
  rw [run, parse_value value.2]
  simp only [runSettings, runChosen, Settings.empty, chosen]

theorem run_other (other : ¬ IsValue argument) :
    ∃ outcome, run tree (forManifest argument) = .ok outcome ∧ outcome.tree = tree ∧
      outcome.exitCode = 2 := by
  by_cases plain : classify argument = .ok (.plain argument)
  next =>
    have empty : argument = [] := by
      by_contra some_
      exact other ⟨some_, plain⟩
    rw [run, parse_value plain, empty]
    exact ⟨_, rfl, rfl, rfl⟩
  next =>
    obtain ⟨fault, failed⟩ := parse_other plain
    rw [run, failed]
    exact ⟨_, rfl, rfl, rfl⟩

def complaint (argument : List Char) (path reason : String) : String :=
  String.ofList argument ++ ": error [TE5002]: " ++
    Diagnostic.sentence ("invalid manifest " ++ path ++ ": " ++ reason) ++ "\n"

theorem badManifest_filled (path reason : String) :
    Code.fill .badManifest (Fault.badManifest path reason).args =
      "invalid manifest " ++ path ++ ": " ++ reason := by
  simp [Code.fill, Code.entry, Fault.args, Part.fill, String.join, Argument.plain, List.lookup_cons]

theorem printed_badManifest (argument : List Char) (path reason : String) :
    printed ((Report.empty none (String.ofList argument) none).addFault (.badManifest path reason)) =
      complaint argument path reason := by
  have one : ((Report.empty none (String.ofList argument) none).addFault
      (.badManifest path reason)).items = [⟨.error, "TE5002",
        Code.fill .badManifest (Fault.badManifest path reason).args, none, String.ofList argument, none⟩] :=
    rfl
  have bare (style text : String) :
      Ansi.styled (Terminal.plain.style none none).color style text = text := rfl
  have marks : ": " ++ ("error" ++ (" [" ++ ("TE5002" ++ "]: "))) = ": error [TE5002]: " := by
    decide +kernel
  have shown : ((Report.empty none (String.ofList argument) none).addFault
      (.badManifest path reason)).render (Terminal.plain.style none none) =
        String.ofList argument ++ ": error [TE5002]: " ++
          Diagnostic.sentence ("invalid manifest " ++ path ++ ": " ++ reason) := by
    rw [Report.render, one, badManifest_filled]
    simp only [List.flatMap_cons, List.flatMap_nil, List.append_nil, Diagnostic.lines,
      Diagnostic.headline, Diagnostic.location, bare, ← marks]
    simp [Terminal.style, Terminal.plain, Severity.label, String.append_assoc, Report.empty,
      Report.addFault, Report.addIssue, Report.add]
  have filled : (String.ofList argument ++ ": error [TE5002]: " ++
      Diagnostic.sentence ("invalid manifest " ++ path ++ ": " ++ reason)).isEmpty = false := by
    rw [Bool.eq_false_iff, ne_eq, String.isEmpty_iff]
    intro empty
    simpa using congrArg String.toList empty
  rw [printed, Report.printed, shown]
  simp only [filled, complaint]
  rfl

theorem runManifest_rejected {fault : Manifest.LoadFault} {settings : Settings}
    (bare : settings.trace = false) (stands : Manifest.Stands tree argument file bytes)
    (failed : Manifest.ofBytes bytes file = .error fault) :
    (∃ reason, fault.reported? = some (.badManifest file.description reason) ∧
        runManifest tree settings argument =
          .ok ⟨tree, "", complaint argument file.description reason, 2⟩ ∧
        ¬ Manifest.Unforeseen tree file bytes fault) ∨
      runManifest tree settings argument = .error (.manifest fault) ∧
        Manifest.Unforeseen tree file bytes fault := by
  rw [runManifest, Manifest.load_stands stands, failed]
  rcases @Manifest.ofBytes_faults tree file bytes fault failed with
    ⟨reason, reported, foreseen⟩ | ⟨silent, unforeseen⟩
  next =>
    refine .inl ⟨reason, reported, ?_, foreseen⟩
    simp only [reported, CommandLine.failed, bare, Bool.false_eq_true, if_false, printed_badManifest,
      String.append_empty]
  next => exact .inr ⟨by simp only [silent], unforeseen⟩

/-- What ends the run of a manifest without an exit code: a fault that is not reported, or a template
that has a text for a path with a null character. -/
inductive Escapes (tree : FileTree) (file : Path) (bytes : Bytes) : Abort → Prop
  | manifest {fault : Manifest.LoadFault} (unforeseen : Manifest.Unforeseen tree file bytes fault) :
      Escapes tree file bytes (.manifest fault)
  | output {manifest : Manifest} {templates : List Path} {plan : Plan} {before after : List Job} {job : Job}
      {middle : FileTree} {results : List JobResult} {bad : BadPath}
      (made : Manifest.ofBytes bytes file = .ok manifest)
      (found : manifest.templates tree = .ok templates)
      (planned : Plan.ofTemplates tree manifest.batch templates = .ok plan)
      (null : manifest.output.HasNull) (cut : plan.jobs = before ++ job :: after)
      (earlier : Job.runAll tree before = .ok (middle, results))
      (unnameable : job.Unnameable middle bad.path) : Escapes tree file bytes (.badPath bad)

theorem runManifest_batch {manifest : Manifest} {settings : Settings}
    (stands : Manifest.Stands tree argument file bytes)
    (made : Manifest.ofBytes bytes file = .ok manifest) :
    runManifest tree settings argument =
      (manifest.templates tree).mapError .manifest >>= fun templates =>
        (runBatch tree templates manifest.output manifest.batch).mapError .badPath := by
  rw [runManifest, Manifest.load_stands stands, made]
  rfl

theorem runBatch_manifest {manifest : Manifest} {templates : List Path}
    (found : manifest.templates tree = .ok templates) :
    ∃ plan, Plan.ofTemplates tree manifest.batch templates = .ok plan ∧
      (∀ outcome, runBatch tree templates manifest.output manifest.batch = .ok outcome →
        outcome.exitCode ≤ 2) ∧
      ∀ bad, runBatch tree templates manifest.output manifest.batch = .error bad ↔
        manifest.output.HasNull ∧ ∃ before job after middle results,
          plan.jobs = before ++ job :: after ∧ Job.runAll tree before = .ok (middle, results) ∧
            job.Unnameable middle bad.path := by
  -- Templates that were found are files, so of their outputs only the root can have a null character.
  have plain : ∀ path ∈ templates, ¬ path.HasNull := fun path member =>
    FileTree.isFile_plain (Manifest.templates_files found path member)
  have given : manifest.batch.outputRoot = some manifest.output := rfl
  obtain ⟨parts, planned, covers⟩ := @Plan.ofTemplates_covers tree manifest.batch templates plain
  refine ⟨_, planned, fun outcome ended => ?_, fun bad => ?_⟩
  next =>
    obtain ⟨ran, -, -, tallies⟩ := runBatch_tallies covers given planned ended
    rw [tallies.exitCode]
    split
    next => exact Nat.le_refl 2
    next => split <;> decide
  next =>
    have whole : runBatch tree templates manifest.output manifest.batch = .error bad ↔
        Job.runAll tree (Plan.concat parts).jobs = .error bad := by
      rw [runBatch, planned]
      cases ran : Job.runAll tree (Plan.concat parts).jobs <;>
        simp [bind, Except.bind, ran, pure, Except.pure]
    rw [whole, Job.runAll_error]
    constructor
    next =>
      rintro ⟨before, job, after, middle, results, cut, earlier, unnameable⟩
      refine ⟨?_, before, job, after, middle, results, cut, earlier, unnameable⟩
      have member : job ∈ (Plan.concat parts).jobs := cut ▸ List.mem_append_right _ List.mem_cons_self
      obtain ⟨out, target, cause⟩ := concat_placed covers given job member
      have same : bad.path = out := Option.some.inj (unnameable.target.symm.trans target)
      have null : out.HasNull := same ▸ unnameable.null.elim Path.HasNull.of_parent And.left
      rcases cause null with inRoot | ⟨path, listed, own⟩
      next => exact inRoot
      next => exact absurd own (plain path listed)
    next => exact And.right

namespace Escapes

variable {abort : Abort} {fault : Manifest.LoadFault} {manifest : Manifest} {templates : List Path}

theorem of_rejected (made : Manifest.ofBytes bytes file = .error fault) :
    Escapes tree file bytes abort ↔ abort = .manifest fault ∧ Manifest.Unforeseen tree file bytes fault := by
  constructor
  next =>
    intro escapes
    cases escapes with
    | manifest unforeseen =>
      cases unforeseen.of_error made
      exact ⟨rfl, unforeseen⟩
    | output madeToo => cases made.symm.trans madeToo
  next =>
    rintro ⟨rfl, unforeseen⟩
    exact .manifest unforeseen

theorem of_search (made : Manifest.ofBytes bytes file = .ok manifest)
    (found : manifest.templates tree = .error fault) :
    Escapes tree file bytes abort ↔ abort = .manifest fault := by
  constructor
  next =>
    intro escapes
    cases escapes with
    | manifest unforeseen =>
      cases found.symm.trans ((Manifest.templates_faults made).mpr unforeseen)
      rfl
    | output madeToo foundToo =>
      cases made.symm.trans madeToo
      cases found.symm.trans foundToo
  next =>
    rintro rfl
    exact .manifest ((Manifest.templates_faults made).mp found)

theorem of_batch (made : Manifest.ofBytes bytes file = .ok manifest)
    (found : manifest.templates tree = .ok templates) :
    Escapes tree file bytes abort ↔
      ∃ bad, abort = .badPath bad ∧ runBatch tree templates manifest.output manifest.batch = .error bad := by
  obtain ⟨plan, planned, -, fails⟩ := runBatch_manifest found
  constructor
  next =>
    intro escapes
    cases escapes with
    | manifest unforeseen => cases found.symm.trans ((Manifest.templates_faults made).mpr unforeseen)
    | output madeToo foundToo plannedToo null cut earlier unnameable =>
      cases made.symm.trans madeToo
      cases found.symm.trans foundToo
      cases planned.symm.trans plannedToo
      exact ⟨_, rfl, (fails _).mpr ⟨null, _, _, _, _, _, cut, earlier, unnameable⟩⟩
  next =>
    rintro ⟨bad, rfl, ran⟩
    obtain ⟨null, before, job, after, middle, results, cut, earlier, unnameable⟩ := (fails bad).mp ran
    exact .output made found planned null cut earlier unnameable

end Escapes

theorem runManifest_error {settings : Settings} (bare : settings.trace = false)
    (stands : Manifest.Stands tree argument file bytes) {abort : Abort} :
    runManifest tree settings argument = .error abort ↔ Escapes tree file bytes abort := by
  -- One case for each step of the run at which it can stop.
  cases made : Manifest.ofBytes bytes file with
  | error fault =>
    rw [Escapes.of_rejected made]
    rcases runManifest_rejected bare stands made with
      ⟨reason, -, ended, foreseen⟩ | ⟨ended, unforeseen⟩
    next =>
      rw [ended]
      exact ⟨nofun, fun escapes => absurd escapes.2 foreseen⟩
    next =>
      rw [ended]
      exact ⟨fun same => ⟨(Except.error.inj same).symm, unforeseen⟩, fun escapes => by rw [escapes.1]⟩
  | ok manifest =>
    rw [runManifest_batch stands made]
    cases found : manifest.templates tree with
    | error fault =>
      rw [Escapes.of_search made found]
      exact ⟨fun same => (Except.error.inj same).symm, fun same => by rw [same]; rfl⟩
    | ok templates =>
      rw [Escapes.of_batch made found]
      change (runBatch tree templates manifest.output manifest.batch).mapError Abort.badPath = _ ↔ _
      cases ran : runBatch tree templates manifest.output manifest.batch with
      | ok outcome => simp [Except.mapError]
      | error bad => simp [Except.mapError, eq_comm]

theorem runManifest_exitCode {settings : Settings} (bare : settings.trace = false)
    (stands : Manifest.Stands tree argument file bytes) {outcome : Outcome}
    (ended : runManifest tree settings argument = .ok outcome) : outcome.exitCode ≤ 2 := by
  cases made : Manifest.ofBytes bytes file with
  | error fault =>
    rcases runManifest_rejected bare stands made with ⟨reason, -, same, -⟩ | ⟨failed, -⟩
    next =>
      cases ended.symm.trans same
      exact Nat.le_refl 2
    next => cases ended.symm.trans failed
  | ok manifest =>
    rw [runManifest_batch stands made] at ended
    obtain ⟨templates, found, ended⟩ := bind_eq_ok.mp ended
    cases listed : manifest.templates tree with
    | error fault => simp [listed, Except.mapError] at found
    | ok all =>
      rw [listed] at found
      cases found
      obtain ⟨plan, -, graded, -⟩ := runBatch_manifest listed
      cases ran : runBatch tree templates manifest.output manifest.batch with
      | error bad => simp [ran, Except.mapError] at ended
      | ok result =>
        rw [ran] at ended
        cases ended
        exact graded _ ran

end CommandLine

end Specializer
