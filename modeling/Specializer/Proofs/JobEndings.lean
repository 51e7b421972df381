import Specializer.Proofs.BadPaths
import Specializer.Proofs.Failures
import Specializer.Proofs.JobResults

set_option autoImplicit false

namespace Specializer

theorem Code.find_label (code : Code) : find code.label = .ok code := by
  cases code <;> rfl

theorem Fault.unwritable_filled (path reason : String) :
    Code.fill .unwritableOutput (Fault.unwritable path reason).args =
      "cannot write " ++ path ++ ": " ++ reason := by
  simp [Code.fill, Code.entry, Fault.args, Part.fill, String.join, Argument.plain, List.lookup_cons]

namespace Report

def entry (report : Report) (issue : Issue) : Diagnostic :=
  ⟨issue.code.severity, issue.code.label, issue.code.fill issue.args, issue.span, report.filename,
    report.context⟩

theorem addIssue_items (report : Report) (issue : Issue) :
    (report.addIssue issue).items = report.items ++ [report.entry issue] := rfl

theorem addNotices_same (report : Report) (notices : List Notice) :
    (report.addNotices notices).filename = report.filename ∧
      (report.addNotices notices).context = report.context := by
  induction notices generalizing report with
  | nil => exact ⟨rfl, rfl⟩
  | cons notice rest ih => exact ih (report.addIssue notice.issue)

theorem addNotices_items (report : Report) (notices : List Notice) :
    (report.addNotices notices).items =
      report.items ++ notices.map fun notice => report.entry notice.issue := by
  induction notices generalizing report with
  | nil => simp [addNotices]
  | cons notice rest ih =>
    have later := ih (report.addIssue notice.issue)
    rw [addIssue_items, List.append_assoc] at later
    exact later

-- To look up the code of a fault by its label and fill its wording is to add the fault.
theorem addFault_emitted (report : Report) (fault : Fault) :
    Code.find fault.code.label >>= (fun code => report.emit code fault.args fault.span) =
      .ok (report.addFault fault) := by
  simp only [Code.find_label, bind, Except.bind, emit, fault.message_made]
  rfl

theorem exitCode_mild {report : Report} (mild : report.hasErrors = false) :
    report.exitCode = 0 ∨ report.exitCode = 1 := by
  rw [exitCode, mild]
  cases report.hasWarnings
  next => exact .inl rfl
  next => exact .inr rfl

theorem exitCode_grave {report : Report} (grave : report.hasErrors = true) : report.exitCode = 2 := by
  rw [exitCode, grave, if_pos rfl]

end Report

namespace FileTree

variable {tree : FileTree} {path : Path} {bytes : Bytes}

theorem makeDirectories_null (levels : Nat) (null : path.HasNull) :
    (makeDirectories levels tree path).fault = some .nullInPath := by
  have nowhere : tree.isDirectory path = .ok false := by
    rw [isDirectory, find?, (locate_null tree path).mpr null]
    rfl
  unfold makeDirectories
  simp only [makeDirectory_null.mpr null, nowhere]

-- A file fails to be saved for a null character exactly if the path of its directory has one, or
-- its own has one and the directory could be made.
theorem save_null :
    (tree.save path bytes).fault = some .nullInPath ↔
      path.parent.HasNull ∨
        path.HasNull ∧ (makeDirectories path.parts.length tree path.parent).fault = none := by
  by_cases above : path.parent.HasNull
  next => simp [save, makeDirectories_null _ above, above]
  next =>
    -- The directory fails for another reason if it fails, and then the file is not written.
    have named := @makeDirectories_fault tree _ path.parts.length above
    rw [save]
    simp only [above, false_or]
    split
    next fault failed =>
      have other : fault ≠ .nullInPath := fun same => named (same ▸ failed)
      simp [failed, other]
    next made =>
      rw [← @write_null (makeDirectories path.parts.length tree path.parent).tree path bytes]
      split
      next written => simp [written]
      next fault failed => simp [failed, made]

end FileTree

namespace Job

variable {source : List Char} {filename : String} {tree : FileTree} {job : Job} {result : JobResult}

def warned (job : Job) : Report :=
  (Report.empty (some job.template.source) job.template.filename
    (some job.binding.description)).addNotices (job.template.specialize job.binding).notices

def EndWith (items : List Diagnostic) (last : Diagnostic) : Prop :=
  ∃ earlier, items = earlier ++ [last] ∧ ∀ item ∈ earlier, item.severity = .warning

structure Finished (tree : FileTree) (job : Job) (result : JobResult) : Prop where
  made : ∃ text, (job.template.specialize job.binding).result = .ok text ∧ result.text = some text ∧
    ∀ path ∈ job.output, (tree.save path (Utf8.encode text)).fault = none
  items : ∀ item ∈ result.report.items, item.severity = .warning
  ok : result.ok = true
  exitCode : result.exitCode = 0 ∨ result.exitCode = 1

structure Rejected (job : Job) (fault : Fault) (result : JobResult) : Prop where
  failed : (job.template.specialize job.binding).result = .error fault
  text : result.text = none
  filed : Code.find fault.code.label >>= (fun code => job.warned.emit code fault.args fault.span) =
    .ok result.report
  items : EndWith result.report.items ⟨.error, fault.code.label, fault.code.fill fault.args, fault.span,
    job.template.filename, some job.binding.description⟩
  ok : result.ok = false
  exitCode : result.exitCode = 2

structure Unwritten (tree : FileTree) (job : Job) (path : Path) (fault : FileFault)
    (result : JobResult) : Prop where
  target : job.output = some path
  made : ∃ text, (job.template.specialize job.binding).result = .ok text ∧ result.text = some text ∧
    (tree.save path (Utf8.encode text)).fault = some fault
  items : EndWith result.report.items ⟨.error, "TE5003",
    "cannot write " ++ path.description ++ ": " ++ fault.reason, none, job.template.filename,
    some job.binding.description⟩
  ok : result.ok = false
  exitCode : result.exitCode = 2

inductive Ending
  | finished | rejected | unwritten
deriving DecidableEq

def Ending.marks : Ending → Bool × Bool
  | finished => (true, true)
  | rejected => (false, false)
  | unwritten => (true, false)

theorem Ending.marks_injective {first second : Ending} (same : first.marks = second.marks) :
    first = second := by
  cases first <;> cases second <;> first | rfl | cases same

/-- In which of the states a job ended, by its result. -/
def EndsAs (tree : FileTree) (job : Job) (result : JobResult) : Ending → Prop
  | .finished => job.Finished tree result
  | .rejected => ∃ fault, job.Rejected fault result
  | .unwritten => ∃ path fault, job.Unwritten tree path fault result

/-- Why a job has no result: its text is for a path with a null character, and nothing less stopped
the directories above it. -/
structure Unnameable (tree : FileTree) (job : Job) (path : Path) : Prop where
  target : job.output = some path
  text : ¬ job.Fails
  null : path.parent.HasNull ∨ path.HasNull ∧
    (FileTree.makeDirectories path.parts.length tree path.parent).fault = none

theorem warned_items : ∀ item ∈ job.warned.items, item.severity = .warning := by
  intro item member
  rw [warned, Report.addNotices_items] at member
  obtain ⟨notice, -, rfl⟩ := List.mem_map.mp member
  cases notice <;> rfl

theorem warned_hasErrors : job.warned.hasErrors = false := by
  rw [warned, Report.addNotices_hasErrors, Report.empty_hasErrors]

theorem warned_addFault (job : Job) (fault : Fault) :
    EndWith (job.warned.addFault fault).items ⟨.error, fault.code.label, fault.code.fill fault.args,
      fault.span, job.template.filename, some job.binding.description⟩ := by
  have grave : fault.code.severity = .error := by cases fault <;> rfl
  obtain ⟨named, bound⟩ := Report.addNotices_same (Report.empty (some job.template.source)
    job.template.filename (some job.binding.description))
    (job.template.specialize job.binding).notices
  refine ⟨job.warned.items, ?_, warned_items⟩
  rw [Report.addFault, Report.addIssue_items, Report.entry, warned, named, bound, Fault.issue]
  simp only [grave]
  rfl

theorem process_report {text : List Char}
    (made : (job.template.specialize job.binding).result = .ok text) :
    job.process.report = job.warned := by
  rw [process, made]
  rfl

theorem process_rejected {fault : Fault}
    (failed : (job.template.specialize job.binding).result = .error fault) :
    job.Rejected fault job.process := by
  have report : job.process.report = job.warned.addFault fault := by
    rw [process, failed]
    rfl
  have grave := Report.addFault_hasErrors job.warned fault
  refine ⟨failed, ?_, ?_, ?_, ?_, ?_⟩
  next => rw [process_text, failed]; rfl
  next => rw [report, Report.addFault_emitted]
  next => exact report ▸ warned_addFault job fault
  next => simp [JobResult.ok, report, grave]
  next => rw [JobResult.exitCode, (process_concerns job).error, report, Report.exitCode_grave grave]; rfl

theorem process_finished {text : List Char}
    (made : (job.template.specialize job.binding).result = .ok text)
    (saved : ∀ path ∈ job.output, (tree.save path (Utf8.encode text)).fault = none) :
    job.Finished tree job.process := by
  have report := process_report made
  refine ⟨⟨text, made, ?_, saved⟩, ?_, ?_, ?_⟩
  next => rw [process_text, made]; rfl
  next => exact report ▸ warned_items
  next => simp [JobResult.ok, (process_concerns job).error, report, warned_hasErrors]
  next =>
    rw [JobResult.exitCode, (process_concerns job).error, report]
    exact Report.exitCode_mild warned_hasErrors

theorem process_unwritten {text : List Char} {path : Path} {fault : FileFault}
    (made : (job.template.specialize job.binding).result = .ok text) (target : job.output = some path)
    (stopped : (tree.save path (Utf8.encode text)).fault = some fault) :
    job.Unwritten tree path fault { job.process with
      report := job.process.report.addFault (.unwritable path.description fault.reason) } := by
  rw [process_report made]
  have grave := Report.addFault_hasErrors job.warned (.unwritable path.description fault.reason)
  refine ⟨target, ⟨text, made, ?_, stopped⟩, ?_, ?_, ?_⟩
  next => rw [process_text, made]; rfl
  next =>
    obtain ⟨earlier, items, mild⟩ := warned_addFault job (.unwritable path.description fault.reason)
    refine ⟨earlier, ?_, mild⟩
    rw [items, ← Fault.unwritable_filled]
    rfl
  next => simp [JobResult.ok, grave]
  next => simp only [JobResult.exitCode, Report.exitCode_grave grave, ite_self]

theorem EndsAs.marked {ending : Ending} (ends : job.EndsAs tree result ending) :
    ending.marks = (result.text.isSome, result.ok) := by
  cases ending with
  | finished =>
    have finished : job.Finished tree result := ends
    obtain ⟨text, -, there, -⟩ := finished.made
    rw [there, finished.ok]
    rfl
  | rejected =>
    obtain ⟨fault, rejected⟩ := ends
    rw [rejected.text, rejected.ok]
    rfl
  | unwritten =>
    obtain ⟨path, fault, unwritten⟩ := ends
    obtain ⟨text, -, there, -⟩ := unwritten.made
    rw [there, unwritten.ok]
    rfl

theorem run_ends (tree : FileTree) (job : Job) :
    (∃ result ending, (run tree job).2 = .ok result ∧ job.EndsAs tree result ending ∧
        ∀ path, ¬ job.Unnameable tree path) ∨
      ∃ path, (run tree job).2 = .error ⟨path⟩ ∧ job.Unnameable tree path := by
  cases ran : (job.template.specialize job.binding).result with
  | error fault =>
    have fails : job.Fails := ⟨fault, ran⟩
    left
    refine ⟨job.process, .rejected, ?_, ⟨fault, process_rejected ran⟩, fun path bad => bad.text fails⟩
    rw [run_fails fails]
  | ok text =>
    have made : job.process.text = some text := by rw [process_text, ran]; rfl
    have lives : ¬ job.Fails := by rw [← process_text_none, made]; exact nofun
    -- Without an output nothing is saved; with one, the way to save it tells how the job ends.
    cases target : job.output with
    | none =>
      have stopped : run tree job = (tree, .ok job.process) := by
        simp [run, deliver, (process_concerns job).output, target]
      have saved : ∀ path ∈ job.output, (tree.save path (Utf8.encode text)).fault = none := by
        simp [target]
      left
      refine ⟨job.process, .finished, by rw [stopped], process_finished ran saved, fun path bad => ?_⟩
      cases target.symm.trans bad.target
    | some path =>
      have ends := (@deliver_ends tree _ _ _ made ((process_concerns job).output.trans target)).2
      have null := @FileTree.save_null tree path (Utf8.encode text)
      have only {other : Path} (bad : job.Unnameable tree other) : other = path :=
        Option.some.inj (bad.target.symm.trans target)
      rw [← run] at ends
      generalize saved : (tree.save path (Utf8.encode text)).fault = fault at ends null
      generalize (run tree job).2 = ended at ends
      cases ends with
      | written =>
        have each : ∀ path ∈ job.output, (tree.save path (Utf8.encode text)).fault = none := by
          simpa [target] using saved
        refine .inl ⟨_, .finished, rfl, process_finished ran each, fun other bad => ?_⟩
        cases only bad
        cases null.mpr bad.null
      | badPath => exact .inr ⟨path, rfl, target, lives, null.mp rfl⟩
      | unwritten fault named =>
        refine .inl ⟨_, .unwritten, rfl, ⟨path, fault, process_unwritten ran target saved⟩,
          fun other bad => ?_⟩
        cases only bad
        exact named (Option.some.inj (null.mpr bad.null))

theorem run_error {bad : BadPath} :
    (run tree job).2 = .error bad ↔ job.Unnameable tree bad.path := by
  rcases run_ends tree job with ⟨found, ending, same, -, named⟩ | ⟨path, stopped, unnameable⟩
  next =>
    rw [same]
    exact ⟨nofun, fun unnameable => absurd unnameable (named _)⟩
  next =>
    rw [stopped]
    constructor
    next =>
      intro eq
      cases eq
      exact unnameable
    next =>
      intro also
      cases unnameable.target.symm.trans also.target
      rfl

theorem runAll_cons (tree : FileTree) (job : Job) (rest : List Job) :
    runAll tree (job :: rest) = (run tree job).2 >>= fun result =>
      (runAll (run tree job).1 rest).map fun ended => (ended.1, result :: ended.2) := by
  rw [runAll, runAll, runEach]
  simp only [List.mapM_cons, id]
  cases (run tree job).2 with
  | error bad => rfl
  | ok result => cases (runEach (run tree job).1 rest).2.mapM id <;> rfl

theorem runAll_error {bad : BadPath} {jobs : List Job} :
    runAll tree jobs = .error bad ↔
      ∃ before job after middle results, jobs = before ++ job :: after ∧
        runAll tree before = .ok (middle, results) ∧ job.Unnameable middle bad.path := by
  -- Each job leaves other files to those after it.
  induction jobs generalizing tree with
  | nil => exact ⟨nofun, fun ⟨before, _, _, _, _, cut, _⟩ => by simp at cut⟩
  | cons first rest ih =>
    rw [runAll_cons]
    constructor
    next =>
      intro failed
      rcases bind_eq_error.mp failed with stopped | ⟨result, ended, failed⟩
      next => exact ⟨[], first, rest, tree, [], rfl, rfl, run_error.mp stopped⟩
      next =>
        cases others : runAll (run tree first).1 rest with
        | ok ended => simp [others, Except.map] at failed
        | error other =>
          rw [others] at failed
          cases failed
          obtain ⟨before, job, after, middle, results, rfl, earlier, unnameable⟩ := ih.mp others
          refine ⟨first :: before, job, after, middle, result :: results, rfl, ?_, unnameable⟩
          rw [runAll_cons, ended, earlier]
          rfl
    next =>
      rintro ⟨before, job, after, middle, results, cut, earlier, unnameable⟩
      cases before with
      | nil =>
        cases cut
        cases earlier
        exact bind_eq_error.mpr (.inl (run_error.mpr unnameable))
      | cons other before =>
        cases cut
        rw [runAll_cons] at earlier
        obtain ⟨result, ended, earlier⟩ := bind_eq_ok.mp earlier
        cases others : runAll (run tree first).1 before with
        | error bad => simp [others, Except.map] at earlier
        | ok left =>
          rw [others] at earlier
          cases earlier
          rw [ended, ih.mpr ⟨before, job, after, _, _, rfl, others, unnameable⟩]
          rfl

/-- How a job ends whose template has been parsed. A result says that the job ended in one of the
states, and in no other: with a text and nothing but warnings, with the fault of the specialization as
the last diagnostic, or with one that says why the text could not be written. There is a result unless
the text is for a path that no file can have. The specialization looks up nothing in vain, so no other
fault is left for a result to hold. -/
theorem run_endings (read : Template.read source filename = .ok job.template) (tree : FileTree) :
    (∀ result, (run tree job).2 = .ok result →
        result.error = none ∧ ∃! ending, job.EndsAs tree result ending) ∧
      (∀ bad, (run tree job).2 = .error bad ↔ job.Unnameable tree bad.path) ∧
      job.template.Complete (job.template.specialize job.binding) := by
  refine ⟨fun result ended => ?_, fun bad => run_error, Template.specialize_complete read job.binding⟩
  rcases run_ends tree job with ⟨found, ending, same, ends, -⟩ | ⟨path, stopped, -⟩
  next =>
    cases ended.symm.trans same
    refine ⟨(run_concerns ended).error, ending, ends, fun other also => ?_⟩
    exact Ending.marks_injective (also.marked.trans ends.marked.symm)
  next => cases ended.symm.trans stopped

-- A text for a directory that is a file is not written, and one for a path with a null character
-- leaves no result.
theorem run_endings_refused :
    ∃ template, Template.read "class KTypeA<KType> { KType x; }".toList "A.java" = .ok template ∧
      ∃ tree placed stray, tree = (⟨.ofString "/work", [(["work".toList, "out".toList], .file [])]⟩ : FileTree) ∧
        placed = (⟨template, ⟨.int, none⟩, some (.ofString "out/IntA.java")⟩ : Job) ∧
        stray = (⟨template, ⟨.int, none⟩, some (.ofString "o\x00/IntA.java")⟩ : Job) ∧
        (∃ result, (run tree placed).2 = .ok result ∧ placed.EndsAs tree result .unwritten) ∧
        (run tree stray).2 = .error ⟨.ofString "o\x00/IntA.java"⟩ := by
  obtain ⟨template, read, passes⟩ := ok_of_any
    (show (Template.read "class KTypeA<KType> { KType x; }".toList "A.java").toOption.any
      (fun template => (template.specialize ⟨.int, none⟩).result.toOption.isSome &&
        (run ⟨.ofString "/work", [(["work".toList, "out".toList], .file [])]⟩
            ⟨template, ⟨.int, none⟩, some (.ofString "out/IntA.java")⟩).2.toOption.any
          fun result => result.text.isSome && !result.ok) = true by decide +kernel)
  simp only [Bool.and_eq_true] at passes
  obtain ⟨made, ended⟩ := passes
  obtain ⟨result, same, marks⟩ := ok_of_any ended
  simp only [Bool.and_eq_true, Bool.not_eq_true'] at marks
  refine ⟨template, read, _, _, _, rfl, rfl, rfl, ⟨result, same, ?_⟩, ?_⟩
  next =>
    obtain ⟨endings, -⟩ := @run_endings _ _
      ⟨template, ⟨.int, none⟩, some (.ofString "out/IntA.java")⟩ read
      ⟨.ofString "/work", [(["work".toList, "out".toList], .file [])]⟩
    obtain ⟨-, ending, ends, -⟩ := endings result same
    -- A text and an error together mark this ending and no other.
    have unwritten : ending = .unwritten :=
      Ending.marks_injective (by rw [ends.marked, marks.1, marks.2]; rfl)
    exact unwritten ▸ ends
  next =>
    obtain ⟨-, unnameable, -⟩ := @run_endings _ _
      ⟨template, ⟨.int, none⟩, some (.ofString "o\x00/IntA.java")⟩ read
      ⟨.ofString "/work", [(["work".toList, "out".toList], .file [])]⟩
    refine (unnameable ⟨.ofString "o\x00/IntA.java"⟩).mpr ⟨rfl, ?_, .inl (by decide +kernel)⟩
    rw [← process_text_none, process_text]
    exact Option.isSome_iff_ne_none.mp made

end Job

end Specializer
