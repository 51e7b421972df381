import Specializer.Job
import Specializer.Proofs.FileEffects

set_option autoImplicit false

namespace Specializer

namespace Report

variable (report : Report)

theorem addFault_hasErrors (fault : Fault) : (report.addFault fault).hasErrors = true := by
  have grave : fault.code.severity = .error := by cases fault <;> rfl
  simp [addFault, addIssue, add, hasErrors, Fault.issue, grave]

theorem addNotices_hasErrors (notices : List Notice) :
    (report.addNotices notices).hasErrors = report.hasErrors := by
  induction notices generalizing report with
  | nil => rfl
  | cons notice rest ih =>
    have mild : notice.issue.code.severity = .warning := by cases notice <;> rfl
    rw [addNotices, List.foldl_cons, ← addNotices, ih]
    simp [addIssue, add, hasErrors, mild]

theorem empty_hasErrors (source : Option (List Char)) (filename : String) (context : Option String) :
    (Report.empty source filename context).hasErrors = false := rfl

end Report

namespace Job

variable {tree : FileTree} {job : Job} {result : JobResult}

def Fails (job : Job) : Prop := ∃ fault, (job.template.specialize job.binding).result = .error fault

theorem process_text : job.process.text = (job.template.specialize job.binding).result.toOption := by
  rw [process]
  cases (job.template.specialize job.binding).result <;> rfl

theorem process_text_none : job.process.text = none ↔ job.Fails := by
  rw [process_text, Fails]
  cases (job.template.specialize job.binding).result <;> simp [Except.toOption]

/-- The result says which job it is of, and has the text of that job. -/
structure Concerns (job : Job) (result : JobResult) : Prop where
  template : result.template = job.template.filename
  binding : result.binding = some job.binding
  output : result.output = job.output
  text : result.text = (job.template.specialize job.binding).result.toOption
  error : result.error = none

-- All that a specialization raises is a fault, and every fault can be filed.
theorem process_concerns (job : Job) : job.Concerns job.process := by
  refine ⟨?_, ?_, ?_, process_text, ?_⟩
  all_goals
    rw [process]
    cases (job.template.specialize job.binding).result <;> rfl

theorem process_ok (job : Job) : job.process.ok = job.process.text.isSome := by
  rw [JobResult.ok, (process_concerns job).error, process]
  cases (job.template.specialize job.binding).result with
  | ok text => simp [Except.mapError, Report.addNotices_hasErrors, Report.empty_hasErrors]
  | error fault => simp [Except.mapError, Report.handle, Report.addFault_hasErrors]

inductive Ends (result : JobResult) (path : Path) : Option FileFault → Except BadPath JobResult → Prop
  | written : Ends result path none (.ok result)
  | badPath : Ends result path (some .nullInPath) (.error ⟨path⟩)
  | unwritten (fault : FileFault) (named : fault ≠ .nullInPath) :
      Ends result path (some fault) (.ok
        { result with report := result.report.addFault (.unwritable path.description fault.reason) })

theorem deliver_ends {text : List Char} {path : Path} (made : result.text = some text)
    (target : result.output = some path) :
    (deliver tree result).1 = (tree.save path (Utf8.encode text)).tree ∧
      Ends result path (tree.save path (Utf8.encode text)).fault (deliver tree result).2 := by
  obtain ⟨template, binding, output, report, content⟩ := result
  simp only at made target
  subst made target
  simp only [deliver]
  split
  next saved => exact ⟨rfl, saved ▸ .written⟩
  next saved => exact ⟨rfl, saved ▸ .badPath⟩
  next fault named saved => exact ⟨rfl, saved ▸ .unwritten fault named⟩

theorem run_cases (tree : FileTree) (job : Job) :
    (run tree job = (tree, .ok job.process) ∧ (job.process.text = none ∨ job.output = none)) ∨
      ∃ text path, job.process.text = some text ∧ job.output = some path ∧
        (run tree job).1 = (tree.save path (Utf8.encode text)).tree ∧
        Ends job.process path (tree.save path (Utf8.encode text)).fault (run tree job).2 := by
  have output := (process_concerns job).output
  cases made : job.process.text with
  | none => exact .inl ⟨by simp [run, deliver, made], .inl rfl⟩
  | some text =>
    cases target : job.output with
    | none => exact .inl ⟨by simp [run, deliver, output, target], .inr rfl⟩
    | some path => exact .inr ⟨text, path, rfl, rfl, deliver_ends made (output.trans target)⟩

theorem run_concerns (ended : (run tree job).2 = .ok result) : job.Concerns result := by
  have concerns := process_concerns job
  rcases run_cases tree job with ⟨stopped, -⟩ | ⟨text, path, -, -, -, ends⟩
  next =>
    rw [stopped] at ended
    cases ended
    exact concerns
  next =>
    rw [ended] at ends
    generalize (tree.save path (Utf8.encode text)).fault = fault at ends
    cases ends with
    | written => exact concerns
    | unwritten => exact ⟨concerns.template, concerns.binding, concerns.output, concerns.text, concerns.error⟩

theorem run_fails (fails : job.Fails) : run tree job = (tree, .ok job.process) := by
  rw [← process_text_none] at fails
  simp [run, deliver, fails]

end Job

end Specializer
