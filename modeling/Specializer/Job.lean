import Specializer.Files.Tree
import Specializer.Report.Basic
import Specializer.Template
import Specializer.Text.Utf8

set_option autoImplicit false

namespace Specializer

/-- A path that no file can have: it holds a null character. -/
structure BadPath where
  path : Path
deriving DecidableEq, Repr

inductive SourceFault
  | reported (fault : Fault)
  | badPath (bad : BadPath)
deriving DecidableEq, Repr

def readSource (tree : FileTree) (path : Path) : Except SourceFault (List Char) :=
  match tree.read path with
  | .error .nullInPath => .error (.badPath ⟨path⟩)
  | .error fault => .error (.reported (.unreadable path.description fault.reason))
  | .ok bytes =>
    match Utf8.decode bytes with
    | .ok text => .ok (unifyNewlines text)
    | .error offset =>
      .error (.reported (.unreadable path.description
        ("not valid UTF-8 (byte " ++ toString offset ++ ")")))

def Template.load (tree : FileTree) (path : Path) : Except SourceFault Template := do
  let source ← readSource tree path
  (Template.read source path.description).mapError .reported

def bindings (slotCount : Nat) (keyTypes valueTypes : List SlotType) : List Binding :=
  if slotCount < 2 then keyTypes.map fun key => ⟨key, none⟩
  else keyTypes.flatMap fun key => valueTypes.map fun value => ⟨key, some value⟩

/-- Where the specialization of a template file goes: below the output root as the file is below the
source root, under the specialized name of its primary type or, if it has none, of the file. -/
def outputPath (template : Template) (binding : Binding) (path sourceRoot outputRoot : Path) :
    Except Fault Path := do
  let relative := (path.parent.relativeTo? sourceRoot).getD .here
  let fallback := if template.primaryType.isSome then none else some path.stem
  let name ← template.typeName binding fallback
  pure ((outputRoot.join relative).join (Path.parse (name.getD path.stem ++ path.suffix)))

structure Job where
  template : Template
  binding : Binding
  output : Option Path

structure JobResult where
  template : String
  binding : Option Binding
  output : Option Path
  report : Report
  text : Option (List Char) := none
  error : Option String := none

namespace JobResult

def ok (result : JobResult) : Bool := result.error.isNone && !result.report.hasErrors

def exitCode (result : JobResult) : Nat := if result.error.isSome then 2 else result.report.exitCode

end JobResult

structure Plan where
  jobs : List Job
  failures : List JobResult

namespace Plan

def empty : Plan := ⟨[], []⟩

def append (first second : Plan) : Plan :=
  ⟨first.jobs ++ second.jobs, first.failures ++ second.failures⟩

def ofJob (job : Job) : Plan := ⟨[job], []⟩

def ofFailure (result : JobResult) : Plan := ⟨[], [result]⟩

def failure (template : String) (binding : Option Binding) (output : Option Path)
    (fault : Fault) : Plan :=
  let context := binding.map Binding.description
  ofFailure { template := template, binding := binding, output := output, report := (Report.empty none template context).addFault fault }

def ofBindings (template : Template) (outputOf : Binding → Except Fault (Option Path)) :
    (taken : List (Path × Binding)) → List Binding → Plan
  | _, [] => empty
  | taken, binding :: rest =>
    match outputOf binding with
    | .error fault =>
      -- No binding that fits the template comes here (`outputs_known`).
      (failure template.filename (some binding) none fault).append
        (ofBindings template outputOf taken rest)
    | .ok none => (ofJob ⟨template, binding, none⟩).append (ofBindings template outputOf taken rest)
    | .ok (some path) =>
      match taken.lookup path with
      | some other =>
        let fault := Fault.collision path.description binding.description other.description
        (failure template.filename (some binding) (some path) fault).append
          (ofBindings template outputOf taken rest)
      | none =>
        (ofJob ⟨template, binding, some path⟩).append
          (ofBindings template outputOf ((path, binding) :: taken) rest)

end Plan

structure BatchOptions where
  sourceRoot : Path
  outputRoot : Option Path
  keyTypes : List SlotType
  valueTypes : List SlotType

namespace Plan

def ofTemplate (tree : FileTree) (options : BatchOptions) (path : Path) : Except BadPath Plan :=
  match Template.load tree path with
  | .error (.badPath bad) => .error bad
  | .error (.reported fault) => .ok (failure path.description none none fault)
  | .ok template =>
    let outputOf (binding : Binding) : Except Fault (Option Path) :=
      options.outputRoot.mapM fun root =>
        outputPath template binding path options.sourceRoot root
    .ok (ofBindings template outputOf []
      (bindings template.slotCount options.keyTypes options.valueTypes))

def ofTemplates (tree : FileTree) (options : BatchOptions) : List Path → Except BadPath Plan
  | [] => .ok empty
  | path :: rest => do
    let first ← ofTemplate tree options path
    let more ← ofTemplates tree options rest
    pure (first.append more)

end Plan

namespace Job

/-- The result of a job up to the writing of its output. -/
def process (job : Job) : JobResult :=
  let report := Report.empty (some job.template.source) job.template.filename
    (some job.binding.description)
  let run := job.template.specialize job.binding
  let report := report.addNotices run.notices
  let result : JobResult :=
    { template := job.template.filename, binding := some job.binding, output := job.output, report := report }
  match run.result.mapError Raised.fault with
  | .ok text => { result with text := some text }
  | .error raised =>
    match report.handle raised with
    | .ok report => { result with report := report }
    | .error description => { result with error := some description }

/-- Writes the text of a result, if it has one and a place for it. A path that no file can have is no
result, but what was made on the way to it stays. -/
def deliver (tree : FileTree) (result : JobResult) : FileTree × Except BadPath JobResult :=
  match result.text, result.output with
  | some text, some path =>
    let made := tree.save path (Utf8.encode text)
    match made.fault with
    | none => (made.tree, .ok result)
    | some .nullInPath => (made.tree, .error ⟨path⟩)
    | some fault =>
      let report := result.report.addFault (.unwritable path.description fault.reason)
      (made.tree, .ok { result with report := report })
  | _, _ => (tree, .ok result)

def run (tree : FileTree) (job : Job) : FileTree × Except BadPath JobResult :=
  deliver tree job.process

/-- Runs jobs in order; each sees the files as the one before left them, however that one ended. -/
def runEach : FileTree → List Job → FileTree × List (Except BadPath JobResult)
  | tree, [] => (tree, [])
  | tree, job :: rest =>
    let first := run tree job
    let others := runEach first.1 rest
    (others.1, first.2 :: others.2)

def runAll (tree : FileTree) (jobs : List Job) : Except BadPath (FileTree × List JobResult) := do
  let ended := runEach tree jobs
  let results ← ended.2.mapM id
  pure (ended.1, results)

end Job

def enoughWorkers : Option Int → Bool
  | none => true
  | some count => 1 ≤ count

end Specializer
