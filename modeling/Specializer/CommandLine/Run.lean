import Specializer.CommandLine.Help
import Specializer.CommandLine.Settings
import Specializer.Job
import Specializer.Manifest
import Specializer.Report.Render
import Specializer.Token.Listing
import Specializer.Tree.Listing

set_option autoImplicit false

namespace Specializer.CommandLine

structure Outcome where
  tree : FileTree
  output : String
  errors : String
  exitCode : Nat

/-- What ends the command without an outcome: a manifest that cannot be used and is not at fault
itself, a path that the file system does not answer for, a path that no file can have, and options
that were left without the type, the list of types or the number they need. -/
inductive Abort
  | manifest (fault : Manifest.LoadFault)
  | file (fault : FileFault)
  | badPath (bad : BadPath)
  | blankType
  | blankTypeList
  | blankCount
deriving DecidableEq, Repr

inductive Stop
  | fault (fault : Fault)
  | abort (abort : Abort)
deriving DecidableEq, Repr

def printed (report : Report) : String := report.printed (Terminal.plain.style none none)

def refusal (tree : FileTree) (message : String) : Outcome :=
  ⟨tree, "", "error: " ++ message ++ "\n", 2⟩

def failed (tree : FileTree) (settings : Settings) (output : String) (report : Report)
    (fault : Fault) : Outcome :=
  let trace := if settings.trace then "<traceback>\n" else ""
  ⟨tree, output, printed (report.addFault fault) ++ trace, 2⟩

def dumps (settings : Settings) (template : Template) : String :=
  (if settings.dumpTokens then tokenListing template.tokens ++ "\n\n" else "") ++
    if settings.dumpTree then template.tree.listing template.tokens ++ "\n\n" else ""

def editDump (edits : List Edit) : String :=
  String.join (edits.map fun edit => edit.description ++ "\n") ++ "\n"

def nonEmpty (value : Option (List Char)) : Option (List Char) :=
  value.filter fun text => !text.isEmpty

def deliver (tree : FileTree) (settings : Settings) (binding : Binding) (output : String)
    (report : Report) (text : List Char) : Except Abort Outcome :=
  let summary := if report.items.isEmpty then "" else report.summary ++ "\n"
  let closing := printed report ++ summary
  match nonEmpty settings.out with
  | none => .ok ⟨tree, output ++ String.ofList text, closing, report.exitCode⟩
  | some out =>
    let path := Path.parse out
    let made := tree.save path (Utf8.encode text)
    match made.fault with
    | some .nullInPath => .error (.badPath ⟨path⟩)
    | some fault =>
      let report := report.addFault (.unwritable path.description fault.reason)
      .ok ⟨made.tree, output, printed report, 2⟩
    | none =>
      let success := "Success! Wrote " ++ path.description ++ " (" ++ binding.description ++ ")\n"
      .ok ⟨made.tree, output, success ++ closing, report.exitCode⟩

def runBound (tree : FileTree) (settings : Settings) (output : String) (report : Report)
    (template : Template) (binding : Binding) : Except Abort Outcome :=
  let listed := if settings.dumpEdits then (template.edits binding).result.map editDump else .ok ""
  match listed with
  | .error fault => .ok (failed tree settings output report fault)
  | .ok listing =>
    let run := template.specialize binding
    let report := report.addNotices run.notices
    match run.result with
    | .error fault => .ok (failed tree settings (output ++ listing) report fault)
    | .ok text => deliver tree settings binding (output ++ listing) report text

def typeOf : Given (List Char) → Except Stop SlotType
  | .blank => .error (.abort .blankType)
  | .value text => (SlotType.parse (String.ofList text)).mapError .fault

def bindingFor (template : Template) (key : Given (List Char)) (value : Option (Given (List Char))) :
    Except Stop Binding := do
  let key ← typeOf key
  let value ← value.mapM typeOf
  let binding : Binding := ⟨key, value⟩
  (binding.check template.slotCount).mapError .fault
  pure binding

def runTemplate (tree : FileTree) (settings : Settings) (report : Report) (template : Template) :
    Except Abort Outcome :=
  let output := dumps settings template
  match settings.keyType with
  | none =>
    .ok (if settings.dumpTokens || settings.dumpTree then ⟨tree, output, "", 0⟩
      else refusal tree "--ktype is required (or use --all)")
  | some key =>
    match bindingFor template key settings.valueType with
    | .error (.fault fault) => .ok (failed tree settings output report fault)
    | .error (.abort abort) => .error abort
    | .ok binding => runBound tree settings output report template binding

def runSingle (tree : FileTree) (settings : Settings) (source : List Char) :
    Except Abort Outcome :=
  let path := Path.parse source
  let unread := Report.empty none path.description none
  match readSource tree path with
  | .error (.badPath bad) => .error (.badPath bad)
  | .error (.reported fault) => .ok (failed tree settings "" unread fault)
  | .ok text =>
    let report := { unread with source := some text }
    match Template.read text path.description with
    | .error fault => .ok (failed tree settings "" report fault)
    | .ok template => runTemplate tree settings report template

def batchSummary (outputRoot : Path) (results : List JobResult) : String :=
  let written := results.countP fun result => result.ok && result.output.isSome
  let failures := results.countP fun result => !result.ok
  "Wrote " ++ toString written ++ " file(s) to " ++ outputRoot.description ++
    (if failures = 0 then "" else ", " ++ toString failures ++ " failed") ++ "\n"

def reported (result : JobResult) : String :=
  let options := (result.binding.map Binding.description).getD "None"
  printed result.report ++ match result.error with
    | none => ""
    | some error => "error: " ++ result.template ++ " (" ++ options ++ "): " ++ error ++ "\n"

def runBatch (tree : FileTree) (templates : List Path) (outputRoot : Path)
    (options : BatchOptions) : Except BadPath Outcome := do
  let plan ← Plan.ofTemplates tree options templates
  let (tree, ran) ← Job.runAll tree plan.jobs
  let results := plan.failures ++ ran
  let reports := String.join (results.map reported)
  let worst := results.foldl (fun code result => max code result.exitCode) 0
  pure ⟨tree, "", reports ++ batchSummary outputRoot results, worst⟩

def typeList : Option (List Char) → Except Fault (List SlotType)
  | none => .ok SlotType.all
  | some text =>
    let names := (splitOn ',' text).filter fun name => !(strip name).isEmpty
    SlotType.parseAll (names.map String.ofList)

def typesOf : Option (Given (List Char)) → Except Stop (List SlotType)
  | none => (typeList none).mapError .fault
  | some .blank => .error (.abort .blankTypeList)
  | some (.value text) => (typeList (some text)).mapError .fault

def templatesIn (tree : FileTree) (path : Path) : Except FileFault (Path × List Path) := do
  if ← tree.isDirectory path then
    let glob : Glob := ⟨[.anyDirectories, .pattern (Glob.items 6 "*.java".toList)], false⟩
    return (path, ← glob.expand tree path)
  return (path.parent, [path])

def runAll (tree : FileTree) (settings : Settings) (source outputDir : List Char) :
    Except Abort Outcome :=
  let types : Except Stop (List SlotType × List SlotType) := do
    let keyTypes ← typesOf settings.keyType
    let valueTypes ← typesOf settings.valueType
    pure (keyTypes, valueTypes)
  match types with
  | .error (.abort abort) => .error abort
  | .error (.fault fault) =>
    .ok (failed tree settings "" (Report.empty none (String.ofList source) none) fault)
  | .ok (keyTypes, valueTypes) => do
    let (root, templates) ← (templatesIn tree (Path.parse source)).mapError .file
    let outputRoot := Path.parse outputDir
    (runBatch tree templates outputRoot ⟨root, some outputRoot, keyTypes, valueTypes⟩).mapError
      .badPath

def runManifest (tree : FileTree) (settings : Settings) (manifest : List Char) :
    Except Abort Outcome :=
  match Manifest.load tree (some (Path.parse manifest)) with
  | .error fault =>
    match fault.reported? with
    | some reported =>
      let report := Report.empty none (String.ofList manifest) none
      .ok (failed tree settings "" report reported)
    | none => .error (.manifest fault)
  | .ok manifest => do
    let templates ← (manifest.templates tree).mapError .manifest
    (runBatch tree templates manifest.output
      ⟨manifest.source, some manifest.output, manifest.keyTypes, manifest.valueTypes⟩).mapError
      .badPath

def runChosen (tree : FileTree) (settings : Settings) : Except Abort Outcome :=
  match nonEmpty settings.manifest, nonEmpty settings.source with
  | some manifest, _ => runManifest tree settings manifest
  | none, none => .ok (refusal tree "source file required (unless using --manifest)")
  | none, some source =>
    if settings.all then
      match nonEmpty settings.outputDir with
      | none => .ok (refusal tree "--all requires --output-dir")
      | some outputDir => runAll tree settings source outputDir
    else runSingle tree settings source

def runSettings (tree : FileTree) (settings : Settings) : Except Abort Outcome :=
  match settings.jobs with
  | some .blank => .error .blankCount
  | some (.value jobs) =>
    if jobs < 1 then
      .ok (refusal tree ("--jobs must be at least 1 (got " ++ toString jobs ++ ")"))
    else runChosen tree settings
  | none => runChosen tree settings

def run (tree : FileTree) (arguments : List (List Char)) : Except Abort Outcome :=
  match parse arguments with
  | .error fault => .ok ⟨tree, "", programName ++ ": error: " ++ fault.message ++ "\n", 2⟩
  | .ok .help => .ok ⟨tree, helpText, "", 0⟩
  | .ok .version => .ok ⟨tree, programName ++ " " ++ versionText ++ "\n", "", 0⟩
  | .ok (.run settings) => runSettings tree settings

end Specializer.CommandLine
