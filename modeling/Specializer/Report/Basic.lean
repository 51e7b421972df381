import Specializer.Fault

set_option autoImplicit false

namespace Specializer

structure Diagnostic where
  severity : Severity
  code : String
  message : String
  span : Option Span
  filename : String
  context : Option String
deriving DecidableEq, Repr

/-- The diagnostics of a template. The source, if it is known, provides the lines to show; the context
names the binding that the next diagnostics are about. -/
structure Report where
  source : Option (List Char)
  filename : String
  context : Option String
  items : List Diagnostic

namespace Report

def empty (source : Option (List Char)) (filename : String) (context : Option String) : Report :=
  ⟨source, filename, context, []⟩

def add (report : Report) (severity : Severity) (code message : String) (span : Option Span) :
    Report :=
  { report with
    items := report.items ++ [⟨severity, code, message, span, report.filename, report.context⟩] }

def addIssue (report : Report) (issue : Issue) : Report :=
  report.add issue.code.severity issue.code.label (issue.code.fill issue.args) issue.span

def addFault (report : Report) (fault : Fault) : Report := report.addIssue fault.issue

def addNotices (report : Report) (notices : List Notice) : Report :=
  notices.foldl (fun report notice => report.addIssue notice.issue) report

def emit (report : Report) (code : Code) (args : Arguments) (span : Option Span) :
    Except CatalogFault Report := do
  let message ← code.message args
  pure (report.add code.severity code.label message span)

def count (report : Report) (severity : Severity) : Nat :=
  report.items.countP fun item => item.severity == severity

def hasErrors (report : Report) : Bool := report.items.any fun item => item.severity == .error

def hasWarnings (report : Report) : Bool := report.items.any fun item => item.severity == .warning

def exitCode (report : Report) : Nat :=
  if report.hasErrors then 2 else if report.hasWarnings then 1 else 0

def codes (report : Report) : List String := report.items.map fun item => item.code

private def counted (n : Nat) (word : String) : List String :=
  if n = 0 then [] else [toString n ++ " " ++ word ++ if n = 1 then "" else "s"]

def summary (report : Report) : String :=
  String.intercalate ", "
    (counted (report.count .error) "error" ++ counted (report.count .warning) "warning")

end Report

structure SystemFault where
  number : Option Int
  reason : Option String
  file : Option String
deriving DecidableEq, Repr

namespace SystemFault

def description (fault : SystemFault) : String :=
  match fault.number with
  | none => fault.reason.getD ""
  | some number =>
    "[Errno " ++ toString number ++ "] " ++ fault.reason.getD "" ++
      match fault.file with
      | some file => ": " ++ String.ofList (quoted file.toList)
      | none => ""

def explanation (fault : SystemFault) : String :=
  match fault.number, fault.reason with
  | some _, some reason => if reason.isEmpty then fault.description else reason
  | _, _ => fault.description

end SystemFault

def Report.addSystemFault (report : Report) (fault : SystemFault) : Report :=
  let path := (fault.file.filter fun file => !file.isEmpty).getD report.filename
  report.addFault (.unreadable path fault.explanation)

/-- What can be raised while a template is worked on: a fault of its own, a failed call to the operating
system, or something that nobody expects there. -/
inductive Raised
  | fault (fault : Fault)
  | system (fault : SystemFault)
  | other (kind message : String)
deriving DecidableEq, Repr

def Report.handle (report : Report) : Raised → Except String Report
  | .fault fault => .ok (report.addFault fault)
  | .system fault => .ok (report.addSystemFault fault)
  | .other kind message => .error (kind ++ ": " ++ message)

end Specializer
