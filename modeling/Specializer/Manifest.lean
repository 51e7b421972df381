import Specializer.Binding
import Specializer.Files.Glob
import Specializer.Text.Utf8
import Specializer.Toml.Document

set_option autoImplicit false

namespace Specializer

inductive Workers
  | any
  | count (number : Nat)
deriving DecidableEq, Repr

structure Manifest where
  source : Path
  output : Path
  patterns : List (List Char)
  keyTypes : List SlotType
  valueTypes : List SlotType
  workers : Option Workers
deriving DecidableEq, Repr

namespace Manifest

def fileName : List Char := "templates.toml".toList

def defaultPatterns : List (List Char) := ["**/*.java".toList]

private def reject {α : Type} (path : Path) (reason : String) : Except Fault α :=
  .error (.badManifest path.description reason)

def requiredText (path : Path) (entries : Table) (key : String) : Except Fault (List Char) :=
  match entries.find? key with
  | some (.text (c :: text)) => .ok (c :: text)
  | _ => reject path ("missing required field: [templates] " ++ key)

def textOf? : Datum → Option (List Char)
  | .text value => some value
  | _ => none

def patternsOf (path : Path) (entries : Table) : Except Fault (List (List Char)) :=
  let rejected := reject path "[templates] include must be a list of globs"
  match entries.find? "include" with
  | none => .ok defaultPatterns
  | some (.text pattern) => .ok [pattern]
  | some (.list items) =>
    match items.mapM textOf? with
    | some patterns => .ok patterns
    | none => rejected
  | some _ => rejected

def workersOf (path : Path) (entries : Table) : Except Fault (Option Workers) :=
  let rejected := reject path "[templates] jobs must be a positive integer"
  match entries.find? "jobs" with
  | none | some .absent => .ok none
  | some (.boolean true) => .ok (some .any)
  | some (.integer n) => if 1 ≤ n then .ok (some (.count n.toNat)) else rejected
  | some _ => rejected

inductive LoadFault
  | rejected (fault : Fault)
  | malformed (path : String) (fault : Toml.Fault)
  | unshowable
  | undecodable (offset : Nat)
  | refused (fault : FileFault)
  | badPattern (fault : Glob.Fault)
deriving DecidableEq, Repr

/-- The fault to report, if it is one of the manifest's and not of what reads it. -/
def LoadFault.reported? : LoadFault → Option Fault
  | rejected fault => some fault
  | malformed path fault =>
    if fault.reason = .tooManyDigits then none else some (.badManifest path fault.message)
  | unshowable | undecodable _ | refused _ | badPattern _ => none

def typeOf (path : Path) (item : Datum) : Except LoadFault SlotType :=
  if item.isShowable then
    (SlotType.parse (String.ofList item.shown)).mapError fun fault =>
      .rejected (.badManifest path.description fault.message)
  else .error .unshowable

def typesOf (path : Path) (entries : Table) (key : String) : Except LoadFault (List SlotType) :=
  match entries.find? key with
  | none | some .absent => .ok SlotType.all
  | some (.list (item :: items)) => SlotType.distinct <$> (item :: items).mapM (typeOf path)
  | some _ => (reject path ("[templates] " ++ key ++ " must be a non-empty list")).mapError .rejected

def ofTable (table : Table) (path : Path) : Except LoadFault Manifest :=
  match table.find? "templates" with
  | some (.table entries) => do
    let source ← (requiredText path entries "source").mapError .rejected
    let output ← (requiredText path entries "output").mapError .rejected
    let patterns ← (patternsOf path entries).mapError .rejected
    let workers ← (workersOf path entries).mapError .rejected
    let keyTypes ← typesOf path entries "ktypes"
    let valueTypes ← typesOf path entries "vtypes"
    let root := path.parent
    pure ⟨root.join (Path.parse source), root.join (Path.parse output), patterns, keyTypes,
      valueTypes, workers⟩
  | _ => (reject path "missing [templates] table").mapError .rejected

def parse (text : List Char) (label : String) (path : Path) : Except LoadFault Manifest :=
  match Toml.parse text with
  | .error fault => .error (.malformed label fault)
  | .ok table => ofTable table path

def ofText (text : List Char) (directory : Path) : Except LoadFault Manifest :=
  parse text "<string>" (directory.child fileName)

def locate (tree : FileTree) : Option Path → Except FileFault Path
  | none => .ok (tree.home.child fileName)
  | some path => do
    pure (if ← tree.isDirectory path then path.child fileName else path)

def readIfPresent (tree : FileTree) (path : Path) : Except FileFault (Option Bytes) := do
  if ← tree.isPresent path then
    return some (← tree.read path)
  return none

def load (tree : FileTree) (path : Option Path) : Except LoadFault Manifest := do
  let path ← (locate tree path).mapError .refused
  match ← (readIfPresent tree path).mapError .refused with
  | none => throw (.rejected (.badManifest path.description "file not found"))
  | some bytes =>
    match Utf8.decode bytes with
    | .error offset => throw (.undecodable offset)
    | .ok text => parse text path.description path

def matching (tree : FileTree) (directory : Path) (pattern : List Char) :
    Except LoadFault (List Path) := do
  let glob ← (Glob.parse pattern).mapError .badPattern
  let found ← (glob.expand tree directory).mapError .refused
  (found.filterM tree.isFile).mapError .refused

def templates (manifest : Manifest) (tree : FileTree) : Except LoadFault (List Path) := do
  let found ← manifest.patterns.mapM (matching tree manifest.source)
  pure (Path.sortDistinct found.flatten)

end Manifest

end Specializer
