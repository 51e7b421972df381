import Specializer.Catalog
import Specializer.Edit.Basic
import Specializer.Slot
import Specializer.SlotType
import Specializer.Token.Basic

set_option autoImplicit false

namespace Specializer

structure Issue where
  code : Code
  args : Arguments
  span : Option Span

inductive Fault
  | unexpectedChar (char : Char) (span : Span)
  | unterminatedComment (span : Span)
  | unexpectedToken (expected : String) (found : Option (List Char)) (span : Option Span)
  | unbalanced (bracket : List Char) (span : Option Span)
  | surplusSegments (name : List Char) (count slots : Nat) (span : Option Span)
  | placeholderArguments (name : List Char) (span : Option Span)
  | missingValue (slot : Slot)
  | surplusValue (value : SlotType)
  | unknownType (name : String)
  | overlap (first second : Edit)
  | strayEdit (edit : Edit) (start stop : Int)
  | unreadable (path reason : String)
  | badManifest (path reason : String)
  | unwritable (path reason : String)
  | collision (path options other : String)
deriving DecidableEq, Repr

namespace Fault

def code : Fault → Code
  | unexpectedChar .. => .unexpectedCharacter
  | unterminatedComment .. => .unterminatedComment
  | unexpectedToken .. => .unexpectedToken
  | unbalanced .. => .unbalancedBracket
  | surplusSegments .. => .surplusSegments
  | placeholderArguments .. => .placeholderArguments
  | missingValue .. => .missingValue
  | surplusValue .. => .surplusValue
  | unknownType .. => .unknownType
  | overlap .. => .overlappingEdits
  | strayEdit .. => .strayEdit
  | unreadable .. => .unreadableTemplate
  | badManifest .. => .badManifest
  | unwritable .. => .unwritableOutput
  | collision .. => .outputCollision

def span : Fault → Option Span
  | unexpectedChar _ span | unterminatedComment span => some span
  | unexpectedToken _ _ span | unbalanced _ span | surplusSegments _ _ _ span
  | placeholderArguments _ span => span
  | _ => none

def foundText : Option (List Char) → String
  | some text => String.ofList (quoted text)
  | none => "end of input"

def args : Fault → Arguments
  | unexpectedChar char _ => [("char", .text (String.ofList [char]))]
  | unterminatedComment _ => []
  | unexpectedToken expected found _ =>
    [("expected", .text expected), ("found", .text (foundText found))]
  | unbalanced bracket _ => [("bracket", .text (String.ofList bracket))]
  | surplusSegments name count slots _ =>
    [("name", .text (String.ofList name)), ("count", .number count), ("slots", .number slots)]
  | placeholderArguments name _ => [("name", .text (String.ofList name))]
  | missingValue slot => [("placeholder", .text slot.name)]
  | surplusValue value => [("vtype", .text value.name)]
  | unknownType name =>
    [("name", .text name),
     ("choices", .text (String.intercalate ", " (SlotType.all.map SlotType.name)))]
  | overlap first second =>
    [("first", .text first.description), ("second", .text second.description)]
  | strayEdit edit start stop =>
    [("op", .text edit.description), ("start", .number start), ("end", .number stop)]
  | unreadable path reason | badManifest path reason | unwritable path reason =>
    [("path", .text path), ("reason", .text reason)]
  | collision path options other =>
    [("path", .text path), ("options", .text options), ("other", .text other)]

def issue (fault : Fault) : Issue := ⟨fault.code, fault.args, fault.span⟩

end Fault

inductive Notice
  | foreignArguments (name erased : List Char) (span : Option Span)
  | primitiveArgument (slot : Slot) (value : SlotType) (owner : List Char) (span : Option Span)
deriving DecidableEq, Repr

def Notice.issue : Notice → Issue
  | .foreignArguments name erased span =>
    ⟨.foreignArguments,
     [("name", .text (String.ofList name)), ("erased", .text (String.ofList erased))], span⟩
  | .primitiveArgument slot value owner span =>
    ⟨.primitiveArgument,
     [("placeholder", .text slot.name), ("type", .text value.name),
      ("name", .text (String.ofList owner))], span⟩

def located (message : String) : Option Span → String
  | some span =>
    message ++ " (line " ++ toString span.line ++ ", column " ++ toString span.col ++ ")"
  | none => message

inductive Family
  | any | template | unsupported | binding | edit | manifest | reading
deriving DecidableEq, Repr

namespace Family

/-- The label under which a fault of the family is filed unless it says otherwise. The catalog has
none for faults in general. -/
def label : Family → String
  | any => "TE0000"
  | template => Code.unexpectedToken.label
  | unsupported => Code.missingRule.label
  | binding => Code.missingValue.label
  | edit => Code.overlappingEdits.label
  | manifest => Code.badManifest.label
  | reading => Code.unreadableTemplate.label

def issue (family : Family) (label : String) (args : Arguments) (span : Option Span) :
    Except CatalogFault (Issue × String) := do
  let code ← Code.find (if label.isEmpty then family.label else label)
  let message ← code.message args
  pure (⟨code, args, span⟩, located message span)

end Family

def Fault.message (fault : Fault) : String := located (fault.code.fill fault.args) fault.span

end Specializer
