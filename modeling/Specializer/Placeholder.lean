import Specializer.Slot
import Specializer.SlotType
import Specializer.Text.Quoted

set_option autoImplicit false

namespace Specializer

inductive Piece
  | char (c : Char)
  | slot (s : Slot)
deriving DecidableEq, Repr

def pieces : List Char → List Piece
  | 'K' :: 'T' :: 'y' :: 'p' :: 'e' :: rest => .slot .key :: pieces rest
  | 'V' :: 'T' :: 'y' :: 'p' :: 'e' :: rest => .slot .value :: pieces rest
  | c :: rest => .char c :: pieces rest
  | [] => []

def segments (text : List Char) : List Slot :=
  (pieces text).filterMap fun
    | .slot s => some s
    | .char _ => none

def segmentCount (text : List Char) : Nat := (segments text).length

def hasPlaceholder (text : List Char) : Bool := !(segments text).isEmpty

def isPlaceholder (text : List Char) : Bool := (Slot.ofText? text).isSome

def fillInOrder : List Piece → List SlotType → Option (List Char)
  | [], _ => some []
  | .char c :: rest, values => (fillInOrder rest values).map (c :: ·)
  | .slot _ :: _, [] => none
  | .slot _ :: rest, value :: values =>
    (fillInOrder rest values).map (value.capitalized.toList ++ ·)

/-- Puts the first value for the first segment, the second for the second, and so on, whichever
slots the segments spell; `none` if there are fewer values than segments. -/
def substituteInOrder (text : List Char) (values : List SlotType) : Option (List Char) :=
  fillInOrder (pieces text) values

def shortage (text : List Char) : String :=
  "not enough values for " ++ String.ofList (quoted text)

def fillBySlot {ε : Type} (value : Slot → Except ε SlotType) :
    List Piece → Except ε (List Char)
  | [] => .ok []
  | .char c :: rest => (fillBySlot value rest).map (c :: ·)
  | .slot s :: rest => do
    let type ← value s
    let tail ← fillBySlot value rest
    pure (type.capitalized.toList ++ tail)

def substituteBySlot {ε : Type} (text : List Char) (value : Slot → Except ε SlotType) :
    Except ε (List Char) :=
  fillBySlot value (pieces text)

end Specializer
