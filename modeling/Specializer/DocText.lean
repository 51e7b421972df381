import Specializer.Binding
import Specializer.Placeholder

set_option autoImplicit false

namespace Specializer.DocText

def runs (text : List Char) : List (List Char) :=
  text.splitBy fun a b => isIdentPart a == isIdentPart b

def plural? (word : List Char) : Option Slot :=
  Slot.all.find? fun slot => (slot.name ++ "s").toList == word

/-- A word with several placeholders takes the values given, in order; without values, or with too
few of them, and for a single placeholder, each takes the value of its slot. A bare placeholder
stays if its slot is generic. -/
def fillWord (binding : Binding) (values : Option (List SlotType)) (word : List Char) :
    Except Fault (List Char) :=
  match plural? word with
  | some slot => do
    let type ← binding.get slot
    pure type.plural.toList
  | none =>
    match Slot.ofText? word with
    | some slot => do
      let type ← binding.get slot
      pure (if type.isGeneric then word else type.spelling.toList)
    | none =>
      match values with
      | none => substituteBySlot word binding.get
      | some values =>
        if segmentCount word = 1 then substituteBySlot word binding.get
        else
          match substituteInOrder word values with
          | some new => pure new
          | none => substituteBySlot word binding.get

def fillRun (binding : Binding) (values : Option (List SlotType)) (run : List Char) :
    Except Fault (List Char) :=
  if hasPlaceholder run then fillWord binding values run else pure run

def fill (binding : Binding) (values : Option (List SlotType)) (text : List Char) :
    Except Fault (List Char) := do
  let parts ← (runs text).mapM (fillRun binding values)
  pure parts.flatten

end Specializer.DocText
