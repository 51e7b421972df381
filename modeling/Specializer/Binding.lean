import Specializer.Fault

set_option autoImplicit false

namespace Specializer

namespace SlotType

def parse (text : String) : Except Fault SlotType :=
  match ofName? text with
  | some type => .ok type
  | none => .error (.unknownType text)

def distinct (types : List SlotType) : List SlotType := types.eraseDups

def parseAll (names : List String) : Except Fault (List SlotType) := distinct <$> names.mapM parse

end SlotType

structure Binding where
  key : SlotType
  value : Option SlotType
deriving DecidableEq, Repr

namespace Binding

def get? (binding : Binding) : Slot → Option SlotType
  | .key => some binding.key
  | .value => binding.value

def get (binding : Binding) (slot : Slot) : Except Fault SlotType :=
  match binding.get? slot with
  | some type => .ok type
  | none => .error (.missingValue slot)

def check (binding : Binding) (slotCount : Nat) : Except Fault Unit :=
  match binding.value with
  | some value => if slotCount < 2 then .error (.surplusValue value) else .ok ()
  | none => if slotCount < 2 then .ok () else .error (.missingValue .value)

def forSlots (slotCount : Nat) (key : String) (value : Option String) : Except Fault Binding := do
  let key ← SlotType.parse key
  let value ← value.mapM SlotType.parse
  let binding : Binding := ⟨key, value⟩
  binding.check slotCount
  pure binding

def ofNames (key : String) (value : Option String) : Except Fault Binding := do
  let key ← SlotType.parse key
  let value ← value.mapM SlotType.parse
  pure ⟨key, value⟩

def description (binding : Binding) : String :=
  match binding.value with
  | none => "KType=" ++ binding.key.name
  | some value => "KType=" ++ binding.key.name ++ ", VType=" ++ value.name

end Binding

inductive LookupFault
  | noPlaceholder (name : String)
  | unbound (fault : Fault)

def Binding.lookup (binding : Binding) (name : String) : Except LookupFault SlotType :=
  match Slot.ofName? name with
  | none => .error (.noPlaceholder name)
  | some slot => (binding.get slot).mapError .unbound

end Specializer
