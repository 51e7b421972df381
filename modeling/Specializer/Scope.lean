import Specializer.Binding

set_option autoImplicit false

namespace Specializer

structure Scope (α : Type) where
  order : List α
deriving DecidableEq, Repr

namespace Scope

/-- The scope inside a declaration: what it declares comes first, then what else was in scope, in
the order of all there is. A declaration that declares nothing changes nothing. -/
def nested {α : Type} [BEq α] (scope : Scope α) (all declared : List α) : Scope α :=
  if declared.isEmpty then scope
  else ⟨declared ++ all.filter fun a => scope.order.contains a && !declared.contains a⟩

def map {α β : Type} (f : α → β) (scope : Scope α) : Scope β := ⟨scope.order.map f⟩

def outermost (binding : Binding) : Scope Slot :=
  ⟨if binding.value.isSome then [.key, .value] else [.key]⟩

def values (scope : Scope Slot) (binding : Binding) : Except Fault (List SlotType) :=
  scope.order.mapM binding.get

end Scope

end Specializer
