import Specializer.Fault

set_option autoImplicit false

namespace Specializer

-- What was noticed before a failure is kept.
structure Traced (α : Type) where
  notices : List Notice
  result : Except Fault α

namespace Traced

def done {α : Type} (value : α) : Traced α := ⟨[], .ok value⟩

def fail {α : Type} (fault : Fault) : Traced α := ⟨[], .error fault⟩

def notice (notice : Notice) : Traced Unit := ⟨[notice], .ok ()⟩

def andThen {α β : Type} (first : Traced α) (next : α → Traced β) : Traced β :=
  match first.result with
  | .error fault => ⟨first.notices, .error fault⟩
  | .ok value => ⟨first.notices ++ (next value).notices, (next value).result⟩

instance : Monad Traced where
  pure := done
  bind := andThen

def lift {α : Type} (result : Except Fault α) : Traced α := ⟨[], result⟩

@[simp] theorem notices_done {α : Type} (value : α) : (done value).notices = [] := rfl

@[simp] theorem result_done {α : Type} (value : α) : (done value).result = .ok value := rfl

end Traced

end Specializer
