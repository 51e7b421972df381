import Specializer.Fault

set_option autoImplicit false

namespace Specializer.Edit

/-- A position in a list, as a bound of a slice: a negative one counts from the end, and one past
the end is the end. -/
def clip (length : Nat) (position : Int) : Nat :=
  if position < 0 then (length + position).toNat else min position.toNat length

def slice {α : Type} (items : List α) (start stop : Int) : List α :=
  (items.take (clip items.length stop)).drop (clip items.length start)

/-- Whether an edit may not follow another: it starts too early, or both insert at one place. -/
def clashes (previous edit : Edit) : Bool :=
  edit.start < previous.stop ||
    (edit.start = previous.stop && previous.stop = edit.stop && edit.stop = previous.start)

def validateAfter (start stop : Int) : Option Edit → List Edit → Except Fault Unit
  | _, [] => .ok ()
  | previous, edit :: rest =>
    if edit.start < start || stop < edit.stop || edit.stop < edit.start then
      .error (.strayEdit edit start stop)
    else
      match previous with
      | some before =>
        if before.clashes edit then .error (.overlap before edit)
        else validateAfter start stop (some edit) rest
      | none => validateAfter start stop (some edit) rest

def validate (start stop : Int) (edits : List Edit) : Except Fault Unit :=
  validateAfter start stop none edits

def renderFrom (texts : List (List Char)) (position stop : Int) : List Edit → List Char
  | [] => (slice texts position stop).flatten
  | edit :: rest =>
    (slice texts position edit.start).flatten ++ edit.text ++
      renderFrom texts edit.stop stop rest

def render (texts : List (List Char)) (edits : List Edit) (start stop : Int) :
    Except Fault (List Char) := do
  validate start stop edits
  pure (renderFrom texts start stop edits)

end Specializer.Edit
