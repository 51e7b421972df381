set_option autoImplicit false

namespace Specializer

-- Lines and columns count from one, in characters; only a line feed starts a new line.
structure Position where
  offset : Nat
  line : Nat
  col : Nat
deriving DecidableEq, Repr

namespace Position

def first : Position := ⟨0, 1, 1⟩

def step (p : Position) (c : Char) : Position :=
  if c = '\n' then ⟨p.offset + 1, p.line + 1, 1⟩ else ⟨p.offset + 1, p.line, p.col + 1⟩

def advance (p : Position) (text : List Char) : Position := text.foldl step p

@[simp] theorem advance_nil (p : Position) : p.advance [] = p := rfl

@[simp] theorem advance_cons (p : Position) (c : Char) (text : List Char) :
    p.advance (c :: text) = (p.step c).advance text := rfl

theorem advance_append (p : Position) (a b : List Char) :
    p.advance (a ++ b) = (p.advance a).advance b := by
  simp [advance]

end Position

structure Span where
  line : Int
  col : Int
  endLine : Int
  endCol : Int
deriving DecidableEq, Repr

namespace Span

def between (start stop : Position) : Span := ⟨start.line, start.col, stop.line, stop.col⟩

def join (first last : Span) : Span := ⟨first.line, first.col, last.endLine, last.endCol⟩

end Span

end Specializer
