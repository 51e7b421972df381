set_option autoImplicit false

namespace Specializer

def isLineBreak (c : Char) : Bool :=
  let n := c.toNat
  (10 ≤ n && n ≤ 13) || (28 ≤ n && n ≤ 30) || n == 0x85 || n == 0x2028 || n == 0x2029

private def linesFrom : List Char → List Char → List (List Char)
  | current, [] => if current.isEmpty then [] else [current.reverse]
  | current, '\r' :: '\n' :: rest => current.reverse :: linesFrom [] rest
  | current, c :: rest =>
    if isLineBreak c then current.reverse :: linesFrom [] rest else linesFrom (c :: current) rest

/-- The lines without their ends; a break at the very end opens no further line. -/
def lines (text : List Char) : List (List Char) := linesFrom [] text

def Unbroken (text : List Char) : Prop := ∀ c ∈ text, isLineBreak c = false

instance (text : List Char) : Decidable (Unbroken text) :=
  List.decidableBAll (fun c => isLineBreak c = false) text

section

variable {line : List Char}

private theorem linesFrom_unbroken (unbroken : Unbroken line) (current rest : List Char) :
    linesFrom current (line ++ rest) = linesFrom (line.reverse ++ current) rest := by
  induction line generalizing current with
  | nil => rfl
  | cons c line ih =>
    have inside : isLineBreak c = false := unbroken c List.mem_cons_self
    have apart : ∀ more, c = '\r' → line ++ rest = '\n' :: more → False := by
      rintro more rfl
      exact absurd inside (by decide)
    rw [List.cons_append, linesFrom.eq_3 current c _ apart, inside,
      if_neg Bool.false_ne_true, ih fun d member => unbroken d (List.mem_cons_of_mem _ member)]
    simp

theorem lines_unbroken (unbroken : Unbroken line) (present : line ≠ []) : lines line = [line] := by
  have whole := linesFrom_unbroken unbroken [] []
  rw [List.append_nil, List.append_nil, linesFrom] at whole
  rw [lines, whole, if_neg (by simpa using present), List.reverse_reverse]

theorem lines_break (unbroken : Unbroken line) {c : Char} (ends : isLineBreak c = true)
    {rest : List Char} (alone : c = '\r' → rest.head? ≠ some '\n') :
    lines (line ++ c :: rest) = line :: lines rest := by
  have apart : ∀ more, c = '\r' → rest = '\n' :: more → False := by
    rintro more same rfl
    exact alone same rfl
  rw [lines, linesFrom_unbroken unbroken, linesFrom.eq_3 _ c rest apart, ends, if_pos rfl]
  simp [lines]

theorem lines_pair (unbroken : Unbroken line) (rest : List Char) :
    lines (line ++ '\r' :: '\n' :: rest) = line :: lines rest := by
  rw [lines, linesFrom_unbroken unbroken, linesFrom]
  simp [lines]

end

end Specializer
