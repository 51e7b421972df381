import Specializer.Grammar.Words

set_option autoImplicit false

namespace Specializer

namespace Kind

/-- Round, square and curly brackets. Angle brackets may be operators and do not count. -/
def isBracket (kind : Kind) : Bool := kind.closer?.isSome || kind.isCloser

def depthAfter (kind : Kind) (depth : Nat) : Nat :=
  if kind.closer?.isSome then depth + 1 else if kind.isCloser then depth - 1 else depth

end Kind

/-- Whether brackets are nested, each closed by one of its kind, where some closing ones are awaited, the
first of them next. -/
def nested : (awaited brackets : List Kind) → Bool
  | awaited, [] => awaited.isEmpty
  | awaited, kind :: rest =>
    match kind.closer? with
    | some closer => nested (closer :: awaited) rest
    | none =>
      match awaited with
      | [] => false
      | closer :: awaited => kind == closer && nested awaited rest

def bracketsOf (lexemes : List Lexeme) : List Kind :=
  (lexemes.map fun lexeme => lexeme.kind).filter Kind.isBracket

/-- The lexemes outside of package statements. A statement opens with its word where no bracket is open,
unless the word is marked as part of something else, and ends with the next semicolon. The first argument
says how many brackets are open, or that a statement is. -/
def outsidePackages : Option Nat → List (Lexeme × Bool) → List Lexeme
  | _, [] => []
  | none, (lexeme, _) :: rest => outsidePackages (if lexeme.kind = .semi then some 0 else none) rest
  | some depth, (lexeme, marked) :: rest =>
    if depth = 0 && lexeme.spells "package" && !marked then outsidePackages none rest
    else lexeme :: outsidePackages (some (lexeme.kind.depthAfter depth)) rest

inductive Balanced : (allowed : Lexeme → Bool) → List Lexeme → Prop
  | nil {allowed : Lexeme → Bool} : Balanced allowed []
  | plain {allowed : Lexeme → Bool} {lexeme : Lexeme} {rest : List Lexeme}
      (other : lexeme.kind.isBracket = false) (fine : allowed lexeme = true)
      (tail : Balanced allowed rest) : Balanced allowed (lexeme :: rest)
  | enclosed {allowed : Lexeme → Bool} {opener closer : Lexeme} {inner rest : List Lexeme}
      (pair : opener.kind.closer? = some closer.kind) (inside : Balanced (fun _ => true) inner)
      (tail : Balanced allowed rest) : Balanced allowed (opener :: (inner ++ closer :: rest))

namespace Balanced

variable {allowed other : Lexeme → Bool} {stretch rest : List Lexeme}

theorem append (first : Balanced allowed stretch) (second : Balanced allowed rest) :
    Balanced allowed (stretch ++ rest) := by
  induction first with
  | nil => exact second
  | plain other fine _ ih => exact .plain other fine (ih second)
  | enclosed pair inside _ _ ih =>
    rw [List.cons_append, List.append_assoc]
    exact .enclosed pair inside (ih second)

theorem mono (balanced : Balanced allowed stretch)
    (wider : ∀ lexeme, allowed lexeme = true → other lexeme = true) : Balanced other stretch := by
  induction balanced with
  | nil => exact .nil
  | plain kind fine _ ih => exact .plain kind (wider _ fine) (ih wider)
  | enclosed pair inside _ _ ih => exact .enclosed pair inside (ih wider)

theorem loosen (balanced : Balanced allowed stretch) : Balanced (fun _ => true) stretch :=
  balanced.mono fun _ _ => rfl

end Balanced

theorem closer_bracket {opener closer : Kind} (pair : opener.closer? = some closer) :
    opener.isBracket = true ∧ closer.isBracket = true ∧ closer.closer? = none ∧
      closer.isCloser = true := by
  cases opener <;> cases pair <;> decide

theorem nested_opener {opener closer : Kind} (pair : opener.closer? = some closer)
    (awaited rest : List Kind) :
    nested awaited (opener :: rest) = nested (closer :: awaited) rest := by
  rw [nested.eq_def]
  simp only [pair]

theorem nested_closer {closer : Kind} (last : closer.closer? = none) (awaited rest : List Kind) :
    nested (closer :: awaited) (closer :: rest) = nested awaited rest := by
  rw [nested.eq_def]
  simp only [last, beq_self_eq_true, Bool.true_and]

theorem Balanced.nested_append {allowed : Lexeme → Bool} {stretch : List Lexeme}
    (balanced : Balanced allowed stretch) (awaited rest : List Kind) :
    nested awaited (bracketsOf stretch ++ rest) = nested awaited rest := by
  induction balanced generalizing awaited rest with
  | nil => rfl
  | plain other _ _ ih => simpa [bracketsOf, other] using ih awaited rest
  | @enclosed allowed opener closer inner behind pair _ _ ihInner ihRest =>
    obtain ⟨opens, closes, last, -⟩ := closer_bracket pair
    have cut : bracketsOf (opener :: (inner ++ closer :: behind)) ++ rest =
        opener.kind :: (bracketsOf inner ++ (closer.kind :: (bracketsOf behind ++ rest))) := by
      simp [bracketsOf, opens, closes]
    rw [cut, nested_opener pair, ihInner, nested_closer last, ihRest]

theorem outsidePackages_kept {depth : Nat} {lexeme : Lexeme} {marked : Bool}
    (held : 0 < depth ∨ lexeme.spells "package" = false ∨ marked = true)
    (rest : List (Lexeme × Bool)) :
    outsidePackages (some depth) ((lexeme, marked) :: rest) =
      lexeme :: outsidePackages (some (lexeme.kind.depthAfter depth)) rest := by
  rw [outsidePackages, if_neg]
  rcases held with deep | other | inside
  next => simp [Nat.pos_iff_ne_zero.mp deep]
  next => simp [other]
  next => simp [inside]

theorem Kind.depthAfter_opener {opener closer : Kind} (pair : opener.closer? = some closer)
    (depth : Nat) : opener.depthAfter depth = depth + 1 ∧ closer.depthAfter (depth + 1) = depth := by
  obtain ⟨-, -, last, closes⟩ := closer_bracket pair
  simp [depthAfter, pair, last, closes]

theorem Kind.depthAfter_plain {kind : Kind} (other : kind.isBracket = false) (depth : Nat) :
    kind.depthAfter depth = depth := by
  simp only [isBracket, Bool.or_eq_false_iff] at other
  simp [depthAfter, other.1, other.2]

theorem not_spells_of_bracket {lexeme : Lexeme} (bracket : lexeme.kind.isBracket = true)
    (word : String) : lexeme.spells word = false := by
  have other : lexeme.kind ≠ .ident := by
    intro ident
    rw [ident] at bracket
    cases bracket
  simp [Lexeme.spells, other]

-- A balanced stretch lies outside of package statements, if the words for one in it are inside of
-- brackets or marked.
theorem Balanced.outside_append {allowed : Lexeme → Bool} {stretch : List Lexeme}
    (balanced : Balanced allowed stretch) {depth : Nat} {marked : List (Lexeme × Bool)}
    (same : marked.map Prod.fst = stretch)
    (held : ∀ item ∈ marked, allowed item.1 = true →
      0 < depth ∨ item.1.spells "package" = false ∨ item.2 = true) (rest : List (Lexeme × Bool)) :
    outsidePackages (some depth) (marked ++ rest) = stretch ++ outsidePackages (some depth) rest := by
  induction balanced generalizing depth marked rest with
  | nil => simp [List.map_eq_nil_iff.mp same]
  | plain other fine _ ih =>
    obtain ⟨⟨lexeme, mark⟩, marks, rfl, rfl, later⟩ := List.map_eq_cons_iff.mp same
    have own := held _ List.mem_cons_self fine
    have others := fun item member => held item (List.mem_cons_of_mem _ member)
    rw [List.cons_append, outsidePackages_kept own, Kind.depthAfter_plain other, ih later others,
      List.cons_append]
  | enclosed pair _ _ ihInner ihRest =>
    obtain ⟨⟨opener, mark⟩, marks, rfl, rfl, later⟩ := List.map_eq_cons_iff.mp same
    obtain ⟨within, behind, rfl, inside, tail⟩ := List.map_eq_append_iff.mp later
    obtain ⟨⟨closer, last⟩, others, rfl, rfl, after⟩ := List.map_eq_cons_iff.mp tail
    obtain ⟨up, down⟩ := Kind.depthAfter_opener pair depth
    have bracket := (closer_bracket pair).1
    -- Inside of a pair nothing opens a statement, whatever it spells.
    have deep : 0 < depth + 1 := Nat.succ_pos depth
    have outer : ∀ item ∈ others, _ := fun item member =>
      held item (List.mem_cons_of_mem _ (List.mem_append_right _ (List.mem_cons_of_mem _ member)))
    rw [List.cons_append, List.append_assoc, List.cons_append,
      outsidePackages_kept (.inr (.inl (not_spells_of_bracket bracket _))), up,
      ihInner inside fun _ _ _ => .inl deep, outsidePackages_kept (.inl deep), down,
      ihRest after outer, List.cons_append, List.append_assoc, List.cons_append]

theorem outsidePackages_statement {word : Lexeme} {body : List (Lexeme × Bool)}
    {last : Lexeme × Bool} (spelled : word.spells "package" = true)
    (open_ : ∀ item ∈ body, item.1.kind ≠ .semi) (semicolon : last.1.kind = .semi)
    (rest : List (Lexeme × Bool)) :
    outsidePackages (some 0) ((word, false) :: (body ++ last :: rest)) =
      outsidePackages (some 0) rest := by
  have inside : outsidePackages none (body ++ last :: rest) = outsidePackages (some 0) rest := by
    induction body with
    | nil => rw [List.nil_append, outsidePackages, if_pos semicolon]
    | cons item body ih =>
      rw [List.cons_append, outsidePackages, if_neg (open_ item List.mem_cons_self)]
      exact ih fun other member => open_ other (List.mem_cons_of_mem _ member)
  rw [outsidePackages, if_pos (by simp [spelled]), inside]

end Specializer
