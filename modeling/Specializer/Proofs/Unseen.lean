import Specializer.Proofs.Heads
import Specializer.Proofs.Nesting

set_option autoImplicit false

namespace Specializer

/-- The place lies in a stretch of the shape. -/
def LiesIn (shape : List Lexeme → Prop) (lexemes : List Lexeme) (place : Nat) : Prop :=
  ∃ before stretch after, lexemes = before ++ (stretch ++ after) ∧ shape stretch ∧
    before.length ≤ place ∧ place < before.length + stretch.length

/-- A package statement, from its word through its semicolon. -/
def Statement (text : List Lexeme) : Prop :=
  ∃ word body last, text = word :: (body ++ [last]) ∧ word.spells "package" = true ∧
    (∀ lexeme ∈ body, lexeme.kind ≠ .semi) ∧ last.kind = .semi

inductive Supplied : List Lexeme → Prop
  | none : Supplied []
  | list {opener closer : Lexeme} {inner : List Lexeme} (opens : opener.kind = .lpar)
      (inside : Balanced (fun _ => true) inner) (closes : closer.kind = .rpar) :
      Supplied (opener :: (inner ++ [closer]))

inductive Annotation : List Lexeme → Prop
  | intro {sign name : Lexeme} {quals args : List Lexeme} (signs : sign.kind = .atSign)
      (named : name.isName = true) (qualified : DocScope.Qualified (fun lexeme => lexeme.isName = true) quals)
      (given : Supplied args) : Annotation (sign :: name :: (quals ++ args))

inductive Quiet : List Lexeme → Prop
  | nil : Quiet []
  | plain {lexeme : Lexeme} {rest : List Lexeme} (other : lexeme.spells "instanceof" = false)
      (more : Quiet rest) : Quiet (lexeme :: rest)
  | marked {use rest : List Lexeme} (annotates : Annotation use) (more : Quiet rest) : Quiet (use ++ rest)

namespace LiesIn

variable {shape : List Lexeme → Prop} {lexemes : List Lexeme} {place : Nat}

theorem prepend (within : LiesIn shape lexemes place) (first : List Lexeme) :
    LiesIn shape (first ++ lexemes) (first.length + place) := by
  obtain ⟨before, stretch, after, rfl, holds, low, high⟩ := within
  refine ⟨first ++ before, stretch, after, by rw [List.append_assoc], holds, ?_, ?_⟩ <;>
    rw [List.length_append] <;> omega

theorem append (within : LiesIn shape lexemes place) (last : List Lexeme) :
    LiesIn shape (lexemes ++ last) place := by
  obtain ⟨before, stretch, after, rfl, holds, low, high⟩ := within
  exact ⟨before, stretch, after ++ last, by simp only [List.append_assoc], holds, low, high⟩

theorem exists_mem (within : LiesIn shape lexemes place) {test : Lexeme → Prop}
    (has : ∀ stretch, shape stretch → ∃ lexeme ∈ stretch, test lexeme) : ∃ lexeme ∈ lexemes, test lexeme := by
  obtain ⟨before, stretch, after, rfl, holds, -⟩ := within
  obtain ⟨lexeme, member, passes⟩ := has stretch holds
  exact ⟨lexeme, by simp [member], passes⟩

end LiesIn

theorem Statement.mem {text : List Lexeme} (statement : Statement text) :
    ∃ lexeme ∈ text, lexeme.spells "package" = true := by
  obtain ⟨word, body, last, rfl, spelled, -⟩ := statement
  exact ⟨word, List.mem_cons_self, spelled⟩

theorem Annotation.mem {text : List Lexeme} (annotates : Annotation text) :
    ∃ lexeme ∈ text, lexeme.kind = .atSign := by
  cases annotates with
  | intro signs => exact ⟨_, List.mem_cons_self, signs⟩

theorem Quiet.append {first second : List Lexeme} (quiet : Quiet first) (more : Quiet second) :
    Quiet (first ++ second) := by
  induction quiet with
  | nil => exact more
  | plain other _ ih => exact .plain other ih
  | marked annotates _ ih =>
    rw [List.append_assoc]
    exact .marked annotates ih

-- Where a type is asked for, there is an annotation around the question.
theorem Quiet.within {stretch : List Lexeme} (quiet : Quiet stretch) {index : Nat} {lexeme : Lexeme}
    (found : stretch[index]? = some lexeme) (spelled : lexeme.spells "instanceof" = true) :
    LiesIn Annotation stretch index := by
  induction quiet generalizing index with
  | nil => cases found
  | @plain first rest other _ ih =>
    cases index with
    | zero =>
      cases found
      rw [spelled] at other
      cases other
    | succ index =>
      rw [Nat.add_comm]
      exact (ih found).prepend [first]
  | @marked use rest annotates _ ih =>
    rcases Nat.lt_or_ge index use.length with inside | behind
    next => exact ⟨[], use, rest, rfl, annotates, Nat.zero_le _, by simpa using inside⟩
    next =>
      rw [List.getElem?_append_right behind] at found
      have later := (ih found).prepend use
      rwa [Nat.add_sub_cancel' behind] at later

namespace Grammar

open Read

instance : Smooth Quiet where
  nil := .nil
  append := .append
  calm calm := .plain (@not_calm "instanceof" (by decide) (by decide) _ calm).2 .nil
  square opens closes := by
    have other {lexeme : Lexeme} (bracket : lexeme.kind.isBracket = true) := not_spells_of_bracket bracket "instanceof"
    exact .plain (other (by rw [opens]; rfl)) (.plain (other (by rw [closes]; rfl)) .nil)

variable {lexemes : List Lexeme} {shape : List Lexeme → Prop} {cursor next : Cursor} {place : Nat}

theorem Cursor.On.split (on : cursor.On lexemes) : ∃ before, lexemes = before ++ cursor.rest ∧
    before.length = cursor.position := by
  refine ⟨lexemes.take cursor.position, ?_, ?_⟩
  next => rw [on.rest, List.take_append_drop]
  next => rw [List.length_take, Nat.min_eq_left on.bound]

theorem Between.within (between : Between shape cursor next) (on : cursor.On lexemes)
    (low : cursor.position ≤ place) (high : place < next.position) : LiesIn shape lexemes place := by
  obtain ⟨stretch, left, position, holds⟩ := between
  obtain ⟨before, rfl, count⟩ := on.split
  exact ⟨before, stretch, next.rest, by rw [left], holds, by omega, by omega⟩

theorem Between.quiet (between : Between Quiet cursor next) (on : cursor.On lexemes) {word : Lexeme}
    (found : lexemes[place]? = some word) (spelled : word.spells "instanceof" = true)
    (open_ : ¬ LiesIn Annotation lexemes place) (low : cursor.position ≤ place) : next.position ≤ place := by
  obtain ⟨stretch, left, position, holds⟩ := between
  obtain ⟨before, rfl, count⟩ := on.split
  by_contra high
  apply open_
  rw [left, List.getElem?_append_right (by omega), List.getElem?_append_left (by omega)] at found
  have inside := ((holds.within found spelled).append next.rest).prepend before
  rwa [Nat.add_sub_cancel' (by omega), ← left] at inside

theorem States.statement (states : States cursor next) : Between Statement cursor next := by
  obtain ⟨word, body, last, left, position, spelled, free, semicolon⟩ := states
  refine ⟨word :: (body ++ [last]), ?_, ?_, word, body, last, rfl, spelled, free, semicolon⟩
  next => rw [left, List.cons_append, List.append_assoc, List.singleton_append]
  next =>
    rw [position, List.length_cons, List.length_append, List.length_singleton]
    omega

theorem qualifiers_qualified {n : Nat} {value : Unit} (done : qualifiers n cursor = .done value next) :
    Between (DocScope.Qualified fun lexeme => lexeme.isName = true) cursor next := by
  induction n generalizing cursor with
  | zero => simp [qualifiers, stuck_done] at done
  | succ n ih =>
    simp only [qualifiers, branch_done, bind_done, pure_done] at done
    rcases done with ⟨seen, dot, dotted, first, name, named, second, more⟩ | ⟨-, -, rfl⟩
    next =>
      simp only [Cursor.seesDotName, Cursor.seesKind, Bool.and_eq_true] at seen
      rw [← sees_take first] at seen
      obtain ⟨stretch, left, position, qualified⟩ := ih more
      obtain ⟨one, opens, afterDot⟩ := take_done first
      obtain ⟨two, behind, afterName⟩ := take_done second
      rw [sees_here opens, sees_here behind, beq_iff_eq] at seen
      refine ⟨one :: two :: stretch, ?_, ?_, .cons seen.1 seen.2 qualified⟩
      next => rw [opens, behind, left, List.cons_append, List.cons_append]
      next =>
        simp only [List.length_cons]
        omega
    next => exact ⟨[], rfl, rfl, .nil⟩

theorem enclosedIf_supplied {n : Nat} {members : List Member}
    (done : enclosedIf (scan n) .lpar .rpar cursor = .done members next) : Between Supplied cursor next := by
  simp only [enclosedIf, branch_done, enclosed, bind_done, pure_done] at done
  rcases done with ⟨seen, opener, opened, taken, scanned⟩ | ⟨-, -, rfl⟩
  next =>
    obtain ⟨lexeme, left, position⟩ := take_done taken
    obtain ⟨inner, last, behind, later, closes, inside⟩ := (members_bracketed n).closing _ _ _ _ _ _ scanned
    rw [Cursor.seesKind, sees_here left, beq_iff_eq] at seen
    refine ⟨lexeme :: (inner ++ [last]), ?_, ?_, .list seen inside closes⟩
    next => rw [left, behind, List.cons_append, List.append_assoc, List.singleton_append]
    next =>
      rw [later, position, List.length_cons, List.length_append, List.length_singleton]
      omega
  next => exact ⟨[], rfl, rfl, .none⟩

theorem annotationUse_between {n : Nat} {members : List Member} (seen : cursor.seesKind .atSign 0 = true)
    (done : annotationUse n cursor = .done members next) : Between Annotation cursor next := by
  cases n with
  | zero => simp [annotationUse, stuck_done] at done
  | succ n =>
    simp only [annotationUse, takeName, branch_done, fail_done, and_false, or_false, bind_done] at done
    obtain ⟨mark, marked, first, name, named, ⟨isName, second⟩, _, behind, qualifiers, given⟩ := done
    obtain ⟨sign, left, afterSign⟩ := take_done first
    obtain ⟨word, left', afterName⟩ := take_done second
    obtain ⟨quals, left'', afterQuals, qualified⟩ := qualifiers_qualified qualifiers
    obtain ⟨args, left''', afterArgs, supplied⟩ := enclosedIf_supplied given
    rw [Cursor.seesKind, sees_here left, beq_iff_eq] at seen
    rw [sees_here left'] at isName
    refine ⟨sign :: word :: (quals ++ args), ?_, ?_, .intro seen isName qualified supplied⟩
    next => rw [left, left', left'', left''', List.cons_append, List.cons_append, List.append_assoc]
    next =>
      simp only [List.length_cons, List.length_append]
      omega

theorem annotationUse_quiet (n : Nat) :
    Calm Quiet (fun cursor => cursor.seesKind .atSign 0) (annotationUse n).ignore := by
  apply Calm.ignore
  intro cursor members next seen done
  obtain ⟨text, left, position, annotates⟩ := annotationUse_between seen done
  exact ⟨text, left, position, by simpa using Quiet.marked annotates .nil⟩

end Grammar

end Specializer
