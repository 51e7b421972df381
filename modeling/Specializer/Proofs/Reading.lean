import Specializer.Grammar.Types

set_option autoImplicit false

namespace Specializer.Grammar

instance counting : Numbering := ⟨fun position => position, fun position => position⟩

variable {α β : Type}

namespace Read

theorem pure_done (value result : α) (cursor next : Cursor) :
    (pure value : Read α) cursor = .done result next ↔ result = value ∧ next = cursor := by
  change Outcome.done value cursor = Outcome.done result next ↔ _
  simp only [Outcome.done.injEq, eq_comm]

theorem bind_done (first : Read α) (more : α → Read β) (cursor next : Cursor) (result : β) :
    (first >>= more) cursor = .done result next ↔
      ∃ value middle, first cursor = .done value middle ∧ more value middle = .done result next := by
  change first.andThen more cursor = .done result next ↔ _
  rw [andThen]
  cases first cursor with
  | done value middle =>
    constructor
    · intro done
      exact ⟨value, middle, rfl, done⟩
    · rintro ⟨_, _, same, done⟩
      cases same
      exact done
  | miss | fail | stuck => simp

theorem branch_done (test : Cursor → Bool) (yes no : Read α) (cursor next : Cursor) (result : α) :
    branch test yes no cursor = .done result next ↔
      (test cursor = true ∧ yes cursor = .done result next) ∨
        (test cursor = false ∧ no cursor = .done result next) := by
  cases seen : test cursor <;> simp [branch, seen]

theorem ite_done (test : Prop) [Decidable test] (yes no : Read α) (cursor next : Cursor)
    (result : α) :
    (if test then yes else no) cursor = .done result next ↔
      (test ∧ yes cursor = .done result next) ∨ (¬ test ∧ no cursor = .done result next) := by
  by_cases holds : test <;> simp [holds]

theorem stuck_done (cursor next : Cursor) (result : α) :
    (stuck : Read α) cursor = .done result next ↔ False := by
  simp [stuck]

theorem fail_done (what : Expected) (cursor next : Cursor) (result : α) :
    (fail what : Read α) cursor = .done result next ↔ False := by
  simp [fail]

theorem unbalanced_done (place : Nat) (cursor next : Cursor) (result : α) :
    (unbalanced place : Read α) cursor = .done result next ↔ False := by
  simp [unbalanced]

theorem miss_done (what : Expected) (cursor next : Cursor) (result : α) :
    (miss what : Read α) cursor = .done result next ↔ False := by
  simp [miss]

theorem index_done (cursor next : Cursor) (result : Nat) :
    index cursor = .done result next ↔ result = cursor.position ∧ next = cursor := by
  change Outcome.done cursor.position cursor = .done result next ↔ _
  simp only [Outcome.done.injEq, eq_comm]

theorem past_done (cursor next : Cursor) (result : Nat) :
    past cursor = .done result next ↔ result = cursor.position ∧ next = cursor := by
  change Outcome.done cursor.position cursor = .done result next ↔ _
  simp only [Outcome.done.injEq, eq_comm]

theorem strict_done (read : Read α) (cursor next : Cursor) (result : α) :
    strict read cursor = .done result next ↔ read cursor = .done result next := by
  cases outcome : read cursor <;> simp [strict, outcome]

theorem whole_done (what : Expected) (read : Read α) (cursor next : Cursor) (result : α) :
    whole what read cursor = .done result next ↔ read cursor = .done result next := by
  cases outcome : read cursor <;> simp [whole, outcome]

theorem part_done (what : Expected) (read : Read α) (cursor next : Cursor) (result : α) :
    part what read cursor = .done result next ↔ read cursor = .done result next := by
  cases outcome : read cursor <;> simp [part, outcome]

theorem ignore_done (read : Read α) (cursor next : Cursor) (result : Unit) :
    read.ignore cursor = .done result next ↔ ∃ value, read cursor = .done value next := by
  simp only [ignore, bind_done, pure_done]
  constructor
  next =>
    rintro ⟨value, middle, done, -, rfl⟩
    exact ⟨value, done⟩
  next =>
    rintro ⟨value, done⟩
    exact ⟨value, next, done, trivial, rfl⟩

theorem optional_done (read : Read α) (cursor next : Cursor) (result : Option α)
    (done : optional read cursor = .done result next) :
    (∃ value, result = some value ∧ read cursor = .done value next) ∨
      (result = none ∧ next = cursor) := by
  cases outcome : read cursor with
  | done value middle =>
    simp only [optional, outcome, Outcome.done.injEq] at done
    obtain ⟨rfl, rfl⟩ := done
    exact .inl ⟨value, rfl, rfl⟩
  | miss =>
    simp only [optional, outcome, Outcome.done.injEq] at done
    exact .inr ⟨done.1.symm, done.2.symm⟩
  | fail | stuck => simp [optional, outcome] at done

theorem inspect_done (read : Lexeme → Read α) (cursor next : Cursor) (result : α) :
    inspect read cursor = .done result next ↔
      ∃ lexeme rest, cursor.rest = lexeme :: rest ∧ read lexeme cursor = .done result next := by
  cases left : cursor.rest <;> simp [inspect, left]

end Read

structure Cursor.On (lexemes : List Lexeme) (cursor : Cursor) : Prop where
  rest : cursor.rest = lexemes.drop cursor.position
  bound : cursor.position ≤ lexemes.length

namespace Cursor

variable {lexemes : List Lexeme} {cursor : Cursor}

theorem On.begin : Cursor.On lexemes ⟨0, lexemes⟩ := ⟨rfl, Nat.zero_le _⟩

theorem On.lexeme (on : cursor.On lexemes) {lexeme : Lexeme} {rest : List Lexeme}
    (left : cursor.rest = lexeme :: rest) :
    lexemes[cursor.position]? = some lexeme := by
  have first : (lexemes.drop cursor.position)[0]? = some lexeme := by
    rw [← on.rest, left]
    rfl
  simpa using first

theorem On.sees (on : cursor.On lexemes) {test : Lexeme → Bool} {ahead : Nat}
    (seen : cursor.sees test ahead = true) :
    ∃ lexeme, lexemes[cursor.position + ahead]? = some lexeme ∧ test lexeme = true := by
  simpa [Cursor.sees, on.rest, Option.any_eq_true] using seen

theorem On.take (on : cursor.On lexemes) {name : Name} {next : Cursor}
    (taken : Read.take cursor = .done name next) :
    next.On lexemes ∧ name.index = cursor.position ∧ next.position = cursor.position + 1 ∧
      ∃ lexeme, lexemes[cursor.position]? = some lexeme ∧ lexeme.text = name.text := by
  cases left : cursor.rest with
  | nil => simp [Read.take, left] at taken
  | cons lexeme rest =>
    simp only [Read.take, left, Outcome.done.injEq] at taken
    obtain ⟨rfl, rfl⟩ := taken
    have found := on.lexeme left
    have inside : cursor.position < lexemes.length := (List.getElem?_eq_some_iff.mp found).1
    refine ⟨⟨?_, inside⟩, rfl, rfl, lexeme, found, rfl⟩
    have tail : (cursor.rest).tail = (lexemes.drop cursor.position).tail := by rw [on.rest]
    simpa [left] using tail

end Cursor

/-- Whatever the reader is done with, from wherever it stands on the sequence: it comes to stand on
the sequence, and the value and the two places are as the condition says. -/
def Ensures (lexemes : List Lexeme) (read : Read α) (condition : Nat → α → Nat → Prop) : Prop :=
  ∀ cursor value next, cursor.On lexemes → read cursor = .done value next →
    next.On lexemes ∧ condition cursor.position value next.position

def Forward (lexemes : List Lexeme) (read : Read α) : Prop :=
  Ensures lexemes read fun start _ stop => start ≤ stop

namespace Ensures

variable {lexemes : List Lexeme}

theorem stuck (condition : Nat → α → Nat → Prop) :
    Ensures lexemes (Read.stuck : Read α) condition := by
  intro cursor value next _ done
  simp only [Read.stuck_done] at done

theorem ignore {read : Read α} {condition : Nat → α → Nat → Prop}
    (ensures : Ensures lexemes read condition)
    (forward : ∀ start value stop, condition start value stop → start ≤ stop) :
    Forward lexemes read.ignore := by
  intro cursor _ next on done
  obtain ⟨value, done⟩ := (Read.ignore_done _ _ _ _).mp done
  obtain ⟨on, holds⟩ := ensures cursor value next on done
  exact ⟨on, forward _ _ _ holds⟩

end Ensures

structure PassesAnnotations (skip : Read Unit) (test : Cursor → Bool) (read : Nat → Read Unit) : Prop where
  zero : read 0 = Read.stuck
  succ (n : Nat) : read (n + 1) =
    Read.branch (fun cursor => cursor.seesKind .atSign 0 && test cursor) (skip >>= fun _ => read n) (pure ())

theorem typeAnnotations_passes (skip : Read Unit) :
    PassesAnnotations skip (fun cursor => !cursor.seesWord "interface" 1) (typeAnnotations skip) :=
  ⟨rfl, fun _ => rfl⟩

theorem parameterAnnotations_passes (skip : Read Unit) :
    PassesAnnotations skip (fun _ => true) (parameterAnnotations skip) :=
  ⟨rfl, fun _ => by simp only [parameterAnnotations, Bool.and_true]⟩

end Specializer.Grammar
