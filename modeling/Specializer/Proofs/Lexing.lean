import Specializer.Proofs.Outcomes
import Specializer.Token.Lexer

set_option autoImplicit false

namespace Specializer

namespace Lexer

theorem scan_induction {motive : List Char → List Token → Prop} (nil : motive [] [])
    (cons : ∀ c rest kind length here tokens, classify c rest = some (kind, length) →
      motive (rest.drop length) tokens →
        motive (c :: rest) (⟨⟨kind, c :: rest.take length⟩, here⟩ :: tokens))
    {skip : Nat} {here : Position} {text : List Char} {tokens : List Token}
    (scanned : scan skip here text = .ok tokens) : motive (text.drop skip) tokens := by
  -- The scan walks the characters and skips those of the token it found last.
  induction text generalizing skip here tokens with
  | nil =>
    rw [scan] at scanned
    cases scanned
    rw [List.drop_nil]
    exact nil
  | cons c rest ih =>
    cases skip with
    | succ skip =>
      rw [scan] at scanned
      exact ih scanned
    | zero =>
      rw [scan] at scanned
      split at scanned
      next => cases scanned
      next kind length classified =>
        dsimp only at scanned
        cases later : scan length (here.advance (c :: rest.take length)) rest with
        | error fault =>
          rw [later] at scanned
          cases scanned
        | ok more =>
          rw [later] at scanned
          cases scanned
          exact cons c rest kind length here more classified (ih later)

theorem scan_spell {skip : Nat} {here : Position} {text : List Char} {tokens : List Token}
    (scanned : scan skip here text = .ok tokens) : spell tokens = text.drop skip := by
  refine scan_induction (motive := fun text tokens => spell tokens = text) rfl ?_ scanned
  intro c rest kind length here tokens _ tail
  rw [spell] at tail
  rw [spell, List.flatMap_cons, tail, List.cons_append, List.take_append_drop]

end Lexer

theorem tokenize_scan {source : List Char} {tokens : List Token} (lexed : tokenize source = .ok tokens) :
    Lexer.scan 0 Position.first source = .ok tokens ∧ Lexer.openComment? tokens = none := by
  rw [tokenize, bind_eq_ok] at lexed
  obtain ⟨found, scanned, lexed⟩ := lexed
  split at lexed
  next => cases lexed
  next closed =>
    rw [pure_eq_ok] at lexed
    subst lexed
    exact ⟨scanned, closed⟩

theorem tokenize_spell {source : List Char} {tokens : List Token}
    (lexed : tokenize source = .ok tokens) : spell tokens = source :=
  Lexer.scan_spell (tokenize_scan lexed).1

end Specializer
