import Specializer.Grammar.Words
import Specializer.Tree.Basic

set_option autoImplicit false

namespace Specializer.Grammar

/-- The numbers that lexemes go by: that of the lexeme at a position, and the one just past the
lexeme in front of a position. -/
class Numbering where
  index : Nat → Nat
  past : Nat → Nat

structure Cursor where
  position : Nat
  rest : List Lexeme
deriving DecidableEq, Repr

inductive Expected
  | openBrace | semicolon | annotationName | typeName | typeParameter | importedName
  | typeArguments | methodName | endOfMember
deriving DecidableEq, Repr

def Expected.label : Expected → String
  | openBrace => "'\x7b'"
  | semicolon => "';'"
  | annotationName => "annotation name"
  | typeName => "type name"
  | typeParameter => "type parameter"
  | importedName => "imported name"
  | typeArguments => "type arguments"
  | methodName => "method name"
  | endOfMember => "end of member"

inductive Failure
  | expected (what : Expected) (place : Option Nat)
  | unbalanced (place : Nat)
deriving DecidableEq, Repr

/-- What a reader comes to. `stuck` is for a reader that ran out of steps, or that was asked for a
lexeme past the last one. -/
inductive Outcome (α : Type)
  | done (value : α) (next : Cursor)
  | miss (what : Expected) (at_ : Cursor)
  | fail (failure : Failure)
  | stuck

def Cursor.failure [Numbering] (cursor : Cursor) (what : Expected) : Failure :=
  .expected what (if cursor.rest.isEmpty then none else some (Numbering.index cursor.position))

namespace Cursor

def sees (cursor : Cursor) (test : Lexeme → Bool) (ahead : Nat) : Bool :=
  cursor.rest[ahead]?.any test

def seesKind (cursor : Cursor) (kind : Kind) (ahead : Nat) : Bool :=
  cursor.sees (fun lexeme => lexeme.kind == kind) ahead

def seesWord (cursor : Cursor) (word : String) (ahead : Nat) : Bool :=
  cursor.sees (fun lexeme => lexeme.spells word) ahead

def seesDotName (cursor : Cursor) : Bool :=
  cursor.seesKind .dot 0 && cursor.sees Lexeme.isName 1

end Cursor

def Read (α : Type) : Type := Cursor → Outcome α

namespace Read

def yield {α : Type} (value : α) : Read α := fun cursor => .done value cursor

def andThen {α β : Type} (first : Read α) (next : α → Read β) : Read β := fun cursor =>
  match first cursor with
  | .done value cursor => next value cursor
  | .miss what cursor => .miss what cursor
  | .fail failure => .fail failure
  | .stuck => .stuck

instance : Monad Read where
  pure := Read.yield
  bind := Read.andThen

def stuck {α : Type} : Read α := fun _ => .stuck

section

variable [Numbering]

def index : Read Nat := fun cursor => .done (Numbering.index cursor.position) cursor

def past : Read Nat := fun cursor => .done (Numbering.past cursor.position) cursor

def take : Read Name := fun cursor =>
  match cursor.rest with
  | lexeme :: rest =>
    .done ⟨Numbering.index cursor.position, lexeme.text⟩ ⟨cursor.position + 1, rest⟩
  | [] => .stuck

def fail {α : Type} (what : Expected) : Read α := fun cursor => .fail (cursor.failure what)

def unbalanced {α : Type} (place : Nat) : Read α := fun _ => .fail (.unbalanced place)

def miss {α : Type} (what : Expected) : Read α := fun cursor => .miss what cursor

def strict {α : Type} (read : Read α) : Read α := fun cursor =>
  match read cursor with
  | .miss what missed => .fail (missed.failure what)
  | outcome => outcome

def optional {α : Type} (read : Read α) : Read (Option α) := fun cursor =>
  match read cursor with
  | .done value next => .done (some value) next
  | .miss _ _ => .done none cursor
  | .fail failure => .fail failure
  | .stuck => .stuck

/-- A miss anywhere inside is a miss of the whole, where it started. -/
def whole {α : Type} (what : Expected) (read : Read α) : Read α := fun cursor =>
  match read cursor with
  | .miss _ _ => .miss what cursor
  | outcome => outcome

/-- A miss anywhere inside is a miss of the part named, where it happened. -/
def part {α : Type} (what : Expected) (read : Read α) : Read α := fun cursor =>
  match read cursor with
  | .miss _ missed => .miss what missed
  | outcome => outcome

def inspect {α : Type} (read : Lexeme → Read α) : Read α := fun cursor =>
  match cursor.rest with
  | lexeme :: _ => read lexeme cursor
  | [] => .stuck

def ignore {α : Type} (read : Read α) : Read Unit := do
  let _ ← read
  pure ()

def branch {α : Type} (test : Cursor → Bool) (yes no : Read α) : Read α := fun cursor =>
  if test cursor then yes cursor else no cursor

def takeKind (kind : Kind) (what : Expected) : Read Name :=
  branch (·.seesKind kind 0) take (fail what)

def takeName (what : Expected) : Read Name := branch (·.sees Lexeme.isName 0) take (fail what)

end

end Read

end Specializer.Grammar
