import Specializer.Fault
import Specializer.Grammar.Members
import Specializer.Token.Lexer

set_option autoImplicit false

namespace Specializer

def significantLexemes (tokens : List Token) : List Lexeme :=
  (tokens.filter fun token => !token.isTrivia).map fun token => token.toLexeme

namespace Grammar

/-- Lexemes go by their places; just past one is the place behind its own. -/
abbrev Numbering.ofPlaces (place : Nat → Nat) : Numbering :=
  ⟨place, fun position => place (position - 1) + 1⟩

abbrev Numbering.ofTokens (tokens : List Token) : Numbering :=
  let places := (significant tokens).toArray
  .ofPlaces fun position => places.getD position tokens.length

def Failure.fault (tokens : List Token) : Failure → Fault
  | .expected what (some index) =>
    let token := tokens[index]?
    .unexpectedToken what.label (token.map (·.text)) (token.map (·.span))
  | .expected what none =>
    .unexpectedToken what.label none (tokens.getLast?.map (·.span))
  | .unbalanced index =>
    let token := tokens[index]?
    .unbalanced ((token.map (·.text)).getD []) (token.map (·.span))

def conclude [Numbering] (outcome : Outcome (List Member)) : Except Failure (List Member) :=
  match outcome with
  | .done members _ => .ok members
  | .miss what missed => .error (missed.failure what)
  | .fail failure => .error failure
  | .stuck => .error (.expected .endOfMember none)

def membersOf (tokens : List Token) : Outcome (List Member) :=
  @members (.ofTokens tokens) (significantLexemes tokens)

end Grammar

def parseTokens (tokens : List Token) : Except Fault Tree :=
  match @Grammar.conclude (.ofTokens tokens) (Grammar.membersOf tokens) with
  | .error failure => .error (failure.fault tokens)
  | .ok members => .ok ⟨tokens.length, members, docComments tokens⟩

def parse (source : List Char) : Except Fault (List Token × Tree) := do
  let tokens ← tokenize source
  let tree ← parseTokens tokens
  pure (tokens, tree)

end Specializer
