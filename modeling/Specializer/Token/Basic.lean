import Specializer.Span

set_option autoImplicit false

namespace Specializer

inductive Kind
  | ident | number | string | textBlock | charLit
  | lt | gt | lpar | rpar | lbrace | rbrace | lsqb | rsqb
  | comma | semi | dot | ellipsis | dcolon | qmark | atSign | amp | op
  | blank | lineComment | blockComment | docComment
deriving DecidableEq, Repr

namespace Kind

def label : Kind → String
  | ident => "IDENT"
  | number => "NUMBER"
  | string => "STRING"
  | textBlock => "TEXT_BLOCK"
  | charLit => "CHAR_LIT"
  | lt => "LT"
  | gt => "GT"
  | lpar => "LPAR"
  | rpar => "RPAR"
  | lbrace => "LBRACE"
  | rbrace => "RBRACE"
  | lsqb => "LSQB"
  | rsqb => "RSQB"
  | comma => "COMMA"
  | semi => "SEMI"
  | dot => "DOT"
  | ellipsis => "ELLIPSIS"
  | dcolon => "DCOLON"
  | qmark => "QMARK"
  | atSign => "AT"
  | amp => "AMP"
  | op => "OP"
  | blank => "WS"
  | lineComment => "LINE_COMMENT"
  | blockComment => "BLOCK_COMMENT"
  | docComment => "DOC_COMMENT"

def isTrivia : Kind → Bool
  | blank | lineComment | blockComment | docComment => true
  | _ => false

end Kind

/-- What a token says, wherever it stands. -/
structure Lexeme where
  kind : Kind
  text : List Char
deriving DecidableEq, Repr

namespace Lexeme

def spells (lexeme : Lexeme) (word : String) : Bool :=
  lexeme.kind == .ident && lexeme.text == word.toList

end Lexeme

structure Token extends Lexeme where
  start : Position
deriving DecidableEq, Repr

namespace Token

def stop (token : Token) : Position := token.start.advance token.text

def span (token : Token) : Span := Span.between token.start token.stop

def isTrivia (token : Token) : Bool := token.kind.isTrivia

end Token

def spell (tokens : List Token) : List Char := tokens.flatMap fun token => token.text

def spanOf (tokens : List Token) (start stop : Nat) : Option Span :=
  if start < stop then do
    let first ← tokens[start]?
    let last ← tokens[stop - 1]?
    pure (first.span.join last.span)
  else none

def indicesFrom (test : Token → Bool) (index : Nat) : List Token → List Nat
  | [] => []
  | token :: rest =>
    if test token then index :: indicesFrom test (index + 1) rest
    else indicesFrom test (index + 1) rest

def indices (test : Token → Bool) (tokens : List Token) : List Nat := indicesFrom test 0 tokens

def significant (tokens : List Token) : List Nat := indices (fun token => !token.isTrivia) tokens

def docComments (tokens : List Token) : List Nat :=
  indices (fun token => token.kind == .docComment) tokens

end Specializer
