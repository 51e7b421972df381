import Specializer.Text.CharClass
import Specializer.Fault

set_option autoImplicit false

namespace Specializer.Lexer

def throughCommentEnd : List Char → Option Nat
  | '*' :: '/' :: _ => some 2
  | _ :: rest => (throughCommentEnd rest).map (· + 1)
  | [] => none

/-- Characters through the first three quotation marks that do not follow a backslash. -/
def throughTripleQuote : Char → List Char → Option Nat
  | previous, c :: rest =>
    if previous != '\\' && c == '\x22' && rest.take 2 == ['\x22', '\x22'] then some 3
    else (throughTripleQuote c rest).map (· + 1)
  | _, [] => none

def throughQuote (quote : Char) : List Char → Option Nat
  | '\\' :: c :: rest => if c == '\n' then none else (throughQuote quote rest).map (· + 2)
  | c :: rest =>
    if c == quote then some 1
    else if c == '\\' || c == '\r' || c == '\n' then none
    else (throughQuote quote rest).map (· + 1)
  | [] => none

def runLength (p : Char → Bool) (text : List Char) : Nat := (text.takeWhile p).length

def isDigitOrUnderscore (c : Char) : Bool := isDecimal c || c == '_'

def isHexDigit (c : Char) : Bool :=
  c.isDigit || ('a' ≤ c && c ≤ 'f') || ('A' ≤ c && c ≤ 'F') || c == '_'

def isBinaryDigit (c : Char) : Bool := c == '0' || c == '1' || c == '_'

def exponentLength : List Char → Nat
  | e :: rest =>
    if e == 'e' || e == 'E' then
      let sign := match rest with
        | c :: _ => if c == '+' || c == '-' then 1 else 0
        | [] => 0
      let digits := runLength isDecimal (rest.drop sign)
      if digits = 0 then 0 else 1 + sign + digits
    else 0
  | [] => 0

def fractionLength : List Char → Nat
  | '.' :: rest => 1 + runLength isDigitOrUnderscore rest
  | _ => 0

def suffixLength : List Char → Nat
  | c :: _ => if ['l', 'L', 'f', 'F', 'd', 'D'].contains c then 1 else 0
  | [] => 0

def radixLength (c : Char) (rest : List Char) (lower upper : Char) (isDigit : Char → Bool) :
    Option Nat :=
  match rest with
  | mark :: digits =>
    let count := runLength isDigit digits
    if c == '0' && (mark == lower || mark == upper) && count != 0 then some (1 + count) else none
  | [] => none

def numeralLength (c : Char) (rest : List Char) : Option Nat :=
  (radixLength c rest 'x' 'X' isHexDigit).or <|
  (radixLength c rest 'b' 'B' isBinaryDigit).or <|
  if isDecimal c then
    let whole := runLength isDigitOrUnderscore rest
    let fraction := fractionLength (rest.drop whole)
    some (whole + fraction + exponentLength (rest.drop (whole + fraction)))
  else if c == '.' && rest.head?.any isDecimal then
    let fraction := runLength isDigitOrUnderscore rest
    some (fraction + exponentLength (rest.drop fraction))
  else none

def numberLength (c : Char) (rest : List Char) : Option Nat :=
  (numeralLength c rest).map fun length => length + suffixLength (rest.drop length)

def isSourceBlank (c : Char) : Bool :=
  c == ' ' || c == '\t' || c == '\x0c' || c == '\r' || c == '\n'

def comment? : List Char → Option (Kind × Nat)
  | '*' :: '*' :: '/' :: _ => some (.blockComment, 3)
  | '*' :: '*' :: rest => (throughCommentEnd rest).map fun length => (.docComment, length + 2)
  | '*' :: rest => (throughCommentEnd rest).map fun length => (.blockComment, length + 1)
  | '/' :: rest => some (.lineComment, 1 + runLength (· != '\n') rest)
  | _ => none

def quotedLiteral? (rest : List Char) : Option (Kind × Nat) :=
  let block := if rest.take 2 == ['\x22', '\x22'] then
    (throughTripleQuote '\x22' (rest.drop 2)).map fun length => (Kind.textBlock, length + 2)
  else none
  block.or ((throughQuote '\x22' rest).map fun length => (.string, length))

def punctuation? (c : Char) : Option Kind :=
  match c with
  | '<' => some .lt
  | '>' => some .gt
  | '(' => some .lpar
  | ')' => some .rpar
  | '{' => some .lbrace
  | '}' => some .rbrace
  | '[' => some .lsqb
  | ']' => some .rsqb
  | ',' => some .comma
  | ';' => some .semi
  | '.' => some .dot
  | '?' => some .qmark
  | '@' => some .atSign
  | '&' => some .amp
  | '-' | '+' | '*' | '/' | '%' | '=' | '!' | '|' | '^' | '~' | ':' => some .op
  | _ => none

-- The classes are tried in this order, and the first that fits wins.
def classify (c : Char) (rest : List Char) : Option (Kind × Nat) :=
  (if c == '/' then comment? rest else none).or <|
  (if c == '\x22' then quotedLiteral? rest else none).or <|
  (if c == '\x27' then (throughQuote '\x27' rest).map fun length => (.charLit, length) else none).or <|
  ((numberLength c rest).map fun length => (.number, length)).or <|
  if c == '.' && rest.take 2 == ['.', '.'] then some (.ellipsis, 2)
  else if c == ':' && rest.take 1 == [':'] then some (.dcolon, 1)
  else if isSourceBlank c then some (.blank, runLength isSourceBlank rest)
  else if isIdentStart c then some (.ident, runLength isIdentPart rest)
  else (punctuation? c).map fun kind => (kind, 0)

/-- Tokens of the text from a position on; the first `skip` characters belong to the token before. -/
def scan : (skip : Nat) → Position → List Char → Except Fault (List Token)
  | _, _, [] => .ok []
  | skip + 1, here, _ :: rest => scan skip here rest
  | 0, here, c :: rest =>
    match classify c rest with
    | none => .error (.unexpectedChar c (Span.between here (here.step ' ')))
    | some (kind, length) =>
      let text := c :: rest.take length
      (scan length (here.advance text) rest).map fun tokens => ⟨⟨kind, text⟩, here⟩ :: tokens

/-- The first slash that a star follows at once: a comment that opens there never closes. -/
def openComment? : List Token → Option Token
  | first :: second :: rest =>
    if first.kind == .op && first.text == ['/'] && second.kind == .op && second.text == ['*'] then
      some first
    else openComment? (second :: rest)
  | _ => none

end Lexer

def tokenize (source : List Char) : Except Fault (List Token) := do
  let tokens ← Lexer.scan 0 Position.first source
  match Lexer.openComment? tokens with
  | some slash => throw (.unterminatedComment slash.span)
  | none => pure tokens

end Specializer
