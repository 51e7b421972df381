import Specializer.Toml.Reader

set_option autoImplicit false

namespace Specializer.Toml

open Reader

def hexValue? (c : Char) : Option Nat :=
  if c.isDigit then some (c.toNat - '0'.toNat)
  else if 'a' ≤ c && c ≤ 'f' then some (c.toNat - 'a'.toNat + 10)
  else if 'A' ≤ c && c ≤ 'F' then some (c.toNat - 'A'.toNat + 10)
  else none

def hexChar (count : Nat) : Reader (List Char) := do
  let text ← get
  match (text.take count).mapM hexValue? with
  | none => fail .badHex
  | some digits =>
    if digits.length < count then fail .badHex
    let n := digits.foldl (fun n digit => 16 * n + digit) 0
    skip count
    if n.isValidChar then pure [Char.ofNat n] else fail .badCodePoint

def simpleEscape? : Char → Option Char
  | 'b' => some '\x08'
  | 't' => some '\t'
  | 'n' => some '\n'
  | 'f' => some '\x0c'
  | 'r' => some '\r'
  | '\x22' => some '\x22'
  | '\\' => some '\\'
  | _ => none

def escape (multiline : Bool) : Reader (List Char) := do
  let next ← peek
  skip 1
  match next with
  | none => fail .strayBackslash
  | some c =>
    if multiline && isGap c then
      if c != '\n' then
        skipWhile isBlank
        match ← peek with
        | none => pure ()
        | some '\n' => skip 1
        | some _ => fail .strayBackslash
      skipWhile isGap
      pure []
    else if c = 'u' then hexChar 4
    else if c = 'U' then hexChar 8
    else
      match simpleEscape? c with
      | some meant => pure [meant]
      | none => fail .strayBackslash

def basicWithin (multiline : Bool) : Nat → Reader (List Char)
  | 0 => fail .openText
  | steps + 1 => do
    match ← peek with
    | none => fail .openText
    | some '\x22' =>
      if multiline then
        if ← accept ['\x22', '\x22', '\x22'] then pure []
        else
          skip 1
          let more ← basicWithin multiline steps
          pure ('\x22' :: more)
      else
        skip 1
        pure []
    | some '\\' =>
      skip 1
      let chars ← escape multiline
      let more ← basicWithin multiline steps
      pure (chars ++ more)
    | some c =>
      if if multiline then isControlInLines c else isControl c then fail (.illegal c)
      else
        skip 1
        let more ← basicWithin multiline steps
        pure (c :: more)

def basicRest (multiline : Bool) : Reader (List Char) := do
  basicWithin multiline ((← get).length + 1)

def literalRest : Reader (List Char) := do
  let text ← takeUntil [apostrophe] true isControl
  skip 1
  pure text

/-- Up to two more quotes after the three that end a text belong to the text. -/
def closingQuotes (quote : Char) : Reader (List Char) := do
  if ← accept [quote] then
    if ← accept [quote] then pure [quote, quote] else pure [quote]
  else pure []

def linesRest (quote : Char) : Reader (List Char) := do
  let _ ← accept ['\n']
  let text ←
    if quote = apostrophe then do
      let text ← takeUntil [quote, quote, quote] true isControlInLines
      skip 3
      pure text
    else basicRest true
  let more ← closingQuotes quote
  pure (text ++ more)

def quotedText (quote : Char) : Reader (List Char) := do
  if ← accept [quote, quote, quote] then linesRest quote
  else
    skip 1
    if quote = apostrophe then literalRest else basicRest false

def isBare (c : Char) : Bool := c.isAlphanum || c == '-' || c == '_'

def isKeyStart (c : Char) : Bool := isBare c || c == quotationMark || c == apostrophe

def keyPart : Reader (List Char) := do
  match ← peek with
  | none => fail .badKey
  | some c =>
    if isBare c then takeWhile isBare
    else if c = apostrophe then do skip 1; literalRest
    else if c = quotationMark then do skip 1; basicRest false
    else fail .badKey

def keyWithin : Nat → Reader Key
  | 0 => fail .badKey
  | parts + 1 => do
    let part ← keyPart
    skipWhile isBlank
    if ← accept ['.'] then
      skipWhile isBlank
      let more ← keyWithin parts
      pure (part :: more)
    else pure [part]

def key : Reader Key := do keyWithin ((← get).length + 1)

end Specializer.Toml
