import Specializer.Text.Quoted

set_option autoImplicit false

namespace Specializer.Toml

abbrev Key := List (List Char)

inductive Reason
  | badStatement
  | badLineEnd
  | declaredTwice (key : Key)
  | overwritten
  | openHeader
  | openListHeader
  | frozen (key : Key)
  | redefined (key : Key)
  | noEquals
  | badKey
  | openList
  | repeatedKey (name : List Char)
  | openTable
  | strayBackslash
  | badHex
  | badCodePoint
  | openText
  | illegal (char : Char)
  | invalid (char : Char)
  | unclosed (mark : List Char)
  | badMoment
  | badValue
  | tooManyDigits
deriving DecidableEq, Repr

private def keyText (key : Key) : String :=
  let names := String.intercalate ", " (key.map fun name => String.ofList (quoted name))
  "(" ++ names ++ (if key.length = 1 then "," else "") ++ ")"

private def charText (char : Char) : String := String.ofList (quoted [char])

def Reason.message : Reason → String
  | badStatement => "Invalid statement"
  | badLineEnd => "Expected newline or end of document after a statement"
  | declaredTwice key => "Cannot declare " ++ keyText key ++ " twice"
  | overwritten => "Cannot overwrite a value"
  | openHeader => "Expected ']' at the end of a table declaration"
  | openListHeader => "Expected ']]' at the end of an array declaration"
  | frozen key => "Cannot mutate immutable namespace " ++ keyText key
  | redefined key => "Cannot redefine namespace " ++ keyText key
  | noEquals => "Expected '=' after a key in a key/value pair"
  | badKey => "Invalid initial character for a key part"
  | openList => "Unclosed array"
  | repeatedKey name => "Duplicate inline table key " ++ String.ofList (quoted name)
  | openTable => "Unclosed inline table"
  | strayBackslash => "Unescaped '\\' in a string"
  | badHex => "Invalid hex value"
  | badCodePoint => "Escaped character is not a Unicode scalar value"
  | openText => "Unterminated string"
  | illegal char => "Illegal character " ++ charText char
  | invalid char => "Found invalid character " ++ charText char
  | unclosed mark => "Expected " ++ String.ofList (quoted mark)
  | badMoment => "Invalid date or datetime"
  | badValue => "Invalid value"
  | tooManyDigits => "Exceeds the limit for the number of digits"

structure Trouble where
  reason : Reason
  left : Nat
deriving DecidableEq, Repr

abbrev Reader := StateT (List Char) (Except Trouble)

namespace Reader

def fail {α : Type} (reason : Reason) : Reader α := fun text => .error ⟨reason, text.length⟩

def peek : Reader (Option Char) := fun text => .ok (text.head?, text)

def skip (count : Nat) : Reader Unit := fun text => .ok ((), text.drop count)

def skipWhile (test : Char → Bool) : Reader Unit := fun text => .ok ((), text.dropWhile test)

def takeWhile (test : Char → Bool) : Reader (List Char) :=
  fun text => .ok (text.takeWhile test, text.dropWhile test)

def accept (mark : List Char) : Reader Bool := fun text =>
  if mark.isPrefixOf text then .ok (true, text.drop mark.length) else .ok (false, text)

def tryRead {α : Type} (find : List Char → Option (α × List Char)) : Reader (Option α) :=
  fun text =>
    match find text with
    | some (value, rest) => .ok (some value, rest)
    | none => .ok (none, text)

end Reader

def isBlank (c : Char) : Bool := c == ' ' || c == '\t'

def isGap (c : Char) : Bool := isBlank c || c == '\n'

def isControl (c : Char) : Bool := (c.toNat < 32 && c != '\t') || c.toNat == 127

def isControlInLines (c : Char) : Bool := isControl c && c != '\n'

def cutBefore? (mark : List Char) : List Char → Option (List Char × List Char)
  | [] => none
  | c :: rest =>
    if mark.isPrefixOf (c :: rest) then some ([], c :: rest)
    else (cutBefore? mark rest).map fun (before, after) => (c :: before, after)

/-- Takes the text before a mark, which has to be there unless the end of the document will do. -/
def takeUntil (mark : List Char) (required : Bool) (illegal : Char → Bool) :
    Reader (List Char) := fun text =>
  let taken : Except Trouble (List Char × List Char) := match cutBefore? mark text with
    | some cut => .ok cut
    | none => if required then .error ⟨.unclosed mark, 0⟩ else .ok (text, [])
  match taken with
  | .error trouble => .error trouble
  | .ok (before, after) =>
    match before.dropWhile (fun c => !illegal c) with
    | [] => .ok (before, after)
    | c :: rest => .error ⟨.invalid c, rest.length + 1 + after.length⟩

def skipComment : Reader Unit := do
  if ← Reader.accept ['#'] then
    let _ ← takeUntil ['\n'] false isControl

def skipGapsWithin : Nat → Reader Unit
  | 0 => pure ()
  | rounds + 1 => do
    let before ← get
    Reader.skipWhile isGap
    skipComment
    let after ← get
    if after.length < before.length then skipGapsWithin rounds

def skipGaps : Reader Unit := do skipGapsWithin ((← get).length + 1)

end Specializer.Toml
