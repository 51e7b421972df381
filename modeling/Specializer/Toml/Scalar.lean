import Specializer.Datum.Basic
import Specializer.Toml.Text

set_option autoImplicit false

namespace Specializer.Toml

def moreDigits (isDigit : Char → Bool) : List Char → List Char × List Char
  | [] => ([], [])
  | [c] => if isDigit c then ([c], []) else ([], [c])
  | c :: d :: rest =>
    if isDigit c then
      let (digits, left) := moreDigits isDigit (d :: rest)
      (c :: digits, left)
    else if c = '_' && isDigit d then
      let (digits, left) := moreDigits isDigit rest
      (d :: digits, left)
    else ([], c :: d :: rest)

def digits? (isDigit : Char → Bool) : List Char → Option (List Char × List Char)
  | [] => none
  | c :: rest =>
    if isDigit c then
      let (digits, left) := moreDigits isDigit rest
      some (c :: digits, left)
    else none

def valueOf (base : Nat) (digits : List Char) : Nat :=
  digits.foldl (fun n c => base * n + (hexValue? c).getD 0) 0

def base? : Char → Option Nat
  | 'x' => some 16
  | 'o' => some 8
  | 'b' => some 2
  | _ => none

def basedNumber? : List Char → Option (Nat × List Char)
  | '0' :: letter :: rest => do
    let base ← base? letter
    let (digits, left) ← digits? (fun c => (hexValue? c).any (· < base)) rest
    pure (valueOf base digits, left)
  | _ => none

def sign? : List Char → Bool × List Char
  | '-' :: rest => (true, rest)
  | '+' :: rest => (false, rest)
  | text => (false, text)

def whole? : List Char → Option (List Char × List Char)
  | '0' :: rest => some (['0'], rest)
  | text => digits? Char.isDigit text

def fraction : List Char → List Char × List Char
  | '.' :: rest => (digits? Char.isDigit rest).getD ([], '.' :: rest)
  | text => ([], text)

def power? : List Char → Option (Int × List Char)
  | c :: rest => do
    if c != 'e' && c != 'E' then none
    let (negative, rest) := sign? rest
    let (digits, left) ← digits? Char.isDigit rest
    let size : Int := valueOf 10 digits
    pure (if negative then -size else size, left)
  | [] => none

def digitLimit : Nat := 4300

def decimalNumber? (text : List Char) : Option (Option Datum × List Char) := do
  let (negative, rest) := sign? text
  let (digits, rest) ← whole? rest
  let (places, rest) := fraction rest
  match power? rest, places.isEmpty with
  | none, true =>
    let size : Int := valueOf 10 digits
    let datum := Datum.integer (if negative then -size else size)
    pure (if digitLimit < digits.length then none else some datum, rest)
  | none, false =>
    let size := valueOf 10 (digits ++ places)
    pure (some (.real (.finite negative size (-places.length))), rest)
  | some (power, rest), _ =>
    let size := valueOf 10 (digits ++ places)
    pure (some (.real (.finite negative size (power - places.length))), rest)

def number? (text : List Char) : Option (Option Datum × List Char) :=
  match basedNumber? text with
  | some (n, rest) => some (some (.integer n), rest)
  | none => decimalNumber? text

def wordNumber? (text : List Char) : Option (Datum × List Char) :=
  let (negative, rest) := sign? text
  if ['i', 'n', 'f'].isPrefixOf rest then some (.real (.infinite negative), rest.drop 3)
  else if ['n', 'a', 'n'].isPrefixOf rest then some (.real .undefined, rest.drop 3)
  else none

def field? (count low high : Nat) (text : List Char) : Option (Nat × List Char) :=
  let digits := text.take count
  let n := valueOf 10 digits
  if digits.length = count && digits.all Char.isDigit && low ≤ n && n ≤ high then
    some (n, text.drop count)
  else none

def mark? (mark : Char) : List Char → Option (List Char)
  | c :: rest => if c = mark then some rest else none
  | [] => none

def micros : List Char → Nat × List Char
  | '.' :: rest =>
    let digits := rest.takeWhile Char.isDigit
    if digits.isEmpty then (0, '.' :: rest)
    else
      let kept := digits.take 6
      (valueOf 10 kept * Nat.pow 10 (6 - kept.length), rest.dropWhile Char.isDigit)
  | text => (0, text)

def clock? (text : List Char) : Option (Clock × List Char) := do
  let (hour, text) ← field? 2 0 23 text
  let (minute, text) ← field? 2 0 59 (← mark? ':' text)
  let (second, text) ← field? 2 0 59 (← mark? ':' text)
  let (micro, text) := micros text
  pure (⟨hour, minute, second, micro⟩, text)

def offset? (text : List Char) : Option (Nat × List Char) := do
  let (hours, text) ← field? 2 0 23 text
  let (minutes, text) ← field? 2 0 59 (← mark? ':' text)
  pure (60 * hours + minutes, text)

def zone : List Char → Option Int × List Char
  | c :: rest =>
    if c = 'Z' || c = 'z' then (some 0, rest)
    else
      match if c = '+' || c = '-' then offset? rest else none with
      | some (minutes, left) => (some (if c = '-' then -(minutes : Int) else minutes), left)
      | none => (none, c :: rest)
  | [] => (none, [])

def date? (text : List Char) : Option (Date × List Char) := do
  let (year, text) ← field? 4 0 9999 text
  let (month, text) ← field? 2 1 12 (← mark? '-' text)
  let (day, text) ← field? 2 1 31 (← mark? '-' text)
  pure (⟨year, month, day⟩, text)

def clockAfter? : List Char → Option (Clock × List Char)
  | c :: rest => if c = 'T' || c = 't' || c = ' ' then clock? rest else none
  | [] => none

def moment? (text : List Char) : Option (Option Moment × List Char) :=
  match date? text with
  | some (date, rest) =>
    let (moment, rest) := match clockAfter? rest with
      | some (clock, rest) =>
        let (zone, rest) := zone rest
        (Moment.both date clock zone, rest)
      | none => (Moment.date date, rest)
    some (if date.isValid then some moment else none, rest)
  | none => (clock? text).map fun (clock, rest) => (some (.clock clock), rest)

end Specializer.Toml
