import Specializer.Text.CharClass

set_option autoImplicit false

namespace Specializer

def decimalValue? (c : Char) : Option Nat :=
  if isAscii c then if c.isDigit then some (c.toNat - '0'.toNat) else none
  else
    (digitRanges.find? fun range => range.1 ≤ c.toNat && c.toNat ≤ range.2).map fun range =>
      (c.toNat - range.1) % 10

def digitsAfter? : List Char → Option (List Nat)
  | [] => some []
  | [c] => (decimalValue? c).map fun digit => [digit]
  | c :: d :: rest =>
    if c = '_' then do
      let digit ← decimalValue? d
      let more ← digitsAfter? rest
      pure (digit :: more)
    else do
      let digit ← decimalValue? c
      let more ← digitsAfter? (d :: rest)
      pure (digit :: more)

def digitsOf? : List Char → Option (List Nat)
  | [] => none
  | c :: rest => do
    let digit ← decimalValue? c
    let more ← digitsAfter? rest
    pure (digit :: more)

def isNumberBlank (c : Char) : Bool :=
  isBlank c && !(28 ≤ c.toNat && c.toNat ≤ 31)

def integerDigitLimit : Nat := 4300

def readInteger? (text : List Char) : Option Int := do
  let text := stripBy isNumberBlank text
  let digits ← digitsOf? (if text.head? = some '-' || text.head? = some '+' then text.tail else text)
  if integerDigitLimit < digits.length then none
  let size : Nat := digits.foldl (fun n digit => 10 * n + digit) 0
  pure (if text.head? = some '-' then -(size : Int) else size)

end Specializer
