set_option autoImplicit false

namespace Specializer

inductive Decimal
  | finite (negative : Bool) (digits : Nat) (exponent : Int)
  | infinite (negative : Bool)
  | undefined
deriving DecidableEq, Repr

namespace Decimal

def roundDiv (n d : Nat) : Nat :=
  let floor := n / d
  let twice := 2 * (n % d)
  if twice < d then floor
  else if d < twice then floor + 1
  else floor + floor % 2

def scale (base : Nat) (exponent : Int) (n d : Nat) : Nat × Nat :=
  if 0 ≤ exponent then (n * Nat.pow base exponent.toNat, d)
  else (n, d * Nat.pow base (-exponent).toNat)

structure Binary where
  significand : Nat
  exponent : Int
deriving DecidableEq, Repr

namespace Binary

def leastExponent : Int := -1074

def greatestExponent : Int := 971

def leastNormal : Nat := Nat.pow 2 52

def nearest (n d : Nat) : Binary :=
  let guess : Int := (n.log2 : Int) - d.log2 - 53
  let (a, b) := scale 2 (-guess) n d
  let exponent := max leastExponent (if 2 * leastNormal * b ≤ a then guess + 1 else guess)
  let (a, b) := scale 2 (-exponent) n d
  let significand := roundDiv a b
  if significand = 2 * leastNormal then ⟨leastNormal, exponent + 1⟩ else ⟨significand, exponent⟩

/-- Whether a quotient, in quarters of the last place, rounds to the number. Below a power of two the
numbers lie twice as close. -/
def covers (number : Binary) (n d : Nat) : Bool :=
  let isPower := number.significand = leastNormal && leastExponent < number.exponent
  let low := 4 * number.significand - if isPower then 1 else 2
  let high := 4 * number.significand + 2
  if number.significand % 2 = 0 then low * d ≤ n && n ≤ high * d
  else low * d < n && n < high * d

end Binary

def magnitude (n d : Nat) : Int :=
  if d ≤ n then ((Nat.toDigits 10 (n / d)).length : Int) - 1
  else -(((List.range 400).find? fun zeros => d ≤ n * Nat.pow 10 zeros).getD 0 : Nat)

/-- Some digits times a power of ten, if they are all it takes to single a number out: of the two
multiples around the number that lie close enough, the nearer. -/
def withDigits? (number : Binary) (n d : Nat) (exponent : Int) : Option Nat :=
  let (a, b) := scale 10 (-exponent) n d
  let fits (digits : Nat) : Bool :=
    let (x, y) := scale 10 exponent digits 1
    let (x, y) := scale 2 (2 - number.exponent) x y
    number.covers x y
  let floor := a / b
  match fits floor, fits (floor + 1) with
  | true, true => some (roundDiv a b)
  | true, false => some floor
  | false, true => some (floor + 1)
  | false, false => none

def shortest (number : Binary) : Nat × Int :=
  let (n, d) := scale 2 number.exponent number.significand 1
  let top := magnitude n d
  let found := (List.range 17).findSome? fun (more : Nat) =>
    (withDigits? number n d (top - more)).map fun digits => (digits, top - more)
  found.getD (0, 0)

def place (digits : List Char) (point : Int) : List Char :=
  let count : Int := digits.length
  if point ≤ -4 || 16 < point then
    let exponent := point - 1
    let size := Nat.toDigits 10 exponent.natAbs
    digits.take 1 ++ (if count = 1 then [] else '.' :: digits.drop 1) ++
      ['e', if exponent < 0 then '-' else '+'] ++ List.replicate (2 - size.length) '0' ++ size
  else if point ≤ 0 then
    ['0', '.'] ++ List.replicate (-point).toNat '0' ++ digits
  else if count ≤ point then
    digits ++ List.replicate (point - count).toNat '0' ++ ['.', '0']
  else digits.take point.toNat ++ '.' :: digits.drop point.toNat

def showPositive (number : Binary) : List Char :=
  let (digits, exponent) := shortest number
  let all := Nat.toDigits 10 digits
  let kept := (all.reverse.dropWhile (· == '0')).reverse
  place kept (all.length + exponent)

def shown : Decimal → List Char
  | undefined => "nan".toList
  | infinite negative => if negative then "-inf".toList else "inf".toList
  | finite negative digits exponent =>
    let top := (Nat.toDigits 10 digits).length + exponent
    let size :=
      if digits = 0 || top < -330 then "0.0".toList
      else if 310 < top then "inf".toList
      else
        let (n, d) := scale 10 exponent digits 1
        let number := Binary.nearest n d
        if number.significand = 0 then "0.0".toList
        else if Binary.greatestExponent < number.exponent then "inf".toList
        else showPositive number
    if negative then '-' :: size else size

end Decimal

end Specializer
