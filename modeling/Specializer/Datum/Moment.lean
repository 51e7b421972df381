set_option autoImplicit false

namespace Specializer

structure Date where
  year : Nat
  month : Nat
  day : Nat
deriving DecidableEq, Repr

structure Clock where
  hour : Nat
  minute : Nat
  second : Nat
  micro : Nat
deriving DecidableEq, Repr

inductive Moment
  | date (date : Date)
  | clock (clock : Clock)
  | both (date : Date) (clock : Clock) (zone : Option Int)
deriving DecidableEq, Repr

def padded (width n : Nat) : String :=
  let digits := toString n
  "".pushn '0' (width - digits.length) ++ digits

namespace Date

def isLeap (year : Nat) : Bool := year % 4 == 0 && (year % 100 != 0 || year % 400 == 0)

def daysIn (year month : Nat) : Nat :=
  if month = 2 then if isLeap year then 29 else 28
  else if month = 4 || month = 6 || month = 9 || month = 11 then 30
  else 31

def isValid (date : Date) : Bool :=
  1 ≤ date.year && 1 ≤ date.month && date.month ≤ 12 && 1 ≤ date.day &&
    date.day ≤ daysIn date.year date.month

def shown (date : Date) : String :=
  padded 4 date.year ++ "-" ++ padded 2 date.month ++ "-" ++ padded 2 date.day

def numbers (date : Date) : List Nat := [date.year, date.month, date.day]

end Date

namespace Clock

def shown (clock : Clock) : String :=
  padded 2 clock.hour ++ ":" ++ padded 2 clock.minute ++ ":" ++ padded 2 clock.second ++
    if clock.micro = 0 then "" else "." ++ padded 6 clock.micro

def numbers (clock : Clock) : List Nat :=
  [clock.hour, clock.minute] ++
    (if clock.second = 0 && clock.micro = 0 then [] else [clock.second]) ++
    if clock.micro = 0 then [] else [clock.micro]

end Clock

namespace Moment

def zoneShown (minutes : Int) : String :=
  (if minutes < 0 then "-" else "+") ++ padded 2 (minutes.natAbs / 60) ++ ":" ++
    padded 2 (minutes.natAbs % 60)

def shown : Moment → String
  | .date day => day.shown
  | .clock time => time.shown
  | .both day time zone => day.shown ++ " " ++ time.shown ++ (zone.map zoneShown).getD ""

private def listed (numbers : List Nat) : String :=
  String.intercalate ", " (numbers.map toString)

def zoneTerm (minutes : Int) : String :=
  if minutes = 0 then "datetime.timezone.utc"
  else
    let days := if minutes < 0 then "days=-1, " else ""
    "datetime.timezone(datetime.timedelta(" ++ days ++ "seconds=" ++
      toString ((minutes * 60) % 86400) ++ "))"

def term : Moment → String
  | .date day => "datetime.date(" ++ listed day.numbers ++ ")"
  | .clock time => "datetime.time(" ++ listed time.numbers ++ ")"
  | .both day time zone =>
    "datetime.datetime(" ++ listed (day.numbers ++ time.numbers) ++
      ((zone.map fun minutes => ", tzinfo=" ++ zoneTerm minutes).getD "") ++ ")"

end Moment

end Specializer
