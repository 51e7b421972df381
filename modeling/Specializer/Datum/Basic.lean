import Specializer.Datum.Decimal
import Specializer.Datum.Moment
import Specializer.Text.Integer
import Specializer.Text.Quoted

set_option autoImplicit false

namespace Specializer

inductive Datum
  | absent
  | boolean (value : Bool)
  | integer (value : Int)
  | real (value : Decimal)
  | moment (value : Moment)
  | text (value : List Char)
  | list (items : List Datum)
  | table (entries : List (List Char × Datum))

instance : Inhabited Datum := ⟨.absent⟩

abbrev Table := List (List Char × Datum)

namespace Table

def replace (table : Table) (key : List Char) (value : Datum) : Table :=
  table.map fun entry => if entry.1 = key then (key, value) else entry

def find? (table : Table) (key : String) : Option Datum := table.lookup key.toList

end Table

namespace Datum

mutual

def term : Datum → List Char
  | absent => "None".toList
  | boolean value => (if value then "True" else "False").toList
  | integer value => (toString value).toList
  | real value => value.shown
  | moment value => value.term.toList
  | text value => quoted value
  | list items => '[' :: terms items ++ [']']
  | table entries => '\x7b' :: entryTerms entries ++ ['\x7d']

def terms : List Datum → List Char
  | [] => []
  | [item] => term item
  | item :: next :: more => term item ++ ", ".toList ++ terms (next :: more)

def entryTerms : List (List Char × Datum) → List Char
  | [] => []
  | [(key, value)] => quoted key ++ ": ".toList ++ term value
  | (key, value) :: next :: more =>
    quoted key ++ ": ".toList ++ term value ++ ", ".toList ++ entryTerms (next :: more)

end

def integerIsShowable (value : Int) : Bool :=
  (Nat.toDigits 10 value.natAbs).length ≤ integerDigitLimit

mutual

def isShowable : Datum → Bool
  | integer value => integerIsShowable value
  | list items => areShowable items
  | table entries => entriesAreShowable entries
  | _ => true

def areShowable : List Datum → Bool
  | [] => true
  | item :: more => isShowable item && areShowable more

def entriesAreShowable : List (List Char × Datum) → Bool
  | [] => true
  | (_, value) :: more => isShowable value && entriesAreShowable more

end

def shown : Datum → List Char
  | text value => value
  | moment value => value.shown.toList
  | datum => datum.term

end Datum

end Specializer
