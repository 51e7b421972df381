import Specializer.Sorting
import Specializer.Text.Order
import Specializer.Text.Quoted

set_option autoImplicit false

namespace Specializer

-- The tokens numbered start to stop - 1 give way to the text. An empty range inserts.
structure Edit where
  start : Int
  stop : Int
  text : List Char
deriving DecidableEq, Repr

namespace Edit

def description (edit : Edit) : String :=
  "[" ++ toString edit.start ++ ", " ++ toString edit.stop ++ ") -> " ++
    String.ofList (quoted edit.text)

def le (a b : Edit) : Bool :=
  if a.start = b.start then
    if a.stop = b.stop then textLe a.text b.text else a.stop < b.stop
  else a.start < b.start

def sort (edits : List Edit) : List Edit := sortBy le edits

end Edit

end Specializer
