import Specializer.Text.CharClass

set_option autoImplicit false

namespace Specializer

inductive SlotType
  | generic | byte | char | short | int | long | float | double | boolean
deriving DecidableEq, Repr

namespace SlotType

def all : List SlotType := [generic, byte, char, short, int, long, float, double, boolean]

def name : SlotType → String
  | generic => "generic"
  | byte => "byte"
  | char => "char"
  | short => "short"
  | int => "int"
  | long => "long"
  | float => "float"
  | double => "double"
  | boolean => "boolean"

def isGeneric : SlotType → Bool
  | generic => true
  | _ => false

def isPrimitive (type : SlotType) : Bool := !type.isGeneric

def spelling : SlotType → String
  | generic => "Object"
  | type => type.name

def capitalized : SlotType → String
  | generic => "Object"
  | byte => "Byte"
  | char => "Char"
  | short => "Short"
  | int => "Int"
  | long => "Long"
  | float => "Float"
  | double => "Double"
  | boolean => "Boolean"

def plural (type : SlotType) : String := type.spelling ++ "s"

/-- Reads a name, whatever its case and the blanks around it; an object is generic. Letters beyond
ASCII occur in no name, and no other letter has a letter of one as its small form. -/
def ofName? (text : String) : Option SlotType :=
  let key := String.ofList ((strip text.toList).map Char.toLower)
  if key == "object" then some generic else all.find? fun type => type.name == key

end SlotType

end Specializer
