set_option autoImplicit false

namespace Specializer

inductive Slot
  | key | value
deriving DecidableEq, Repr

namespace Slot

def all : List Slot := [key, value]

def name : Slot → String
  | key => "KType"
  | value => "VType"

def ofName? (text : String) : Option Slot := all.find? fun slot => slot.name == text

def ofText? (text : List Char) : Option Slot := all.find? fun slot => slot.name.toList == text

end Slot

end Specializer
