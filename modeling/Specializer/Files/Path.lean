import Specializer.Sorting
import Specializer.Text.Order

set_option autoImplicit false

namespace Specializer

def splitOn (separator : Char) : List Char → List (List Char)
  | [] => [[]]
  | c :: rest =>
    if c = separator then [] :: splitOn separator rest
    else
      match splitOn separator rest with
      | [] => [[c]]
      | first :: more => (c :: first) :: more

/-- A path. The root is empty for a relative path, and otherwise one slash, or two where exactly two
stand in front. -/
structure Path where
  root : List Char
  parts : List (List Char)
deriving DecidableEq, Repr

namespace Path

def here : Path := ⟨[], []⟩

def up : List Char := ['.', '.']

def isPart (part : List Char) : Bool := !part.isEmpty && part != ['.']

def rootOf (text : List Char) : List Char :=
  match (text.takeWhile (· == '/')).length with
  | 0 => []
  | 2 => ['/', '/']
  | _ => ['/']

def parse (text : List Char) : Path := ⟨rootOf text, (splitOn '/' text).filter isPart⟩

def ofString (text : String) : Path := parse text.toList

def toText (path : Path) : List Char :=
  let text := path.root ++ List.intercalate ['/'] path.parts
  if text.isEmpty then ['.'] else text

def description (path : Path) : String := String.ofList path.toText

def join (base path : Path) : Path :=
  if path.root.isEmpty then ⟨base.root, base.parts ++ path.parts⟩ else path

def child (path : Path) (part : List Char) : Path := ⟨path.root, path.parts ++ [part]⟩

def parent (path : Path) : Path := ⟨path.root, path.parts.dropLast⟩

def name (path : Path) : List Char := path.parts.getLast?.getD []

def splitName (name : List Char) : List Char × List Char :=
  let after := (name.reverse.takeWhile (· != '.')).length
  let stem := name.length - after - 1
  if after = name.length || stem = 0 || after = 0 then (name, [])
  else (name.take stem, name.drop stem)

def stem (path : Path) : List Char := (splitName path.name).1

def suffix (path : Path) : List Char := (splitName path.name).2

def relativeTo? (path base : Path) : Option Path :=
  if path.root = base.root && base.parts.isPrefixOf path.parts then
    some ⟨[], path.parts.drop base.parts.length⟩
  else none

def partsLe : List (List Char) → List (List Char) → Bool
  | [], _ => true
  | _ :: _, [] => false
  | a :: as, b :: bs => if a = b then partsLe as bs else textLe a b

def le (a b : Path) : Bool :=
  partsLe (if a.root.isEmpty then a.parts else a.root :: a.parts)
    (if b.root.isEmpty then b.parts else b.root :: b.parts)

def sortDistinct (paths : List Path) : List Path := (sortBy le paths).eraseDups

end Path

end Specializer
