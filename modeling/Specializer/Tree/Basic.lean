import Specializer.Token.Basic

set_option autoImplicit false

namespace Specializer

/-- The tokens numbered `start` to `stop - 1`. -/
structure Range where
  start : Nat
  stop : Nat
deriving DecidableEq, Repr

structure Name where
  index : Nat
  text : List Char
deriving DecidableEq, Repr

inductive BoundKind
  | upper | lower
deriving DecidableEq, Repr

def BoundKind.word : BoundKind → String
  | .upper => "extends"
  | .lower => "super"

mutual

/-- A possibly qualified name of a type, and how many pairs of square brackets follow it. -/
inductive TypeRef
  | mk (range : Range) (segments : List Segment) (dims : Nat)

inductive Segment
  | plain (name : Name)
  | applied (name : Name) (args : TypeArgs)

/-- A list of type arguments in angle brackets; an empty one is a diamond. -/
inductive TypeArgs
  | mk (range : Range) (args : List TypeArg)

inductive TypeArg
  | exact (ref : TypeRef)
  | unbounded (range : Range)
  | bounded (range : Range) (kind : BoundKind) (ref : TypeRef)

end

namespace TypeRef

def range : TypeRef → Range
  | mk range _ _ => range

def segments : TypeRef → List Segment
  | mk _ segments _ => segments

def dims : TypeRef → Nat
  | mk _ _ dims => dims

end TypeRef

namespace Segment

def name : Segment → Name
  | plain name | applied name _ => name

def args? : Segment → Option TypeArgs
  | plain _ => none
  | applied _ args => some args

end Segment

namespace TypeArgs

def range : TypeArgs → Range
  | mk range _ => range

def args : TypeArgs → List TypeArg
  | mk _ args => args

end TypeArgs

namespace TypeArg

def range : TypeArg → Range
  | exact ref => ref.range
  | unbounded range | bounded range _ _ => range

end TypeArg

structure TypeParam where
  range : Range
  name : Name
  bounds : List TypeRef

structure TypeParams where
  range : Range
  params : List TypeParam

inductive Member
  | typeUse (ref : TypeRef)
  | importDecl (range : Range) (ref : TypeRef) (isStatic onDemand : Bool)
  | typeDecl (range : Range) (keyword name : Name) (params : Option TypeParams)
      (supertypes : List TypeRef) (members : List Member)
  | methodDecl (range : Range) (params : TypeParams) (members : List Member)
  | creation (range : Range) (type : TypeRef) (members : List Member)
      (constructorArgs : Option TypeArgs)
  | witness (range : Range) (args : TypeArgs) (method : Name)

def Member.range : Member → Range
  | .typeUse ref => ref.range
  | .importDecl range _ _ _ | .typeDecl range _ _ _ _ _ | .methodDecl range _ _
  | .creation range _ _ _ | .witness range _ _ => range

structure Tree where
  size : Nat
  members : List Member
  docs : List Nat

end Specializer
