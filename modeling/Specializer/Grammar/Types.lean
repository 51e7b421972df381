import Specializer.Grammar.Cursor
import Specializer.Placeholder

set_option autoImplicit false

namespace Specializer

def Segment.isRelevant : Segment → Bool
  | .plain name => hasPlaceholder name.text
  | .applied _ _ => true

namespace Grammar

open Read

variable [Numbering]

def Cursor.steps (cursor : Cursor) : Nat := 4 * cursor.rest.length + 4

def withSteps {α : Type} (read : Nat → Read α) : Read α := fun cursor => read cursor.steps cursor

def separated {α : Type} (closer : Kind) (what : Expected) (item : α) (more : Read (List α)) :
    Read (List α) :=
  branch (·.seesKind .comma 0)
    (do let _ ← take; let items ← more; pure (item :: items))
    (branch (·.seesKind closer 0) (do let _ ← take; pure [item]) (miss what))

def qualified (segment : Segment) (more : Read (List Segment)) : Read (List Segment) :=
  branch (·.seesDotName)
    (do let _ ← take; let segments ← more; pure (segment :: segments))
    (pure [segment])

def appliedOr (name : Name) (args : Read TypeArgs) : Read Segment :=
  branch (·.seesKind .lt 0) (do let args ← args; pure (.applied name args)) (pure (.plain name))

def dimensions : Nat → Read Nat
  | 0 => stuck
  | n + 1 =>
    branch (fun cursor => cursor.seesKind .lsqb 0 && cursor.seesKind .rsqb 1)
      (do let _ ← take; let _ ← take; let count ← dimensions n; pure (count + 1))
      (pure 0)

-- The arguments of annotations are expressions, so how annotations are skipped is a parameter here.
section

variable (skip : Read Unit)

def typeAnnotations : Nat → Read Unit
  | 0 => stuck
  | n + 1 =>
    branch (fun cursor => cursor.seesKind .atSign 0 && !cursor.seesWord "interface" 1)
      (do skip; typeAnnotations n)
      (pure ())

mutual

def typeSegments (diamond : Bool) : Nat → Read (List Segment)
  | 0 => stuck
  | n + 1 => do
    let name ← take
    let segment ← appliedOr name (typeArgs diamond n)
    qualified segment (typeSegments diamond n)

def typeRef (diamond dims : Bool) : Nat → Read TypeRef
  | 0 => stuck
  | n + 1 => do
    typeAnnotations skip n
    branch (·.sees (fun lexeme => lexeme.isName || lexeme.isPrimitive) 0)
      (do
        let start ← index
        let segments ← typeSegments diamond n
        let count ← if dims then dimensions n else pure 0
        let stop ← past
        pure (.mk ⟨start, stop⟩ segments count))
      (miss .typeName)

def typeArgs (diamond : Bool) : Nat → Read TypeArgs
  | 0 => stuck
  | n + 1 => whole .typeArguments do
    let opener ← take
    let args ← branch (·.seesKind .gt 0)
      (if diamond then (do let _ ← take; pure []) else miss .typeArguments)
      (typeArgList n)
    let stop ← past
    pure (.mk ⟨opener.index, stop⟩ args)

def typeArgList : Nat → Read (List TypeArg)
  | 0 => stuck
  | n + 1 => do
    let arg ← typeArg n
    separated .gt .typeArguments arg (typeArgList n)

def typeArg : Nat → Read TypeArg
  | 0 => stuck
  | n + 1 =>
    branch (·.seesKind .qmark 0)
      (do
        let mark ← take
        branch (·.seesWord "extends" 0) (boundedArg mark.index .upper n)
          (branch (·.seesWord "super" 0) (boundedArg mark.index .lower n)
            (do let stop ← past; pure (.unbounded ⟨mark.index, stop⟩))))
      (do let ref ← typeRef false true n; pure (.exact ref))

def boundedArg (start : Nat) (kind : BoundKind) : Nat → Read TypeArg
  | 0 => stuck
  | n + 1 => do
    let _ ← take
    let ref ← typeRef false true n
    let stop ← past
    pure (.bounded ⟨start, stop⟩ kind ref)

end

def typeList (separator : Kind) : Nat → Read (List TypeRef)
  | 0 => stuck
  | n + 1 => do
    let ref ← withSteps (typeRef skip false true)
    branch (·.seesKind separator 0)
      (do let _ ← take; let refs ← typeList separator n; pure (ref :: refs))
      (pure [ref])

def parameterAnnotations : Nat → Read Unit
  | 0 => stuck
  | n + 1 =>
    branch (·.seesKind .atSign 0) (do skip; parameterAnnotations n) (pure ())

def typeParam : Read TypeParam := do
  withSteps (parameterAnnotations skip)
  branch (·.sees Lexeme.isName 0)
    (do
      let start ← index
      let name ← take
      let bounds ← branch (·.seesWord "extends" 0)
        (do let _ ← take; withSteps (typeList skip .amp))
        (pure [])
      let stop ← past
      pure ⟨⟨start, stop⟩, name, bounds⟩)
    (miss .typeParameter)

def typeParamList : Nat → Read (List TypeParam)
  | 0 => stuck
  | n + 1 => do
    let param ← typeParam skip
    separated .gt .typeParameter param (typeParamList n)

def typeParams : Read TypeParams := part .typeParameter do
  let opener ← take
  let params ← withSteps (typeParamList skip)
  let stop ← past
  pure ⟨⟨opener.index, stop⟩, params⟩

def Cursor.followsType (cursor : Cursor) : Bool :=
  cursor.rest.isEmpty || cursor.sees (fun lexeme => lexeme.kind.followsType) 0

/-- Arguments of a name in an expression: taken for arguments only if they are written like types
and something follows that can follow a type. -/
def expressionArgs : Read TypeArgs := whole .typeArguments do
  let args ← withSteps (typeArgs skip false)
  branch (·.followsType) (pure args) (miss .typeArguments)

def chainSegment (name : Name) : Read Segment := do
  let segment ← optional (appliedOr name (expressionArgs skip))
  pure (segment.getD (.plain name))

def chainSegments : Nat → Read (List Segment)
  | 0 => stuck
  | n + 1 => do
    let name ← take
    let segment ← chainSegment skip name
    qualified segment (chainSegments n)

/-- A qualified name in an expression, if specialization can change it. -/
def chain : Read (Option TypeRef) := do
  let start ← index
  let segments ← withSteps (chainSegments skip)
  let stop ← past
  pure (if segments.any Segment.isRelevant then some (.mk ⟨start, stop⟩ segments 0) else none)

def witness : Read Member := do
  let _ ← take
  let args ← strict (withSteps (typeArgs skip false))
  let method ← takeKind .ident .methodName
  pure (.witness ⟨args.range.start, method.index + 1⟩ args method)

end

end Grammar

end Specializer
