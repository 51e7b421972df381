import Specializer.Edit.Render
import Specializer.Placeholder
import Specializer.Scope
import Specializer.Traced
import Specializer.Tree.Basic

set_option autoImplicit false

namespace Specializer

structure Setting where
  tokens : List Token
  binding : Binding

namespace Setting

variable (setting : Setting)

def texts : List (List Char) := setting.tokens.map fun token => token.text

def span (range : Range) : Option Span := spanOf setting.tokens range.start range.stop

def values (scope : Scope Slot) : Traced (List SlotType) :=
  Traced.lift (scope.values setting.binding)

def render (range : Range) (edits : List Edit) : Traced (List Char) :=
  Traced.lift (Edit.render setting.texts (Edit.sort edits) range.start range.stop)

def isBlankAt (index : Nat) : Bool :=
  setting.tokens[index]?.any fun token => token.kind == .blank

def replace (name : Name) (text : List Char) : Edit := ⟨name.index, name.index + 1, text⟩

/-- A list in angle brackets reduced to the entries given. Without any it goes, and if blanks
stand on both sides of it, so do those behind it. -/
def reduce (range : Range) (entries : List (List Char)) : Edit :=
  if entries.isEmpty then
    let stop := if 0 < range.start && setting.isBlankAt (range.start - 1) &&
        setting.isBlankAt range.stop then range.stop + 1 else range.stop
    ⟨range.start, stop, []⟩
  else ⟨range.start, range.stop, '<' :: List.intercalate [',', ' '] entries ++ ['>']⟩

def rename (scope : Scope Slot) (name : Name) (values : List SlotType) : Traced (List Edit) :=
  let count := segmentCount name.text
  match substituteInOrder name.text values with
  | none => Traced.fail (.surplusSegments name.text count scope.order.length
      (setting.span ⟨name.index, name.index + 1⟩))
  | some new => pure (if new = name.text then [] else [replace name new])

def bareSlot : TypeRef → Traced (Option Slot)
  | .mk _ [.plain name] _ => pure (Slot.ofText? name.text)
  | .mk range [.applied name _] _ =>
    match Slot.ofText? name.text with
    | some _ => Traced.fail (.placeholderArguments name.text (setting.span range))
    | none => pure none
  | _ => pure none

def bareValue (ref : TypeRef) : Traced (Option SlotType) := do
  match ← setting.bareSlot ref with
  | some slot => do
    let value ← Traced.lift (setting.binding.get slot)
    pure (some value)
  | none => pure none

/-- The edit of a bare reference to a slot. As an argument of a type that is no template, a
primitive gives way to the object type, because type arguments cannot be primitive. -/
def bareEdit (owner : Option (List Char)) (ref : TypeRef) (slot : Slot) (value : SlotType) :
    Traced (List Edit) :=
  match ref.segments.getLast? with
  | none => pure []
  | some segment =>
    if value.isGeneric then pure []
    else
      match owner with
      | some owner =>
        if ref.dims = 0 then do
          Traced.notice (.primitiveArgument slot value owner (setting.span ref.range))
          pure [replace segment.name "Object".toList]
        else pure [replace segment.name value.spelling.toList]
      | none => pure [replace segment.name value.spelling.toList]

end Setting

structure RefEdits where
  edits : List Edit
  values : Option (List SlotType)

/-- What becomes of entries of a list in angle brackets: the values they contribute, the texts of
those that are kept, the edits in those, whether one was dropped, and whether a placeholder says
what one stands for. -/
structure Entries where
  values : List (Option SlotType)
  kept : List (List Char)
  edits : List Edit
  dropped : Bool
  derived : Bool

namespace Entries

def none : Entries := ⟨[], [], [], false, false⟩

def append (first second : Entries) : Entries :=
  ⟨first.values ++ second.values, first.kept ++ second.kept, first.edits ++ second.edits,
   first.dropped || second.dropped, first.derived || second.derived⟩

def drop (value : SlotType) : Entries := ⟨[some value], [], [], true, true⟩

def omitted : Entries := ⟨[], [], [], true, true⟩

def keep (values : List (Option SlotType)) (derived : Bool) (text : List Char)
    (edits : List Edit) : Entries :=
  ⟨values, [text], edits, false, derived⟩

/-- The values where each is known or generic, continued by those of the scope. -/
def resolve (entries : Entries) (rest : List SlotType) : List SlotType :=
  entries.values.map (fun value => value.getD .generic) ++ rest.drop entries.values.length

end Entries

namespace Setting

variable (setting : Setting)

/-- A list in angle brackets is rebuilt if an entry was dropped; else its entries change in place. -/
def listEdits (range : Range) (entries : Entries) : List Edit :=
  if entries.dropped then [setting.reduce range entries.kept] else entries.edits

mutual

/-- A reference to a type; `owner` is the type it is an argument of, if that is no template. -/
def refEdits (owner : Option (List Char)) (scope : Scope Slot) : TypeRef → Traced RefEdits
  | .mk range segments dims => do
    match ← setting.bareSlot (.mk range segments dims) with
    | some slot => do
      let value ← Traced.lift (setting.binding.get slot)
      let edits ← setting.bareEdit owner (.mk range segments dims) slot value
      pure ⟨edits, some [value]⟩
    | none => segmentsEdits scope segments

def segmentsEdits (scope : Scope Slot) : List Segment → Traced RefEdits
  | [] => pure ⟨[], none⟩
  | segment :: rest => do
    let first ← segmentEdits scope segment
    let more ← segmentsEdits scope rest
    pure ⟨first.edits ++ more.edits, more.values.or first.values⟩

def segmentEdits (scope : Scope Slot) : Segment → Traced RefEdits
  | .plain name =>
    if segmentCount name.text = 0 then pure ⟨[], none⟩
    else do
      let values ← setting.values scope
      let edits ← setting.rename scope name values
      pure ⟨edits, some (values.take (segmentCount name.text))⟩
  | .applied name (.mk range args) =>
    if segmentCount name.text = 0 then do
      let edits ← foreignEdits name.text scope args
      pure ⟨edits, none⟩
    else do
      let count := segmentCount name.text
      let inScope ← setting.values scope
      if args.isEmpty then do
        let removal : List Edit :=
          if (inScope.take count).all SlotType.isPrimitive then [⟨range.start, range.stop, []⟩]
          else []
        let edits ← setting.rename scope name inScope
        pure ⟨removal ++ edits, some (inScope.take count)⟩
      else do
        let entries ← argEdits (some inScope) scope 0 args
        if entries.derived then do
          let values := entries.resolve inScope
          let edits ← setting.rename scope name values
          pure ⟨setting.listEdits range entries ++ edits, some (values.take count)⟩
        else do
          let values := List.replicate count SlotType.generic
          Traced.notice (.foreignArguments name.text
            ((substituteInOrder name.text values).getD []) (setting.span range))
          let edits ← setting.rename scope name values
          pure ⟨entries.edits ++ edits, some values⟩

def foreignEdits (owner : List Char) (scope : Scope Slot) : List TypeArg → Traced (List Edit)
  | [] => pure []
  | .unbounded _ :: rest => foreignEdits owner scope rest
  | .exact ref :: rest => do
    let first ← refEdits (some owner) scope ref
    let more ← foreignEdits owner scope rest
    pure (first.edits ++ more)
  | .bounded _ _ ref :: rest => do
    let first ← refEdits (some owner) scope ref
    let more ← foreignEdits owner scope rest
    pure (first.edits ++ more)

/-- Arguments that can be dropped. `inScope` holds the values that unbounded wildcards stand for,
by position; `position` is how many values came before. -/
def argEdits (inScope : Option (List SlotType)) (scope : Scope Slot) (position : Nat) :
    List TypeArg → Traced Entries
  | [] => pure .none
  | arg :: rest => do
    let first ← argEntry inScope scope position arg
    let more ← argEdits inScope scope (position + first.values.length) rest
    pure (first.append more)

def argEntry (inScope : Option (List SlotType)) (scope : Scope Slot) (position : Nat) :
    TypeArg → Traced Entries
  | .unbounded range =>
    match inScope with
    | none => do
      let text ← setting.render range []
      pure (.keep [] false text [])
    | some inScope =>
      match inScope[position]? with
      | none => do
        let text ← setting.render range []
        pure (.keep [none] true text [])
      | some value =>
        if value.isPrimitive then pure (.drop value)
        else do
          let text ← setting.render range []
          pure (.keep [some value] true text [])
  | .exact ref => do
    match ← setting.bareValue ref with
    | some value =>
      if value.isPrimitive then pure (.drop value)
      else do
        let text ← setting.render ref.range []
        pure (.keep [some value] true text [])
    | none => do
      let inner ← refEdits none scope ref
      let text ← setting.render ref.range inner.edits
      pure (.keep ((inner.values.getD []).map some) inner.values.isSome text inner.edits)
  | .bounded range _ ref => do
    match ← setting.bareValue ref with
    | some value =>
      if value.isPrimitive then pure (.drop value)
      else do
        let text ← setting.render range []
        pure (.keep [some value] true text [])
    | none => do
      let inner ← refEdits none scope ref
      let text ← setting.render range inner.edits
      pure (.keep ((inner.values.getD []).map some) true text inner.edits)

end

def refsEdits (scope : Scope Slot) : List TypeRef → Traced (List Edit)
  | [] => pure []
  | ref :: rest => do
    let first ← setting.refEdits none scope ref
    let more ← refsEdits scope rest
    pure (first.edits ++ more)

def explicitArgs (scope : Scope Slot) (args : TypeArgs) : Traced (List SlotType × List Edit) := do
  let entries ← setting.argEdits none scope 0 args.args
  pure (entries.resolve [], setting.listEdits args.range entries)

/-- A type parameter goes if it is a placeholder of a primitive slot. -/
def paramEntry (scope : Scope Slot) (param : TypeParam) : Traced Entries := do
  let value ← match Slot.ofText? param.name.text with
    | some slot => (Traced.lift (setting.binding.get slot)).andThen fun value => pure (some value)
    | none => pure none
  if value.any SlotType.isPrimitive then pure .omitted
  else do
    let edits ← setting.refsEdits scope param.bounds
    let text ← setting.render param.range edits
    pure (.keep [] true text edits)

def paramEntries (scope : Scope Slot) : List TypeParam → Traced Entries
  | [] => pure .none
  | param :: rest => do
    let first ← setting.paramEntry scope param
    let more ← paramEntries scope rest
    pure (first.append more)

def paramsEdits (scope : Scope Slot) (params : TypeParams) : Traced (List Edit) := do
  let entries ← setting.paramEntries scope params.params
  pure (setting.listEdits params.range entries)

end Setting

def TypeParams.declared (params : TypeParams) : List Slot :=
  params.params.filterMap fun param => Slot.ofText? param.name.text

def Scope.inside (scope : Scope Slot) (params : Option TypeParams) : Scope Slot :=
  scope.nested Slot.all ((params.map TypeParams.declared).getD [])

namespace Setting

variable (setting : Setting)

def optionalParams (scope : Scope Slot) : Option TypeParams → Traced (List Edit)
  | some params => setting.paramsEdits scope params
  | none => pure []

mutual

def memberEdits (scope : Scope Slot) : Member → Traced (List Edit)
  | .typeUse ref => do
    let found ← setting.refEdits none scope ref
    pure found.edits
  | .importDecl _ ref _ _ => do
    let found ← setting.refEdits none scope ref
    pure found.edits
  | .typeDecl _ _ name params supertypes members => do
    let inner := scope.inside params
    let values ← setting.values inner
    let nameEdits ← setting.rename inner name values
    let paramEdits ← setting.optionalParams inner params
    let superEdits ← setting.refsEdits inner supertypes
    let bodyEdits ← membersEdits inner members
    pure (nameEdits ++ paramEdits ++ superEdits ++ bodyEdits)
  | .methodDecl _ params members => do
    let inner := scope.inside (some params)
    let paramEdits ← setting.paramsEdits inner params
    let bodyEdits ← membersEdits inner members
    pure (paramEdits ++ bodyEdits)
  | .creation _ type members constructorArgs => do
    let argEdits ← match constructorArgs with
      | some args => do
        let explicit ← setting.explicitArgs scope args
        pure explicit.2
      | none => pure []
    let typeEdits ← setting.refEdits none scope type
    let bodyEdits ← membersEdits scope members
    pure (argEdits ++ typeEdits.edits ++ bodyEdits)
  | .witness _ args method => do
    let (values, argEdits) ← setting.explicitArgs scope args
    let inScope ← setting.values scope
    let nameEdits ← setting.rename scope method (values ++ inScope.drop values.length)
    pure (argEdits ++ nameEdits)

def membersEdits (scope : Scope Slot) : List Member → Traced (List Edit)
  | [] => pure []
  | member :: rest => do
    let first ← memberEdits scope member
    let more ← membersEdits scope rest
    pure (first ++ more)

end

end Setting

end Specializer
