import Specializer.Proofs.PositionalNames

set_option autoImplicit false

namespace Specializer

/-- The values that the slots have by position where the given ones are declared. -/
def Binding.inScope (binding : Binding) (slots : List Slot) : List SlotType :=
  (binding.order slots).filterMap binding.get?

/-- How many values a reference tells: as many as there are placeholders in the last of its names that
has some, and one if it is a placeholder itself. -/
def TypeRef.width (ref : TypeRef) : Nat :=
  if ref.slot?.isSome then 1
  else ((ref.segments.map fun segment => segmentCount segment.name.text).filter (0 < ·)).getLast?.getD 0

namespace Subtree

def width : Subtree → Nat
  | ref r | wildcard _ (some r) => r.width
  | wildcard _ none => 1
  | _ => 0

def standsFor? : Subtree → Option Slot
  | param declared => Slot.ofText? declared.name.text
  | ref r | wildcard _ (some r) => r.slot?
  | _ => none

end Subtree

namespace Binding

variable (binding : Binding)

/-- An entry of a list goes if it stands for a primitive: by its placeholder, or as a wildcard alone by
the value that is in scope at its position. -/
def drops (inScope : List SlotType) (position : Nat) : Subtree → Bool
  | .wildcard _ none => inScope[position]?.any SlotType.isPrimitive
  | entry => (entry.standsFor?.bind binding.get?).any SlotType.isPrimitive

/-- What is left of entries; the position of each is how many values those before it tell. -/
def survivors (inScope : List SlotType) : Nat → List Subtree → List Subtree
  | _, [] => []
  | position, entry :: rest =>
    let further := survivors inScope (position + entry.width) rest
    if binding.drops inScope position entry then further else entry :: further

theorem survivors_sublist (inScope : List SlotType) (position : Nat) (entries : List Subtree) :
    (binding.survivors inScope position entries).Sublist entries := by
  induction entries generalizing position with
  | nil => exact .slnil
  | cons entry rest ih =>
    rw [survivors]
    split
    next => exact (ih _).cons _
    next => exact (ih _).cons_cons _

end Binding

/-- How a subtree is visited: by itself, as an argument of a type that is no template, or as the list of
arguments of a template with the name. -/
inductive Manner
  | alone
  | foreign (owner : List Char)
  | template (name : List Char)
deriving DecidableEq

namespace Manner

def owner? : Manner → Option (List Char)
  | foreign owner => some owner
  | _ => none

def entry : Manner → Manner
  | foreign owner => foreign owner
  | _ => alone

end Manner

def Segment.part? : Segment → Option (Manner × Subtree)
  | .plain _ => none
  | .applied name list =>
    some (if hasPlaceholder name.text then .template name.text else .foreign name.text, .args list)

namespace Subtree

def parts (manner : Manner) : Subtree → List (Manner × Subtree)
  | ref r => r.segments.filterMap Segment.part?
  | args list => list.args.map fun arg => (manner.entry, arg.subtree)
  | wildcard _ bound => bound.toList.map fun r => (manner, ref r)
  | part => part.children.map fun child => (.alone, child)

def trims : Manner → Subtree → Bool
  | _, params _ => true
  | .foreign _, args _ => false
  | _, args _ => true
  | _, _ => false

theorem parts_children (manner : Manner) (part : Subtree) :
    (part.parts manner).map Prod.snd = part.children := by
  have segments (list : List Segment) :
      (list.filterMap Segment.part?).map Prod.snd = (list.filterMap Segment.args?).map args := by
    induction list with
    | nil => rfl
    | cons segment rest ih =>
      cases segment with
      | plain name => exact ih
      | applied name list => exact congrArg (args list :: ·) ih
  cases part with
  | ref r => exact segments r.segments
  | args list => simp [parts, children, Function.comp_def]
  | wildcard range bound => simp [parts, children, Function.comp_def]
  | _ => simp [parts, Function.comp_def]

end Subtree

namespace Setting

variable (setting : Setting)

def scopeOf (slots : List Slot) : Scope Slot := ⟨setting.binding.order slots⟩

/-- The edits of a node in the code. -/
def visit (slots : List Slot) (manner : Manner) : Subtree → Traced (List Edit)
  | .importDecl _ ref => do
    let found ← setting.refEdits none (setting.scopeOf slots) ref
    pure found.edits
  | .typeDecl range keyword name params supertypes members =>
    setting.memberEdits (setting.scopeOf slots) (.typeDecl range keyword name params supertypes members)
  | .methodDecl range params members =>
    setting.memberEdits (setting.scopeOf slots) (.methodDecl range params members)
  | .creation range type members constructorArgs =>
    setting.memberEdits (setting.scopeOf slots) (.creation range type members constructorArgs)
  | .witness range args method =>
    setting.memberEdits (setting.scopeOf slots) (.witness range args method)
  | .params list => setting.paramsEdits (setting.scopeOf slots) list
  | .param declared => setting.refsEdits (setting.scopeOf slots) declared.bounds
  | .ref ref | .wildcard _ (some ref) => do
    let found ← setting.refEdits manner.owner? (setting.scopeOf slots) ref
    pure found.edits
  | .args list =>
    match manner with
    | .alone => do
      let explicit ← setting.explicitArgs (setting.scopeOf slots) list
      pure explicit.2
    | .foreign owner => setting.foreignEdits owner (setting.scopeOf slots) list.args
    | .template name => do
      let inScope ← setting.values (setting.scopeOf slots)
      if list.args.isEmpty then
        pure (if (inScope.take (segmentCount name)).all SlotType.isPrimitive then
          [⟨list.range.start, list.range.stop, []⟩] else [])
      else do
        let entries ← setting.argEdits (some inScope) (setting.scopeOf slots) 0 list.args
        pure (setting.listEdits list.range entries)
  | .wildcard _ none | .unit _ | .doc _ => pure []

def rendering (slots : List Slot) (entry : Subtree) : Traced (List Char) := do
  let edits ← setting.visit slots .alone entry
  setting.render entry.range edits

def wildValues (slots : List Slot) : Manner → List SlotType
  | .template _ => setting.binding.inScope slots
  | _ => []

def rest (slots : List Slot) (manner : Manner) (list : Subtree) : List Subtree :=
  setting.binding.survivors (setting.wildValues slots manner) 0 list.children

def Bound (slots : List Slot) : Prop := ∀ slot ∈ slots, (setting.binding.get? slot).isSome = true

def Assembles (slots : List Slot) (names : List Name) (parts : List (Manner × Subtree))
    (edits : List Edit) : Prop :=
  ∃ (own : List Edit) (inner : List ((Manner × Subtree) × List Edit)),
    inner.map Prod.fst = parts ∧ (∀ edit ∈ own, ∃ name ∈ names, ∃ text, edit = replace name text) ∧
      (∀ pair ∈ inner, (setting.visit slots pair.1.1 pair.1.2).result = .ok pair.2) ∧
        ∀ edit, edit ∈ edits ↔ edit ∈ own ∨ ∃ pair ∈ inner, edit ∈ pair.2

inductive Visited (slots : List Slot) (manner : Manner) (part : Subtree) : List Edit → Prop
  | within {edits : List Edit}
      (assembles : setting.Assembles (part.within slots) part.names (part.parts manner) edits)
      (whole : part.trims manner = true → setting.rest slots manner part = part.children) :
      Visited slots manner part edits
  | rebuilt {texts : List (List Char)} (list : part.trims manner = true)
      (fewer : setting.rest slots manner part ≠ part.children)
      (rendered : List.Forall₂ (fun entry text => (setting.rendering slots entry).result = .ok text)
        (setting.rest slots manner part) texts) :
      Visited slots manner part [setting.reduce part.range texts]
  | removed {name : List Char} (diamond : part.children = []) (list : part.kind = .typeArgs)
      (template : manner = .template name) :
      Visited slots manner part [⟨part.range.start, part.range.stop, []⟩]

variable {setting} {slots : List Slot} {names : List Name}
  {parts further : List (Manner × Subtree)} {edits more : List Edit}

namespace Assembles

theorem none : setting.Assembles slots names [] [] :=
  ⟨[], [], rfl, List.forall_mem_nil _, List.forall_mem_nil _, by simp⟩

theorem name {name : Name} {values : List SlotType} {scope : Scope Slot} (own : name ∈ names)
    (renamed : (setting.rename scope name values).result = .ok edits) :
    setting.Assembles slots names [] edits := by
  refine ⟨edits, [], rfl, fun edit member => ⟨name, own, ?_⟩, List.forall_mem_nil _, by simp⟩
  rcases rename_ok renamed with ⟨-, rfl⟩ | ⟨-, text, -, rfl⟩
  next => cases member
  next => exact ⟨text, List.mem_singleton.mp member⟩

theorem part {manner : Manner} {part : Subtree}
    (visited : (setting.visit slots manner part).result = .ok edits) :
    setting.Assembles slots names [(manner, part)] edits :=
  ⟨[], [((manner, part), edits)], rfl, List.forall_mem_nil _, by simpa using visited, by simp⟩

theorem append (first : setting.Assembles slots names parts edits)
    (second : setting.Assembles slots names further more) :
    setting.Assembles slots names (parts ++ further) (edits ++ more) := by
  obtain ⟨own, inner, rfl, named, visited, all⟩ := first
  obtain ⟨own', inner', rfl, named', visited', all'⟩ := second
  refine ⟨own ++ own', inner ++ inner', List.map_append, ?_, ?_, fun edit => ?_⟩
  next => exact fun edit member => (List.mem_append.mp member).elim (named edit) (named' edit)
  next => exact fun pair member => (List.mem_append.mp member).elim (visited pair) (visited' pair)
  next =>
    simp only [List.mem_append, all, all', or_and_right, exists_or]
    exact or_or_or_comm

theorem mem_congr (assembles : setting.Assembles slots names parts edits)
    (same : ∀ edit, edit ∈ more ↔ edit ∈ edits) : setting.Assembles slots names parts more := by
  obtain ⟨own, inner, ofParts, named, visited, all⟩ := assembles
  exact ⟨own, inner, ofParts, named, visited, fun edit => (same edit).trans (all edit)⟩

end Assembles

section Single

variable {found : RefEdits} {ref : TypeRef} (manner : Manner)

theorem visit_ref (made : (setting.refEdits manner.owner? (setting.scopeOf slots) ref).result = .ok found) :
    (setting.visit slots manner (.ref ref)).result = .ok found.edits := by
  rw [visit, Traced.bind_ok]
  exact ⟨found, made, rfl⟩

theorem visit_wildcard (range : Range)
    (made : (setting.refEdits manner.owner? (setting.scopeOf slots) ref).result = .ok found) :
    (setting.visit slots manner (.wildcard range (some ref))).result = .ok found.edits :=
  visit_ref manner made

theorem visit_explicit {list : TypeArgs} {explicit : List SlotType × List Edit}
    (made : (setting.explicitArgs (setting.scopeOf slots) list).result = .ok explicit) :
    (setting.visit slots .alone (.args list)).result = .ok explicit.2 := by
  simp only [visit, Traced.bind_ok]
  exact ⟨explicit, made, rfl⟩

end Single

section Scopes

theorem values_inScope {values : List SlotType}
    (made : (setting.scopeOf slots).values setting.binding = .ok values) :
    values = setting.binding.inScope slots := by
  have each : (setting.binding.order slots).map setting.binding.get? = values.map some :=
    Scope.values_bound made
  have known := congrArg (List.filterMap id) each
  simpa [List.filterMap_map, Binding.inScope] using known.symm

theorem scopeOf_inside {params : Option TypeParams} (bound : setting.Bound slots)
    (declared : ∀ slot ∈ (params.map TypeParams.declared).getD [],
      (setting.binding.get? slot).isSome = true) :
    (setting.scopeOf slots).inside params =
      setting.scopeOf (if (params.map TypeParams.declared).getD [] = [] then slots
        else (params.map TypeParams.declared).getD []) := by
  have follows : (setting.scopeOf slots).Follows setting.binding slots := ⟨rfl, bound⟩
  exact congrArg Scope.mk (follows.inside declared).order

end Scopes

end Setting

end Specializer
