import Specializer.Proofs.Outcomes
import Specializer.Proofs.Placeholders
import Specializer.Proofs.Rules
import Specializer.Proofs.Subtree

set_option autoImplicit false

namespace Specializer

def TypeRef.slot? : TypeRef → Option Slot
  | .mk _ [.plain name] _ => Slot.ofText? name.text
  | _ => none

def Subtree.keyword? : Subtree → Option Name
  | .typeDecl _ keyword _ _ _ _ => some keyword
  | _ => none

def Respelled (old new : List Char) : Prop :=
  Filled (pieces old) new ∨ ∃ type : SlotType, new = type.spelling.toList

theorem Respelled.plain {old new : List Char} (spelled : Respelled old new) :
    hasPlaceholder new = false := by
  rcases spelled with filled | ⟨type, rfl⟩
  · exact filled.plain
  · cases type <;> decide

namespace Setting

/-- The names of type parameters and of references to a generic slot stay as they are. A type
parameter that is a placeholder of a primitive slot is not there any more. -/
def Retains (setting : Setting) : Subtree → Prop
  | .param declared => ∀ slot value, Slot.ofText? declared.name.text = some slot →
      setting.binding.get? slot = some value → value.isGeneric = true
  | .ref ref => ∃ slot, ref.slot? = some slot ∧ setting.binding.get? slot = some .generic
  | _ => False

inductive Respells (setting : Setting) (part : Subtree) (name : Name) : List Edit → Prop
  | stays (reason : hasPlaceholder name.text = false ∨ setting.Retains part ∨
      part.keyword? = some name) : Respells setting part name []
  | changes {text : List Char} (has : hasPlaceholder name.text = true)
      (other : ¬ setting.Retains part) (spelled : Respelled name.text text) :
      Respells setting part name [replace name text]

structure Kept where
  part : Subtree
  edits : List Edit
  text : List Char

/-- The edits that a subtree gives rise to, in any order. -/
inductive Treats (setting : Setting) : Subtree → List Edit → Prop
  | within {part : Subtree} {edits : List Edit} (renamed : List (Name × List Edit))
      (inner : List (Subtree × List Edit)) (names : renamed.map Prod.fst = part.names)
      (children : inner.map Prod.fst = part.children)
      (respells : ∀ pair ∈ renamed, setting.Respells part pair.1 pair.2)
      (treats : ∀ pair ∈ inner, setting.Treats pair.1 pair.2)
      (all : edits.Perm (renamed.flatMap Prod.snd ++ inner.flatMap Prod.snd)) :
      setting.Treats part edits
  -- Edits inside a list that is rebuilt are gone: their text is in the one edit.
  | rebuilt {part : Subtree} (kept : List Kept)
      (list : part.kind = .typeParams ∨ part.kind = .typeArgs)
      (entries : (kept.map Kept.part).Sublist part.children)
      (treats : ∀ entry ∈ kept, setting.Treats entry.part entry.edits)
      (rendered : ∀ entry ∈ kept,
        (setting.render entry.part.range entry.edits).result = .ok entry.text)
      (others : ∀ child ∈ part.children, setting.Retains child → child ∈ kept.map Kept.part) :
      setting.Treats part [setting.reduce part.range (kept.map Kept.text)]
  -- A diamond goes alone, without the blanks around it.
  | removed {part : Subtree} (list : part.kind = .typeArgs) (empty : part.children = []) :
      setting.Treats part [⟨part.range.start, part.range.stop, []⟩]

variable {setting : Setting}

/-- Edits of some names of a node and of some subtrees taken together. -/
def Collects (setting : Setting) (part : Subtree) (names : List Name) (parts : List Subtree)
    (edits : List Edit) : Prop :=
  ∃ (renamed : List (Name × List Edit)) (inner : List (Subtree × List Edit)),
    renamed.map Prod.fst = names ∧ inner.map Prod.fst = parts ∧
      (∀ pair ∈ renamed, setting.Respells part pair.1 pair.2) ∧
        (∀ pair ∈ inner, setting.Treats pair.1 pair.2) ∧
          edits.Perm (renamed.flatMap Prod.snd ++ inner.flatMap Prod.snd)

namespace Collects

variable {node : Subtree} {names others : List Name} {parts further : List Subtree}
  {edits more : List Edit}

theorem treats {part : Subtree} (collects : setting.Collects part part.names part.children edits) :
    setting.Treats part edits := by
  obtain ⟨renamed, inner, ofNames, ofChildren, respells, treats, all⟩ := collects
  exact .within renamed inner ofNames ofChildren respells treats all

theorem none : setting.Collects node [] [] [] :=
  ⟨[], [], rfl, rfl, nofun, nofun, .refl _⟩

theorem name {name : Name} (respells : setting.Respells node name edits) :
    setting.Collects node [name] [] edits :=
  ⟨[(name, edits)], [], rfl, rfl, by simpa using respells, nofun, by simp⟩

theorem part {part : Subtree} (treats : setting.Treats part edits) :
    setting.Collects node [] [part] edits :=
  ⟨[], [(part, edits)], rfl, rfl, nofun, by simpa using treats, by simp⟩

theorem perm (collects : setting.Collects node names parts edits) (same : more.Perm edits) :
    setting.Collects node names parts more := by
  obtain ⟨renamed, inner, ofNames, ofParts, respells, treats, all⟩ := collects
  exact ⟨renamed, inner, ofNames, ofParts, respells, treats, same.trans all⟩

theorem append (first : setting.Collects node names parts edits)
    (second : setting.Collects node others further more) :
    setting.Collects node (names ++ others) (parts ++ further) (edits ++ more) := by
  obtain ⟨renamed, inner, rfl, rfl, respells, treats, all⟩ := first
  obtain ⟨renamed', inner', rfl, rfl, respells', treats', all'⟩ := second
  refine ⟨renamed ++ renamed', inner ++ inner', List.map_append, List.map_append, ?_, ?_, ?_⟩
  · intro pair member
    exact (List.mem_append.mp member).elim (respells pair) (respells' pair)
  · intro pair member
    exact (List.mem_append.mp member).elim (treats pair) (treats' pair)
  · refine (all.append all').trans ?_
    simp only [List.flatMap_append, List.append_assoc]
    refine List.Perm.append_left _ ?_
    rw [← List.append_assoc, ← List.append_assoc]
    exact List.perm_append_comm.append_right _

theorem gather {ι : Type} {place : ι → Subtree} {items : List ι} {each : List (List Edit)}
    (all : List.Forall₂ (fun item edits => setting.Treats (place item) edits) items each) :
    setting.Collects node [] (items.map place) each.flatten := by
  induction all with
  | nil => exact .none
  | cons first _ ih => exact (part first).append ih

end Collects

inductive Enters (setting : Setting) (part : Subtree) : Entries → Prop
  | goes {entry : Entries} (edits : entry.edits = []) (kept : entry.kept = [])
      (dropped : entry.dropped = true) (derived : entry.derived = true)
      (other : ¬ setting.Retains part) : Enters setting part entry
  | stays {entry : Entries} {text : List Char} (kept : entry.kept = [text])
      (dropped : entry.dropped = false) (treats : setting.Treats part entry.edits)
      (rendered : (setting.render part.range entry.edits).result = .ok text) :
      Enters setting part entry

inductive Lists (setting : Setting) : List Subtree → Entries → Prop
  | nil : Lists setting [] .none
  | cons {part : Subtree} {parts : List Subtree} {entry more : Entries}
      (enters : setting.Enters part entry) (lists : setting.Lists parts more) :
      Lists setting (part :: parts) (entry.append more)

namespace Lists

variable {parts : List Subtree} {entries : Entries}

theorem join {ι : Type} {place : ι → Subtree} {items : List ι} {each : List Entries}
    (all : List.Forall₂ (fun item entry => setting.Enters (place item) entry) items each) :
    setting.Lists (items.map place) (Entries.join each) := by
  induction all with
  | nil => exact .nil
  | cons first _ ih => exact .cons first ih

theorem dropped_derived (lists : setting.Lists parts entries) (dropped : entries.dropped = true) :
    entries.derived = true := by
  induction lists with
  | nil => cases dropped
  | @cons part parts entry more enters lists ih =>
    simp only [Entries.append, Bool.or_eq_true] at dropped ⊢
    cases enters with
    | goes _ _ _ derived => exact .inl derived
    | stays _ whole => exact .inr (ih (by simpa [whole] using dropped))

-- A list that tells no value has lost no entry.
theorem whole (lists : setting.Lists parts entries) (unknown : entries.derived = false) :
    entries.dropped = false := by
  by_contra dropped
  rw [lists.dropped_derived (eq_true_of_ne_false dropped)] at unknown
  cases unknown

theorem collects {node : Subtree} (lists : setting.Lists parts entries)
    (whole : entries.dropped = false) : setting.Collects node [] parts entries.edits := by
  induction lists with
  | nil => exact .none
  | cons enters lists ih =>
    simp only [Entries.append, Bool.or_eq_false_iff] at whole
    cases enters with
    | goes _ _ dropped => simp [dropped] at whole
    | stays _ _ treats => exact (Collects.part treats).append (ih whole.2)

theorem kept (lists : setting.Lists parts entries) :
    ∃ kept : List Kept, (kept.map Kept.part).Sublist parts ∧
      (∀ entry ∈ kept, setting.Treats entry.part entry.edits) ∧
      (∀ entry ∈ kept, (setting.render entry.part.range entry.edits).result = .ok entry.text) ∧
      (∀ part ∈ parts, setting.Retains part → part ∈ kept.map Kept.part) ∧
      entries.kept = kept.map Kept.text := by
  induction lists with
  | nil => exact ⟨[], .slnil, nofun, nofun, nofun, rfl⟩
  | @cons part parts entry more enters lists ih =>
    obtain ⟨kept, entries, treats, rendered, others, same⟩ := ih
    cases enters with
    | goes _ none _ _ other =>
      refine ⟨kept, entries.cons _, treats, rendered, ?_, by simp [Entries.append, none, same]⟩
      intro part member retains
      rcases List.mem_cons.mp member with rfl | later
      · exact absurd retains other
      · exact others part later retains
    | @stays text one _ treat render =>
      refine ⟨⟨part, entry.edits, text⟩ :: kept, entries.cons_cons _, ?_, ?_, ?_, ?_⟩
      · simpa using ⟨treat, treats⟩
      · simpa using ⟨render, rendered⟩
      · intro other member retains
        rcases List.mem_cons.mp member with rfl | later
        · exact List.mem_cons_self
        · exact List.mem_cons_of_mem _ (others other later retains)
      · simp [Entries.append, one, same]

theorem treats {part : Subtree} (lists : setting.Lists part.children entries)
    (list : part.kind = .typeParams ∨ part.kind = .typeArgs) :
    setting.Treats part (setting.listEdits part.range entries) := by
  have nameless : part.names = [] := by cases part <;> simp_all [Subtree.kind, Subtree.names]
  unfold listEdits
  split
  next =>
    obtain ⟨kept, entries, treats, rendered, others, same⟩ := lists.kept
    rw [same]
    exact .rebuilt kept list entries treats rendered others
  next whole =>
    have collects : setting.Collects part [] part.children entries.edits :=
      lists.collects (Bool.eq_false_iff.mpr whole)
    exact Collects.treats (nameless ▸ collects)

end Lists

variable {scope : Scope Slot}

theorem rename_ok {name : Name} {values : List SlotType} {edits : List Edit}
    (made : (setting.rename scope name values).result = .ok edits) :
    (hasPlaceholder name.text = false ∧ edits = []) ∨
      (hasPlaceholder name.text = true ∧
        ∃ text, Filled (pieces name.text) text ∧ edits = [replace name text]) := by
  rw [rename] at made
  split at made
  next => cases made
  next new substituted =>
    rw [Traced.pure_ok] at made
    by_cases has : hasPlaceholder name.text = true
    · rw [if_neg (substituteInOrder_changed has substituted)] at made
      exact .inr ⟨has, new, fillInOrder_filled substituted, made.symm⟩
    · rw [substituteInOrder_plain (Bool.eq_false_iff.mpr has)] at substituted
      rw [if_pos (Option.some.inj substituted).symm] at made
      exact .inl ⟨Bool.eq_false_iff.mpr has, made.symm⟩

theorem rename_respells {part : Subtree} {name : Name} {values : List SlotType} {edits : List Edit}
    (other : ¬ setting.Retains part)
    (made : (setting.rename scope name values).result = .ok edits) :
    setting.Respells part name edits := by
  rcases rename_ok made with ⟨plain, rfl⟩ | ⟨has, text, filled, rfl⟩
  · exact .stays (.inl plain)
  · exact .changes has other (.inl filled)

theorem bareSlot_some {ref : TypeRef} {slot : Slot}
    (made : (setting.bareSlot ref).result = .ok (some slot)) :
    ∃ range name dims, ref = .mk range [.plain name] dims ∧ Slot.ofText? name.text = some slot := by
  unfold bareSlot at made
  split at made
  next range name dims => exact ⟨range, name, dims, rfl, Traced.pure_ok.mp made⟩
  next =>
    split at made
    next => cases made
    next => cases made
  next => cases made

theorem bareValue_some {ref : TypeRef} {value : SlotType}
    (made : (setting.bareValue ref).result = .ok (some value)) :
    ∃ slot, (setting.bareSlot ref).result = .ok (some slot) ∧
      setting.binding.get slot = .ok value := by
  rw [bareValue, Traced.bind_ok] at made
  obtain ⟨bare, found, made⟩ := made
  cases bare with
  | none => cases made
  | some slot =>
    simp only [Traced.bind_ok, Traced.lift_ok, Traced.pure_ok] at made
    obtain ⟨got, bound, same⟩ := made
    exact ⟨slot, found, Option.some.inj same ▸ bound⟩

theorem bareSlot_ok {ref : TypeRef} {bare : Option Slot}
    (made : (setting.bareSlot ref).result = .ok bare) : ref.slot? = bare := by
  unfold bareSlot at made
  split at made
  next => exact Traced.pure_ok.mp made
  next range name args dims =>
    split at made
    next => cases made
    next => exact Traced.pure_ok.mp made
  next plain applied =>
    rw [← Traced.pure_ok.mp made]
    unfold TypeRef.slot?
    split
    next range name dims => exact (plain range name dims rfl).elim
    next => rfl

theorem get?_of_get {slot : Slot} {value : SlotType} (bound : setting.binding.get slot = .ok value) :
    setting.binding.get? slot = some value := by
  rw [Binding.get] at bound
  split at bound
  next type same => rw [same, Except.ok.inj bound]
  next => cases bound

theorem ref_retains {ref : TypeRef} {slot : Slot} {value : SlotType} (bare : ref.slot? = some slot)
    (bound : setting.binding.get slot = .ok value) :
    setting.Retains (.ref ref) ↔ value.isGeneric = true := by
  simp only [Retains, bare, Option.some.injEq, exists_eq_left', get?_of_get bound]
  cases value <;> simp [SlotType.isGeneric]

theorem bareEdit_respells {owner : Option (List Char)} {range : Range} {name : Name} {dims : Nat}
    {slot : Slot} {value : SlotType} {edits : List Edit}
    (named : Slot.ofText? name.text = some slot) (bound : setting.binding.get slot = .ok value)
    (made : (setting.bareEdit owner (.mk range [.plain name] dims) slot value).result = .ok edits) :
    setting.Respells (.ref (.mk range [.plain name] dims)) name edits := by
  have has : hasPlaceholder name.text = true :=
    hasPlaceholder_iff.mpr ⟨slot, Slot.ofText?_some named ▸ List.infix_refl _⟩
  have retains : setting.Retains (.ref (.mk range [.plain name] dims)) ↔ value.isGeneric = true :=
    ref_retains named bound
  simp only [bareEdit, TypeRef.segments, List.getLast?_singleton] at made
  split at made
  next generic => exact Traced.pure_ok.mp made ▸ .stays (.inr (.inl (retains.mpr generic)))
  next primitive =>
    have changes (type : SlotType) : setting.Respells (.ref (.mk range [.plain name] dims)) name
        [replace name type.spelling.toList] := .changes has (mt retains.mp primitive) (.inr ⟨type, rfl⟩)
    split at made
    next =>
      split at made
      next =>
        simp only [Traced.bind_ok, Traced.pure_ok] at made
        obtain ⟨_, -, rfl⟩ := made
        exact changes .generic
      next => exact Traced.pure_ok.mp made ▸ changes value
    next => exact Traced.pure_ok.mp made ▸ changes value

theorem segmentEdits_applied {name : Name} {range : Range} {args : List TypeArg} {found : RefEdits}
    (made : (setting.segmentEdits scope (.applied name (.mk range args))).result = .ok found) :
    (hasPlaceholder name.text = false ∧ ∃ edits,
        (setting.foreignEdits name.text scope args).result = .ok edits ∧ found = ⟨edits, none⟩) ∨
      (hasPlaceholder name.text = true ∧ ∃ inScope values list new,
        scope.values setting.binding = .ok inScope ∧
        (setting.rename scope name values).result = .ok new ∧
        found = ⟨list ++ new, some (values.take (segmentCount name.text))⟩ ∧
        ((args = [] ∧ values = inScope ∧
            list = if (inScope.take (segmentCount name.text)).all SlotType.isPrimitive then
              [⟨range.start, range.stop, []⟩] else []) ∨
          (args ≠ [] ∧ ∃ entries,
            (setting.argEdits (some inScope) scope 0 args).result = .ok entries ∧
            ((entries.derived = true ∧ values = entries.resolve inScope ∧
                list = setting.listEdits range entries) ∨
              (entries.derived = false ∧
                values = List.replicate (segmentCount name.text) .generic ∧
                list = entries.edits))))) := by
  rw [segmentEdits] at made
  split at made
  -- Without placeholders in the name only the arguments count.
  next zero =>
    simp only [Traced.bind_ok, Traced.pure_ok] at made
    obtain ⟨edits, foreign, rfl⟩ := made
    exact .inl ⟨segmentCount_eq_zero.mp zero, edits, foreign, rfl⟩
  next more =>
    have has : hasPlaceholder name.text = true :=
      eq_true_of_ne_false fun plain => more (segmentCount_eq_zero.mpr plain)
    simp only [Traced.bind_ok] at made
    obtain ⟨inScope, bound, made⟩ := made
    split at made
    -- A diamond takes the values in scope.
    next diamond =>
      simp only [Traced.bind_ok, Traced.pure_ok] at made
      obtain ⟨new, renamed, rfl⟩ := made
      exact .inr ⟨has, inScope, inScope, _, new, bound, renamed, rfl,
        .inl ⟨List.isEmpty_iff.mp diamond, rfl, rfl⟩⟩
    next explicit =>
      have nonempty : args ≠ [] := fun empty => explicit (List.isEmpty_iff.mpr empty)
      rw [Traced.bind_ok] at made
      obtain ⟨entries, ofArgs, made⟩ := made
      split at made
      next derived =>
        simp only [Traced.bind_ok, Traced.pure_ok] at made
        obtain ⟨new, renamed, rfl⟩ := made
        exact .inr ⟨has, inScope, _, _, new, bound, renamed, rfl,
          .inr ⟨nonempty, entries, ofArgs, .inl ⟨derived, rfl, rfl⟩⟩⟩
      -- Arguments that tell no values leave the name generic.
      next unknown =>
        simp only [Traced.bind_ok, Traced.pure_ok] at made
        obtain ⟨_, -, new, renamed, rfl⟩ := made
        refine .inr ⟨has, inScope, _, _, new, bound, renamed, ?_,
          .inr ⟨nonempty, entries, ofArgs, .inr ⟨Bool.eq_false_iff.mpr unknown, rfl, rfl⟩⟩⟩
        rw [List.take_replicate, Nat.min_self]

theorem bare_treats {ref : TypeRef} {value : SlotType}
    (made : (setting.bareValue ref).result = .ok (some value)) (kept : value.isPrimitive = false) :
    setting.Treats (.ref ref) [] := by
  obtain ⟨slot, found, bound⟩ := bareValue_some made
  have bare := bareSlot_ok found
  obtain ⟨range, name, dims, rfl, -⟩ := bareSlot_some found
  have generic : value.isGeneric = true := by simpa [SlotType.isPrimitive] using kept
  exact (Collects.name (.stays (.inr (.inl ((ref_retains bare bound).mpr generic))))).treats

theorem bare_goes {ref : TypeRef} {value : SlotType}
    (made : (setting.bareValue ref).result = .ok (some value)) (primitive : value.isPrimitive = true) :
    ¬ setting.Retains (.ref ref) := by
  obtain ⟨slot, found, bound⟩ := bareValue_some made
  rw [ref_retains (bareSlot_ok found) bound]
  simpa [SlotType.isPrimitive] using primitive

section References

variable {node : Subtree} {edits : List Edit} {entries : Entries}

theorem segmentsEdits_collects {segments : List Segment} {found : RefEdits}
    (each : ∀ segment ∈ segments, ∀ {found}, (setting.segmentEdits scope segment).result = .ok found →
      setting.Collects node [segment.name] (segment.args?.toList.map Subtree.args) found.edits)
    (made : (setting.segmentsEdits scope segments).result = .ok found) :
    setting.Collects node (segments.map Segment.name)
      ((segments.filterMap Segment.args?).map Subtree.args) found.edits := by
  induction segments generalizing found with
  | nil =>
    rw [segmentsEdits, Traced.pure_ok] at made
    subst made
    exact .none
  | cons segment rest ih =>
    rw [segmentsEdits] at made
    simp only [Traced.bind_ok, Traced.pure_ok] at made
    obtain ⟨first, ofFirst, more, ofRest, rfl⟩ := made
    have later := ih (fun segment member => each segment (List.mem_cons_of_mem _ member)) ofRest
    have both := (each segment List.mem_cons_self ofFirst).append later
    cases segment <;> exact both

theorem foreignEntry_treats {owner : List Char} {arg : TypeArg}
    (inner : ∀ ref ∈ arg.ref?, ∀ {found},
      (setting.refEdits (some owner) scope ref).result = .ok found → setting.Treats (.ref ref) found.edits)
    (made : (setting.foreignEntry owner scope arg).result = .ok edits) : setting.Treats arg.subtree edits := by
  cases arg with
  | unbounded range =>
    cases Traced.pure_ok.mp made
    exact Collects.none.treats
  | exact ref =>
    simp only [foreignEntry, TypeArg.ref?, Traced.bind_ok, Traced.pure_ok] at made
    obtain ⟨found, visited, rfl⟩ := made
    exact inner ref rfl visited
  | bounded range kind ref =>
    simp only [foreignEntry, TypeArg.ref?, Traced.bind_ok, Traced.pure_ok] at made
    obtain ⟨found, visited, rfl⟩ := made
    exact (Collects.part (inner ref rfl visited)).treats

theorem foreignEdits_collects (node : Subtree) {owner : List Char} {args : List TypeArg}
    (inner : ∀ arg ∈ args, ∀ ref ∈ arg.ref?, ∀ {found},
      (setting.refEdits (some owner) scope ref).result = .ok found → setting.Treats (.ref ref) found.edits)
    (made : (setting.foreignEdits owner scope args).result = .ok edits) :
    setting.Collects node [] (args.map TypeArg.subtree) edits := by
  rw [foreignEdits_eq] at made
  simp only [Traced.bind_ok, Traced.pure_ok] at made
  obtain ⟨each, visited, rfl⟩ := made
  exact .gather (Traced.mapM_ok (fun arg member _ made => foreignEntry_treats (inner arg member) made) visited)

theorem argEntry_enters {inScope : Option (List SlotType)} {position : Nat} {arg : TypeArg}
    (inner : ∀ ref ∈ arg.ref?, ∀ {found},
      (setting.refEdits none scope ref).result = .ok found → setting.Treats (.ref ref) found.edits)
    (made : (setting.argEntry inScope scope position arg).result = .ok entries) :
    setting.Enters arg.subtree entries := by
  -- An argument that is kept is treated as its reference is, whether it is that or bounded by it.
  have entered (part : Subtree) (derived : RefEdits → Bool) (ref : TypeRef) (has : ref ∈ arg.ref?)
      (made : (setting.refEntry scope part.range derived ref).result = .ok entries)
      (around : ∀ edits, setting.Treats (.ref ref) edits → setting.Treats part edits)
      (held : setting.Retains part → setting.Retains (.ref ref)) : setting.Enters part entries := by
    rcases refEntry_ok made with
      ⟨value, isBare, ⟨primitive, rfl⟩ | ⟨kept, text, rendered, rfl⟩⟩ |
      ⟨found, text, -, ofRef, rendered, rfl⟩
    · exact .goes rfl rfl rfl rfl fun retains => bare_goes isBare primitive (held retains)
    · exact .stays rfl rfl (around _ (bare_treats isBare kept)) rendered
    · exact .stays rfl rfl (around _ (inner ref has ofRef)) rendered
  cases arg with
  | unbounded range =>
    rcases argEntry_unbounded_ok made with ⟨_, _, -, -, -, rfl⟩ | ⟨-, _, _, _, rendered, rfl⟩
    · exact .goes rfl rfl rfl rfl id
    · exact .stays rfl rfl Collects.none.treats rendered
  | exact ref =>
    rw [argEntry_exact] at made
    exact entered (.ref ref) _ ref rfl made (fun _ treats => treats) id
  | bounded range kind ref =>
    rw [argEntry_bounded] at made
    exact entered (.wildcard range (some ref)) _ ref rfl made
      (fun _ treats => (Collects.part treats).treats) False.elim

theorem argEdits_lists {inScope : Option (List SlotType)} {position : Nat} {args : List TypeArg}
    (inner : ∀ arg ∈ args, ∀ ref ∈ arg.ref?, ∀ {found},
      (setting.refEdits none scope ref).result = .ok found → setting.Treats (.ref ref) found.edits)
    (made : (setting.argEdits inScope scope position args).result = .ok entries) :
    setting.Lists (args.map TypeArg.subtree) entries := by
  induction args generalizing position entries with
  | nil =>
    rw [argEdits, Traced.pure_ok] at made
    subst made
    exact .nil
  | cons arg rest ih =>
    rw [argEdits] at made
    simp only [Traced.bind_ok, Traced.pure_ok] at made
    obtain ⟨first, ofFirst, more, ofRest, rfl⟩ := made
    exact .cons (argEntry_enters (inner arg List.mem_cons_self) ofFirst)
      (ih (fun arg member => inner arg (List.mem_cons_of_mem _ member)) ofRest)

theorem segmentEdits_collects {segment : Segment} {found : RefEdits} (other : ¬ setting.Retains node)
    (inner : ∀ ref ∈ segment.refs, ∀ {owner found},
      (setting.refEdits owner scope ref).result = .ok found → setting.Treats (.ref ref) found.edits)
    (made : (setting.segmentEdits scope segment).result = .ok found) :
    setting.Collects node [segment.name] (segment.args?.toList.map Subtree.args) found.edits := by
  cases segment with
  | plain name =>
    rw [segmentEdits] at made
    split at made
    next zero =>
      rw [Traced.pure_ok] at made
      subst made
      exact .name (.stays (.inl (segmentCount_eq_zero.mp zero)))
    next =>
      simp only [Traced.bind_ok, Traced.pure_ok] at made
      obtain ⟨values, -, edits, renamed, rfl⟩ := made
      exact .name (rename_respells other renamed)
  | applied name args =>
    cases args with
    | mk range args =>
      have inside : ∀ arg ∈ args, ∀ ref ∈ arg.ref?, ∀ {owner found},
          (setting.refEdits owner scope ref).result = .ok found → setting.Treats (.ref ref) found.edits :=
        fun arg member ref has => inner ref (List.mem_filterMap.mpr ⟨arg, member, has⟩)
      rcases segmentEdits_applied made with
        ⟨plain, edits, foreign, rfl⟩ | ⟨-, inScope, values, list, new, -, renamed, rfl, source⟩
      · have treats : setting.Treats (.args (.mk range args)) edits :=
          (foreignEdits_collects _ (fun arg member ref has => inside arg member ref has) foreign).treats
        exact (Collects.name (.stays (.inl plain))).append (.part treats)
      · have treats : setting.Treats (.args (.mk range args)) list := by
          rcases source with ⟨rfl, -, rfl⟩ | ⟨-, entries, ofArgs, source⟩
          · split
            next => exact .removed rfl rfl
            next => exact Collects.none.treats
          · have lists := argEdits_lists (fun arg member ref has => inside arg member ref has) ofArgs
            rcases source with ⟨-, -, rfl⟩ | ⟨unknown, -, rfl⟩
            · exact Lists.treats lists (.inr rfl)
            · exact (lists.collects (lists.whole unknown)).treats
        exact (Collects.part treats).append (.name (rename_respells other renamed))

theorem refEdits_treats {owner : Option (List Char)} {ref : TypeRef} {found : RefEdits}
    (made : (setting.refEdits owner scope ref).result = .ok found) :
    setting.Treats (.ref ref) found.edits := by
  induction ref using TypeRef.induction generalizing owner found with
  | mk range segments dims inner =>
    rw [refEdits, Traced.bind_ok] at made
    obtain ⟨bare, isBare, made⟩ := made
    cases bare with
    | none =>
      have other : ¬ setting.Retains (.ref (.mk range segments dims)) := by
        rintro ⟨slot, named, -⟩
        rw [bareSlot_ok isBare] at named
        cases named
      exact (segmentsEdits_collects (fun segment member _ =>
        segmentEdits_collects other (inner segment member)) made).treats
    | some slot =>
      obtain ⟨_, name, _, same, named⟩ := bareSlot_some isBare
      cases same
      simp only [Traced.bind_ok, Traced.pure_ok] at made
      obtain ⟨value, bound, edits, edited, rfl⟩ := made
      exact (Collects.name (bareEdit_respells named bound edited)).treats

theorem refsEdits_collects (node : Subtree) {refs : List TypeRef}
    (made : (setting.refsEdits scope refs).result = .ok edits) :
    setting.Collects node [] (refs.map Subtree.ref) edits := by
  rw [refsEdits_eq] at made
  simp only [Traced.bind_ok, Traced.pure_ok] at made
  obtain ⟨each, visited, rfl⟩ := made
  refine .gather (List.forall₂_map_right_iff.mpr (Traced.mapM_ok (fun ref _ found => ?_) visited))
  exact refEdits_treats

end References

theorem explicitArgs_treats {args : TypeArgs} {explicit : List SlotType × List Edit}
    (made : (setting.explicitArgs scope args).result = .ok explicit) :
    setting.Treats (.args args) explicit.2 := by
  rw [explicitArgs] at made
  simp only [Traced.bind_ok, Traced.pure_ok] at made
  obtain ⟨entries, ofArgs, rfl⟩ := made
  exact Lists.treats (argEdits_lists (fun _ _ _ _ => refEdits_treats) ofArgs) (.inr rfl)

theorem paramEntry_enters {param : TypeParam} {entries : Entries}
    (made : (setting.paramEntry scope param).result = .ok entries) :
    setting.Enters (.param param) entries := by
  rcases paramEntry_ok made with ⟨slot, value, named, bound, primitive, rfl⟩ |
    ⟨kept, edits, text, ofBounds, rendered, rfl⟩
  · refine .goes rfl rfl rfl rfl fun retains => ?_
    have generic := retains slot value named (get?_of_get bound)
    simp [SlotType.isPrimitive, generic] at primitive
  · have name : setting.Respells (.param param) param.name [] := by
      refine .stays (.inr (.inl fun slot value named bound => ?_))
      simpa [SlotType.isPrimitive] using kept slot value named (by simp [Binding.get, bound])
    exact .stays rfl rfl ((Collects.name name).append (refsEdits_collects _ ofBounds)).treats rendered

theorem paramEntries_lists {params : List TypeParam} {entries : Entries}
    (made : (setting.paramEntries scope params).result = .ok entries) :
    setting.Lists (params.map Subtree.param) entries := by
  rw [paramEntries_eq] at made
  simp only [Traced.bind_ok, Traced.pure_ok] at made
  obtain ⟨each, visited, rfl⟩ := made
  exact .join (Traced.mapM_ok (fun _ _ _ => paramEntry_enters) visited)

theorem paramsEdits_treats {params : TypeParams} {edits : List Edit}
    (made : (setting.paramsEdits scope params).result = .ok edits) :
    setting.Treats (.params params) edits := by
  rw [paramsEdits] at made
  simp only [Traced.bind_ok, Traced.pure_ok] at made
  obtain ⟨entries, ofParams, rfl⟩ := made
  exact Lists.treats (paramEntries_lists ofParams) (.inl rfl)

theorem optionalParams_collects (node : Subtree) {params : Option TypeParams} {edits : List Edit}
    (made : (setting.optionalParams scope params).result = .ok edits) :
    setting.Collects node [] (params.toList.map Subtree.params) edits := by
  cases params with
  | none =>
    rw [optionalParams, Traced.pure_ok] at made
    subst made
    exact .none
  | some params => exact .part (paramsEdits_treats made)

theorem creation_ok {scope : Scope Slot} {range : Range} {type : TypeRef} {members : List Member}
    {constructorArgs : Option TypeArgs} {edits : List Edit}
    (made : (setting.memberEdits scope (.creation range type members constructorArgs)).result = .ok edits) :
    ∃ ofArgs found ofBody, edits = ofArgs ++ found.edits ++ ofBody ∧
      (setting.refEdits none scope type).result = .ok found ∧
      (setting.membersEdits scope members).result = .ok ofBody ∧
      (constructorArgs = none ∧ ofArgs = [] ∨ ∃ args explicit, constructorArgs = some args ∧
        (setting.explicitArgs scope args).result = .ok explicit ∧ ofArgs = explicit.2) := by
  rw [memberEdits_creation] at made
  simp only [Traced.bind_ok, Traced.pure_ok] at made
  obtain ⟨ofArgs, given, found, visited, ofBody, inside, rfl⟩ := made
  refine ⟨ofArgs, found, ofBody, rfl, visited, inside, ?_⟩
  cases constructorArgs with
  | none => exact .inl ⟨rfl, (Traced.pure_ok.mp given).symm⟩
  | some args =>
    simp only [optionalArgs, Traced.bind_ok, Traced.pure_ok] at given
    obtain ⟨explicit, listed, rfl⟩ := given
    exact .inr ⟨args, explicit, rfl, listed, rfl⟩

theorem membersEdits_collects (node : Subtree) {members : List Member} {edits : List Edit}
    (each : ∀ member ∈ members, ∀ {edits}, (setting.memberEdits scope member).result = .ok edits →
      setting.Treats member.subtree edits)
    (made : (setting.membersEdits scope members).result = .ok edits) :
    setting.Collects node [] (members.map Member.subtree) edits := by
  rw [membersEdits_eq] at made
  simp only [Traced.bind_ok, Traced.pure_ok] at made
  obtain ⟨results, visited, rfl⟩ := made
  exact .gather (Traced.mapM_ok (fun member listed _ => each member listed) visited)

theorem memberEdits_treats {scope : Scope Slot} {member : Member} {edits : List Edit}
    (made : (setting.memberEdits scope member).result = .ok edits) :
    setting.Treats member.subtree edits := by
  induction member using Member.induction generalizing scope edits with
  | typeUse ref =>
    rw [memberEdits] at made
    simp only [Traced.bind_ok, Traced.pure_ok] at made
    obtain ⟨found, visited, rfl⟩ := made
    exact refEdits_treats visited
  | importDecl range ref isStatic onDemand =>
    rw [memberEdits] at made
    simp only [Traced.bind_ok, Traced.pure_ok] at made
    obtain ⟨found, visited, rfl⟩ := made
    exact (Collects.part (refEdits_treats visited)).treats
  | typeDecl range keyword name params supertypes members inner =>
    rw [memberEdits] at made
    simp only [Traced.bind_ok, Traced.pure_ok] at made
    obtain ⟨values, -, ofName, renamed, ofParams, listed, ofSupers, above, ofBody, inside, rfl⟩ := made
    let node : Subtree := .typeDecl range keyword name params supertypes members
    have names : setting.Collects node [keyword, name] [] ofName :=
      (Collects.name (.stays (.inr (.inr rfl)))).append (.name (rename_respells id renamed))
    exact (((names.append (optionalParams_collects _ listed)).append (refsEdits_collects _ above)).append
      (membersEdits_collects _ (fun member there => inner member there) inside)).treats
  | methodDecl range params members inner =>
    rw [memberEdits] at made
    simp only [Traced.bind_ok, Traced.pure_ok] at made
    obtain ⟨ofParams, listed, ofBody, inside, rfl⟩ := made
    exact ((Collects.part (paramsEdits_treats listed)).append
      (membersEdits_collects _ (fun member there => inner member there) inside)).treats
  | creation range type members constructorArgs inner =>
    obtain ⟨ofArgs, found, ofBody, rfl, visited, inside, given⟩ := creation_ok made
    let node : Subtree := .creation range type members constructorArgs
    have listed : setting.Collects node [] (constructorArgs.toList.map Subtree.args) ofArgs := by
      rcases given with ⟨rfl, rfl⟩ | ⟨args, explicit, rfl, listed, rfl⟩
      · exact .none
      · exact .part (explicitArgs_treats listed)
    have typed : setting.Collects node [] [.ref type] found.edits := .part (refEdits_treats visited)
    -- Arguments of a constructor are edited first but stand last among the children.
    have all := (typed.append (membersEdits_collects _ (fun member there => inner member there) inside)).append
      listed
    refine (Collects.perm all ?_).treats
    rw [List.append_assoc]
    exact List.perm_append_comm
  | witness range args method =>
    rw [memberEdits] at made
    simp only [Traced.bind_ok, Traced.pure_ok] at made
    obtain ⟨explicit, ofArgs, values, -, ofName, renamed, rfl⟩ := made
    exact ((Collects.part (explicitArgs_treats ofArgs)).append
      (.name (rename_respells id renamed))).treats

end Setting

end Specializer
