import Specializer.Proofs.Decoding
import Specializer.Proofs.Erasure

set_option autoImplicit false

namespace Specializer

/-- The new text has the capitalized values in place of the placeholders of the old, in order. -/
def Woven (old : List Char) (values : List SlotType) (new : List Char) : Prop :=
  ∃ gaps : List (List Char), gaps.length = values.length + 1 ∧ values.length = segmentCount old ∧
    old = weave gaps ((segments old).map fun slot => slot.name.toList) ∧
    new = weave gaps (values.map fun value => value.capitalized.toList)

theorem woven_of_substitute {text new : List Char} {values : List SlotType}
    (made : substituteInOrder text values = some new) (length : values.length = segmentCount text) :
    Woven text values new := by
  obtain ⟨gaps, count, old, filled⟩ := fillInOrder_weave made (Eq.refl (segments text))
  have all : values.length ≤ (segments text).length := Nat.le_of_eq length
  rw [pieces_text] at old
  rw [List.take_of_length_le all] at filled
  exact ⟨gaps, length ▸ count, length, old, filled⟩

theorem substituteInOrder_take (text : List Char) (values : List SlotType) :
    substituteInOrder text (values.take (segmentCount text)) = substituteInOrder text values :=
  fillInOrder_take (pieces text) values

theorem TypeRef.width_plain {ref : TypeRef} (other : ref.slot? = none)
    (plain : ∀ segment ∈ ref.segments, hasPlaceholder segment.name.text = false) : ref.width = 0 := by
  have none : ((ref.segments.map fun segment => segmentCount segment.name.text).filter (0 < ·)) = [] := by
    refine List.filter_eq_nil_iff.mpr fun count member => ?_
    obtain ⟨segment, listed, rfl⟩ := List.mem_map.mp member
    rw [segmentCount_eq_zero.mpr (plain segment listed)]
    decide
  simp [TypeRef.width, other, none]

namespace TypeArg

variable {arg : TypeArg}

/-- The argument is a placeholder, with square brackets behind it or not, or a wildcard that one bounds. -/
def isPlaceholder (arg : TypeArg) : Bool := arg.subtree.standsFor?.isSome

def isUnbounded : TypeArg → Bool
  | .unbounded _ => true
  | _ => false

def isPlain : TypeArg → Bool
  | .exact ref => ref.segments.all fun segment => !hasPlaceholder segment.name.text
  | _ => false

theorem eq_unbounded (wild : arg.isUnbounded = true) : ∃ range, arg = .unbounded range := by
  cases arg with
  | unbounded range => exact ⟨range, rfl⟩
  | exact ref => cases wild
  | bounded range kind ref => cases wild

theorem width_plain (other : arg.isPlaceholder = false) (plain : arg.isPlain = true) :
    arg.subtree.width = 0 := by
  cases arg with
  | unbounded range => cases plain
  | exact ref =>
    refine ref.width_plain (Option.isNone_iff_eq_none.mp (Option.isSome_eq_false_iff.mp other)) ?_
    simpa [isPlain] using plain
  | bounded range kind ref => cases plain

end TypeArg

namespace Subtree

variable {part : Subtree} {name : Name}

def declaration? : Subtree → Option (Name × TypeParams)
  | typeDecl _ _ name (some given) _ _ => some (name, given)
  | _ => none

def applied : Subtree → List (Name × TypeArgs)
  | ref r => r.segments.filterMap fun
    | .applied name list => some (name, list)
    | .plain _ => none
  | _ => []

theorem declaration?_some {given : TypeParams} (declares : part.declaration? = some (name, given)) :
    ∃ range keyword supertypes members,
      part = typeDecl range keyword name (some given) supertypes members := by
  unfold declaration? at declares
  split at declares
  next range keyword name given supertypes members =>
    cases declares
    exact ⟨range, keyword, supertypes, members, rfl⟩
  next => cases declares

theorem applied_ref {list : TypeArgs} (applied : (name, list) ∈ part.applied) :
    ∃ r, part = ref r ∧ .applied name list ∈ r.segments := by
  cases part with
  | ref r =>
    obtain ⟨segment, member, same⟩ := List.mem_filterMap.mp applied
    cases segment with
    | plain name => cases same
    | applied name list =>
      cases same
      exact ⟨r, rfl, member⟩
  | _ => cases applied

end Subtree

namespace Binding

variable (binding : Binding) (inScope : List SlotType)

/-- The value that an entry of a list tells by its placeholder. -/
def told? (entry : Subtree) : Option SlotType := entry.standsFor?.bind binding.get?

/-- The value of the argument at a place: that of its placeholder or else the one in scope at the place,
and generic if there is none. -/
def valueAt (place : Nat) (arg : TypeArg) : SlotType :=
  (binding.told? arg.subtree).getD (inScope[place]?.getD .generic)

def valuesOf (args : List TypeArg) : List SlotType := args.mapIdx (binding.valueAt inScope)

end Binding

namespace Setting

variable {setting : Setting} {scope : Scope Slot} {slots : List Slot} {manner : Manner}
  {inScope : List SlotType} {position : Nat} {entries : Entries} {own edits : List Edit}

section Values

theorem refEntry_told {range : Range} {derived : RefEdits → Bool} {ref : TypeRef} {slot : Slot}
    (made : (setting.refEntry scope range derived ref).result = .ok entries)
    (bare : ref.slot? = some slot) :
    ∃ value, setting.binding.get? slot = some value ∧ entries.values = [some value] ∧
      entries.derived = true := by
  rcases refEntry_ok made with ⟨value, isBare, kind⟩ | ⟨inner, text, notBare, -⟩
  next =>
    obtain ⟨other, found, bound⟩ := bareValue_some isBare
    rw [bareSlot_ok found] at bare
    cases bare
    refine ⟨value, get?_of_get bound, ?_⟩
    rcases kind with ⟨-, rfl⟩ | ⟨-, text, -, rfl⟩ <;> exact ⟨rfl, rfl⟩
  next =>
    rw [bareValue_none notBare] at bare
    cases bare

theorem argEntry_told {arg : TypeArg} {given : Option (List SlotType)}
    (made : (setting.argEntry given scope position arg).result = .ok entries)
    (placeholder : arg.isPlaceholder = true) :
    ∃ value, setting.binding.told? arg.subtree = some value ∧ entries.values = [some value] ∧
      entries.derived = true := by
  obtain ⟨slot, stands⟩ := Option.isSome_iff_exists.mp placeholder
  cases arg with
  | unbounded range => cases stands
  | exact ref =>
    rw [argEntry_exact] at made
    obtain ⟨value, bound, values⟩ := refEntry_told made stands
    exact ⟨value, by rw [Binding.told?, stands, Option.bind_some, bound], values⟩
  | bounded range kind ref =>
    rw [argEntry_bounded] at made
    obtain ⟨value, bound, values⟩ := refEntry_told made stands
    exact ⟨value, by rw [Binding.told?, stands, Option.bind_some, bound], values⟩

theorem argEdits_bound {args : List TypeArg} {given : Option (List SlotType)}
    (made : (setting.argEdits given scope position args).result = .ok entries) :
    ∀ arg ∈ args, arg.isPlaceholder = true → (setting.binding.told? arg.subtree).isSome = true := by
  induction args generalizing position entries with
  | nil => exact fun _ member => absurd member List.not_mem_nil
  | cons arg rest ih =>
    rw [argEdits] at made
    simp only [Traced.bind_ok] at made
    obtain ⟨first, ofFirst, more, ofRest, -⟩ := made
    intro other member placeholder
    rcases List.mem_cons.mp member with rfl | later
    next =>
      obtain ⟨value, told, -⟩ := argEntry_told ofFirst placeholder
      rw [told, Option.isSome_some]
    next => exact ih ofRest other later placeholder

theorem argEdits_aligned {args : List TypeArg}
    (each : ∀ arg ∈ args, arg.isPlaceholder = true ∨ arg.isUnbounded = true)
    (made : (setting.argEdits (some inScope) scope position args).result = .ok entries) :
    entries.values.map (fun value => value.getD .generic) =
        args.mapIdx (fun place => setting.binding.valueAt inScope (position + place)) ∧
      (args ≠ [] → entries.derived = true) := by
  induction args generalizing position entries with
  | nil =>
    rw [argEdits, Traced.pure_ok] at made
    subst made
    exact ⟨rfl, absurd rfl⟩
  | cons arg rest ih =>
    rw [argEdits] at made
    simp only [Traced.bind_ok, Traced.pure_ok] at made
    obtain ⟨first, ofFirst, more, ofRest, rfl⟩ := made
    obtain ⟨value, here, valued, derived⟩ : ∃ value : Option SlotType, first.values = [value] ∧
        value.getD .generic = setting.binding.valueAt inScope position arg ∧ first.derived = true := by
      rcases each arg List.mem_cons_self with placeholder | wild
      next =>
        obtain ⟨value, told, values, derived⟩ := argEntry_told ofFirst placeholder
        exact ⟨some value, values, by rw [Binding.valueAt, told]; rfl, derived⟩
      next =>
        obtain ⟨range, rfl⟩ := TypeArg.eq_unbounded wild
        obtain ⟨values, derived⟩ := argEntry_wild ofFirst
        exact ⟨_, values, rfl, derived⟩
    -- One value for each argument: the position behind it is the next place.
    rw [here] at ofRest
    obtain ⟨later, -⟩ := ih (fun arg member => each arg (List.mem_cons_of_mem _ member)) ofRest
    refine ⟨?_, fun _ => by simp [Entries.append, derived]⟩
    rw [List.mapIdx_cons, Entries.append]
    simp only [here, List.map_cons, List.cons_append, List.nil_append, valued, later,
      List.length_singleton, Nat.add_zero]
    refine congrArg _ (congrArg (List.mapIdx · rest) (funext fun place => ?_))
    rw [Nat.add_assoc, Nat.add_comm 1]

theorem argEdits_given {args : List TypeArg}
    (each : ∀ arg ∈ args, arg.isPlaceholder = true ∨ arg.subtree.width = 0)
    (made : (setting.argEdits (some inScope) scope position args).result = .ok entries) :
    entries.values = (args.filterMap fun arg => setting.binding.told? arg.subtree).map some ∧
      ((∃ arg ∈ args, arg.isPlaceholder = true) → entries.derived = true) := by
  induction args generalizing position entries with
  | nil =>
    rw [argEdits, Traced.pure_ok] at made
    subst made
    refine ⟨rfl, fun one => ?_⟩
    obtain ⟨arg, member, -⟩ := one
    cases member
  | cons arg rest ih =>
    rw [argEdits] at made
    simp only [Traced.bind_ok, Traced.pure_ok] at made
    obtain ⟨first, ofFirst, more, ofRest, rfl⟩ := made
    obtain ⟨later, known⟩ := ih (fun arg member => each arg (List.mem_cons_of_mem _ member)) ofRest
    simp only [Entries.append, later, Bool.or_eq_true]
    by_cases placeholder : arg.isPlaceholder = true
    next =>
      obtain ⟨value, told, values, derived⟩ := argEntry_told ofFirst placeholder
      rw [List.filterMap_cons, told, values]
      exact ⟨rfl, fun _ => .inl derived⟩
    next =>
      -- Nothing is told here, and what stands behind moves up.
      have width := (each arg List.mem_cons_self).resolve_left placeholder
      have none : first.values = [] := List.eq_nil_of_length_eq_zero (argEntry_width ofFirst ▸ width)
      have untold : setting.binding.told? arg.subtree = .none := by
        rw [TypeArg.isPlaceholder, Option.not_isSome_iff_eq_none] at placeholder
        rw [Binding.told?, placeholder, Option.bind_none]
      rw [List.filterMap_cons, untold, none]
      refine ⟨rfl, fun one => .inr (known ?_)⟩
      obtain ⟨other, member, holds⟩ := one
      exact ⟨other, (List.mem_cons.mp member).resolve_left (fun same => placeholder (same ▸ holds)), holds⟩

end Values

section Arities

theorem object_iff (value : SlotType) : (value.capitalized == "Object") = !value.isPrimitive := by
  cases value <;> decide

theorem survivors_args {binding : Binding} {args : List TypeArg}
    (each : ∀ arg ∈ args, (binding.told? arg.subtree).isSome = true ∨ arg.isUnbounded = true) :
    (binding.survivors inScope position (args.map TypeArg.subtree)).length =
      ((args.mapIdx fun place => binding.valueAt inScope (position + place)).map
        SlotType.capitalized).count "Object" := by
  induction args generalizing position with
  | nil => rfl
  | cons arg rest ih =>
    have later := @ih (position + 1) fun arg member => each arg (List.mem_cons_of_mem _ member)
    -- An argument is one entry, and it goes exactly if the value at its place is primitive.
    obtain ⟨wide, drops⟩ : arg.subtree.width = 1 ∧ binding.drops inScope position arg.subtree =
        (binding.valueAt inScope position arg).isPrimitive := by
      rcases each arg List.mem_cons_self with told | wild
      next =>
        obtain ⟨value, told⟩ := Option.isSome_iff_exists.mp told
        obtain ⟨slot, stands, -⟩ := Option.bind_eq_some_iff.mp told
        have bare {ref : TypeRef} (stands : ref.slot? = some slot) : ref.width = 1 := by
          rw [TypeRef.width, stands]
          rfl
        rw [Binding.valueAt, told]
        cases arg with
        | unbounded range => cases stands
        | exact ref => exact ⟨bare stands, congrArg (Option.any SlotType.isPrimitive) told⟩
        | bounded range kind ref => exact ⟨bare stands, congrArg (Option.any SlotType.isPrimitive) told⟩
      next =>
        obtain ⟨range, rfl⟩ := TypeArg.eq_unbounded wild
        refine ⟨rfl, ?_⟩
        change inScope[position]?.any SlotType.isPrimitive = (inScope[position]?.getD .generic).isPrimitive
        cases inScope[position]? <;> rfl
    have shifted : (fun place => binding.valueAt inScope (position + (place + 1))) =
        fun place => binding.valueAt inScope (position + 1 + place) := by
      funext place
      rw [Nat.add_assoc, Nat.add_comm 1]
    rw [List.mapIdx_cons, List.map_cons, List.map_cons, List.count_cons, Binding.survivors, drops, wide,
      object_iff, Nat.add_zero, shifted, ← later]
    cases (binding.valueAt inScope position arg).isPrimitive <;> rfl

theorem survivors_params {binding : Binding} {params : List TypeParam} {values : List SlotType}
    (each : (params.map fun param => binding.told? (.param param)) = values.map some) :
    (binding.survivors inScope position (params.map Subtree.param)).length =
      (values.map SlotType.capitalized).count "Object" := by
  induction params generalizing position values with
  | nil =>
    cases List.map_eq_nil_iff.mp each.symm
    rfl
  | cons param rest ih =>
    cases values with
    | nil => cases each
    | cons value values =>
      obtain ⟨told, behind⟩ := List.cons.inj each
      have drops : binding.drops inScope position (.param param) = value.isPrimitive :=
        congrArg (Option.any SlotType.isPrimitive) told
      rw [List.map_cons, List.map_cons, List.count_cons, Binding.survivors, drops, object_iff, ← ih behind]
      cases value.isPrimitive <;> rfl

end Arities

section Names

theorem visit_template {ref : TypeRef} {name : Name} {list : TypeArgs}
    (applied : .applied name list ∈ ref.segments) (has : hasPlaceholder name.text = true)
    (filled : list.args ≠ []) (made : (setting.visit slots manner (.ref ref)).result = .ok own) :
    ∃ entries, (setting.argEdits (some (setting.binding.inScope slots)) (setting.scopeOf slots) 0
        list.args).result = .ok entries ∧
      (entries.derived = true → ∃ new,
        substituteInOrder name.text (entries.resolve (setting.binding.inScope slots)) = some new ∧
          replace name new ∈ own) := by
  obtain ⟨range, segments, dims⟩ := ref
  obtain ⟨listRange, args⟩ := list
  simp only [visit, refEdits, Traced.bind_ok, Traced.pure_ok] at made
  obtain ⟨found, ⟨bare, isBare, made⟩, rfl⟩ := made
  cases bare with
  | some slot =>
    obtain ⟨_, plain, _, same, -⟩ := bareSlot_some isBare
    cases same
    cases List.mem_singleton.mp applied
  | none =>
    obtain ⟨inner, made, all⟩ := segmentsEdits_each made applied
    -- A name without placeholders is excluded, and so is a list without arguments.
    rcases segmentEdits_applied made with
      ⟨plain, -⟩ | ⟨-, inScope, values, edits, new, bound, renamed, rfl, source⟩
    next =>
      rw [has] at plain
      cases plain
    next =>
      cases values_inScope bound
      rcases source with ⟨diamond, -⟩ | ⟨-, entries, ofArgs, source⟩
      next => exact absurd diamond filled
      next =>
        refine ⟨entries, ofArgs, fun derived => ?_⟩
        rcases source with ⟨-, rfl, -⟩ | ⟨unknown, -⟩
        next =>
          obtain ⟨spelled, substituted, rfl⟩ := rename_substitutes renamed
          rw [if_pos has] at all
          exact ⟨spelled, substituted, all _ (List.mem_append_right _ List.mem_cons_self)⟩
        next =>
          rw [derived] at unknown
          cases unknown

theorem visit_declaration {range : Range} {keyword name : Name} {params : Option TypeParams}
    {supertypes : List TypeRef} {members : List Member} (bound : setting.Bound slots)
    (has : hasPlaceholder name.text = true)
    (made : (setting.visit slots manner
      (.typeDecl range keyword name params supertypes members)).result = .ok own) :
    ∃ new, substituteInOrder name.text (setting.binding.inScope
        ((Subtree.typeDecl range keyword name params supertypes members).within slots)) = some new ∧
      replace name new ∈ own := by
  simp only [visit, memberEdits, Traced.bind_ok, Traced.pure_ok] at made
  obtain ⟨values, known, ofName, renamed, ofParams, -, ofSupers, -, ofBody, -, rfl⟩ := made
  have declared := declared_inside known
  rw [scopeOf_inside bound declared] at known
  cases values_inScope known
  obtain ⟨new, substituted, rfl⟩ := rename_substitutes renamed
  exact ⟨new, substituted, by simp [has]⟩

end Names

section Whole

variable {tree : Tree} (docs : tree.docs = docComments setting.tokens)
  (sound : (Subtree.unit tree).Sound (lexemesOf setting.tokens))
  (made : (setting.edits tree).result = .ok edits)

include docs sound made

theorem edits_template {part : Subtree} {name : Name} {list : TypeArgs}
    (below : (Subtree.unit tree).Below part) (applied : (name, list) ∈ part.applied)
    (has : hasPlaceholder name.text = true) (filled : list.args ≠ [])
    (visited : ∀ param, (Subtree.unit tree).Below (.param param) →
      (Subtree.param param).Below part → setting.Retains (.param param)) :
    ∃ slots entries, Subtree.Leads [] (.unit tree) part slots ∧
      (setting.argEdits (some (setting.binding.inScope slots)) (setting.scopeOf slots) 0
        list.args).result = .ok entries ∧
      setting.Trimmed (.unit tree) slots (.template name.text) (.args list) edits ∧
      (entries.derived = true → ∃ new,
        substituteInOrder name.text (entries.resolve (setting.binding.inScope slots)) = some new ∧
          setting.Puts (.unit tree) part name new edits) := by
  obtain ⟨ref, rfl, segment⟩ := Subtree.applied_ref applied
  obtain ⟨slots, last, way⟩ := Subtree.way_of_below below [] .alone
  have other : ref.slot? = none := by
    unfold TypeRef.slot?
    split
    next => cases List.mem_singleton.mp segment
    next => rfl
  obtain ⟨bound, own, ended, arrives⟩ := edits_arrive docs sound made way trivial other visited
  obtain ⟨entries, ofArgs, named⟩ := visit_template segment has filled ended
  obtain ⟨among, loses⟩ :=
    Subtree.trimmed_loses (Subtree.trimmed_template segment has filled) last
  have same : (Subtree.ref ref).within slots = slots := if_pos rfl
  have down : (Subtree.ref ref).Below (.args list) := .single (Subtree.child_of_part among)
  have soundRef := sound.at_below below
  have paramless (param : TypeParam) (inside : (Subtree.ref ref).Below (.param param))
      (_ : (Subtree.param param).Below (.args list)) : setting.Retains (.param param) := by
    simpa [Subtree.kind] using Subtree.ref_paramless inside
  -- The list is visited in the visit of the reference, and its edits are among those of that.
  obtain ⟨bound, inner, listed, further⟩ :=
    visit_arrives (.down among .here) trivial soundRef bound trivial paramless ended
  have arrived := arrives.trans further below down (Subtree.below_range trivial soundRef down)
  have leads := way.leads
  rw [same] at bound listed leads
  refine ⟨slots, entries, leads, ofArgs, trimmed_of_visit loses (soundRef.at_below down) bound listed arrived,
    fun derived => ?_⟩
  obtain ⟨new, substituted, member⟩ := named derived
  exact ⟨new, substituted, arrives.puts member⟩

theorem edits_declaration {decl : Subtree} {name : Name} {params : TypeParams}
    (below : (Subtree.unit tree).Below decl) (declares : decl.declaration? = some (name, params))
    (has : hasPlaceholder name.text = true) :
    ∃ slots new, Subtree.Leads [] (.unit tree) decl slots ∧ setting.Bound slots ∧
      (params.declared ≠ [] → slots = params.declared) ∧
      substituteInOrder name.text (setting.binding.inScope slots) = some new ∧
      setting.Puts (.unit tree) decl name new edits ∧
      setting.Trimmed (.unit tree) slots .alone (.params params) edits := by
  obtain ⟨range, keyword, supertypes, members, rfl⟩ := Subtree.declaration?_some declares
  obtain ⟨slots, last, way⟩ := Subtree.way_of_below below [] .alone
  have free (param : TypeParam) (_ : (Subtree.unit tree).Below (.param param))
      (around : (Subtree.param param).Below
        (.typeDecl range keyword name (some params) supertypes members)) :
      setting.Retains (.param param) := by
    have type := Subtree.isType_below rfl around
    cases type
  obtain ⟨bound, own, ended, arrives⟩ := edits_arrive docs sound made way trivial trivial free
  obtain ⟨new, substituted, member⟩ := visit_declaration bound has ended
  obtain ⟨-, inside⟩ := visited_typeDecl bound ended
  have trimmed : (.alone, .params params) ∈
      (Subtree.typeDecl range keyword name (some params) supertypes members).trimmed := List.mem_cons_self
  obtain ⟨among, loses⟩ := Subtree.trimmed_loses trimmed last
  -- The bounds of a parameter hold no other parameter.
  have beside (param : TypeParam) (_ : (Subtree.unit tree).Below (.param param))
      (around : (Subtree.param param).Below (.params params)) : setting.Retains (.param param) := by
    rcases Subtree.below_cases around with same | ⟨child, step, around⟩
    next => cases same
    next =>
      obtain ⟨bound, -, rfl⟩ := List.mem_map.mp step
      simpa [Subtree.kind] using Subtree.ref_paramless around
  obtain ⟨-, left⟩ := edits_trim docs sound made (way.snoc among) loses beside
  exact ⟨_, new, way.leads, inside, fun some => if_neg some, substituted, arrives.puts member, left⟩

end Whole

end Setting

end Specializer
