import Specializer.Proofs.Yielding

set_option autoImplicit false

namespace Specializer

namespace Subtree

def type? : Subtree → Option TypeRef
  | ref r => some r
  | wildcard _ bound => bound
  | _ => none

variable {manner next : Manner} {part child : Subtree}

theorem type_below {ref : TypeRef} (there : part.type? = some ref) : part.Below (.ref ref) := by
  cases part with
  | ref r =>
    cases there
    exact .refl
  | wildcard range bound =>
    cases there
    exact .single (List.mem_singleton_self _)
  | _ => cases there

theorem foreign_part {outer : TypeRef} {name : Name} {list : TypeArgs}
    (given : .applied name list ∈ outer.segments) (plain : hasPlaceholder name.text = false)
    (manner : Manner) : (Manner.foreign name.text, args list) ∈ (ref outer).parts manner := by
  refine List.mem_filterMap.mpr ⟨_, given, ?_⟩
  rw [Segment.part?, if_neg (Bool.eq_false_iff.mp plain)]

theorem named_list {list : TypeArgs} (member : (next, args list) ∈ part.parts manner) :
    next = .alone ∨ ∃ outer name, part = ref outer ∧ .applied name list ∈ outer.segments ∧
      next = if hasPlaceholder name.text then .template name.text else .foreign name.text := by
  cases part with
  | ref outer =>
    obtain ⟨segment, given, same⟩ := List.mem_filterMap.mp member
    cases segment with
    | plain name => cases same
    | applied name other =>
      cases same
      exact .inr ⟨outer, name, rfl, given, rfl⟩
  | args other =>
    obtain ⟨arg, -, same⟩ := List.mem_map.mp member
    cases arg <;> cases same
  | wildcard range bound =>
    obtain ⟨_, -, same⟩ := List.mem_map.mp member
    cases same
  | _ =>
    obtain ⟨_, -, same⟩ := List.mem_map.mp member
    cases same
    exact .inl rfl

theorem params_of_param {param : TypeParam} (member : .param param ∈ part.children) :
    ∃ list, part = params list := by
  have noMember (member : Member) : member.subtree ≠ .param param := by cases member <;> nofun
  have noArg (arg : TypeArg) : arg.subtree ≠ .param param := by cases arg <;> nofun
  cases part with
  | params list => exact ⟨list, rfl⟩
  | _ => simp [children, noMember, noArg] at member

end Subtree

namespace Setting

variable {setting : Setting} {slots result : List Slot} {manner last : Manner} {part lower : Subtree}
  {place : Yielding} {tree : Tree} {edits : List Edit}

/-- A list in angle brackets loses the entry that a subtree is, or in which it is. -/
def Omits (setting : Setting) (tree : Tree) (part : Subtree) (edits : List Edit) : Prop :=
  ∃ slots manner list entry, (Subtree.unit tree).Below list ∧ list.Loses manner ∧ entry ∈ list.children ∧
    entry.Below part ∧ entry ∉ setting.rest slots manner list ∧
      setting.Trimmed (.unit tree) slots manner list edits

def Objectified (setting : Setting) (tree : Tree) (ref : TypeRef) (edits : List Edit) : Prop :=
  ∃ name : Name, ref = .mk name.range [.plain name] 0 ∧
    setting.Arrives (.unit tree) (.ref ref) [replace name "Object".toList] edits

def Spared (setting : Setting) (tree : Tree) (ref : TypeRef) (edits : List Edit) : Prop :=
  ∃ own, setting.Arrives (.unit tree) (.ref ref) own edits ∧ ∀ edit ∈ own, edit.text ≠ "Object".toList

/-- A placeholder that gives way is an argument of a type that is no template, alone or as the bound of a
wildcard, and no type parameter around it goes. -/
structure Displaced (setting : Setting) (tree : Tree) (place : Yielding) : Prop where
  yields : setting.GivesWay place
  argument : ∃ outer name list arg, (Subtree.unit tree).Below (.ref outer) ∧
    .applied name list ∈ outer.segments ∧ name.text = place.owner ∧ hasPlaceholder name.text = false ∧
      arg ∈ list.args ∧ arg.subtree.type? = some place.ref
  retained : ∀ param, (Subtree.unit tree).Below (.param param) →
    (Subtree.param param).Below (.ref place.ref) → setting.Retains (.param param)

section Reached

theorem Within.of_way (way : Subtree.Way slots manner part result last lower)
    (retained : ∀ param, part.Below (.param param) → (Subtree.param param).Below lower →
      setting.Retains (.param param))
    (within : setting.Within last lower place) : setting.Within manner part place := by
  induction way with
  | here => exact within
  | down member rest ih =>
    have child := Subtree.child_of_part member
    refine .down member (fun param same => ?_)
      (ih (fun param below => retained param (below.head child)) within)
    exact retained param (.single (same ▸ child)) (same ▸ rest.holds)

theorem Within.of_argument {list : TypeArgs} {arg : TypeArg} (yields : setting.GivesWay place)
    (member : arg ∈ list.args) (there : arg.subtree.type? = some place.ref) :
    setting.Within (.foreign place.owner) (.args list) place := by
  have entry : (Manner.foreign place.owner, arg.subtree) ∈ (Subtree.args list).parts (.foreign place.owner) :=
    List.mem_map_of_mem member
  cases arg with
  | unbounded range => cases there
  | exact ref =>
    cases there
    exact .down entry (stays_other rfl) (.here yields)
  | bounded range kind ref =>
    cases there
    exact .down entry (stays_other rfl) (.down (List.mem_singleton_self _) (stays_other rfl) (.here yields))

theorem Within.argument (within : setting.Within manner part place) :
    (∃ outer name list arg, part.Below (.ref outer) ∧ .applied name list ∈ outer.segments ∧
        name.text = place.owner ∧ hasPlaceholder name.text = false ∧ arg ∈ list.args ∧
          arg.subtree.type? = some place.ref) ∨
      manner = .foreign place.owner ∧ (part.type? = some place.ref ∨
        ∃ list arg, part = .args list ∧ arg ∈ list.args ∧ arg.subtree.type? = some place.ref) := by
  induction within with
  | @here place yields => exact .inr ⟨rfl, .inl rfl⟩
  | @down manner next part child place member _ _ ih =>
    have step := Subtree.child_of_part member
    rcases ih with ⟨outer, name, list, arg, below, rest⟩ | ⟨rfl, there | ⟨list, arg, rfl, listed, there⟩⟩
    next => exact .inl ⟨outer, name, list, arg, below.head step, rest⟩
    next =>
      -- Only lists and wildcards hand on what their own node is an argument of.
      cases part with
      | ref outer =>
        obtain ⟨list, -, rfl⟩ := List.mem_map.mp step
        cases there
      | args list =>
        obtain ⟨arg, listed, same⟩ := List.mem_map.mp member
        obtain ⟨entry, rfl⟩ := Prod.mk.inj same
        cases manner <;> cases entry
        exact .inr ⟨rfl, .inr ⟨list, arg, rfl, listed, there⟩⟩
      | wildcard range bound =>
        obtain ⟨ref, given, same⟩ := List.mem_map.mp member
        cases same
        cases there
        exact .inr ⟨rfl, .inl (Option.mem_toList.mp given)⟩
      | _ =>
        obtain ⟨_, -, same⟩ := List.mem_map.mp member
        cases same
    next =>
      rcases Subtree.named_list member with other | ⟨outer, name, rfl, given, same⟩
      next => cases other
      next =>
        split at same
        next => cases same
        next plain =>
          have owner := (Manner.foreign.inj same).symm
          exact .inl ⟨outer, name, list, arg, .refl, given, owner, Bool.eq_false_iff.mpr plain, listed, there⟩

theorem Within.retained (within : setting.Within manner part place) (inCode : part.InCode)
    (sound : part.Sound (lexemesOf setting.tokens)) {param : TypeParam} (other : part ≠ .param param)
    (below : part.Below (.param param)) (around : (Subtree.param param).Below (.ref place.ref)) :
    setting.Retains (.param param) := by
  induction within with
  | here =>
    have type := Subtree.ref_paramless below
    simp [Subtree.kind] at type
  | @down manner next part child place member stays rest ih =>
    have step := Subtree.child_of_part member
    rcases Subtree.below_cases below with same | ⟨beside, listed, below⟩
    next => exact absurd same.symm other
    next =>
      -- The placeholder is in one child only, so the parameter is there, too.
      have one := Subtree.below_range (inCode.children step) (sound.child step) rest.holds
      have two := Subtree.below_range (inCode.children listed) (sound.child listed) (below.trans around)
      obtain ⟨nonempty, -, -⟩ := ((sound.child step).at_below rest.holds).here.bounded
      simp only [Subtree.range_ref] at one two nonempty
      have same := @Subtree.child_unique _ _ _ _ inCode sound.here listed step place.ref.range.start
        (by omega) (by omega)
      subst same
      by_cases mine : beside = .param param
      next => exact stays param mine
      next => exact ih (inCode.children step) (sound.child step) mine below around

theorem Within.yields (within : setting.Within manner part place) : setting.GivesWay place := by
  induction within with
  | here yields => exact yields
  | down _ _ _ ih => exact ih

theorem within_members :
    setting.Within .alone (.unit tree) place ↔
      ∃ member ∈ tree.members, setting.Within .alone member.subtree place := by
  rw [within_parts fun _ same => by cases same]
  constructor
  next =>
    rintro ⟨_, part, -, within⟩
    obtain ⟨child, listed, rfl⟩ := List.mem_map.mp part
    rcases List.mem_append.mp listed with found | found
    next =>
      obtain ⟨member, there, rfl⟩ := List.mem_map.mp found
      exact ⟨member, there, within⟩
    next =>
      obtain ⟨index, -, rfl⟩ := List.mem_map.mp found
      rcases Subtree.below_cases within.holds with same | ⟨_, none, -⟩
      next => cases same
      next => cases none
  next =>
    rintro ⟨member, there, within⟩
    have child : member.subtree ∈ (Subtree.unit tree).children := Subtree.member_child there
    exact ⟨_, List.mem_map_of_mem child, by cases member <;> nofun, within⟩

variable (sound : (Subtree.unit tree).Sound (lexemesOf setting.tokens))

include sound in
theorem within_unit : setting.Within .alone (.unit tree) place ↔ setting.Displaced tree place := by
  constructor
  next =>
    intro within
    have inMember := within_members.mp within
    obtain ⟨member, there, rest⟩ := inMember
    refine ⟨within.yields, within.argument.resolve_right (fun other => by cases other.1), ?_⟩
    intro param above around
    obtain ⟨other, listed, below⟩ := Subtree.below_unit above trivial
    have soundMember := Subtree.sound_member sound there
    obtain ⟨nonempty, -, -⟩ := (soundMember.at_below rest.holds).here.bounded
    have first : place.ref.range.start ≤ place.ref.range.start ∧ place.ref.range.start < place.ref.range.stop :=
      ⟨Nat.le_refl _, nonempty⟩
    have same := Subtree.member_unique sound listed there (below.trans around) rest.holds first first
    subst same
    exact rest.retained (Subtree.inCode_member other) soundMember (by cases other <;> nofun) below around
  next =>
    rintro ⟨yields, ⟨outer, name, list, arg, below, given, owner, plain, listed, there⟩, retained⟩
    obtain ⟨result, last, way⟩ := Subtree.way_of_below below [] .alone
    have part := Subtree.foreign_part given plain last
    rw [owner] at part
    have within : setting.Within last (.ref outer) place :=
      .down part (stays_other rfl) (.of_argument yields listed there)
    exact .of_way way (fun param above around => retained param above (around.trans within.holds)) within

end Reached

section Notices

variable (sound : (Subtree.unit tree).Sound (lexemesOf setting.tokens))

include sound in
theorem edits_told (made : (setting.edits tree).result = .ok edits) :
    ∃ places : List Yielding, (places.map Yielding.index).Nodup ∧
      (∀ place, place ∈ places ↔ setting.Displaced tree place) ∧
        ((setting.edits tree).notices.filter Notice.isObject).Perm (places.map setting.yieldNotice) := by
  have tells : setting.Tells (tree.members.map fun member => (.alone, member.subtree)) (setting.edits tree) :=
    (membersEdits_tells fun member _ => memberEdits_tells _ member).before fun found _ => (Tells.lift _).map _
  obtain ⟨each, told, notices⟩ := tells edits made
  obtain ⟨places, all, among, distinct⟩ := told_together told
  refine ⟨places, distinct (fun pair member => ?_) ?_, fun place => ?_, notices.trans all⟩
  next =>
    obtain ⟨one, there, rfl⟩ := List.mem_map.mp member
    exact ⟨Subtree.inCode_member one, Subtree.sound_member sound there⟩
  next =>
    rw [List.map_map, List.pairwise_map]
    refine (Subtree.members_ordered sound.here.arranged).imp fun order => .inl ?_
    simpa using order
  next =>
    rw [among, ← within_unit sound, within_members]
    constructor
    next =>
      rintro ⟨pair, member, -, within⟩
      obtain ⟨one, there, rfl⟩ := List.mem_map.mp member
      exact ⟨one, there, within⟩
    next =>
      rintro ⟨one, there, within⟩
      exact ⟨_, List.mem_map_of_mem there, by cases one <;> nofun, within⟩

end Notices

section Arguments

theorem visit_object (yields : setting.GivesWay place)
    (written : (Subtree.ref place.ref).AllWritten (lexemesOf setting.tokens)) :
    ∃ name : Name, place.ref = .mk name.range [.plain name] 0 ∧ ∀ slots,
      (setting.visit slots (.foreign place.owner) (.ref place.ref)).result =
        .ok [replace name "Object".toList] := by
  obtain ⟨name, same, named⟩ := TypeRef.Written.bare written.here yields.bare yields.dimless
  refine ⟨name, same, fun slots => ?_⟩
  have generic : place.value.isGeneric = false := by simpa [SlotType.isPrimitive] using yields.primitive
  have edited : setting.bareEdit (some place.owner) place.ref place.slot place.value =
      ⟨[setting.yieldNotice place], .ok [replace name "Object".toList]⟩ := by
    simp only [bareEdit, same, TypeRef.segments, List.getLast?_singleton, generic, Bool.false_eq_true, if_false,
      yieldNotice]
    rfl
  have bare := @bareSlot_silent setting _ _ yields.bare
  have found : setting.refEdits (some place.owner) (setting.scopeOf slots) place.ref =
      ⟨[setting.yieldNotice place], .ok ⟨[replace name "Object".toList], some [place.value]⟩⟩ := by
    rw [same] at bare edited ⊢
    rw [refEdits, Traced.bind_silent bare]
    simp only [get_of_get? yields.bound]
    change setting.bareEdit _ _ _ place.value >>= _ = _
    rw [edited]
    rfl
  exact visit_ref (.foreign place.owner) (congrArg Traced.result found)

theorem visit_type {ref : TypeRef} (there : part.type? = some ref) :
    setting.visit slots manner part = setting.visit slots manner (.ref ref) := by
  cases part with
  | ref r | wildcard range bound =>
    cases there
    rfl
  | _ => cases there

theorem visit_spared {owner : List Char} {ref : TypeRef} {slot : Slot} {own : List Edit}
    (bare : ref.slot? = some slot) (other : ∀ value, ¬ setting.GivesWay ⟨owner, ref, slot, value⟩)
    (made : (setting.visit slots (.foreign owner) (.ref ref)).result = .ok own) :
    ∀ edit ∈ own, edit.text ≠ "Object".toList := by
  obtain ⟨range, segments, dims⟩ := ref
  simp only [visit, refEdits, Traced.bind_silent (bareSlot_silent bare), Traced.bind_ok, Traced.pure_ok,
    Traced.lift_ok] at made
  obtain ⟨_, ⟨value, bound, found, edited, rfl⟩, rfl⟩ := made
  have known := get?_of_get bound
  simp only [bareEdit, Manner.owner?] at edited
  split at edited
  next =>
    cases Traced.pure_ok.mp edited
    exact List.forall_mem_nil _
  next =>
    split at edited
    next =>
      cases Traced.pure_ok.mp edited
      exact List.forall_mem_nil _
    next primitive =>
      split at edited
      next dimless =>
        exact absurd ⟨bare, dimless, known, by simpa [SlotType.isPrimitive] using primitive⟩ (other value)
      next =>
        cases Traced.pure_ok.mp edited
        refine List.forall_mem_singleton.mpr ?_
        change value.spelling.toList ≠ _
        cases value <;> first | exact absurd rfl primitive | decide

section Reaching

variable {list : TypeArgs} {arg : TypeArg} (docs : tree.docs = docComments setting.tokens)
  (sound : (Subtree.unit tree).Sound (lexemesOf setting.tokens))
  (made : (setting.edits tree).result = .ok edits)

include docs sound made in
theorem edits_argument {owner : List Char} {ref : TypeRef}
    (way : Subtree.Way [] .alone (.unit tree) slots (.foreign owner) (.args list)) (listed : arg ∈ list.args)
    (there : arg.subtree.type? = some ref)
    (retained : ∀ param, (Subtree.unit tree).Below (.param param) → (Subtree.param param).Below (.args list) →
      setting.Retains (.param param)) :
    ∃ own, (setting.visit slots (.foreign owner) (.ref ref)).result = .ok own ∧
      setting.Arrives (.unit tree) (.ref ref) own edits := by
  have child : arg.subtree ∈ (Subtree.args list).children := List.mem_map_of_mem listed
  have step := Subtree.type_below there
  have inCode : (Subtree.args list).InCode := trivial
  have nothing : (Subtree.args list).within slots = slots := if_pos rfl
  have within := sound.at_below way.holds
  obtain ⟨bound, whole, ended, arrives⟩ := edits_arrive docs sound made way inCode trivial retained
  obtain ⟨visited, -⟩ := visit_cases inCode bound ended
  cases visited with
  | rebuilt trims => cases trims
  | removed _ _ template => cases template
  | within assembles =>
    rw [nothing] at assembles
    have entry : (Manner.foreign owner, arg.subtree) ∈ (Subtree.args list).parts (.foreign owner) :=
      List.mem_map_of_mem listed
    obtain ⟨own, visit, all, only⟩ := assembles.settled inCode within bound entry
    -- From the list to its entry, and from there to the reference, nothing is rebuilt.
    have further : setting.Arrives (.args list) arg.subtree own whole := .inPlace all only
    have down : setting.Arrives arg.subtree (.ref ref) own own :=
      .inPlace (fun _ => id) fun edit member _ _ _ _ _ => member
    have range := Subtree.below_range (inCode.children child) (within.child child) step
    have deeper := further.trans down (.single child) step range
    have below := step.head child
    rw [visit_type there] at visit
    exact ⟨own, visit, arrives.trans deeper way.holds below (Subtree.below_range inCode within below)⟩

variable (written : (Subtree.unit tree).AllWritten (lexemesOf setting.tokens))

include docs sound written made in
theorem edits_objectify (yields : setting.GivesWay place)
    (way : Subtree.Way [] .alone (.unit tree) slots (.foreign place.owner) (.args list))
    (listed : arg ∈ list.args) (there : arg.subtree.type? = some place.ref)
    (retained : ∀ param, (Subtree.unit tree).Below (.param param) → (Subtree.param param).Below (.args list) →
      setting.Retains (.param param)) :
    setting.Objectified tree place.ref edits := by
  have child : arg.subtree ∈ (Subtree.args list).children := List.mem_map_of_mem listed
  have below := way.holds.trans ((Subtree.type_below there).head child)
  obtain ⟨name, same, replaced⟩ := visit_object yields (written.at_below below)
  obtain ⟨own, visited, arrives⟩ := edits_argument docs sound made way listed there retained
  rw [replaced] at visited
  cases visited
  exact ⟨name, same, arrives⟩

include docs sound written made in
theorem displaced_objectified (displaced : setting.Displaced tree place) :
    setting.Objectified tree place.ref edits := by
  obtain ⟨yields, ⟨outer, name, list, arg, below, given, owner, plain, listed, there⟩, retained⟩ := displaced
  obtain ⟨result, last, way⟩ := Subtree.way_of_below below [] .alone
  have part := Subtree.foreign_part given plain last
  rw [owner] at part
  have child : arg.subtree ∈ (Subtree.args list).children := List.mem_map_of_mem listed
  have further := (Subtree.type_below there).head child
  exact edits_objectify docs sound made written yields (way.snoc part) listed there fun param above around =>
    retained param above (around.trans further)

end Reaching

variable (docs : tree.docs = docComments setting.tokens)
  (sound : (Subtree.unit tree).Sound (lexemesOf setting.tokens))
  (made : (setting.edits tree).result = .ok edits)

theorem not_survivor {inScope : List SlotType} {entry : Subtree} {entries : List Subtree}
    (drops : ∀ position, setting.binding.drops inScope position entry = true) (position : Nat) :
    entry ∉ setting.binding.survivors inScope position entries := by
  induction entries generalizing position with
  | nil => exact nofun
  | cons first rest ih =>
    rw [Binding.survivors]
    split
    next => exact ih _
    next stays =>
      intro member
      rcases List.mem_cons.mp member with rfl | later
      next => exact stays (drops position)
      next => exact ih _ later

include docs sound made in
theorem edits_omit_param {param : TypeParam} (above : (Subtree.unit tree).Below (.param param))
    (around : (Subtree.param param).Below part) (goes : ¬ setting.Retains (.param param)) :
    setting.Omits tree part edits := by
  obtain ⟨holder, below, member⟩ : ∃ holder, (Subtree.unit tree).Below holder ∧
      .param param ∈ holder.children := by
    rcases Relation.ReflTransGen.cases_tail above with same | ⟨holder, below, member⟩
    next => cases same
    next => exact ⟨holder, below, member⟩
  obtain ⟨list, rfl⟩ := Subtree.params_of_param member
  obtain ⟨slots, manner, way⟩ := Subtree.way_of_below below [] .alone
  have loses : (Subtree.params list).Loses manner := ⟨rfl, fun _ _ => List.ne_nil_of_mem member⟩
  have beside (other : TypeParam) (_ : (Subtree.unit tree).Below (.param other))
      (outside : (Subtree.param other).Below (.params list)) : setting.Retains (.param other) :=
    absurd outside Subtree.params_outermost
  obtain ⟨-, trimmed⟩ := edits_trim docs sound made way loses beside
  refine ⟨slots, manner, _, _, below, loses, member, around, not_survivor (fun position => ?_) 0, trimmed⟩
  by_contra stays
  refine goes fun slot value named bound => ?_
  simp only [Binding.drops, Subtree.standsFor?, named, Option.bind_some, bound, Option.any_some,
    SlotType.isPrimitive] at stays
  simpa using stays

include docs sound made in
theorem edits_omit_argument {list : TypeArgs} {arg : TypeArg} {ref : TypeRef} {slot : Slot} {value : SlotType}
    (way : Subtree.Way [] .alone (.unit tree) slots manner (.args list))
    (trims : (Subtree.args list).trims manner = true) (listed : arg ∈ list.args)
    (there : arg.subtree.type? = some ref) (bare : ref.slot? = some slot)
    (bound : setting.binding.get? slot = some value) (primitive : value.isPrimitive = true)
    (retained : ∀ param, (Subtree.unit tree).Below (.param param) → (Subtree.param param).Below (.args list) →
      setting.Retains (.param param)) :
    setting.Omits tree arg.subtree edits := by
  have child : arg.subtree ∈ (Subtree.args list).children := List.mem_map_of_mem listed
  have loses : (Subtree.args list).Loses manner := ⟨trims, fun _ _ => List.ne_nil_of_mem child⟩
  obtain ⟨-, trimmed⟩ := edits_trim docs sound made way loses retained
  refine ⟨slots, manner, _, _, way.holds, loses, child, .refl, not_survivor (fun position => ?_) 0, trimmed⟩
  cases arg with
  | unbounded range => cases there
  | exact given | bounded range kind given =>
    cases there
    simp [TypeArg.subtree, Binding.drops, Subtree.standsFor?, bare, bound, primitive]

include docs sound made in
-- A placeholder that is an argument of a type that is no template gives way, or goes with an entry of a
-- list, or is not replaced by the object type.
theorem edits_argument_cases {outer : TypeRef} {name : Name} {list : TypeArgs} {arg : TypeArg} {ref : TypeRef}
    {slot : Slot} (below : (Subtree.unit tree).Below (.ref outer))
    (given : .applied name list ∈ outer.segments) (plain : hasPlaceholder name.text = false)
    (listed : arg ∈ list.args) (there : arg.subtree.type? = some ref) (bare : ref.slot? = some slot) :
    (∃ value, setting.Displaced tree ⟨name.text, ref, slot, value⟩) ∨ setting.Omits tree (.ref ref) edits ∨
      setting.Spared tree ref edits := by
  by_cases retained : ∀ param, (Subtree.unit tree).Below (.param param) →
      (Subtree.param param).Below (.ref ref) → setting.Retains (.param param)
  next =>
    by_cases yields : ∃ value, setting.GivesWay ⟨name.text, ref, slot, value⟩
    next =>
      obtain ⟨value, yields⟩ := yields
      exact .inl ⟨value, yields, ⟨outer, name, list, arg, below, given, rfl, plain, listed, there⟩, retained⟩
    next =>
      have child : arg.subtree ∈ (Subtree.args list).children := List.mem_map_of_mem listed
      have further := (Subtree.type_below there).head child
      obtain ⟨result, last, way⟩ := Subtree.way_of_below below [] .alone
      have part := Subtree.foreign_part given plain last
      obtain ⟨own, visited, arrives⟩ := edits_argument docs sound made (way.snoc part) listed there
        fun param above around => retained param above (around.trans further)
      exact .inr (.inr ⟨own, arrives, visit_spared bare (fun value gives => yields ⟨value, gives⟩) visited⟩)
  next =>
    push Not at retained
    obtain ⟨param, above, around, goes⟩ := retained
    exact .inr (.inl (edits_omit_param docs sound made above around goes))

end Arguments

end Setting

/-- No type argument becomes primitive. An argument that is a placeholder of a primitive, or a wildcard that
one bounds, goes with an entry of a list or gives way to the object type. Those that give way as arguments of
types that are no templates are noticed, each of them once and at its token; any other placeholder there goes
with an entry of a list or is not replaced by the object type. -/
theorem arguments_not_primitive {source : List Char} {tokens : List Token} {tree : Tree} {binding : Binding}
    {edits : List Edit} (parsed : parse source = .ok (tokens, tree))
    (made : (Setting.edits ⟨tokens, binding⟩ tree).result = .ok edits) :
    (∀ list arg ref slot value, (Subtree.unit tree).Below (.args list) → arg ∈ list.args →
      arg.subtree.type? = some ref → ref.slot? = some slot → ref.dims = 0 → binding.get? slot = some value →
        value.isPrimitive = true → Setting.Omits ⟨tokens, binding⟩ tree arg.subtree edits ∨
          Setting.Objectified ⟨tokens, binding⟩ tree ref edits) ∧
      ∃ places : List Yielding, (places.map Yielding.index).Nodup ∧
        (∀ place, place ∈ places ↔ Setting.Displaced ⟨tokens, binding⟩ tree place) ∧
        (∀ place ∈ places, Setting.Objectified ⟨tokens, binding⟩ tree place.ref edits) ∧
        (∀ outer name list arg ref slot, (Subtree.unit tree).Below (.ref outer) →
          .applied name list ∈ outer.segments → hasPlaceholder name.text = false → arg ∈ list.args →
            arg.subtree.type? = some ref → ref.slot? = some slot →
              (∃ value, ⟨name.text, ref, slot, value⟩ ∈ places) ∨
                Setting.Omits ⟨tokens, binding⟩ tree (.ref ref) edits ∨
                  Setting.Spared ⟨tokens, binding⟩ tree ref edits) ∧
          ((Setting.edits ⟨tokens, binding⟩ tree).notices.filter Notice.isObject).Perm
            (places.map (Setting.yieldNotice ⟨tokens, binding⟩)) := by
  have docs := parseTokens_docs (parse_ok parsed).2
  have sound := parse_sound parsed
  have written := parseTokens_written (parse_ok parsed).2
  constructor
  next =>
    intro list arg ref slot value below listed there bare dimless bound primitive
    by_cases retained : ∀ param, (Subtree.unit tree).Below (.param param) →
        (Subtree.param param).Below (.args list) → Setting.Retains ⟨tokens, binding⟩ (.param param)
    next =>
      obtain ⟨slots, manner, way⟩ := Subtree.way_of_below below [] .alone
      have omits (trims : (Subtree.args list).trims manner = true) :=
        @Setting.edits_omit_argument ⟨tokens, binding⟩ _ _ _ _ docs sound made _ _ _ _ _ way trims listed there
          bare bound primitive retained
      cases manner with
      | alone | template name => exact .inl (omits rfl)
      | foreign owner =>
        exact .inr (@Setting.edits_objectify ⟨tokens, binding⟩ _ ⟨owner, ref, slot, value⟩ _ _ _ _ docs sound
          made written ⟨bare, dimless, bound, primitive⟩ way listed there retained)
    next =>
      push Not at retained
      obtain ⟨param, above, around, goes⟩ := retained
      have inside : (Subtree.param param).Below arg.subtree := around.tail (List.mem_map_of_mem listed)
      exact .inl (@Setting.edits_omit_param ⟨tokens, binding⟩ _ _ _ docs sound made _ above inside goes)
  next =>
    obtain ⟨places, distinct, among, told⟩ := @Setting.edits_told ⟨tokens, binding⟩ _ _ sound made
    refine ⟨places, distinct, among, fun place member => ?_, ?_, told⟩
    next =>
      exact @Setting.displaced_objectified ⟨tokens, binding⟩ _ _ _ docs sound made written
        ((among place).mp member)
    next =>
      intro outer name list arg ref slot below given plain listed there bare
      refine Or.imp_left ?_ (@Setting.edits_argument_cases ⟨tokens, binding⟩ _ _ docs sound made _ _ _ _ _ _
        below given plain listed there bare)
      exact fun ⟨value, displaced⟩ => ⟨value, (among _).mpr displaced⟩

theorem arguments_not_primitive_int_long :
    ∃ tokens tree edits, ∃ places : List Yielding,
      parse "class A { List<KType> x; KTypeVTypeMap<KType, Set<? extends VType>> y; }".toList =
          .ok (tokens, tree) ∧
        (Setting.edits ⟨tokens, ⟨.int, some .long⟩⟩ tree).result = .ok edits ∧ places.length = 2 ∧
        (places.map Yielding.index).Nodup ∧
        (∀ place ∈ places, Setting.Displaced ⟨tokens, ⟨.int, some .long⟩⟩ tree place ∧
          Setting.Objectified ⟨tokens, ⟨.int, some .long⟩⟩ tree place.ref edits) ∧
          ((Setting.edits ⟨tokens, ⟨.int, some .long⟩⟩ tree).notices.filter Notice.isObject).Perm
            (places.map (Setting.yieldNotice ⟨tokens, ⟨.int, some .long⟩⟩)) := by
  obtain ⟨⟨tokens, tree⟩, parsed, passes⟩ := ok_of_any
    (show (parse "class A { List<KType> x; KTypeVTypeMap<KType, Set<? extends VType>> y; }".toList).toOption.any
      (fun read => (Setting.edits ⟨read.1, ⟨.int, some .long⟩⟩ read.2).result.toOption.any
        fun _ => ((Setting.edits ⟨read.1, ⟨.int, some .long⟩⟩ read.2).notices.filter
          Notice.isObject).length == 2) = true
      by decide +kernel)
  obtain ⟨edits, made, two⟩ := ok_of_any passes
  obtain ⟨-, places, distinct, among, replaced, -, told⟩ := arguments_not_primitive parsed made
  have count := told.length_eq
  rw [List.length_map, beq_iff_eq.mp two] at count
  exact ⟨tokens, tree, edits, places, parsed, made, count.symm, distinct,
    fun place member => ⟨(among place).mp member, replaced place member⟩, told⟩

end Specializer
