import Mathlib.Data.List.Perm.Basic
import Specializer.Proofs.Applications

set_option autoImplicit false

namespace Specializer

def Notice.isObject (notice : Notice) : Bool := notice.issue.code == .primitiveArgument

/-- A placeholder among the arguments of a type, with what it stands for. -/
structure Yielding where
  owner : List Char
  ref : TypeRef
  slot : Slot
  value : SlotType

namespace Yielding

def index (place : Yielding) : Nat := place.ref.range.start

end Yielding

namespace Setting

variable {setting : Setting} {manner next : Manner} {part child : Subtree} {place : Yielding}
  {parts further : List (Manner × Subtree)} {own more : List Notice} {scope : Scope Slot}
  {slot : Slot} {α β : Type}

def yieldNotice (setting : Setting) (place : Yielding) : Notice :=
  .primitiveArgument place.slot place.value place.owner (setting.span place.ref.range)

structure GivesWay (setting : Setting) (place : Yielding) : Prop where
  bare : place.ref.slot? = some place.slot
  dimless : place.ref.dims = 0
  bound : setting.binding.get? place.slot = some place.value
  primitive : place.value.isPrimitive = true

/-- A type parameter stays if it is no placeholder of a primitive; what else there is stays anyhow. -/
def Stays (setting : Setting) (part : Subtree) : Prop :=
  ∀ param, part = .param param → setting.Retains (.param param)

theorem stays_other (other : (part.kind == .typeParam) = false) : setting.Stays part := by
  rintro param rfl
  cases other

inductive Within (setting : Setting) : Manner → Subtree → Yielding → Prop
  | here {place : Yielding} (yields : setting.GivesWay place) :
      Within setting (.foreign place.owner) (.ref place.ref) place
  | down {manner next : Manner} {part child : Subtree} {place : Yielding}
      (member : (next, child) ∈ part.parts manner) (stays : setting.Stays child)
      (rest : Within setting next child place) : Within setting manner part place

theorem Within.holds (within : setting.Within manner part place) : part.Below (.ref place.ref) := by
  induction within with
  | here => exact .refl
  | down member _ _ ih => exact ih.head (Subtree.child_of_part member)

theorem within_bare {ref : TypeRef} (bare : ref.slot? = some slot) :
    setting.Within manner (.ref ref) place ↔
      manner = .foreign place.owner ∧ ref = place.ref ∧ setting.GivesWay place := by
  constructor
  next =>
    intro within
    cases within with
    | here yields => exact ⟨rfl, rfl, yields⟩
    | down member =>
      have same := Subtree.bare_alone bare (.single (Subtree.child_of_part member))
      rw [same] at member
      obtain ⟨segment, -, same⟩ := List.mem_filterMap.mp member
      cases segment <;> cases same
  next =>
    rintro ⟨rfl, rfl, yields⟩
    exact .here yields

theorem within_parts (other : ∀ ref, part = .ref ref → ref.slot? = none) :
    setting.Within manner part place ↔
      ∃ pair ∈ part.parts manner, setting.Stays pair.2 ∧ setting.Within pair.1 pair.2 place := by
  constructor
  next =>
    intro within
    cases within with
    | here yields =>
      have none := other _ rfl
      rw [yields.bare] at none
      cases none
    | down member stays rest => exact ⟨_, member, stays, rest⟩
  next =>
    rintro ⟨pair, member, stays, rest⟩
    exact .down member stays rest

def Told (setting : Setting) (pair : Manner × Subtree) (own : List Notice) : Prop :=
  ∃ places : List Yielding, own.Perm (places.map setting.yieldNotice) ∧
    (∀ place, place ∈ places ↔ setting.Stays pair.2 ∧ setting.Within pair.1 pair.2 place) ∧
      (pair.2.InCode → pair.2.Sound (lexemesOf setting.tokens) → (places.map Yielding.index).Nodup)

/-- If the run succeeds it gives notice of what is in the parts. -/
def Tells (setting : Setting) (parts : List (Manner × Subtree)) (run : Traced α) : Prop :=
  ∀ value, run.result = .ok value → ∃ each, List.Forall₂ setting.Told parts each ∧
    (run.notices.filter Notice.isObject).Perm each.flatten

-- What is told of parts that stand apart is told of all of them together.
theorem told_together {each : List (List Notice)} (told : List.Forall₂ setting.Told parts each) :
    ∃ places : List Yielding, each.flatten.Perm (places.map setting.yieldNotice) ∧
      (∀ place, place ∈ places ↔ ∃ pair ∈ parts, setting.Stays pair.2 ∧ setting.Within pair.1 pair.2 place) ∧
        ((∀ pair ∈ parts, pair.2.InCode ∧ pair.2.Sound (lexemesOf setting.tokens)) →
          (parts.map fun pair => pair.2.range).Pairwise Range.Apart → (places.map Yielding.index).Nodup) := by
  induction told with
  | nil => exact ⟨[], .nil, by simp, fun _ _ => .nil⟩
  | @cons pair own parts each here _ ih =>
    obtain ⟨first, told, among, distinct⟩ := here
    obtain ⟨others, toldOthers, amongOthers, distinctOthers⟩ := ih
    refine ⟨first ++ others, ?_, fun place => ?_, fun sound apart => ?_⟩
    next =>
      rw [List.map_append]
      exact told.append toldOthers
    next =>
      simp only [List.mem_append, among, amongOthers, List.mem_cons, or_and_right, exists_or, exists_eq_left]
    next =>
      obtain ⟨apartHere, apartOthers⟩ := List.pairwise_cons.mp apart
      obtain ⟨inCode, placed⟩ := sound pair List.mem_cons_self
      have beside := fun other member => sound other (List.mem_cons_of_mem _ member)
      rw [List.map_append]
      refine List.nodup_append.mpr ⟨distinct inCode placed, distinctOthers beside apartOthers, ?_⟩
      rintro _ inFirst _ inOthers same
      obtain ⟨place, member, rfl⟩ := List.mem_map.mp inFirst
      obtain ⟨place', member', rfl⟩ := List.mem_map.mp inOthers
      -- A token in one part is in no other.
      obtain ⟨pair', listed, -, within'⟩ := (amongOthers place').mp member'
      have within := ((among place).mp member).2
      have inside {pair : Manner × Subtree} {place : Yielding} (inCode : pair.2.InCode)
          (placed : pair.2.Sound (lexemesOf setting.tokens)) (within : setting.Within pair.1 pair.2 place) :
          pair.2.range.start ≤ place.index ∧ place.index < pair.2.range.stop := by
        have range := Subtree.below_range inCode placed within.holds
        obtain ⟨nonempty, -, -⟩ := (placed.at_below within.holds).here.bounded
        simp only [Subtree.range_ref] at range nonempty
        rw [Yielding.index]
        omega
      have one := inside inCode placed within
      have two := inside (beside pair' listed).1 (beside pair' listed).2 within'
      have between := apartHere _ (List.mem_map_of_mem listed)
      simp only [Range.Apart] at between
      omega

namespace Tells

variable {run first : Traced α} {following : α → Traced β}

theorem silent (none : run.notices.filter Notice.isObject = []) : setting.Tells [] run :=
  fun _ _ => ⟨[], .nil, none ▸ .nil⟩

theorem pure (value : α) : setting.Tells [] (Pure.pure value : Traced α) := silent rfl

theorem lift (result : Except Fault α) : setting.Tells [] (Traced.lift result) := silent rfl

theorem bind (tells : setting.Tells parts first)
    (follows : ∀ value, first.result = .ok value → setting.Tells further (following value)) :
    setting.Tells (parts ++ further) (first >>= following) := by
  intro result made
  obtain ⟨value, ofFirst, ofNext⟩ := Traced.bind_ok.mp made
  obtain ⟨early, toldEarly, before⟩ := tells value ofFirst
  obtain ⟨late, toldLate, after⟩ := follows value ofFirst result ofNext
  refine ⟨early ++ late, List.rel_append toldEarly toldLate, ?_⟩
  rw [Traced.bind_eq ofFirst, List.filter_append, List.flatten_append]
  exact before.append after

theorem perm (tells : setting.Tells parts run) (same : further.Perm parts) : setting.Tells further run := by
  intro value made
  obtain ⟨each, told, notices⟩ := tells value made
  obtain ⟨reordered, told, again⟩ := List.perm_comp_forall₂ same told
  exact ⟨reordered, told, notices.trans again.flatten.symm⟩

theorem behind (tells : setting.Tells parts first)
    (follows : ∀ value, first.result = .ok value → setting.Tells further (following value)) :
    setting.Tells (further ++ parts) (first >>= following) :=
  (tells.bind follows).perm List.perm_append_comm

theorem after (tells : setting.Tells [] first)
    (follows : ∀ value, first.result = .ok value → setting.Tells further (following value)) :
    setting.Tells further (first >>= following) := tells.bind follows

theorem before (tells : setting.Tells parts first)
    (follows : ∀ value, first.result = .ok value → setting.Tells [] (following value)) :
    setting.Tells parts (first >>= following) := by
  have all := tells.bind follows
  rwa [List.append_nil] at all

theorem map (tells : setting.Tells parts first) (make : α → β) :
    setting.Tells parts (first >>= fun value => Pure.pure (make value)) :=
  tells.before fun _ _ => pure _

theorem mapM {f : α → Traced β} {items : List α} {place : α → Manner × Subtree}
    (each : ∀ item ∈ items, setting.Tells [place item] (f item)) :
    setting.Tells (items.map place) (items.mapM f) := by
  induction items with
  | nil => exact pure _
  | cons item rest ih =>
    rw [List.mapM_cons, List.map_cons]
    refine (each item List.mem_cons_self).bind fun _ _ => ?_
    exact (ih fun item member => each item (List.mem_cons_of_mem _ member)).map _

theorem skip (none : ∀ place, setting.Stays part → ¬ setting.Within manner part place)
    (tells : setting.Tells parts run) : setting.Tells ((manner, part) :: parts) run := by
  intro value made
  obtain ⟨each, told, notices⟩ := tells value made
  refine ⟨[] :: each, .cons ⟨[], .nil, fun place => ?_, fun _ _ => .nil⟩ told, notices⟩
  exact ⟨nofun, fun ⟨stays, within⟩ => absurd within (none place stays)⟩

theorem fold (other : ∀ ref, part = .ref ref → ref.slot? = none) (stays : setting.Stays part)
    (tells : setting.Tells (part.parts manner) run) : setting.Tells [(manner, part)] run := by
  intro value made
  obtain ⟨each, told, notices⟩ := tells value made
  obtain ⟨places, all, among, distinct⟩ := told_together told
  refine ⟨[each.flatten], .cons ⟨places, all, fun place => ?_, fun inCode sound => ?_⟩ .nil,
    by simpa using notices⟩
  next => rw [among, within_parts other, and_iff_right stays]
  next =>
    refine distinct (fun pair member => ?_) ?_
    next =>
      have child : pair.2 ∈ part.children := Subtree.parts_children manner part ▸ List.mem_map_of_mem member
      exact ⟨inCode.children child, sound.child child⟩
    next =>
      obtain ⟨spread, -⟩ := Subtree.contents_spread inCode sound.here
      obtain ⟨-, children, -⟩ := List.pairwise_append.mp spread
      rw [← Subtree.parts_children manner part, List.map_map] at children
      exact children

theorem through (other : (part.kind == .typeRef || part.kind == .typeParam) = false)
    (tells : setting.Tells (part.parts manner) run) : setting.Tells [(manner, part)] run := by
  rw [Bool.or_eq_false_iff] at other
  refine .fold (fun ref same => ?_) (stays_other other.2) tells
  subst same
  cases other.1

end Tells

section Entries

theorem rename_tells (name : Name) (values : List SlotType) :
    setting.Tells [] (setting.rename scope name values) := by
  refine .silent ?_
  unfold rename
  split <;> rfl

theorem bareSlot_tells (ref : TypeRef) : setting.Tells [] (setting.bareSlot ref) := by
  refine .silent ?_
  unfold bareSlot
  repeat' split
  all_goals rfl

theorem bareValue_tells (ref : TypeRef) : setting.Tells [] (setting.bareValue ref) := by
  refine (bareSlot_tells ref).after fun bare _ => ?_
  cases bare with
  | none => exact .pure _
  | some slot => exact (Tells.lift _).map _

theorem keepEntry_tells {range : Range} {values : List (Option SlotType)} {derived : Bool}
    {edits : List Edit} : setting.Tells [] (setting.keepEntry range values derived edits) :=
  (Tells.lift _).map _

-- Only as an argument of a type that is no template can a placeholder alone be one that gives way.
theorem within_bound {ref : TypeRef} {value : SlotType} (bare : ref.slot? = some slot)
    (bound : setting.binding.get? slot = some value) (within : setting.Within manner (.ref ref) place) :
    manner = .foreign place.owner ∧ place = ⟨place.owner, ref, slot, value⟩ ∧ ref.dims = 0 ∧
      value.isPrimitive = true := by
  obtain ⟨foreign, rfl, yields⟩ := (within_bare bare).mp within
  have sameSlot := bare.symm.trans yields.bare
  cases sameSlot
  have sameValue := bound.symm.trans yields.bound
  cases sameValue
  exact ⟨foreign, rfl, yields.dimless, yields.primitive⟩

theorem told_bare (yields : setting.GivesWay place) :
    setting.Told (.foreign place.owner, .ref place.ref) [setting.yieldNotice place] := by
  refine ⟨[place], .refl _, fun other => ?_, fun _ _ => List.pairwise_singleton _ _⟩
  rw [List.mem_singleton]
  constructor
  next =>
    rintro rfl
    exact ⟨stays_other rfl, .here yields⟩
  next =>
    rintro ⟨-, within⟩
    obtain ⟨foreign, same, -⟩ := within_bound yields.bare yields.bound within
    rw [same, ← Manner.foreign.inj foreign]

theorem bareEdit_tells {ref : TypeRef} {value : SlotType} (bare : ref.slot? = some slot)
    (bound : setting.binding.get? slot = some value) :
    setting.Tells [(manner, .ref ref)] (setting.bareEdit manner.owner? ref slot value) := by
  unfold bareEdit
  split
  next empty =>
    unfold TypeRef.slot? at bare
    split at bare
    next => cases empty
    next => cases bare
  next segment _ =>
    split
    next generic =>
      refine .skip (fun place _ within => ?_) (.pure _)
      have primitive := (within_bound bare bound within).2.2.2
      simp [SlotType.isPrimitive, generic] at primitive
    next primitive =>
      cases manner with
      | alone | template name =>
        refine .skip (fun place _ within => ?_) (.pure _)
        cases (within_bound bare bound within).1
      | foreign owner =>
        dsimp only [Manner.owner?]
        split
        next dimless =>
          have yields : setting.GivesWay ⟨owner, ref, slot, value⟩ :=
            ⟨bare, dimless, bound, by simpa [SlotType.isPrimitive] using primitive⟩
          exact fun _ _ => ⟨_, .cons (told_bare yields) .nil, .refl _⟩
        next other =>
          -- Square brackets behind it keep a placeholder from giving way.
          refine .skip (fun place _ within => ?_) (.pure _)
          exact other (within_bound bare bound within).2.2.1

theorem refEntry_tells {range : Range} {derived : RefEdits → Bool} {ref : TypeRef}
    (none : ref.slot?.isSome = true → ∀ place, ¬ setting.Within .alone part place)
    (visits : setting.Tells [(.alone, part)] (setting.refEdits .none scope ref)) :
    setting.Tells [(.alone, part)] (setting.refEntry scope range derived ref) := by
  refine (bareValue_tells ref).after fun bare found => ?_
  cases bare with
  | none => exact visits.before fun inner _ => keepEntry_tells
  | some value =>
    obtain ⟨slot, isBare, -⟩ := bareValue_some found
    refine .skip (fun place _ => none (by rw [bareSlot_ok isBare, Option.isSome_some]) place) ?_
    dsimp only
    split
    next => exact .pure _
    next => exact keepEntry_tells

theorem alone_free {ref : TypeRef} (bare : ref.slot?.isSome = true) (place : Yielding) :
    ¬ setting.Within .alone (.ref ref) place := by
  obtain ⟨slot, named⟩ := Option.isSome_iff_exists.mp bare
  rw [within_bare named]
  exact fun within => by cases within.1

theorem unbounded_free (range : Range) (place : Yielding) :
    ¬ setting.Within manner (.wildcard range none) place := by
  intro within
  obtain ⟨pair, member, -⟩ := (within_parts fun _ same => by cases same).mp within
  cases member

end Entries

section References

theorem foreignEdits_tells {owner : List Char} {args : List TypeArg}
    (inner : ∀ arg ∈ args, ∀ ref ∈ arg.ref?,
      setting.Tells [(.foreign owner, .ref ref)] (setting.refEdits (some owner) scope ref)) :
    setting.Tells (args.map fun arg => (.foreign owner, arg.subtree))
      (setting.foreignEdits owner scope args) := by
  have each : ∀ arg ∈ args,
      setting.Tells [(.foreign owner, arg.subtree)] (setting.foreignEntry owner scope arg) := by
    intro arg member
    have here := inner arg member
    cases arg with
    | unbounded range => exact .skip (fun place _ => unbounded_free range place) (.pure _)
    | exact ref => exact (here ref rfl).map _
    | bounded range kind ref => exact .through rfl ((here ref rfl).map _)
  rw [foreignEdits_eq]
  exact (Tells.mapM each).map _

theorem argEntry_tells {given : Option (List SlotType)} {position : Nat} {arg : TypeArg}
    (inner : ∀ ref ∈ arg.ref?, setting.Tells [(.alone, .ref ref)] (setting.refEdits none scope ref)) :
    setting.Tells [(.alone, arg.subtree)] (setting.argEntry given scope position arg) := by
  cases arg with
  | unbounded range =>
    refine .skip (fun place _ => unbounded_free range place) ?_
    rcases setting.argEntry_unbounded given position range with ⟨_, _, -, -, -, same⟩ | ⟨-, _, _, -, same⟩
    · rw [same]
      exact .pure _
    · rw [same]
      exact keepEntry_tells
  | exact ref =>
    rw [argEntry_exact]
    exact refEntry_tells alone_free (inner ref rfl)
  | bounded range kind ref =>
    rw [argEntry_bounded]
    refine refEntry_tells (fun bare place => ?_) (.through rfl (inner ref rfl))
    intro within
    obtain ⟨pair, member, -, within⟩ := (within_parts fun _ same => by cases same).mp within
    cases List.mem_singleton.mp member
    exact alone_free bare place within

theorem argEdits_tells {given : Option (List SlotType)} {position : Nat} {args : List TypeArg}
    (inner : ∀ arg ∈ args, ∀ ref ∈ arg.ref?,
      setting.Tells [(.alone, .ref ref)] (setting.refEdits none scope ref)) :
    setting.Tells (args.map fun arg => (.alone, arg.subtree)) (setting.argEdits given scope position args) := by
  induction args generalizing position with
  | nil =>
    rw [argEdits]
    exact .pure _
  | cons arg rest ih =>
    rw [argEdits]
    refine (argEntry_tells (inner arg List.mem_cons_self)).bind fun _ _ => ?_
    exact (ih fun arg member => inner arg (List.mem_cons_of_mem _ member)).map _

theorem segmentEdits_tells {segment : Segment}
    (inner : ∀ ref ∈ segment.refs, ∀ manner : Manner,
      setting.Tells [(manner, .ref ref)] (setting.refEdits manner.owner? scope ref)) :
    setting.Tells segment.part?.toList (setting.segmentEdits scope segment) := by
  cases segment with
  | plain name =>
    rw [segmentEdits]
    split
    next => exact .pure _
    next => exact (Tells.lift _).after fun values _ => (rename_tells name values).map _
  | applied name list =>
    cases list with
    | mk range args =>
      have among : ∀ arg ∈ args, ∀ ref ∈ arg.ref?, ref ∈ (Segment.applied name (.mk range args)).refs :=
        fun arg member ref has => List.mem_filterMap.mpr ⟨arg, member, has⟩
      rw [segmentEdits]
      by_cases has : hasPlaceholder name.text = true
      next =>
        have some : ¬ segmentCount name.text = 0 := by simpa [segmentCount_eq_zero] using has
        rw [if_neg some, Segment.part?, if_pos has]
        refine .through rfl ((Tells.lift _).after fun inScope _ => ?_)
        dsimp only
        split
        next empty =>
          rw [List.isEmpty_iff.mp empty]
          exact (rename_tells name inScope).map _
        next =>
          have visits : setting.Tells _ (setting.argEdits (Option.some inScope) scope 0 args) :=
            argEdits_tells fun arg member ref has => inner ref (among arg member ref has) .alone
          refine visits.before fun entries _ => ?_
          split
          next => exact (rename_tells name _).map _
          next => exact (Tells.silent rfl).after fun _ _ => (rename_tells name _).map _
      next =>
        have none : segmentCount name.text = 0 := by simpa [segmentCount_eq_zero] using has
        have visits : setting.Tells _ (setting.foreignEdits name.text scope args) :=
          foreignEdits_tells fun arg member ref has => inner ref (among arg member ref has) (.foreign name.text)
        rw [if_pos none, Segment.part?, if_neg has]
        exact .through rfl (visits.map _)

theorem segmentsEdits_tells {segments : List Segment}
    (each : ∀ segment ∈ segments, setting.Tells segment.part?.toList (setting.segmentEdits scope segment)) :
    setting.Tells (segments.filterMap Segment.part?) (setting.segmentsEdits scope segments) := by
  induction segments with
  | nil =>
    rw [segmentsEdits]
    exact .pure _
  | cons segment rest ih =>
    have parts : (segment :: rest).filterMap Segment.part? =
        segment.part?.toList ++ rest.filterMap Segment.part? := by
      cases given : segment.part? <;> simp [given]
    rw [segmentsEdits, parts]
    refine (each segment List.mem_cons_self).bind fun _ _ => ?_
    exact (ih fun segment member => each segment (List.mem_cons_of_mem _ member)).map _

theorem refEdits_tells (manner : Manner) (ref : TypeRef) :
    setting.Tells [(manner, .ref ref)] (setting.refEdits manner.owner? scope ref) := by
  induction ref using TypeRef.induction generalizing manner with
  | mk range segments dims inner =>
    rw [refEdits]
    refine (bareSlot_tells _).after fun bare found => ?_
    have isBare := bareSlot_ok found
    cases bare with
    | some slot =>
      refine (Tells.lift _).after fun value bound => ?_
      exact (bareEdit_tells isBare (get?_of_get bound)).map _
    | none =>
      refine .fold (fun _ same => by cases same; exact isBare) (stays_other rfl) ?_
      exact segmentsEdits_tells fun segment member => segmentEdits_tells (inner segment member)

end References

section Declarations

theorem refsEdits_tells (refs : List TypeRef) :
    setting.Tells (refs.map fun ref => (.alone, .ref ref)) (setting.refsEdits scope refs) := by
  rw [refsEdits_eq]
  exact (Tells.mapM fun ref _ => refEdits_tells .alone ref).map _

theorem explicitArgs_tells (list : TypeArgs) :
    setting.Tells [(.alone, .args list)] (setting.explicitArgs scope list) := by
  have visits : setting.Tells _ (setting.argEdits none scope 0 list.args) :=
    argEdits_tells fun _ _ ref _ => refEdits_tells .alone ref
  exact .through rfl (visits.map _)

theorem paramEntry_tells (param : TypeParam) :
    setting.Tells [(.alone, .param param)] (setting.paramEntry scope param) := by
  have parts : (Subtree.param param).parts .alone = param.bounds.map fun ref => (.alone, .ref ref) := by
    simp [Subtree.parts, Subtree.children, Function.comp_def]
  have kept : setting.Tells ((Subtree.param param).parts .alone) (setting.paramKept scope param) :=
    parts ▸ (refsEdits_tells param.bounds).before fun edits _ => keepEntry_tells
  cases named : Slot.ofText? param.name.text with
  | none =>
    rw [paramEntry_none named]
    refine .fold (fun _ same => by cases same) (fun other same slot value there => ?_) kept
    cases same
    simp [named] at there
  | some slot =>
    rw [paramEntry_some named]
    refine (Tells.lift _).after fun found bound => ?_
    have isBound := get?_of_get (Traced.lift_ok.mp bound)
    split
    next primitive =>
      refine .skip (fun place stays => ?_) (.pure _)
      -- A parameter that goes is not one that stays, so this case is silent.
      have generic := stays param rfl slot found named isBound
      simp [SlotType.isPrimitive, generic] at primitive
    next generic =>
      refine .fold (fun _ same => by cases same) (fun other same slot' value' there known => ?_) kept
      cases same
      cases named.symm.trans there
      cases isBound.symm.trans known
      simpa [SlotType.isPrimitive] using generic

theorem paramsEdits_tells (list : TypeParams) :
    setting.Tells [(.alone, .params list)] (setting.paramsEdits scope list) := by
  have parts : (Subtree.params list).parts .alone = list.params.map fun param => (.alone, .param param) := by
    simp [Subtree.parts, Subtree.children, Function.comp_def]
  have entries : setting.Tells (list.params.map fun param => (.alone, .param param))
      (setting.paramEntries scope list.params) := by
    rw [paramEntries_eq]
    exact (Tells.mapM fun param _ => paramEntry_tells param).map _
  refine .through rfl ?_
  rw [parts]
  exact entries.map _

theorem optionalParams_tells (list : Option TypeParams) :
    setting.Tells (list.toList.map fun list => (.alone, .params list)) (setting.optionalParams scope list) := by
  cases list with
  | none => exact .pure _
  | some list => exact paramsEdits_tells list

theorem optionalArgs_tells (explicit : Option TypeArgs) :
    setting.Tells (explicit.toList.map fun list => (.alone, .args list))
      (setting.optionalArgs scope explicit) := by
  cases explicit with
  | none => exact .pure _
  | some list => exact (explicitArgs_tells list).map _

theorem membersEdits_tells {members : List Member}
    (each : ∀ member ∈ members, setting.Tells [(.alone, member.subtree)] (setting.memberEdits scope member)) :
    setting.Tells (members.map fun member => (.alone, member.subtree))
      (setting.membersEdits scope members) := by
  rw [membersEdits_eq]
  exact (Tells.mapM each).map _

theorem memberEdits_tells (scope : Scope Slot) (member : Member) :
    setting.Tells [(.alone, member.subtree)] (setting.memberEdits scope member) := by
  induction member using Member.induction generalizing scope with
  | typeUse ref =>
    rw [memberEdits]
    exact (refEdits_tells .alone ref).map _
  | importDecl range ref isStatic onDemand =>
    rw [memberEdits]
    have found : setting.Tells [(.alone, .ref ref)] (setting.refEdits none scope ref) :=
      refEdits_tells .alone ref
    exact .through rfl (found.map _)
  | typeDecl range keyword name params supertypes members inner =>
    have shape : (Subtree.typeDecl range keyword name params supertypes members).parts .alone =
        (params.toList.map fun list => (.alone, .params list)) ++
          ((supertypes.map fun ref => (.alone, .ref ref)) ++
            members.map fun member => (.alone, member.subtree)) := by
      simp only [Subtree.parts, Subtree.children, List.append_assoc, List.map_append, List.map_map,
        Function.comp_def]
    have body := membersEdits_tells fun member found => inner member found (scope.inside params)
    rw [memberEdits]
    refine .through rfl (shape ▸ ?_)
    refine (Tells.lift _).after fun values _ => (rename_tells name values).after fun _ _ => ?_
    refine (optionalParams_tells params).bind fun _ _ => (refsEdits_tells supertypes).bind fun _ _ => ?_
    exact body.map _
  | methodDecl range params members inner =>
    have shape : (Subtree.methodDecl range params members).parts .alone =
        [(.alone, .params params)] ++ members.map fun member => (.alone, member.subtree) := by
      simp only [Subtree.parts, Subtree.children, List.map_cons, List.map_map, Function.comp_def,
        List.cons_append, List.nil_append]
    have body := membersEdits_tells fun member found => inner member found (scope.inside (some params))
    rw [memberEdits]
    refine .through rfl (shape ▸ ?_)
    exact (paramsEdits_tells params).bind fun _ _ => body.map _
  | creation range type members args inner =>
    have shape : (Subtree.creation range type members args).parts .alone =
        ([(.alone, .ref type)] ++ members.map fun member => (.alone, member.subtree)) ++
          args.toList.map fun list => (.alone, .args list) := by
      simp only [Subtree.parts, Subtree.children, List.cons_append, List.map_cons, List.map_append,
        List.map_map, Function.comp_def, List.nil_append]
    have body := membersEdits_tells fun member found => inner member found scope
    rw [memberEdits_creation]
    refine .through rfl (shape ▸ ?_)
    -- The arguments are visited first, but stand last among the children.
    refine (optionalArgs_tells args).behind fun _ _ => ?_
    exact (refEdits_tells .alone type).bind fun _ _ => body.map _
  | witness range args method =>
    rw [memberEdits]
    refine .through rfl ((explicitArgs_tells args).before fun explicit _ => ?_)
    exact (Tells.lift _).after fun values _ => (rename_tells method _).map _

end Declarations

end Setting

end Specializer
