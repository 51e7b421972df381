import Specializer.Proofs.Alike
import Specializer.Proofs.DocWords
import Specializer.Proofs.Yield
import Specializer.Template

set_option autoImplicit false

namespace Specializer

open Traced (Matches Alike)

/-- The bindings give types to the same slots, and generic ones to the same of them. -/
def Binding.Alike (first second : Binding) : Prop :=
  ∀ slot, (first.get? slot).map SlotType.isGeneric = (second.get? slot).map SlotType.isGeneric

def RefEdits.outline (found : RefEdits) : List (Int × Int) × Option (List Bool) :=
  (found.edits.map Edit.extent, found.values.map (List.map SlotType.isGeneric))

def Entries.outline (entries : Entries) :
    List (Option Bool) × Nat × List (Int × Int) × Bool × Bool :=
  (entries.values.map (Option.map SlotType.isGeneric), entries.kept.length,
    entries.edits.map Edit.extent, entries.dropped, entries.derived)

section Values

variable {first second : Binding}

theorem Binding.Alike.get (alike : first.Alike second) (slot : Slot) :
    Matches SlotType.isGeneric (first.get slot) (second.get slot) := by
  have same := alike slot
  unfold Binding.get
  cases left : first.get? slot <;> cases right : second.get? slot <;> simp_all [Matches]

theorem Binding.Alike.values (alike : first.Alike second) (scope : Scope Slot) :
    Matches (List.map SlotType.isGeneric) (scope.values first) (scope.values second) :=
  .mapM fun slot _ => alike.get slot

theorem substituteInOrder_alike (text : List Char) {values values' : List SlotType}
    (same : values.map SlotType.isGeneric = values'.map SlotType.isGeneric) :
    (substituteInOrder text values).map (fun new => decide (new = text)) =
      (substituteInOrder text values').map fun new => decide (new = text) := by
  have length : values.length = values'.length := by simpa using congrArg List.length same
  have enough : (substituteInOrder text values).isSome = (substituteInOrder text values').isSome := by
    rw [substituteInOrder_isSome, substituteInOrder_isSome, length]
  by_cases has : hasPlaceholder text = true
  -- A text with placeholders changes whatever the values are, if there are enough of them.
  · cases left : substituteInOrder text values <;> cases right : substituteInOrder text values'
    case none.none => rfl
    case none.some | some.none => simp [left, right] at enough
    case some.some =>
      simp [substituteInOrder_changed has left, substituteInOrder_changed has right]
  · simp [substituteInOrder_plain (Bool.eq_false_iff.mpr has)]

end Values

namespace Setting

variable {tokens : List Token} {first second : Binding} {scope : Scope Slot}

theorem values_alike (alike : first.Alike second) :
    Alike (List.map SlotType.isGeneric) (Setting.values ⟨tokens, first⟩ scope)
      (Setting.values ⟨tokens, second⟩ scope) :=
  .lift (alike.values scope)

theorem rename_alike {name : Name} {values values' : List SlotType}
    (same : values.map SlotType.isGeneric = values'.map SlotType.isGeneric) :
    Alike (List.map Edit.extent) (rename ⟨tokens, first⟩ scope name values)
      (rename ⟨tokens, second⟩ scope name values') := by
  have outcome := substituteInOrder_alike name.text same
  unfold rename
  cases left : substituteInOrder name.text values <;>
    cases right : substituteInOrder name.text values' <;> simp only [left, right] at outcome
  case none.none => exact .fail rfl
  case none.some | some.none => cases outcome
  case some.some new new' =>
    have changed : new = name.text ↔ new' = name.text := by simpa using outcome
    by_cases kept : new = name.text
    · simpa [kept, changed.mp kept] using Alike.refl _
    · simp only [kept, mt changed.mpr kept, if_false]
      exact .pure rfl

theorem bareSlot_alike (ref : TypeRef) :
    Alike id (bareSlot ⟨tokens, first⟩ ref) (bareSlot ⟨tokens, second⟩ ref) := .refl _

theorem slotValue_alike (alike : first.Alike second) (slot : Slot) :
    Alike (Option.map SlotType.isGeneric)
      (do let value ← Traced.lift (first.get slot); pure (some value))
      (do let value ← Traced.lift (second.get slot); pure (some value)) :=
  (Alike.lift (alike.get slot)).bind fun _ _ same => .pure (congrArg some same)

theorem bareValue_alike (alike : first.Alike second) (ref : TypeRef) :
    Alike (Option.map SlotType.isGeneric) (bareValue ⟨tokens, first⟩ ref)
      (bareValue ⟨tokens, second⟩ ref) := by
  refine (bareSlot_alike ref).bind ?_
  rintro _ (_ | slot) rfl
  · exact .refl _
  · exact slotValue_alike alike slot

theorem bareEdit_alike {owner : Option (List Char)} {ref : TypeRef} {slot : Slot}
    {value value' : SlotType} (same : value.isGeneric = value'.isGeneric) :
    Alike (List.map Edit.extent) (bareEdit ⟨tokens, first⟩ owner ref slot value)
      (bareEdit ⟨tokens, second⟩ owner ref slot value') := by
  unfold bareEdit
  cases ref.segments.getLast? with
  | none => exact .refl _
  | some segment =>
    simp only [same]
    split
    · exact .refl _
    · cases owner with
      | none => exact .pure rfl
      | some owner =>
        simp only
        split
        · refine Alike.bind (Alike.notice ?_) fun _ _ _ => .pure rfl
          rfl
        · exact .pure rfl

theorem render_alike {range : Range} {edits edits' : List Edit}
    (same : edits.map Edit.extent = edits'.map Edit.extent) :
    Alike (fun _ => ()) (render ⟨tokens, first⟩ range edits) (render ⟨tokens, second⟩ range edits') :=
  .lift (Edit.render_alike (Edit.sort_extents same))

theorem listEdits_alike {range : Range} {entries entries' : Entries}
    (same : entries.outline = entries'.outline) :
    (listEdits ⟨tokens, first⟩ range entries).map Edit.extent =
      (listEdits ⟨tokens, second⟩ range entries').map Edit.extent := by
  simp only [Entries.outline, Prod.mk.injEq] at same
  obtain ⟨-, kept, edits, dropped, -⟩ := same
  have empty : entries.kept.isEmpty = entries'.kept.isEmpty := by
    rw [Bool.eq_iff_iff, List.isEmpty_iff_length_eq_zero, List.isEmpty_iff_length_eq_zero, kept]
  unfold listEdits reduce
  simp only [dropped, empty]
  split
  · split <;> rfl
  · exact edits

theorem all_isPrimitive (values : List SlotType) :
    values.all SlotType.isPrimitive = (values.map SlotType.isGeneric).all (!·) := by
  rw [List.all_map]
  rfl

theorem resolve_alike {entries entries' : Entries} {rest rest' : List SlotType}
    (same : entries.outline = entries'.outline)
    (rests : rest.map SlotType.isGeneric = rest'.map SlotType.isGeneric) :
    (entries.resolve rest).map SlotType.isGeneric =
      (entries'.resolve rest').map SlotType.isGeneric := by
  simp only [Entries.outline, Prod.mk.injEq] at same
  have length : entries.values.length = entries'.values.length := by
    simpa using congrArg List.length same.1
  have known (values : List (Option SlotType)) :
      values.map (SlotType.isGeneric ∘ fun value => value.getD .generic) =
        (values.map (Option.map SlotType.isGeneric)).map fun value => value.getD true := by
    rw [List.map_map]
    refine List.map_congr_left fun value _ => ?_
    cases value <;> rfl
  simp only [Entries.resolve, List.map_append, List.map_map, List.map_drop, known, same.1, rests,
    length]

theorem append_alike {a a' b b' : Entries} (first : a.outline = a'.outline)
    (second : b.outline = b'.outline) : (a.append b).outline = (a'.append b').outline := by
  simp only [Entries.outline, Prod.mk.injEq] at first second ⊢
  simp [Entries.append, first, second]

theorem RefEdits.join_alike {each each' : List RefEdits}
    (same : each.map RefEdits.outline = each'.map RefEdits.outline) :
    (RefEdits.join each).outline = (RefEdits.join each').outline := by
  induction each generalizing each' with
  | nil =>
    cases List.map_eq_nil_iff.mp same.symm
    rfl
  | cons found rest ih =>
    cases each' with
    | nil => cases same
    | cons found' rest' =>
      obtain ⟨here, behind⟩ := List.cons.inj same
      have later := ih behind
      simp only [RefEdits.outline, RefEdits.join, List.foldr_cons, Prod.mk.injEq] at here later ⊢
      refine ⟨by simp [here, later], ?_⟩
      rw [Option.map_or, Option.map_or, here.2, later.2]

theorem join_alike {each each' : List Entries}
    (same : each.map Entries.outline = each'.map Entries.outline) :
    (Entries.join each).outline = (Entries.join each').outline := by
  induction each generalizing each' with
  | nil =>
    cases List.map_eq_nil_iff.mp same.symm
    rfl
  | cons entries rest ih =>
    cases each' with
    | nil => cases same
    | cons entries' rest' =>
      obtain ⟨here, behind⟩ := List.cons.inj same
      exact append_alike here (ih behind)

theorem flatten_alike {each each' : List (List Edit)}
    (same : each.map (List.map Edit.extent) = each'.map (List.map Edit.extent)) :
    each.flatten.map Edit.extent = each'.flatten.map Edit.extent := by
  rw [List.map_flatten, List.map_flatten, same]

theorem keepEntry_alike {range : Range} {edits edits' : List Edit} {values values' : List (Option SlotType)}
    {derived derived' : Bool} (extents : edits.map Edit.extent = edits'.map Edit.extent)
    (same : values.map (Option.map SlotType.isGeneric) = values'.map (Option.map SlotType.isGeneric))
    (derives : derived = derived') :
    Alike Entries.outline (keepEntry ⟨tokens, first⟩ range values derived edits)
      (keepEntry ⟨tokens, second⟩ range values' derived' edits') := by
  refine (render_alike extents).map fun _ _ _ => ?_
  simp [Entries.outline, Entries.keep, extents, same, derives]

theorem dropOrKeep_alike {range : Range} {value value' : SlotType}
    (same : value.isGeneric = value'.isGeneric) :
    Alike Entries.outline
      (if value.isPrimitive then pure (.drop value)
        else keepEntry ⟨tokens, first⟩ range [some value] true [])
      (if value'.isPrimitive then pure (.drop value')
        else keepEntry ⟨tokens, second⟩ range [some value'] true []) := by
  by_cases generic : value'.isGeneric = true
  · simp only [SlotType.isPrimitive, same, generic, Bool.not_true, Bool.false_eq_true, if_false]
    refine keepEntry_alike rfl ?_ rfl
    simp [same]
  · simp only [SlotType.isPrimitive, same, generic, Bool.not_false, if_true]
    refine .pure ?_
    simp [Entries.outline, Entries.drop, same]

theorem refEntry_alike (alike : first.Alike second) {range : Range} {derived : RefEdits → Bool}
    {ref : TypeRef}
    (derives : ∀ found found' : RefEdits, found.outline = found'.outline →
      derived found = derived found')
    (inner : Alike RefEdits.outline (refEdits ⟨tokens, first⟩ none scope ref)
      (refEdits ⟨tokens, second⟩ none scope ref)) :
    Alike Entries.outline (refEntry ⟨tokens, first⟩ scope range derived ref)
      (refEntry ⟨tokens, second⟩ scope range derived ref) := by
  refine (bareValue_alike alike ref).bind fun bare bare' same => ?_
  cases bare <;> cases bare' <;> simp only [Option.map_some, Option.map_none] at same
  case none.some | some.none => cases same
  case some.some value value' => exact dropOrKeep_alike (Option.some.inj same)
  case none.none =>
    refine inner.bind fun found found' outlines => ?_
    have derived := derives found found' outlines
    simp only [RefEdits.outline, Prod.mk.injEq] at outlines
    refine keepEntry_alike outlines.1 ?_ derived
    have known (values : List SlotType) : (values.map some).map (Option.map SlotType.isGeneric) =
        (values.map SlotType.isGeneric).map some := by simp
    rw [known, known]
    cases left : found.values <;> cases right : found'.values <;> simp_all

section References

variable (alike : first.Alike second)

theorem foreignEdits_alike {owner : List Char} {args : List TypeArg}
    (inner : ∀ arg ∈ args, ∀ ref ∈ arg.ref?, Alike RefEdits.outline
      (refEdits ⟨tokens, first⟩ (some owner) scope ref) (refEdits ⟨tokens, second⟩ (some owner) scope ref)) :
    Alike (List.map Edit.extent) (foreignEdits ⟨tokens, first⟩ owner scope args)
      (foreignEdits ⟨tokens, second⟩ owner scope args) := by
  have each : ∀ arg ∈ args, Alike (List.map Edit.extent) (foreignEntry ⟨tokens, first⟩ owner scope arg)
      (foreignEntry ⟨tokens, second⟩ owner scope arg) := by
    intro arg member
    have here := inner arg member
    cases arg with
    | unbounded range => exact .refl _
    | exact ref | bounded range kind ref => exact (here ref rfl).map fun _ _ same => congrArg Prod.fst same
  rw [foreignEdits_eq, foreignEdits_eq]
  exact (Alike.mapM each).map fun _ _ => flatten_alike

include alike

theorem argEntry_alike {inScope inScope' : Option (List SlotType)}
    (same : inScope.map (List.map SlotType.isGeneric) = inScope'.map (List.map SlotType.isGeneric))
    {position : Nat} {arg : TypeArg} (inner : ∀ ref ∈ arg.ref?, Alike RefEdits.outline
      (refEdits ⟨tokens, first⟩ none scope ref) (refEdits ⟨tokens, second⟩ none scope ref)) :
    Alike Entries.outline (argEntry ⟨tokens, first⟩ inScope scope position arg)
      (argEntry ⟨tokens, second⟩ inScope' scope position arg) := by
  cases arg with
  | unbounded range =>
    cases inScope <;> cases inScope' <;> simp only [Option.map_some, Option.map_none] at same
    case none.some | some.none => cases same
    case none.none =>
      rw [argEntry, argEntry]
      exact keepEntry_alike rfl rfl rfl
    case some.some values values' =>
      rw [argEntry, argEntry]
      have there : values[position]?.map SlotType.isGeneric =
          values'[position]?.map SlotType.isGeneric := by
        rw [← List.getElem?_map, ← List.getElem?_map, Option.some.inj same]
      cases left : values[position]? <;> cases right : values'[position]? <;>
        simp only [left, right, Option.map_some, Option.map_none] at there ⊢
      case none.some | some.none => cases there
      case none.none => exact keepEntry_alike rfl rfl rfl
      case some.some value value' => exact dropOrKeep_alike (Option.some.inj there)
  | exact ref =>
    rw [argEntry_exact, argEntry_exact]
    refine refEntry_alike alike (fun found found' outlines => ?_) (inner ref rfl)
    simp only [RefEdits.outline, Prod.mk.injEq] at outlines
    simpa using congrArg Option.isSome outlines.2
  | bounded range kind ref =>
    rw [argEntry_bounded, argEntry_bounded]
    exact refEntry_alike alike (fun _ _ _ => rfl) (inner ref rfl)

omit alike in
theorem argEdits_alike {inScope inScope' : Option (List SlotType)} {position : Nat} {args : List TypeArg}
    (each : ∀ arg ∈ args, ∀ position, Alike Entries.outline
      (argEntry ⟨tokens, first⟩ inScope scope position arg)
      (argEntry ⟨tokens, second⟩ inScope' scope position arg)) :
    Alike Entries.outline (argEdits ⟨tokens, first⟩ inScope scope position args)
      (argEdits ⟨tokens, second⟩ inScope' scope position args) := by
  induction args generalizing position with
  | nil =>
    rw [argEdits, argEdits]
    exact .refl _
  | cons arg rest ih =>
    rw [argEdits, argEdits]
    refine (each arg List.mem_cons_self position).bind fun entries entries' outlines => ?_
    have length : entries.values.length = entries'.values.length := by
      simp only [Entries.outline, Prod.mk.injEq] at outlines
      simpa using congrArg List.length outlines.1
    rw [length]
    exact (ih fun arg member => each arg (List.mem_cons_of_mem _ member)).map fun _ _ => append_alike outlines

theorem segmentEdits_alike {segment : Segment} (inner : ∀ ref ∈ segment.refs, ∀ owner,
      Alike RefEdits.outline (refEdits ⟨tokens, first⟩ owner scope ref)
        (refEdits ⟨tokens, second⟩ owner scope ref)) :
    Alike RefEdits.outline (segmentEdits ⟨tokens, first⟩ scope segment)
      (segmentEdits ⟨tokens, second⟩ scope segment) := by
  cases segment with
  | plain name =>
    rw [segmentEdits, segmentEdits]
    split
    · exact .refl _
    · refine (values_alike alike).bind fun values values' same => ?_
      refine (rename_alike same).map fun edits edits' extents => ?_
      simp [RefEdits.outline, extents, same, List.map_take]
  | applied name args =>
    cases args with
    | mk range args =>
      have among : ∀ arg ∈ args, ∀ ref ∈ arg.ref?, ref ∈ (Segment.applied name (.mk range args)).refs :=
        fun arg member ref has => List.mem_filterMap.mpr ⟨arg, member, has⟩
      rw [segmentEdits, segmentEdits]
      split
      · have visits : Alike (List.map Edit.extent) (foreignEdits ⟨tokens, first⟩ name.text scope args)
            (foreignEdits ⟨tokens, second⟩ name.text scope args) :=
          foreignEdits_alike fun arg member ref has => inner ref (among arg member ref has) _
        refine visits.map fun edits edits' extents => ?_
        simp [RefEdits.outline, extents]
      · refine (values_alike alike).bind fun values values' same => ?_
        -- Whether all values in scope are primitive is the same for both, as far as they are looked
        -- at.
        have front : (values.take (segmentCount name.text)).all SlotType.isPrimitive =
            (values'.take (segmentCount name.text)).all SlotType.isPrimitive := by
          rw [all_isPrimitive, all_isPrimitive, List.map_take, List.map_take, same]
        split
        · refine (rename_alike same).map fun edits edits' extents => ?_
          simp only [RefEdits.outline, front]
          split <;> simp [extents, same, List.map_take, Edit.extent]
        · have inScope : (some values).map (List.map SlotType.isGeneric) =
              (some values').map (List.map SlotType.isGeneric) := congrArg some same
          have visits : Alike Entries.outline (argEdits ⟨tokens, first⟩ (some values) scope 0 args)
              (argEdits ⟨tokens, second⟩ (some values') scope 0 args) :=
            argEdits_alike fun arg member _ => argEntry_alike alike inScope fun ref has =>
              inner ref (among arg member ref has) none
          refine visits.bind fun entries entries' outlines => ?_
          have derived : entries.derived = entries'.derived := by
            simp only [Entries.outline, Prod.mk.injEq] at outlines
            exact outlines.2.2.2.2
          simp only [derived]
          split
          · have resolved := resolve_alike outlines same
            refine (rename_alike resolved).map fun edits edits' extents => ?_
            have lists : (listEdits ⟨tokens, first⟩ range entries).map Edit.extent =
                (listEdits ⟨tokens, second⟩ range entries').map Edit.extent :=
              listEdits_alike outlines
            simp [RefEdits.outline, extents, resolved, List.map_take, lists]
          · refine Alike.bind (Alike.notice rfl) fun _ _ _ => ?_
            refine (rename_alike rfl).map fun edits edits' extents => ?_
            simp only [Entries.outline, Prod.mk.injEq] at outlines
            simp [RefEdits.outline, extents, outlines]

theorem refEdits_alike (owner : Option (List Char)) (ref : TypeRef) :
    Alike RefEdits.outline (refEdits ⟨tokens, first⟩ owner scope ref)
      (refEdits ⟨tokens, second⟩ owner scope ref) := by
  induction ref using TypeRef.induction generalizing owner with
  | mk range segments dims inner =>
    rw [refEdits, refEdits]
    refine (bareSlot_alike _).bind ?_
    rintro _ (_ | slot) rfl
    · dsimp only
      rw [segmentsEdits_eq, segmentsEdits_eq]
      exact (Alike.mapM fun segment member => segmentEdits_alike alike (inner segment member)).map
        fun _ _ => RefEdits.join_alike
    · refine (Alike.lift (alike.get slot)).bind fun value value' same => ?_
      refine (bareEdit_alike same).map fun edits edits' extents => ?_
      simp [RefEdits.outline, extents, same]

theorem refsEdits_alike (refs : List TypeRef) :
    Alike (List.map Edit.extent) (refsEdits ⟨tokens, first⟩ scope refs)
      (refsEdits ⟨tokens, second⟩ scope refs) := by
  rw [refsEdits_eq, refsEdits_eq]
  refine (Alike.mapM fun ref _ => refEdits_alike alike none ref).map fun _ _ same => flatten_alike ?_
  have extents := congrArg (List.map Prod.fst) same
  simpa [RefEdits.outline, Function.comp_def] using extents

theorem explicitArgs_alike (args : TypeArgs) :
    Alike (Prod.map (List.map SlotType.isGeneric) (List.map Edit.extent))
      (explicitArgs ⟨tokens, first⟩ scope args) (explicitArgs ⟨tokens, second⟩ scope args) := by
  have visits : Alike Entries.outline (argEdits ⟨tokens, first⟩ none scope 0 args.args)
      (argEdits ⟨tokens, second⟩ none scope 0 args.args) :=
    argEdits_alike fun arg _ _ => argEntry_alike alike rfl fun ref _ => refEdits_alike alike none ref
  refine visits.map fun entries entries' outlines => ?_
  exact Prod.ext (resolve_alike outlines rfl) (listEdits_alike outlines)

theorem paramEntry_alike (param : TypeParam) :
    Alike Entries.outline (paramEntry ⟨tokens, first⟩ scope param)
      (paramEntry ⟨tokens, second⟩ scope param) := by
  have kept : Alike Entries.outline (paramKept ⟨tokens, first⟩ scope param)
      (paramKept ⟨tokens, second⟩ scope param) :=
    (refsEdits_alike alike param.bounds).bind fun _ _ extents => keepEntry_alike extents rfl rfl
  cases named : Slot.ofText? param.name.text with
  | none =>
    rw [paramEntry_none named, paramEntry_none named]
    exact kept
  | some slot =>
    rw [paramEntry_some named, paramEntry_some named]
    refine (Alike.lift (alike.get slot)).bind fun value value' same => ?_
    have goes : value.isPrimitive = value'.isPrimitive := by simp [SlotType.isPrimitive, same]
    rw [goes]
    cases value'.isPrimitive with
    | true => exact .refl _
    | false => exact kept

end References

section Declarations

variable (alike : first.Alike second)

include alike

theorem paramsEdits_alike (params : TypeParams) :
    Alike (List.map Edit.extent) (paramsEdits ⟨tokens, first⟩ scope params)
      (paramsEdits ⟨tokens, second⟩ scope params) := by
  have entries : Alike Entries.outline (paramEntries ⟨tokens, first⟩ scope params.params)
      (paramEntries ⟨tokens, second⟩ scope params.params) := by
    rw [paramEntries_eq, paramEntries_eq]
    exact (Alike.mapM fun param _ => paramEntry_alike alike param).map fun _ _ => join_alike
  exact entries.map fun _ _ => listEdits_alike

theorem optionalParams_alike (params : Option TypeParams) :
    Alike (List.map Edit.extent) (optionalParams ⟨tokens, first⟩ scope params)
      (optionalParams ⟨tokens, second⟩ scope params) := by
  cases params with
  | none => exact .refl _
  | some params => exact paramsEdits_alike alike params

theorem optionalArgs_alike (explicit : Option TypeArgs) :
    Alike (List.map Edit.extent) (optionalArgs ⟨tokens, first⟩ scope explicit)
      (optionalArgs ⟨tokens, second⟩ scope explicit) := by
  cases explicit with
  | none => exact .refl _
  | some args => exact (explicitArgs_alike alike args).map fun _ _ same => congrArg Prod.snd same

omit alike in
theorem membersEdits_alike {members : List Member} (each : ∀ member ∈ members, Alike (List.map Edit.extent)
      (memberEdits ⟨tokens, first⟩ scope member) (memberEdits ⟨tokens, second⟩ scope member)) :
    Alike (List.map Edit.extent) (membersEdits ⟨tokens, first⟩ scope members)
      (membersEdits ⟨tokens, second⟩ scope members) := by
  rw [membersEdits_eq, membersEdits_eq]
  exact (Alike.mapM each).map fun _ _ => flatten_alike

theorem memberEdits_alike (scope : Scope Slot) (member : Member) :
    Alike (List.map Edit.extent) (memberEdits ⟨tokens, first⟩ scope member)
      (memberEdits ⟨tokens, second⟩ scope member) := by
  induction member using Member.induction generalizing scope with
  | typeUse ref | importDecl range ref isStatic onDemand =>
    rw [memberEdits, memberEdits]
    exact (refEdits_alike alike none ref).map fun found found' same => congrArg Prod.fst same
  | typeDecl range keyword name params supertypes members inner =>
    have body := membersEdits_alike fun member found => inner member found (scope.inside params)
    rw [memberEdits, memberEdits]
    refine (values_alike alike).bind fun values values' same => ?_
    refine (rename_alike same).bind fun renamed renamed' ofName => ?_
    refine (optionalParams_alike alike params).bind fun listed listed' ofParams => ?_
    refine (refsEdits_alike alike supertypes).bind fun above above' ofSupers => ?_
    refine body.map fun inside inside' ofBody => ?_
    simp [ofName, ofParams, ofSupers, ofBody]
  | methodDecl range params members inner =>
    have body := membersEdits_alike fun member found => inner member found (scope.inside (some params))
    rw [memberEdits, memberEdits]
    refine (paramsEdits_alike alike params).bind fun listed listed' ofParams => ?_
    refine body.map fun inside inside' ofBody => ?_
    simp [ofParams, ofBody]
  | creation range type members constructorArgs inner =>
    have body := membersEdits_alike fun member found => inner member found scope
    rw [memberEdits_creation, memberEdits_creation]
    refine (optionalArgs_alike alike constructorArgs).bind fun given given' ofArgs => ?_
    refine (refEdits_alike alike none type).bind fun found found' same => ?_
    refine body.map fun inside inside' ofBody => ?_
    simp only [RefEdits.outline, Prod.mk.injEq] at same
    simp [ofArgs, same, ofBody]
  | witness range args method =>
    rw [memberEdits, memberEdits]
    refine (explicitArgs_alike alike args).bind fun explicit explicit' same => ?_
    refine (values_alike alike).bind fun values values' inScope => ?_
    have given : explicit.1.map SlotType.isGeneric = explicit'.1.map SlotType.isGeneric :=
      congrArg Prod.fst same
    have length : explicit.1.length = explicit'.1.length := by simpa using congrArg List.length given
    refine (rename_alike ?_).map fun renamed renamed' ofName => ?_
    · simp [given, inScope, length, List.map_drop]
    · have ofArgs : explicit.2.map Edit.extent = explicit'.2.map Edit.extent :=
        congrArg Prod.snd same
      simp [ofArgs, ofName]

end Declarations

end Setting

namespace DocText

variable {first second : Binding}

theorem fillBySlot_alike (alike : first.Alike second) (pieces : List Piece) :
    Matches (fun _ => ()) (fillBySlot first.get pieces) (fillBySlot second.get pieces) := by
  induction pieces with
  | nil => exact .refl _
  | cons piece rest ih =>
    cases piece with
    | char c =>
      simp only [fillBySlot]
      cases left : fillBySlot first.get rest <;> cases right : fillBySlot second.get rest <;>
        simp_all [Matches, Except.map]
    | slot slot =>
      exact (alike.get slot).bind fun _ _ _ => ih.bind fun _ _ _ => rfl

theorem fillRun_alike (alike : first.Alike second) {values values' : List SlotType}
    (length : values.length = values'.length) (run : List Char) :
    Matches (fun _ => ()) (fillRun first (some values) run) (fillRun second (some values') run) := by
  have bySlot : Matches (fun _ => ()) (substituteBySlot run first.get)
      (substituteBySlot run second.get) := fillBySlot_alike alike _
  unfold fillRun fillWord
  split
  · cases plural? run with
    | some slot => exact (alike.get slot).bind fun _ _ _ => rfl
    | none =>
      cases Slot.ofText? run with
      | some slot => exact (alike.get slot).bind fun _ _ _ => rfl
      | none =>
        simp only
        split
        · exact bySlot
        · have enough : (substituteInOrder run values).isSome =
              (substituteInOrder run values').isSome := by
            rw [substituteInOrder_isSome, substituteInOrder_isSome, length]
          cases left : substituteInOrder run values <;>
            cases right : substituteInOrder run values' <;> simp [left, right] at enough
          case none.none => exact bySlot
          case some.some => rfl
  · rfl

-- Whether a comment changes depends on which slots are generic.
theorem fill_alike (alike : first.Alike second) {values values' : List SlotType}
    (length : values.length = values'.length) (text : List Char) :
    Matches (fun new => decide (new = text)) (fill first (some values) text)
      (fill second (some values') text) := by
  have filled : Matches (fun _ => ()) (fill first (some values) text)
      (fill second (some values') text) :=
    (Matches.mapM fun run _ => fillRun_alike alike length run).bind fun _ _ _ => rfl
  have generic (slot : Slot) : first.get? slot = some .generic ↔ second.get? slot = some .generic := by
    have same := alike slot
    cases left : first.get? slot with
    | none => cases right : second.get? slot <;> simp_all
    | some value =>
      cases right : second.get? slot with
      | none => simp_all
      | some value' => cases value <;> cases value' <;> simp_all [SlotType.isGeneric]
  cases left : fill first (some values) text <;> cases right : fill second (some values') text <;>
    simp only [left, right, Matches] at filled ⊢
  case error.error => exact filled
  case ok.ok new new' =>
    simp only [fill_same left, fill_same right, generic]

end DocText

theorem Scope.outermost_alike {first second : Binding} (alike : first.Alike second) :
    Scope.outermost first = Scope.outermost second := by
  have same : first.value.map SlotType.isGeneric = second.value.map SlotType.isGeneric := alike .value
  have isSome : first.value.isSome = second.value.isSome := by
    simpa using congrArg Option.isSome same
  simp only [Scope.outermost, isSome]

namespace Setting

variable {tokens : List Token} {first second : Binding}

theorem isReplaced_alike {edits edits' : List Edit}
    (same : edits.map Edit.extent = edits'.map Edit.extent) (index : Nat) :
    isReplaced edits index = isReplaced edits' index := by
  have byExtent (edits : List Edit) : isReplaced edits index =
      (((edits.map Edit.extent).filter fun extent => extent.1 ≤ (index : Int)).getLast?).any
        fun extent => (index : Int) + 1 ≤ extent.2 := by
    rw [List.filter_map, List.getLast?_map, Option.any_map]
    rfl
  rw [byExtent, byExtent, same]

theorem docEdit_alike (alike : first.Alike second) (scope : Scope Slot) (doc : Nat) :
    Matches (List.map Edit.extent) (docEdit ⟨tokens, first⟩ scope doc)
      (docEdit ⟨tokens, second⟩ scope doc) := by
  refine (alike.values scope).bind fun values values' same => ?_
  have length : values.length = values'.length := by simpa using congrArg List.length same
  refine (DocText.fill_alike alike length _).bind fun new new' changed => ?_
  simp only [decide_eq_decide] at changed
  simp only [changed]
  split <;> rfl

theorem docEdits_alike (alike : first.Alike second) (tree : Tree) {edits edits' : List Edit}
    (same : edits.map Edit.extent = edits'.map Edit.extent) :
    Matches (List.map Edit.extent) (docEdits ⟨tokens, first⟩ tree edits)
      (docEdits ⟨tokens, second⟩ tree edits') := by
  simp only [docEdits, Scope.outermost_alike alike, isReplaced_alike same]
  refine (Matches.mapM fun doc _ => docEdit_alike alike _ doc).bind fun found found' extents => ?_
  simp only [Matches, pure, Except.pure, List.map_flatten, extents]

theorem edits_alike (alike : first.Alike second) (tree : Tree) :
    Alike (List.map Edit.extent) (Setting.edits ⟨tokens, first⟩ tree)
      (Setting.edits ⟨tokens, second⟩ tree) := by
  simp only [Setting.edits, Scope.outermost_alike alike]
  refine (membersEdits_alike fun member _ => memberEdits_alike alike _ member).bind fun found found' same => ?_
  have sorted := Edit.sort_extents same
  refine (Alike.lift (docEdits_alike alike tree sorted)).bind fun docs docs' inDocs => .pure ?_
  refine Edit.sort_extents ?_
  simp [sorted, inDocs]

end Setting

theorem Binding.check_alike {first second : Binding} (alike : first.Alike second) (slotCount : Nat) :
    Matches id (first.check slotCount) (second.check slotCount) := by
  have same : first.value.map SlotType.isGeneric = second.value.map SlotType.isGeneric := alike .value
  unfold Binding.check
  cases left : first.value <;> cases right : second.value <;> simp only [left, right] at same
  case none.some | some.none => cases same
  case none.none => exact .refl _
  case some.some =>
    simp only
    split <;> rfl

theorem Template.edits_alike {first second : Binding} (alike : first.Alike second)
    (template : Template) :
    (template.edits first).Alike (List.map Edit.extent) (template.edits second) :=
  (Alike.lift (first.check_alike alike template.slotCount)).bind fun _ _ _ =>
    Setting.edits_alike alike template.tree

theorem Template.specialize_alike {first second : Binding} (alike : first.Alike second)
    (template : Template) :
    (template.specialize first).Alike (fun _ => ()) (template.specialize second) :=
  (template.edits_alike alike).bind fun _ _ same => .lift (Edit.render_alike same)

/-- Specializing a source under two bindings that are primitive in the same slots gives notice of the
same things at the same places; both fail with one code, or both make edits of the same places. -/
theorem specialize_uniform {first second : Binding} (alike : first.Alike second)
    (source : List Char) :
    (specialize source first).Alike (fun _ => ()) (specialize source second) ∧
      ∀ filename template, Template.read source filename = .ok template →
        (template.edits first).Alike (List.map Edit.extent) (template.edits second) := by
  refine ⟨?_, fun _ template _ => template.edits_alike alike⟩
  have read : Alike id (Traced.lift (Template.read source "<template>"))
      (Traced.lift (Template.read source "<template>")) := .refl _
  refine read.bind ?_
  rintro template _ rfl
  exact template.specialize_alike alike

theorem specialize_uniform_pair :
    ∃ template edits,
      Template.read "class KTypeVTypeMap<KType, VType> { KType key; }".toList "A.java" = .ok template ∧
        (template.edits ⟨.int, some .double⟩).result = .ok edits ∧ edits.length = 3 ∧
        (template.edits ⟨.int, some .double⟩).Alike (List.map Edit.extent)
          (template.edits ⟨.char, some .boolean⟩) := by
  have alike : Binding.Alike ⟨.int, some .double⟩ ⟨.char, some .boolean⟩ := by
    intro slot
    cases slot <;> rfl
  obtain ⟨template, read, passes⟩ := ok_of_any
    (show (Template.read "class KTypeVTypeMap<KType, VType> { KType key; }".toList
        "A.java").toOption.any
      (fun template => (template.edits ⟨.int, some .double⟩).result.toOption.any
        fun edits => edits.length == 3) = true by decide +kernel)
  obtain ⟨edits, made, count⟩ := ok_of_any passes
  exact ⟨template, edits, read, made, eq_of_beq count,
    (specialize_uniform alike _).2 _ template read⟩

end Specializer
