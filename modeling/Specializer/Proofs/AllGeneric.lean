import Specializer.Proofs.Coverage
import Specializer.Proofs.Positions

set_option autoImplicit false

namespace Specializer

abbrev Traced.Mild {α : Type} (run : Traced α) (returns : α → Prop) : Prop :=
  run.Meets (fun notice => notice.issue.code ≠ .primitiveArgument) (fun _ => True) returns

def Binding.AllGeneric (binding : Binding) : Prop :=
  ∀ slot value, binding.get? slot = some value → value = .generic

def GenericText (old new : List Char) : Prop :=
  ∃ values : List SlotType, (∀ value ∈ values, value = .generic) ∧
    substituteInOrder old values = some new

namespace Setting

variable {setting : Setting} {scope : Scope Slot} {parts more : List Subtree} {part : Subtree}
  {edits others : List Edit}

def Casts (parts : List Subtree) (edits : List Edit) : Prop :=
  ∀ edit ∈ edits, ∃ part ∈ parts, ∃ lower, part.Below lower ∧ ∃ name ∈ lower.names, ∃ new,
    edit = replace name new ∧ hasPlaceholder name.text = true ∧ GenericText name.text new

theorem Casts.nil : Casts parts [] := nofun

theorem Casts.append (first : Casts parts edits) (second : Casts parts others) :
    Casts parts (edits ++ others) := by
  intro edit member
  rcases List.mem_append.mp member with there | there
  · exact first edit there
  · exact second edit there

theorem Casts.mono (casts : Casts parts edits) (all : ∀ part ∈ parts, part ∈ more) :
    Casts more edits := by
  intro edit member
  obtain ⟨part, found, rest⟩ := casts edit member
  exact ⟨part, all part found, rest⟩

theorem Casts.up (casts : Casts parts edits) (all : ∀ child ∈ parts, child ∈ part.children) :
    Casts [part] edits := by
  intro edit member
  obtain ⟨child, found, lower, below, rest⟩ := casts edit member
  exact ⟨part, List.mem_singleton_self _, lower, below.head (all child found), rest⟩

theorem Casts.cons (first : Casts [part] edits) (rest : Casts parts others) :
    Casts (part :: parts) (edits ++ others) := by
  refine (first.mono fun child member => ?_).append
    (rest.mono fun child member => List.mem_cons_of_mem _ member)
  exact List.mem_singleton.mp member ▸ List.mem_cons_self

theorem Casts.gather {ι : Type} {place : ι → Subtree} {items : List ι} {each : List (List Edit)}
    (all : List.Forall₂ (fun item edits => Casts [place item] edits) items each) :
    Casts (items.map place) each.flatten := by
  induction all with
  | nil => exact .nil
  | cons first _ ih => exact first.cons ih

structure Refers (part : Subtree) (found : RefEdits) : Prop where
  casts : Casts [part] found.edits
  values : ∀ values, found.values = some values → ∀ value ∈ values, value = .generic

theorem Refers.untold (casts : Casts [part] edits) : Refers part ⟨edits, none⟩ := ⟨casts, nofun⟩

theorem Refers.join {ι : Type} {items : List ι} {each : List RefEdits}
    (all : List.Forall₂ (fun _ found => Refers part found) items each) : Refers part (RefEdits.join each) := by
  induction all with
  | nil => exact .untold .nil
  | cons first _ ih =>
    refine ⟨first.casts.append ih.casts, fun values same => ?_⟩
    rcases Option.or_eq_some_iff.mp same with found | ⟨-, found⟩
    · exact ih.values values found
    · exact first.values values found

structure Leaves (parts : List Subtree) (entries : Entries) : Prop where
  whole : entries.dropped = false
  values : ∀ value ∈ entries.values, value.getD .generic = .generic
  casts : Casts parts entries.edits

theorem Leaves.nil : Leaves [] .none := ⟨rfl, nofun, .nil⟩

theorem Leaves.cons {first rest : Entries} (ofFirst : Leaves [part] first)
    (ofRest : Leaves parts rest) : Leaves (part :: parts) (first.append rest) := by
  refine ⟨by simp [Entries.append, ofFirst.whole, ofRest.whole], ?_, ofFirst.casts.cons ofRest.casts⟩
  intro value member
  rcases List.mem_append.mp member with there | there
  · exact ofFirst.values value there
  · exact ofRest.values value there

theorem Leaves.join {ι : Type} {place : ι → Subtree} {items : List ι} {each : List Entries}
    (all : List.Forall₂ (fun item entry => Leaves [place item] entry) items each) :
    Leaves (items.map place) (Entries.join each) := by
  induction all with
  | nil => exact .nil
  | cons first _ ih => exact first.cons ih

theorem Leaves.resolve {entries : Entries} (leaves : Leaves parts entries) {rest : List SlotType}
    (generic : ∀ value ∈ rest, value = .generic) :
    ∀ value ∈ entries.resolve rest, value = .generic := by
  intro value member
  rcases List.mem_append.mp member with given | inScope
  · obtain ⟨known, found, rfl⟩ := List.mem_map.mp given
    exact leaves.values known found
  · exact generic value (List.mem_of_mem_drop inScope)

theorem Leaves.listEdits {entries : Entries} (leaves : Leaves parts entries) (range : Range) :
    setting.listEdits range entries = entries.edits := by
  rw [Setting.listEdits, leaves.whole]
  rfl

theorem diamond_stays {text new : List Char} {values : List SlotType}
    (generic : ∀ value ∈ values, value = .generic) (placeholders : ¬ segmentCount text = 0)
    (substituted : substituteInOrder text values = some new) :
    ¬ (values.take (segmentCount text)).all SlotType.isPrimitive = true := by
  have enough := substituteInOrder_isSome text values
  rw [substituted, Option.isSome_some, eq_comm, decide_eq_true_iff] at enough
  obtain ⟨count, one⟩ := Nat.exists_eq_succ_of_ne_zero placeholders
  cases values with
  | nil => simp [one] at enough
  | cons first rest =>
    rw [one, List.take_succ_cons, generic first List.mem_cons_self]
    simp [SlotType.isPrimitive, SlotType.isGeneric]

theorem keepEntry_mild {range : Range} {values : List (Option SlotType)} {derived : Bool}
    (generic : ∀ value ∈ values, value.getD .generic = .generic) (casts : Casts parts edits) :
    (setting.keepEntry range values derived edits).Mild (Leaves parts) := by
  have rendered : (setting.render range edits).Mild fun _ => True :=
    .lift (fun _ _ => trivial) fun _ _ => trivial
  exact rendered.map fun _ _ => ⟨rfl, generic, casts⟩

section Walk

variable (generic : setting.binding.AllGeneric)

include generic

theorem get_generic {slot : Slot} {value : SlotType} (bound : setting.binding.get slot = .ok value) :
    value = .generic := generic slot value (get?_of_get bound)

theorem values_generic {values : List SlotType} (made : scope.values setting.binding = .ok values) :
    ∀ value ∈ values, value = .generic := by
  intro value member
  have listed : some value ∈ scope.order.map setting.binding.get? :=
    Scope.values_bound made ▸ List.mem_map_of_mem member
  obtain ⟨slot, -, bound⟩ := List.mem_map.mp listed
  exact generic slot value bound

theorem values_mild :
    (setting.values scope).Mild fun values => ∀ value ∈ values, value = .generic :=
  .lift (fun _ _ => trivial) fun _ => values_generic generic

omit generic in
theorem rename_mild {name : Name} {values : List SlotType} (own : name ∈ part.names)
    (generic : ∀ value ∈ values, value = .generic) :
    (setting.rename scope name values).Mild (Casts [part]) := by
  have quiet : (setting.rename scope name values).notices = [] := by
    unfold rename
    cases substituteInOrder name.text values <;> rfl
  refine ⟨by simp [quiet], fun _ _ => trivial, fun edits made => ?_⟩
  obtain ⟨new, substituted, rfl⟩ := rename_substitutes made
  split
  next has =>
    intro edit member
    exact ⟨part, List.mem_singleton_self _, part, .refl, name, own, new, List.mem_singleton.mp member,
      has, values, generic, substituted⟩
  next => exact .nil

omit generic in
theorem bareSlot_mild (ref : TypeRef) : (setting.bareSlot ref).Mild fun _ => True := by
  refine ⟨?_, fun _ _ => trivial, fun _ _ => trivial⟩
  have quiet : (setting.bareSlot ref).notices = [] := by
    unfold bareSlot
    split
    next => rfl
    next =>
      split
      next => rfl
      next => rfl
    next => rfl
  simp [quiet]

theorem get_mild (slot : Slot) :
    (Traced.lift (setting.binding.get slot)).Mild fun value => value = .generic :=
  .lift (fun _ _ => trivial) fun _ => get_generic generic

theorem bareValue_mild (ref : TypeRef) :
    (setting.bareValue ref).Mild fun value => ∀ type, value = some type → type = .generic := by
  refine (bareSlot_mild ref).bind fun bare _ _ => ?_
  cases bare with
  | none => exact .pure nofun
  | some slot =>
    refine (get_mild generic slot).map fun value same type given => ?_
    cases given
    exact same

omit generic in
theorem bareEdit_mild (owner : Option (List Char)) (ref : TypeRef) (slot : Slot) :
    (setting.bareEdit owner ref slot .generic).Mild fun edits => edits = [] := by
  unfold bareEdit
  split
  next => exact .pure rfl
  next => exact .pure rfl

theorem refEntry_mild (range : Range) (derived : RefEdits → Bool) (ref : TypeRef)
    (visits : (setting.refEdits none scope ref).Mild (Refers (.ref ref))) :
    (setting.refEntry scope range derived ref).Mild (Leaves [.ref ref]) := by
  refine (bareValue_mild generic ref).bind fun bare _ known => ?_
  cases bare with
  | some value =>
    cases known value rfl
    exact keepEntry_mild (by simp) .nil
  | none =>
    refine visits.bind fun inner _ refers => keepEntry_mild ?_ refers.casts
    intro value member
    obtain ⟨type, found, rfl⟩ := List.mem_map.mp member
    cases same : inner.values with
    | none =>
      rw [same] at found
      cases found
    | some list =>
      rw [same] at found
      exact refers.values list same type found

end Walk

section References

variable {node : Subtree}

theorem foreignEdits_mild {owner : List Char} {args : List TypeArg}
    (inner : ∀ arg ∈ args, ∀ ref ∈ arg.ref?,
      (setting.refEdits (some owner) scope ref).Mild (Refers (.ref ref))) :
    (setting.foreignEdits owner scope args).Mild (Casts (args.map TypeArg.subtree)) := by
  rw [foreignEdits_eq]
  refine Traced.Meets.map (.mapM fun arg member => ?_) fun _ => Casts.gather
  have here := inner arg member
  cases arg with
  | unbounded range => exact .pure .nil
  | exact ref => exact (here ref rfl).map fun _ refers => refers.casts
  | bounded range kind ref => exact (here ref rfl).map fun _ refers => refers.casts.up fun _ => id

theorem argEntry_mild (generic : setting.binding.AllGeneric) {inScope : Option (List SlotType)}
    {position : Nat} {arg : TypeArg}
    (around : ∀ values, inScope = some values → ∀ value ∈ values, value = .generic)
    (inner : ∀ ref ∈ arg.ref?, (setting.refEdits none scope ref).Mild (Refers (.ref ref))) :
    (setting.argEntry inScope scope position arg).Mild (Leaves [arg.subtree]) := by
  cases arg with
  | unbounded range =>
    rcases setting.argEntry_unbounded inScope position range with
      ⟨values, value, given, there, primitive, -⟩ | ⟨-, known, derived, kept, same⟩
    · cases around values given value (List.mem_of_getElem? there)
      cases primitive
    · rw [same]
      refine keepEntry_mild (fun value member => ?_) .nil
      cases value with
      | none => rfl
      | some value =>
        have generic := kept value member
        cases value <;> simp [SlotType.isPrimitive, SlotType.isGeneric] at generic ⊢
  | exact ref =>
    rw [argEntry_exact]
    exact refEntry_mild generic ref.range _ ref (inner ref rfl)
  | bounded range kind ref =>
    rw [argEntry_bounded]
    refine (refEntry_mild generic range _ ref (inner ref rfl)).mono fun entries leaves => ?_
    exact ⟨leaves.whole, leaves.values, leaves.casts.up fun _ => id⟩

theorem foreignArguments_mild (name erased : List Char) (span : Option Span) :
    (Traced.notice (.foreignArguments name erased span)).Mild fun _ => True :=
  .notice nofun trivial

theorem argEdits_mild {inScope : Option (List SlotType)} {position : Nat} {args : List TypeArg}
    (each : ∀ arg ∈ args, ∀ position,
      (setting.argEntry inScope scope position arg).Mild (Leaves [arg.subtree])) :
    (setting.argEdits inScope scope position args).Mild (Leaves (args.map TypeArg.subtree)) := by
  induction args generalizing position with
  | nil =>
    rw [argEdits]
    exact .pure .nil
  | cons arg rest ih =>
    rw [argEdits]
    refine (each arg List.mem_cons_self position).bind fun first _ ofFirst => ?_
    exact (ih fun arg member => each arg (List.mem_cons_of_mem _ member)).map fun _ => ofFirst.cons

theorem segmentEdits_mild (generic : setting.binding.AllGeneric) {segment : Segment}
    (own : segment.name ∈ node.names)
    (args : ∀ list, segment.args? = some list → .args list ∈ node.children)
    (inner : ∀ ref ∈ segment.refs, ∀ owner,
      (setting.refEdits owner scope ref).Mild (Refers (.ref ref))) :
    (setting.segmentEdits scope segment).Mild (Refers node) := by
  have taken {values : List SlotType} {count : Nat} (all : ∀ value ∈ values, value = .generic) :
      ∀ list, some (values.take count) = some list → ∀ value ∈ list, value = .generic := by
    intro list given
    cases given
    exact fun value member => all value (List.mem_of_mem_take member)
  cases segment with
  | plain name =>
    rw [segmentEdits]
    split
    next => exact .pure (.untold .nil)
    next =>
      refine (values_mild generic).bind fun values _ all => ?_
      exact (rename_mild own all).map fun edits casts => ⟨casts, taken all⟩
  | applied name list =>
    cases list with
    | mk range list =>
      have child : Subtree.args (.mk range list) ∈ node.children := args _ rfl
      have inside {edits : List Edit} (casts : Casts (list.map TypeArg.subtree) edits) :
          Casts [node] edits := by
        refine (casts.up fun _ => id : Casts [.args (.mk range list)] edits).up fun part member => ?_
        rw [List.mem_singleton.mp member]
        exact child
      have among : ∀ arg ∈ list, ∀ ref ∈ arg.ref?, ref ∈ (Segment.applied name (.mk range list)).refs :=
        fun arg member ref has => List.mem_filterMap.mpr ⟨arg, member, has⟩
      rw [segmentEdits]
      split
      next =>
        have visits : (setting.foreignEdits name.text scope list).Mild _ :=
          foreignEdits_mild fun arg member ref has => inner ref (among arg member ref has) _
        exact visits.map fun edits casts => .untold (inside casts)
      next placeholders =>
        refine (values_mild generic).bind fun inScope _ all => ?_
        split
        next diamond =>
          refine (rename_mild own all).bind fun edits made casts => .pure ⟨.append ?_ casts, taken all⟩
          obtain ⟨new, substituted, -⟩ := rename_substitutes made
          -- A diamond goes only if all its values are primitive, and it has one at least.
          rw [if_neg (diamond_stays all placeholders substituted)]
          exact .nil
        next =>
          have around : ∀ values, some inScope = some values → ∀ value ∈ values, value = .generic := by
            intro values given
            cases given
            exact all
          have listed : (setting.argEdits (some inScope) scope 0 list).Mild _ :=
            argEdits_mild fun arg member _ => argEntry_mild generic around fun ref has =>
              inner ref (among arg member ref has) none
          refine listed.bind fun entries _ leaves => ?_
          split
          next =>
            have known := leaves.resolve all
            refine (rename_mild own known).map fun edits casts => ⟨?_, taken known⟩
            rw [leaves.listEdits]
            exact (inside leaves.casts).append casts
          next =>
            -- No argument says what the name stands for, and it stands for objects throughout.
            have known : ∀ value ∈ List.replicate (segmentCount name.text) SlotType.generic,
                value = .generic := fun value member => List.eq_of_mem_replicate member
            refine (foreignArguments_mild _ _ _).bind fun _ _ _ => ?_
            refine (rename_mild own known).map fun edits casts => ⟨?_, ?_⟩
            · exact (inside leaves.casts).append casts
            · intro values given
              cases given
              exact known

theorem segmentsEdits_mild {segments : List Segment}
    (each : ∀ segment ∈ segments, (setting.segmentEdits scope segment).Mild (Refers node)) :
    (setting.segmentsEdits scope segments).Mild (Refers node) := by
  rw [segmentsEdits_eq]
  exact Traced.Meets.map (.mapM each) fun _ => Refers.join

theorem refEdits_mild (generic : setting.binding.AllGeneric) (owner : Option (List Char))
    (ref : TypeRef) : (setting.refEdits owner scope ref).Mild (Refers (.ref ref)) := by
  induction ref using TypeRef.induction generalizing owner with
  | mk range segments dims inner =>
    rw [refEdits]
    refine (bareSlot_mild _).bind fun bare _ _ => ?_
    cases bare with
    | some slot =>
      refine (get_mild generic slot).bind fun value _ same => ?_
      subst same
      refine (bareEdit_mild owner _ slot).map fun edits none => ⟨none ▸ .nil, ?_⟩
      intro values given
      cases given
      exact fun value member => List.mem_singleton.mp member
    | none =>
      refine segmentsEdits_mild fun segment member => segmentEdits_mild generic ?_ ?_ ?_
      · exact List.mem_map_of_mem member
      · intro list given
        exact List.mem_map_of_mem (List.mem_filterMap.mpr ⟨segment, member, given⟩)
      · exact fun ref among owner => inner segment member ref among owner

end References

section Lists

variable (generic : setting.binding.AllGeneric)

include generic

theorem refsEdits_mild (refs : List TypeRef) :
    (setting.refsEdits scope refs).Mild (Casts (refs.map Subtree.ref)) := by
  rw [refsEdits_eq]
  refine Traced.Meets.map (.mapM fun ref _ => refEdits_mild generic none ref) fun _ all => ?_
  exact .gather (List.forall₂_map_right_iff.mpr (all.imp fun _ _ refers => refers.casts))

theorem explicitArgs_mild (args : TypeArgs) :
    (setting.explicitArgs scope args).Mild fun found =>
      (∀ value ∈ found.1, value = .generic) ∧ Casts [.args args] found.2 := by
  have listed : (setting.argEdits none scope 0 args.args).Mild _ := argEdits_mild fun arg _ _ =>
    argEntry_mild generic nofun fun ref _ => refEdits_mild generic none ref
  refine listed.map fun entries leaves => ⟨leaves.resolve nofun, ?_⟩
  rw [leaves.listEdits]
  exact leaves.casts.up fun _ => id

theorem paramEntry_mild (param : TypeParam) :
    (setting.paramEntry scope param).Mild (Leaves [.param param]) := by
  have stays : (setting.paramKept scope param).Mild (Leaves [.param param]) :=
    (refsEdits_mild generic param.bounds).bind fun edits _ casts =>
      keepEntry_mild nofun (casts.up fun _ => id)
  cases named : Slot.ofText? param.name.text with
  | none =>
    rw [paramEntry_none named]
    exact stays
  | some slot =>
    rw [paramEntry_some named]
    refine (get_mild generic slot).bind fun value _ same => ?_
    subst same
    exact stays

theorem paramEntries_mild (params : List TypeParam) :
    (setting.paramEntries scope params).Mild (Leaves (params.map Subtree.param)) := by
  rw [paramEntries_eq]
  exact Traced.Meets.map (.mapM fun param _ => paramEntry_mild generic param) fun _ => Leaves.join

theorem paramsEdits_mild (params : TypeParams) :
    (setting.paramsEdits scope params).Mild (Casts [.params params]) := by
  refine (paramEntries_mild generic params.params).map fun entries leaves => ?_
  rw [leaves.listEdits]
  exact leaves.casts.up fun _ => id

theorem optionalParams_mild (params : Option TypeParams) :
    (setting.optionalParams scope params).Mild (Casts (params.toList.map Subtree.params)) := by
  cases params with
  | none => exact .pure .nil
  | some params => exact paramsEdits_mild generic params

theorem optionalArgs_mild (explicit : Option TypeArgs) :
    (setting.optionalArgs scope explicit).Mild (Casts (explicit.toList.map Subtree.args)) := by
  cases explicit with
  | none => exact .pure .nil
  | some args => exact (explicitArgs_mild generic args).map fun _ found => found.2

end Lists

theorem membersEdits_mild {members : List Member}
    (each : ∀ member ∈ members, (setting.memberEdits scope member).Mild (Casts [member.subtree])) :
    (setting.membersEdits scope members).Mild (Casts (members.map Member.subtree)) := by
  rw [membersEdits_eq]
  exact Traced.Meets.map (.mapM each) fun _ => Casts.gather

theorem memberEdits_mild (generic : setting.binding.AllGeneric) (scope : Scope Slot)
    (member : Member) : (setting.memberEdits scope member).Mild (Casts [member.subtree]) := by
  induction member using Member.induction generalizing scope with
  | typeUse ref =>
    rw [memberEdits]
    exact (refEdits_mild generic none ref).map fun _ refers => refers.casts
  | importDecl range ref isStatic onDemand =>
    rw [memberEdits]
    exact (refEdits_mild generic none ref).map fun _ refers => refers.casts.up fun _ => id
  | typeDecl range keyword name params supertypes members inner =>
    have body := membersEdits_mild fun member found => inner member found (scope.inside params)
    rw [memberEdits]
    refine (values_mild generic).bind fun values _ all => ?_
    have own : name ∈ (Subtree.typeDecl range keyword name params supertypes members).names :=
      List.mem_cons_of_mem _ List.mem_cons_self
    refine (rename_mild own all).bind fun ofName _ cast => ?_
    refine (optionalParams_mild generic params).bind fun ofParams _ inParams => ?_
    refine (refsEdits_mild generic supertypes).bind fun ofTypes _ inTypes => ?_
    refine body.map fun ofMembers inMembers => ((cast.append ?_).append ?_).append ?_
    · exact inParams.up fun part there => List.mem_append_left _ (List.mem_append_left _ there)
    · exact inTypes.up fun part there => List.mem_append_left _ (List.mem_append_right _ there)
    · exact inMembers.up fun part there => List.mem_append_right _ there
  | methodDecl range params members inner =>
    have body := membersEdits_mild fun member found => inner member found (scope.inside (some params))
    rw [memberEdits]
    refine (paramsEdits_mild generic params).bind fun ofParams _ inParams => ?_
    refine body.map fun ofMembers inMembers => .append ?_ ?_
    · exact inParams.up fun part there => List.mem_singleton.mp there ▸ List.mem_cons_self
    · exact inMembers.up fun part there => List.mem_cons_of_mem _ there
  | creation range type members constructorArgs inner =>
    have body := membersEdits_mild fun member found => inner member found scope
    rw [memberEdits_creation]
    refine (optionalArgs_mild generic constructorArgs).bind fun ofArgs _ inArgs => ?_
    refine (refEdits_mild generic none type).bind fun ofType _ inType => ?_
    refine body.map fun ofBody inBody => (Casts.append ?_ ?_).append ?_
    · exact inArgs.up fun part there => List.mem_append_right _ there
    · exact inType.casts.up fun part there => List.mem_singleton.mp there ▸ List.mem_cons_self
    · exact inBody.up fun part there => List.mem_cons_of_mem _ (List.mem_append_left _ there)
  | witness range args method =>
    rw [memberEdits]
    refine (explicitArgs_mild generic args).bind fun found _ explicit => ?_
    obtain ⟨given, casts⟩ := explicit
    refine (values_mild generic).bind fun inScope _ all => ?_
    have known : ∀ value ∈ found.1 ++ inScope.drop found.1.length, value = .generic := by
      intro value member
      rcases List.mem_append.mp member with there | there
      · exact given value there
      · exact all value (List.mem_of_mem_drop there)
    have own : method ∈ (Subtree.witness range args method).names := List.mem_cons_self
    exact (rename_mild own known).map fun edits cast => (casts.up fun _ => id).append cast

theorem edits_mild (generic : setting.binding.AllGeneric) {tree : Tree}
    (docs : tree.docs = docComments setting.tokens) :
    (setting.edits tree).Mild fun edits => ∀ edit ∈ edits,
      Casts [.unit tree] [edit] ∨ ∃ doc ∈ tree.docs, setting.EditsDoc doc edit := by
  have increasing : tree.docs.Pairwise (· < ·) := docs ▸ indices_increasing _ _
  have visits : (setting.membersEdits (Scope.outermost setting.binding) tree.members).Mild _ :=
    membersEdits_mild fun member _ => memberEdits_mild generic _ member
  refine visits.bind fun inCode _ casts => ?_
  have comments : (Traced.lift (setting.docEdits tree (Edit.sort inCode))).Mild _ :=
    .lift (fun _ _ => trivial) fun _ => docEdits_ok increasing
  refine comments.map fun inDocs ofDocs edit member => ?_
  rcases List.mem_append.mp ((Edit.sort_perm _).mem_iff.mp member) with code | doc
  · have here := (Edit.sort_perm _).mem_iff.mp code
    refine .inl fun other same => ?_
    cases List.mem_singleton.mp same
    exact casts.up (fun _ => List.mem_append_left _) edit here
  · obtain ⟨doc, there, -, edits⟩ := ofDocs.2 edit doc
    exact .inr ⟨doc, there, edits⟩

end Setting

end Specializer
