import Specializer.Proofs.Comments
import Specializer.Proofs.Scoping
import Specializer.Proofs.Yield

set_option autoImplicit false

namespace Specializer

def Subtree.Plain (part : Subtree) : Prop :=
  part.Everywhere fun part => ∀ name ∈ part.names, hasPlaceholder name.text = false

namespace Setting

variable {setting : Setting}

theorem rename_plain {scope : Scope Slot} {name : Name} (plain : hasPlaceholder name.text = false)
    (values : List SlotType) : setting.rename scope name values = pure [] := by
  rw [rename, substituteInOrder_plain plain]
  simp

theorem bareSlot_plain {ref : TypeRef}
    (plain : ∀ name ∈ ref.segments.map Segment.name, hasPlaceholder name.text = false) :
    setting.bareSlot ref = pure none := by
  unfold bareSlot
  split
  next range name dims =>
    rw [Slot.ofText?_plain (plain name List.mem_cons_self)]
  next range name args dims =>
    rw [Slot.ofText?_plain (plain name List.mem_cons_self)]
  next => rfl

section References

variable {scope : Scope Slot}

theorem foreignEdits_plain {owner : List Char} {args : List TypeArg}
    (inner : ∀ arg ∈ args, ∀ ref ∈ arg.ref?, setting.refEdits (some owner) scope ref = pure ⟨[], none⟩) :
    setting.foreignEdits owner scope args = pure [] := by
  induction args with
  | nil => rw [foreignEdits]
  | cons arg rest ih =>
    have later := ih fun arg member => inner arg (List.mem_cons_of_mem _ member)
    have here := inner arg List.mem_cons_self
    cases arg with
    | unbounded range => rw [foreignEdits, later]
    | exact ref | bounded range kind ref =>
      rw [foreignEdits, here ref rfl, pure_bind, later]
      rfl

theorem segmentEdits_plain {segment : Segment} (plain : hasPlaceholder segment.name.text = false)
    (inner : ∀ ref ∈ segment.refs, ∀ owner, setting.refEdits owner scope ref = pure ⟨[], none⟩) :
    setting.segmentEdits scope segment = pure ⟨[], none⟩ := by
  have zero : segmentCount segment.name.text = 0 := segmentCount_eq_zero.mpr plain
  cases segment with
  | plain name =>
    rw [Segment.name] at zero
    rw [segmentEdits, if_pos zero]
  | applied name list =>
    rw [Segment.name] at zero
    cases list with
    | mk range args =>
      have foreign : setting.foreignEdits name.text scope args = pure [] :=
        foreignEdits_plain fun arg member ref has =>
          inner ref (List.mem_filterMap.mpr ⟨arg, member, has⟩) _
      rw [segmentEdits, if_pos zero, foreign, pure_bind]

theorem segmentsEdits_plain {segments : List Segment}
    (each : ∀ segment ∈ segments, setting.segmentEdits scope segment = pure ⟨[], none⟩) :
    setting.segmentsEdits scope segments = pure ⟨[], none⟩ := by
  induction segments with
  | nil => rw [segmentsEdits]
  | cons segment rest ih =>
    rw [segmentsEdits, each segment List.mem_cons_self, pure_bind,
      ih fun segment member => each segment (List.mem_cons_of_mem _ member), pure_bind]
    rfl

theorem refEdits_plain {owner : Option (List Char)} {ref : TypeRef} (plain : (Subtree.ref ref).Plain) :
    setting.refEdits owner scope ref = pure ⟨[], none⟩ := by
  induction ref using TypeRef.induction generalizing owner with
  | mk range segments dims inner =>
    rw [refEdits, bareSlot_plain plain.here, pure_bind]
    refine segmentsEdits_plain fun segment member => ?_
    refine segmentEdits_plain (plain.here _ (List.mem_map_of_mem member)) fun ref among _ => ?_
    exact inner segment member ref among (plain.inner member among)

end References

theorem bareValue_plain {ref : TypeRef} (plain : (Subtree.ref ref).Plain) :
    setting.bareValue ref = pure none := by
  have bare : setting.bareSlot ref = pure none := bareSlot_plain plain.here
  rw [bareValue, bare]
  rfl

theorem render_nil (range : Range) : ∃ text, setting.render range [] = pure text :=
  ⟨_, rfl⟩

structure Idle (entries : Entries) : Prop where
  values : entries.values = []
  edits : entries.edits = []
  kept : entries.dropped = false

theorem Idle.append {first second : Entries} (left : Idle first) (right : Idle second) :
    Idle (first.append second) := by
  constructor
  · simp [Entries.append, left.values, right.values]
  · simp [Entries.append, left.edits, right.edits]
  · simp [Entries.append, left.kept, right.kept]

theorem Idle.listEdits {entries : Entries} (idle : Idle entries) (range : Range) :
    setting.listEdits range entries = [] := by
  simp [Setting.listEdits, idle.kept, idle.edits]

theorem keepEntry_idle (range : Range) (derived : Bool) :
    ∃ entries, setting.keepEntry range [] derived [] = pure entries ∧ Idle entries := by
  obtain ⟨text, rendered⟩ := setting.render_nil range
  refine ⟨.keep [] derived text [], ?_, rfl, rfl, rfl⟩
  rw [keepEntry, rendered, pure_bind]

theorem refEntry_plain {scope : Scope Slot} {range : Range} {derived : RefEdits → Bool}
    {ref : TypeRef} (plain : (Subtree.ref ref).Plain) :
    ∃ entries, setting.refEntry scope range derived ref = pure entries ∧ Idle entries := by
  rw [refEntry, bareValue_plain plain, pure_bind]
  simp only [refEdits_plain plain, pure_bind]
  exact keepEntry_idle range _

theorem argEntry_plain {scope : Scope Slot} {position : Nat} {arg : TypeArg}
    (plain : arg.subtree.Plain) :
    ∃ entries, setting.argEntry none scope position arg = pure entries ∧ Idle entries := by
  cases arg with
  | unbounded range =>
    rw [argEntry]
    exact keepEntry_idle range false
  | exact ref =>
    rw [argEntry_exact]
    exact refEntry_plain plain
  | bounded range kind ref =>
    rw [argEntry_bounded]
    exact refEntry_plain (plain.child List.mem_cons_self)

theorem argEdits_plain {scope : Scope Slot} {position : Nat} {args : List TypeArg}
    (plain : ∀ arg ∈ args, arg.subtree.Plain) :
    ∃ entries, setting.argEdits none scope position args = pure entries ∧ Idle entries := by
  induction args generalizing position with
  | nil => exact ⟨.none, by rw [argEdits], rfl, rfl, rfl⟩
  | cons arg rest ih =>
    obtain ⟨first, ofFirst, idle⟩ := setting.argEntry_plain (plain arg List.mem_cons_self)
    obtain ⟨more, ofRest, idle'⟩ := ih fun arg member => plain arg (List.mem_cons_of_mem _ member)
    refine ⟨first.append more, ?_, idle.append idle'⟩
    rw [argEdits, ofFirst, pure_bind, ofRest, pure_bind]

theorem explicitArgs_plain {scope : Scope Slot} {args : TypeArgs}
    (plain : (Subtree.args args).Plain) : setting.explicitArgs scope args = pure ([], []) := by
  have listed : ∃ entries, setting.argEdits none scope 0 args.args = pure entries ∧ Idle entries :=
    argEdits_plain fun arg member => plain.child (List.mem_map_of_mem member)
  obtain ⟨entries, made, idle⟩ := listed
  rw [explicitArgs, made, pure_bind, idle.listEdits, Entries.resolve, idle.values]
  rfl

theorem refsEdits_plain {scope : Scope Slot} {refs : List TypeRef}
    (plain : ∀ ref ∈ refs, (Subtree.ref ref).Plain) : setting.refsEdits scope refs = pure [] := by
  induction refs with
  | nil => rw [refsEdits]
  | cons ref rest ih =>
    rw [refsEdits, refEdits_plain (plain ref List.mem_cons_self), pure_bind,
      ih fun ref member => plain ref (List.mem_cons_of_mem _ member)]
    rfl

theorem paramEntry_plain {scope : Scope Slot} {param : TypeParam}
    (plain : (Subtree.param param).Plain) :
    ∃ entries, setting.paramEntry scope param = pure entries ∧ Idle entries := by
  have bounds : setting.refsEdits scope param.bounds = pure [] :=
    refsEdits_plain fun ref member => plain.child (List.mem_map_of_mem member)
  rw [paramEntry_none (Slot.ofText?_plain (plain.here param.name List.mem_cons_self)), paramKept, bounds,
    pure_bind]
  exact keepEntry_idle param.range true

theorem paramsEdits_plain {scope : Scope Slot} {params : TypeParams}
    (plain : (Subtree.params params).Plain) : setting.paramsEdits scope params = pure [] := by
  have all (list : List TypeParam) (plain : ∀ param ∈ list, (Subtree.param param).Plain) :
      ∃ entries, setting.paramEntries scope list = pure entries ∧ Idle entries := by
    induction list with
    | nil => exact ⟨.none, by rw [paramEntries], rfl, rfl, rfl⟩
    | cons param rest ih =>
      obtain ⟨first, ofFirst, idle⟩ := setting.paramEntry_plain (plain param List.mem_cons_self)
      obtain ⟨more, ofRest, idle'⟩ := ih fun param member => plain param (List.mem_cons_of_mem _ member)
      refine ⟨first.append more, ?_, idle.append idle'⟩
      rw [paramEntries, ofFirst, pure_bind, ofRest, pure_bind]
  obtain ⟨entries, made, idle⟩ := all params.params fun param member =>
    plain.child (List.mem_map_of_mem member)
  rw [paramsEdits, made, pure_bind, idle.listEdits]

end Setting

theorem Scope.inside_plain {scope : Scope Slot} {params : Option TypeParams}
    (plain : ∀ list ∈ params.toList, (Subtree.params list).Plain) : scope.inside params = scope := by
  have none : (params.map TypeParams.declared).getD [] = [] := by
    cases params with
    | none => rfl
    | some list =>
      refine List.filterMap_eq_nil_iff.mpr fun param member => ?_
      have here := (plain list List.mem_cons_self).child (List.mem_map_of_mem member)
      exact Slot.ofText?_plain (here.here param.name List.mem_cons_self)
  rw [inside, none, nested]
  rfl

namespace Setting

variable {setting : Setting}

theorem optionalParams_plain {scope : Scope Slot} {params : Option TypeParams}
    (plain : ∀ list ∈ params.toList, (Subtree.params list).Plain) :
    setting.optionalParams scope params = pure [] := by
  cases params with
  | none => rfl
  | some list => exact paramsEdits_plain (plain list List.mem_cons_self)

theorem optionalArgs_plain {scope : Scope Slot} {explicit : Option TypeArgs}
    (plain : ∀ list ∈ explicit, (Subtree.args list).Plain) :
    setting.optionalArgs scope explicit = pure [] := by
  cases explicit with
  | none => rfl
  | some list =>
    rw [optionalArgs, explicitArgs_plain (plain list rfl)]
    rfl

theorem membersEdits_plain {scope : Scope Slot} {members : List Member}
    (each : ∀ member ∈ members, setting.memberEdits scope member = pure []) :
    setting.membersEdits scope members = pure [] := by
  induction members with
  | nil => rw [membersEdits]
  | cons member rest ih =>
    rw [membersEdits, each member List.mem_cons_self, pure_bind,
      ih fun member found => each member (List.mem_cons_of_mem _ found)]
    rfl

theorem memberEdits_plain {scope : Scope Slot} {values : List SlotType}
    (bound : setting.values scope = pure values) {member : Member} (plain : member.subtree.Plain) :
    setting.memberEdits scope member = pure [] := by
  induction member using Member.induction with
  | typeUse ref =>
    rw [memberEdits, refEdits_plain plain]
    rfl
  | importDecl range ref isStatic onDemand =>
    rw [memberEdits, refEdits_plain (plain.child List.mem_cons_self)]
    rfl
  | typeDecl range keyword name params supertypes members inner =>
    have lists : ∀ list ∈ params.toList, (Subtree.params list).Plain := fun list member =>
      plain.child (Subtree.params_child (Option.mem_toList.mp member))
    have supers : ∀ ref ∈ supertypes, (Subtree.ref ref).Plain := fun ref member =>
      plain.child (Subtree.super_child member)
    have body : setting.membersEdits scope members = pure [] := membersEdits_plain fun member found =>
      inner member found (plain.child (Subtree.member_child found))
    have named : hasPlaceholder name.text = false :=
      plain.here name (List.mem_cons_of_mem _ List.mem_cons_self)
    -- Nothing is declared, so the members are visited in the scope of the declaration itself.
    rw [memberEdits]
    simp only [Scope.inside_plain lists, bound, pure_bind, rename_plain named,
      optionalParams_plain lists, refsEdits_plain supers, body]
    rfl
  | methodDecl range params members inner =>
    have list : (Subtree.params params).Plain := plain.child List.mem_cons_self
    have same : scope.inside (some params) = scope :=
      Scope.inside_plain fun _ member => List.mem_singleton.mp member ▸ list
    have body : setting.membersEdits scope members = pure [] := membersEdits_plain fun member found =>
      inner member found (plain.child (Subtree.member_child found))
    rw [memberEdits]
    simp only [same, paramsEdits_plain list, pure_bind, body]
    rfl
  | creation range type members constructorArgs inner =>
    have made : (Subtree.ref type).Plain :=
      plain.child (List.mem_append_left _ List.mem_cons_self)
    have body : setting.membersEdits scope members = pure [] := membersEdits_plain fun member found =>
      inner member found (plain.child (Subtree.member_child found))
    have listed : ∀ list ∈ constructorArgs, (Subtree.args list).Plain := fun list given =>
      plain.child (Subtree.args_child given)
    rw [memberEdits_creation]
    simp only [optionalArgs_plain listed, pure_bind, refEdits_plain made, body]
    rfl
  | witness range args method =>
    have explicit : setting.explicitArgs scope args = pure ([], []) :=
      explicitArgs_plain (plain.child List.mem_cons_self)
    rw [memberEdits]
    simp only [explicit, pure_bind, bound, rename_plain (plain.here method List.mem_cons_self)]
    rfl

end Setting

theorem Scope.inherits_plain (outermost : Scope Slot) :
    Scope.Inherits (fun part => ∀ name ∈ part.names, hasPlaceholder name.text = false)
      (· = outermost) := by
  rintro _ rfl params plain
  exact Scope.inside_plain fun list member => plain list (Option.mem_toList.mp member)

namespace Setting

variable {setting : Setting}

theorem edits_plain {tree : Tree} {values : List SlotType}
    (bound : (Scope.outermost setting.binding).values setting.binding = .ok values)
    (plain : ∀ member ∈ tree.members, member.subtree.Plain)
    (docs : ∀ doc ∈ tree.docs, hasPlaceholder (setting.docText doc) = false) :
    setting.edits tree = pure [] := by
  have inScope : setting.values (Scope.outermost setting.binding) = pure values := by
    rw [Setting.values, bound]
    rfl
  have inDocs : setting.docEdits tree [] = .ok [] := by
    have each : ∀ doc ∈ tree.docs.filter (fun doc => !isReplaced [] doc),
        setting.docEdit (DocScope.find setting.tokens
          (declScopesOf (Scope.outermost setting.binding) tree.members)
          (Scope.outermost setting.binding) doc) doc = .ok ((fun _ => []) doc) := by
      intro doc member
      -- Whichever declaration a comment belongs to, its scope is the outermost one.
      rw [DocScope.find_all (· = Scope.outermost setting.binding) rfl
        (declScopesOf_all (Scope.inherits_plain _) rfl tree.members plain)]
      exact docEdit_plain bound (docs doc (List.mem_filter.mp member).1)
    rw [docEdits, mapM_ok each]
    simp [bind, Except.bind, pure, Except.pure]
  rw [Setting.edits, membersEdits_plain fun member found => memberEdits_plain inScope (plain member found), pure_bind]
  show (do
    let inDocs ← Traced.lift (setting.docEdits tree [])
    pure (Edit.sort ([] ++ inDocs))) = _
  rw [inDocs]
  rfl

end Setting

end Specializer
