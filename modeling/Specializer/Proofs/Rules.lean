import Specializer.Proofs.Induction
import Specializer.Proofs.Outcomes
import Specializer.Substitution

set_option autoImplicit false

namespace Specializer

/-- What segments yield together. The last that tells values has a say. -/
def RefEdits.join (each : List RefEdits) : RefEdits :=
  each.foldr (fun first more => ⟨first.edits ++ more.edits, more.values.or first.values⟩) ⟨[], none⟩

def Entries.join (each : List Entries) : Entries := each.foldr Entries.append .none

theorem RefEdits.mem_join {each : List RefEdits} {found : RefEdits} (member : found ∈ each) {edit : Edit}
    (there : edit ∈ found.edits) : edit ∈ (RefEdits.join each).edits := by
  induction each with
  | nil => cases member
  | cons first rest ih =>
    rcases List.mem_cons.mp member with rfl | behind
    · exact List.mem_append_left _ there
    · exact List.mem_append_right _ (ih behind)

/-- What one entry of a list brings in is among what all of them do. -/
structure Entries.Within (first all : Entries) : Prop where
  edits : ∀ edit ∈ first.edits, edit ∈ all.edits
  kept : ∀ text ∈ first.kept, text ∈ all.kept
  dropped : first.dropped = true → all.dropped = true

namespace Entries

variable {first all : Entries}

theorem within_append_left (first others : Entries) : first.Within (first.append others) :=
  ⟨fun _ => List.mem_append_left _, fun _ => List.mem_append_left _, fun dropped => by
    simp [append, dropped]⟩

theorem Within.append_right (within : first.Within all) (others : Entries) :
    first.Within (others.append all) :=
  ⟨fun edit there => List.mem_append_right _ (within.edits edit there),
    fun text there => List.mem_append_right _ (within.kept text there), fun dropped => by
      simp [append, within.dropped dropped]⟩

theorem within_join {each : List Entries} (member : first ∈ each) : first.Within (Entries.join each) := by
  induction each with
  | nil => cases member
  | cons other rest ih =>
    rcases List.mem_cons.mp member with rfl | behind
    · exact within_append_left _ _
    · exact (ih behind).append_right _

end Entries

namespace Setting

variable {setting : Setting} {scope : Scope Slot}

section Lists

def foreignEntry (setting : Setting) (owner : List Char) (scope : Scope Slot) (arg : TypeArg) :
    Traced (List Edit) :=
  match arg.ref? with
  | some ref => do
    let found ← setting.refEdits (some owner) scope ref
    pure found.edits
  | none => pure []

theorem segmentsEdits_eq (segments : List Segment) : setting.segmentsEdits scope segments = (do
    let each ← segments.mapM (setting.segmentEdits scope)
    pure (RefEdits.join each)) := by
  induction segments with
  | nil =>
    rw [segmentsEdits]
    rfl
  | cons segment rest ih =>
    rw [segmentsEdits, ih]
    simp [RefEdits.join]

theorem foreignEdits_eq (owner : List Char) (args : List TypeArg) :
    setting.foreignEdits owner scope args = (do
      let each ← args.mapM (setting.foreignEntry owner scope)
      pure each.flatten) := by
  induction args with
  | nil =>
    rw [foreignEdits]
    rfl
  | cons arg rest ih =>
    cases arg <;> rw [foreignEdits, ih] <;> simp [foreignEntry, TypeArg.ref?]

theorem refsEdits_eq (refs : List TypeRef) : setting.refsEdits scope refs = (do
    let each ← refs.mapM (setting.refEdits none scope)
    pure (each.map RefEdits.edits).flatten) := by
  induction refs with
  | nil =>
    rw [refsEdits]
    rfl
  | cons ref rest ih =>
    rw [refsEdits, ih]
    simp

theorem paramEntries_eq (params : List TypeParam) : setting.paramEntries scope params = (do
    let each ← params.mapM (setting.paramEntry scope)
    pure (Entries.join each)) := by
  induction params with
  | nil =>
    rw [paramEntries]
    rfl
  | cons param rest ih =>
    rw [paramEntries, ih]
    simp [Entries.join]

theorem membersEdits_eq (members : List Member) : setting.membersEdits scope members = (do
    let each ← members.mapM (setting.memberEdits scope)
    pure each.flatten) := by
  induction members with
  | nil =>
    rw [membersEdits]
    rfl
  | cons member rest ih =>
    rw [membersEdits, ih]
    simp

variable {edits : List Edit} {found : RefEdits} {entries : Entries}

theorem segmentsEdits_each {segments : List Segment} {segment : Segment}
    (made : (setting.segmentsEdits scope segments).result = .ok found) (member : segment ∈ segments) :
    ∃ inner, (setting.segmentEdits scope segment).result = .ok inner ∧
      ∀ edit ∈ inner.edits, edit ∈ found.edits := by
  rw [segmentsEdits_eq] at made
  simp only [Traced.bind_ok, Traced.pure_ok] at made
  obtain ⟨each, visited, rfl⟩ := made
  obtain ⟨inner, among, visited⟩ := Traced.mapM_each visited member
  exact ⟨inner, visited, fun _ => RefEdits.mem_join among⟩

theorem foreignEdits_each {owner : List Char} {args : List TypeArg} {arg : TypeArg}
    (made : (setting.foreignEdits owner scope args).result = .ok edits) (member : arg ∈ args) :
    ∃ inner, (setting.foreignEntry owner scope arg).result = .ok inner ∧ ∀ edit ∈ inner, edit ∈ edits := by
  rw [foreignEdits_eq] at made
  simp only [Traced.bind_ok, Traced.pure_ok] at made
  obtain ⟨each, visited, rfl⟩ := made
  obtain ⟨inner, among, visited⟩ := Traced.mapM_each visited member
  exact ⟨inner, visited, fun _ there => List.mem_flatten.mpr ⟨inner, among, there⟩⟩

theorem refsEdits_each {refs : List TypeRef} {ref : TypeRef}
    (made : (setting.refsEdits scope refs).result = .ok edits) (member : ref ∈ refs) :
    ∃ inner, (setting.refEdits none scope ref).result = .ok inner ∧ ∀ edit ∈ inner.edits, edit ∈ edits := by
  rw [refsEdits_eq] at made
  simp only [Traced.bind_ok, Traced.pure_ok] at made
  obtain ⟨each, visited, rfl⟩ := made
  obtain ⟨inner, among, visited⟩ := Traced.mapM_each visited member
  exact ⟨inner, visited, fun _ there => List.mem_flatten.mpr ⟨_, List.mem_map_of_mem among, there⟩⟩

theorem paramEntries_each {params : List TypeParam} {param : TypeParam}
    (made : (setting.paramEntries scope params).result = .ok entries) (member : param ∈ params) :
    ∃ inner, (setting.paramEntry scope param).result = .ok inner ∧ inner.Within entries := by
  rw [paramEntries_eq] at made
  simp only [Traced.bind_ok, Traced.pure_ok] at made
  obtain ⟨each, visited, rfl⟩ := made
  obtain ⟨inner, among, visited⟩ := Traced.mapM_each visited member
  exact ⟨inner, visited, Entries.within_join among⟩

theorem argEdits_each {inScope : Option (List SlotType)} {position : Nat} {args : List TypeArg}
    {arg : TypeArg} (made : (setting.argEdits inScope scope position args).result = .ok entries)
    (member : arg ∈ args) : ∃ place inner,
      (setting.argEntry inScope scope place arg).result = .ok inner ∧ inner.Within entries := by
  induction args generalizing position entries with
  | nil => cases member
  | cons first rest ih =>
    rw [argEdits] at made
    simp only [Traced.bind_ok, Traced.pure_ok] at made
    obtain ⟨ofFirst, visited, ofRest, later, rfl⟩ := made
    rcases List.mem_cons.mp member with rfl | behind
    · exact ⟨position, ofFirst, visited, Entries.within_append_left _ _⟩
    · obtain ⟨place, inner, visited, within⟩ := ih later behind
      exact ⟨place, inner, visited, within.append_right _⟩

theorem membersEdits_each {members : List Member} {member : Member}
    (made : (setting.membersEdits scope members).result = .ok edits) (found : member ∈ members) :
    ∃ inner, (setting.memberEdits scope member).result = .ok inner ∧ ∀ edit ∈ inner, edit ∈ edits := by
  rw [membersEdits_eq] at made
  simp only [Traced.bind_ok, Traced.pure_ok] at made
  obtain ⟨each, visited, rfl⟩ := made
  obtain ⟨inner, among, visited⟩ := Traced.mapM_each visited found
  exact ⟨inner, visited, fun _ there => List.mem_flatten.mpr ⟨inner, among, there⟩⟩

end Lists

section Entries

def keepEntry (setting : Setting) (range : Range) (values : List (Option SlotType)) (derived : Bool)
    (edits : List Edit) : Traced Entries := do
  let text ← setting.render range edits
  pure (.keep values derived text edits)

theorem keepEntry_ok {range : Range} {values : List (Option SlotType)} {derived : Bool}
    {edits : List Edit} {entries : Entries} :
    (setting.keepEntry range values derived edits).result = .ok entries ↔
      ∃ text, (setting.render range edits).result = .ok text ∧
        entries = .keep values derived text edits := by
  simp only [keepEntry, Traced.bind_ok, Traced.pure_ok, eq_comm (b := entries)]

def refEntry (setting : Setting) (scope : Scope Slot) (range : Range) (derived : RefEdits → Bool)
    (ref : TypeRef) : Traced Entries := do
  match ← setting.bareValue ref with
  | some value =>
    if value.isPrimitive then pure (.drop value)
    else setting.keepEntry range [some value] true []
  | none => do
    let inner ← setting.refEdits none scope ref
    setting.keepEntry range ((inner.values.getD []).map some) (derived inner) inner.edits

variable {entries : Entries}

theorem refEntry_ok {range : Range} {derived : RefEdits → Bool} {ref : TypeRef}
    (made : (setting.refEntry scope range derived ref).result = .ok entries) :
    (∃ value, (setting.bareValue ref).result = .ok (some value) ∧
        ((value.isPrimitive = true ∧ entries = .drop value) ∨
          (value.isPrimitive = false ∧ ∃ text, (setting.render range []).result = .ok text ∧
            entries = .keep [some value] true text []))) ∨
      ∃ inner text, (setting.bareValue ref).result = .ok none ∧
        (setting.refEdits none scope ref).result = .ok inner ∧
        (setting.render range inner.edits).result = .ok text ∧
        entries = .keep ((inner.values.getD []).map some) (derived inner) text inner.edits := by
  rw [refEntry, Traced.bind_ok] at made
  obtain ⟨bare, isBare, made⟩ := made
  cases bare with
  | none =>
    rw [Traced.bind_ok] at made
    obtain ⟨inner, visited, made⟩ := made
    obtain ⟨text, rendered, rfl⟩ := keepEntry_ok.mp made
    exact .inr ⟨inner, text, isBare, visited, rendered, rfl⟩
  | some value =>
    refine .inl ⟨value, isBare, ?_⟩
    simp only at made
    split at made
    next primitive => exact .inl ⟨primitive, (Traced.pure_ok.mp made).symm⟩
    next other => exact .inr ⟨Bool.eq_false_iff.mpr other, keepEntry_ok.mp made⟩

theorem argEntry_exact (inScope : Option (List SlotType)) (position : Nat) (ref : TypeRef) :
    setting.argEntry inScope scope position (.exact ref) =
      setting.refEntry scope ref.range (fun inner => inner.values.isSome) ref := by
  rw [argEntry]
  rfl

theorem argEntry_bounded (inScope : Option (List SlotType)) (position : Nat) (range : Range)
    (kind : BoundKind) (ref : TypeRef) :
    setting.argEntry inScope scope position (.bounded range kind ref) =
      setting.refEntry scope range (fun _ => true) ref := by
  rw [argEntry]
  rfl

theorem argEntry_unbounded (inScope : Option (List SlotType)) (position : Nat) (range : Range) :
    (∃ values value, inScope = some values ∧ values[position]? = some value ∧
        value.isPrimitive = true ∧
        setting.argEntry inScope scope position (.unbounded range) = pure (.drop value)) ∨
      ((∀ values value, inScope = some values → values[position]? = some value →
          value.isPrimitive = false) ∧
        ∃ known derived, (∀ value, some value ∈ known → value.isPrimitive = false) ∧
          setting.argEntry inScope scope position (.unbounded range) =
            setting.keepEntry range known derived []) := by
  cases inScope with
  | none => exact .inr ⟨nofun, [], false, nofun, by rw [argEntry, keepEntry]⟩
  | some values =>
    rw [argEntry]
    cases there : values[position]? with
    | none =>
      refine .inr ⟨fun _ value same found => ?_, [none], true, by simp, by simp [keepEntry]⟩
      cases same
      rw [there] at found
      cases found
    | some value =>
      cases primitive : value.isPrimitive with
      | true => exact .inl ⟨values, value, rfl, there, primitive, by simp [primitive]⟩
      | false =>
        refine .inr ⟨fun _ other same found => ?_, [some value], true, by simp [primitive], ?_⟩
        · cases same
          cases there.symm.trans found
          exact primitive
        · simp [primitive, keepEntry]

theorem argEntry_unbounded_ok {inScope : Option (List SlotType)} {position : Nat} {range : Range}
    (made : (setting.argEntry inScope scope position (.unbounded range)).result = .ok entries) :
    (∃ values value, inScope = some values ∧ values[position]? = some value ∧
        value.isPrimitive = true ∧ entries = .drop value) ∨
      ((∀ values value, inScope = some values → values[position]? = some value →
          value.isPrimitive = false) ∧
        ∃ known derived text, (setting.render range []).result = .ok text ∧
          entries = .keep known derived text []) := by
  rcases setting.argEntry_unbounded inScope position range with
    ⟨values, value, given, there, primitive, same⟩ | ⟨kept, known, derived, -, same⟩
  · rw [same] at made
    exact .inl ⟨values, value, given, there, primitive, (Traced.pure_ok.mp made).symm⟩
  · rw [same] at made
    exact .inr ⟨kept, known, derived, keepEntry_ok.mp made⟩

def paramKept (setting : Setting) (scope : Scope Slot) (param : TypeParam) : Traced Entries := do
  let edits ← setting.refsEdits scope param.bounds
  setting.keepEntry param.range [] true edits

variable {param : TypeParam}

theorem paramEntry_none (other : Slot.ofText? param.name.text = none) :
    setting.paramEntry scope param = setting.paramKept scope param := by
  rw [paramEntry, other]
  rfl

theorem paramEntry_some {slot : Slot} (named : Slot.ofText? param.name.text = some slot) :
    setting.paramEntry scope param = (do
      let value ← Traced.lift (setting.binding.get slot)
      if value.isPrimitive then pure .omitted else setting.paramKept scope param) := by
  rw [paramEntry, named]
  simp only [Traced.andThen_eq, bind_assoc, pure_bind]
  rfl

theorem paramEntry_ok (made : (setting.paramEntry scope param).result = .ok entries) :
    (∃ slot value, Slot.ofText? param.name.text = some slot ∧
        setting.binding.get slot = .ok value ∧ value.isPrimitive = true ∧ entries = .omitted) ∨
      (∀ slot value, Slot.ofText? param.name.text = some slot → setting.binding.get slot = .ok value →
          value.isPrimitive = false) ∧
        ∃ edits text, (setting.refsEdits scope param.bounds).result = .ok edits ∧
          (setting.render param.range edits).result = .ok text ∧
          entries = .keep [] true text edits := by
  -- The entry is kept for two reasons: it names no slot, or its slot is generic.
  have kept (made : (setting.paramKept scope param).result = .ok entries) :
      ∃ edits text, (setting.refsEdits scope param.bounds).result = .ok edits ∧
        (setting.render param.range edits).result = .ok text ∧
        entries = .keep [] true text edits := by
    rw [paramKept, Traced.bind_ok] at made
    obtain ⟨edits, visited, made⟩ := made
    obtain ⟨text, rendered, rfl⟩ := keepEntry_ok.mp made
    exact ⟨edits, text, visited, rendered, rfl⟩
  cases named : Slot.ofText? param.name.text with
  | none =>
    rw [paramEntry_none named] at made
    exact .inr ⟨nofun, kept made⟩
  | some slot =>
    rw [paramEntry_some named, Traced.bind_ok] at made
    obtain ⟨value, bound, made⟩ := made
    split at made
    next primitive => exact .inl ⟨slot, value, rfl, bound, primitive, (Traced.pure_ok.mp made).symm⟩
    next other =>
      refine .inr ⟨fun slot' value' same bound' => ?_, kept made⟩
      cases same
      cases (Traced.lift_ok.mp bound).symm.trans bound'
      exact Bool.eq_false_iff.mpr other

end Entries

section Creations

def optionalArgs (setting : Setting) (scope : Scope Slot) : Option TypeArgs → Traced (List Edit)
  | some args => setting.explicitArgs scope args >>= fun explicit => pure explicit.2
  | none => pure []

theorem memberEdits_creation (scope : Scope Slot) (range : Range) (type : TypeRef)
    (members : List Member) (constructorArgs : Option TypeArgs) :
    setting.memberEdits scope (.creation range type members constructorArgs) = (do
      let ofArgs ← setting.optionalArgs scope constructorArgs
      let ofType ← setting.refEdits none scope type
      let ofBody ← setting.membersEdits scope members
      pure (ofArgs ++ ofType.edits ++ ofBody)) := by
  cases constructorArgs with
  | none => rw [memberEdits, optionalArgs]
  | some args => rw [memberEdits, optionalArgs, bind_assoc]

end Creations

end Setting

end Specializer
