import Specializer.Proofs.Overhang

set_option autoImplicit false

namespace Specializer

namespace Traced

variable {α β : Type}

/-- The run returns only if nothing strays, fails for an edit outside its range only if something
does, and never fails for edits that overlap. -/
def Judged (run : Traced α) (strays : Bool) : Prop :=
  run.Meets (fun _ => True)
    (fun fault => fault.code ≠ .overlappingEdits ∧ (fault.code = .strayEdit → strays = true))
    fun _ => strays = false

namespace Judged

theorem pure (value : α) : Judged (Pure.pure value : Traced α) false := Meets.pure rfl

theorem bind {first : Traced α} {next : α → Traced β} {early late : Bool}
    (judged : first.Judged early) (follows : ∀ value, first.result = .ok value → (next value).Judged late) :
    (first >>= next).Judged (early || late) := by
  have whole : first.Meets (fun _ => True) (fun fault => fault.code ≠ .overlappingEdits ∧
      (fault.code = .strayEdit → (early || late) = true)) fun _ => early = false := by
    refine ⟨judged.noted, fun fault failed => ?_, judged.returned⟩
    obtain ⟨apart, stray⟩ := judged.failed fault failed
    exact ⟨apart, fun same => by rw [stray same, Bool.true_or]⟩
  refine Meets.bind whole fun value made none => ?_
  rw [none, Bool.false_or]
  exact follows value made

theorem after {first : Traced α} {next : α → Traced β} {strays : Bool}
    (judged : first.Judged false)
    (follows : ∀ value, first.result = .ok value → (next value).Judged strays) :
    (first >>= next).Judged strays := by
  have both := judged.bind follows
  rwa [Bool.false_or] at both

theorem map {first : Traced α} {strays : Bool} (judged : first.Judged strays) (f : α → β) :
    (first >>= fun value => Pure.pure (f value)).Judged strays :=
  Meets.map judged fun _ => id

theorem mapM {f : α → Traced β} {items : List α} {strays : α → Bool}
    (each : ∀ item ∈ items, (f item).Judged (strays item)) : (items.mapM f).Judged (items.any strays) := by
  induction items with
  | nil => exact pure _
  | cons item rest ih =>
    rw [List.mapM_cons, List.any_cons]
    refine (each item List.mem_cons_self).bind fun result _ => ?_
    exact (ih fun item member => each item (List.mem_cons_of_mem _ member)).map _

theorem notice (notice : Notice) : (Traced.notice notice).Judged false := Meets.notice trivial rfl

theorem harmless {run : Traced α} (other : ∀ fault, run.result = .error fault →
    fault.code ≠ .overlappingEdits ∧ fault.code ≠ .strayEdit) : run.Judged false :=
  ⟨fun _ _ => trivial, fun fault failed => (other fault failed).imp_right fun stray same => absurd same stray,
    fun _ _ => rfl⟩

end Judged

end Traced

namespace Setting

section Harmless

variable {setting : Setting} {scope : Scope Slot}

theorem get_fault {binding : Binding} {slot : Slot} {fault : Fault}
    (failed : binding.get slot = .error fault) : fault = .missingValue slot := by
  rw [Binding.get] at failed
  split at failed
  next => cases failed
  next => exact (Except.error.inj failed).symm

theorem get_missing {binding : Binding} {slot : Slot} {fault : Fault}
    (failed : binding.get slot = .error fault) : binding.get? slot = none := by
  rw [Binding.get] at failed
  split at failed
  next => cases failed
  next missing => exact missing

def Misses (binding : Binding) (slots : List Slot) (fault : Fault) : Prop :=
  ∃ slot ∈ slots, binding.get? slot = none ∧ fault = .missingValue slot

theorem get_misses {binding : Binding} {slot : Slot} {slots : List Slot} {fault : Fault}
    (member : slot ∈ slots) (failed : binding.get slot = .error fault) : Misses binding slots fault :=
  ⟨slot, member, get_missing failed, get_fault failed⟩

theorem values_fault {binding : Binding} {fault : Fault}
    (failed : scope.values binding = .error fault) : Misses binding scope.order fault := by
  obtain ⟨slot, member, failed⟩ := mapM_eq_error failed
  exact get_misses member failed

theorem fillBySlot_fault {value : Slot → Except Fault SlotType} {pieces : List Piece} {fault : Fault}
    (failed : fillBySlot value pieces = .error fault) :
    ∃ slot, .slot slot ∈ pieces ∧ value slot = .error fault := by
  induction pieces with
  | nil => cases failed
  | cons piece rest ih =>
    have later (failed : fillBySlot value rest = .error fault) :
        ∃ slot, .slot slot ∈ piece :: rest ∧ value slot = .error fault := by
      obtain ⟨slot, member, missing⟩ := ih failed
      exact ⟨slot, List.mem_cons_of_mem _ member, missing⟩
    cases piece with
    | char c =>
      rw [fillBySlot] at failed
      cases behind : fillBySlot value rest with
      | error other =>
        rw [behind] at failed
        cases failed
        exact later behind
      | ok text =>
        rw [behind] at failed
        cases failed
    | slot slot =>
      simp only [fillBySlot, bind_eq_error] at failed
      rcases failed with missing | ⟨type, -, behind | ⟨text, -, none⟩⟩
      · exact ⟨slot, List.mem_cons_self, missing⟩
      · exact later behind
      · cases none

theorem fillWord_fault {binding : Binding} {values : Option (List SlotType)} {word : List Char}
    {fault : Fault} (failed : DocText.fillWord binding values word = .error fault) :
    Misses binding (segments word) fault := by
  -- Three of the ways to fill a word go slot by slot.
  have bySlot (failed : substituteBySlot word binding.get = .error fault) :
      Misses binding (segments word) fault := by
    obtain ⟨slot, member, missing⟩ := fillBySlot_fault failed
    exact get_misses (List.mem_filterMap.mpr ⟨_, member, rfl⟩) missing
  rw [DocText.fillWord.eq_def] at failed
  split at failed
  next slot named =>
    have plural := List.find?_some named
    rw [bind_eq_error] at failed
    rcases failed with missing | ⟨_, -, none⟩
    · refine get_misses (mem_segments_iff.mpr ?_) missing
      rw [← eq_of_beq plural, String.toList_append]
      exact List.infix_append' [] _ _
    · cases none
  next =>
    split at failed
    next slot named =>
      rw [bind_eq_error] at failed
      rcases failed with missing | ⟨_, -, none⟩
      · refine get_misses (mem_segments_iff.mpr ?_) missing
        rw [Slot.ofText?_some named]
      · cases none
    next =>
      split at failed
      next => exact bySlot failed
      next =>
        split at failed
        next => exact bySlot failed
        next =>
          split at failed
          next => cases failed
          next => exact bySlot failed

theorem fill_fault {binding : Binding} {values : Option (List SlotType)} {text : List Char}
    {fault : Fault} (failed : DocText.fill binding values text = .error fault) :
    Misses binding (segments text) fault := by
  rw [DocText.fill, bind_eq_error] at failed
  rcases failed with failed | ⟨_, -, none⟩
  · obtain ⟨run, member, failed⟩ := mapM_eq_error failed
    rw [DocText.fillRun] at failed
    split at failed
    next =>
      obtain ⟨slot, named, missing⟩ := fillWord_fault failed
      -- What a run of the text names, the text names.
      have inside : run <:+: text := by
        rw [← List.flatten_splitBy _ text]
        exact List.infix_of_mem_flatten member
      exact ⟨slot, mem_segments_iff.mpr ((mem_segments_iff.mp named).trans inside), missing⟩
    next => cases failed
  · cases none

theorem docEdits_fault {tree : Tree} {edits : List Edit} {fault : Fault}
    (failed : setting.docEdits tree edits = .error fault) :
    ∃ doc ∈ tree.docs,
      Misses setting.binding (DocScope.find setting.tokens
        (declScopesOf (Scope.outermost setting.binding) tree.members)
        (Scope.outermost setting.binding) doc).order fault ∨
      Misses setting.binding (segments (setting.docText doc)) fault := by
  rw [docEdits, bind_eq_error] at failed
  rcases failed with failed | ⟨_, -, none⟩
  · obtain ⟨doc, member, failed⟩ := mapM_eq_error failed
    refine ⟨doc, (List.mem_filter.mp member).1, ?_⟩
    simp only [docEdit, bind_eq_error] at failed
    rcases failed with failed | ⟨values, -, failed | ⟨text, -, none⟩⟩
    · exact .inl (values_fault failed)
    · exact .inr (fill_fault failed)
    · cases none
  · cases none

theorem docEdits_judged {tree : Tree} {edits : List Edit} :
    (Traced.lift (setting.docEdits tree edits)).Judged false := by
  refine .harmless fun fault failed => ?_
  obtain ⟨doc, -, ⟨slot, -, -, rfl⟩ | ⟨slot, -, -, rfl⟩⟩ := docEdits_fault failed <;> simp [Fault.code]

theorem get_judged (slot : Slot) : (Traced.lift (setting.binding.get slot)).Judged false :=
  .harmless fun fault failed => by
    rw [get_fault failed]
    simp [Fault.code]

theorem values_judged : (setting.values scope).Judged false :=
  .harmless fun fault failed => by
    obtain ⟨slot, -, -, rfl⟩ := values_fault failed
    simp [Fault.code]

theorem rename_judged {name : Name} {values : List SlotType} :
    (setting.rename scope name values).Judged false := by
  rw [rename]
  split
  next =>
    refine .harmless fun fault failed => ?_
    cases failed
    simp [Fault.code]
  next => exact .pure _

theorem bareSlot_judged {ref : TypeRef} : (setting.bareSlot ref).Judged false := by
  unfold bareSlot
  split
  next => exact .pure _
  next =>
    split
    next =>
      refine .harmless fun fault failed => ?_
      cases failed
      simp [Fault.code]
    next => exact .pure _
  next => exact .pure _

theorem bareValue_judged {ref : TypeRef} : (setting.bareValue ref).Judged false := by
  refine bareSlot_judged.after fun bare _ => ?_
  cases bare with
  | none => exact .pure _
  | some slot => exact (get_judged slot).map some

theorem bareEdit_judged {owner : Option (List Char)} {ref : TypeRef} {slot : Slot}
    {value : SlotType} : (setting.bareEdit owner ref slot value).Judged false := by
  unfold bareEdit
  split
  next => exact .pure _
  next =>
    split
    next => exact .pure _
    next =>
      split
      next =>
        split
        next => exact (Traced.Judged.notice _).map _
        next => exact .pure _
      next => exact .pure _

end Harmless

section Conditions

variable (setting : Setting)

mutual

def refStrays (scope : Scope Slot) : TypeRef → Bool
  | .mk _ segments _ => segmentsStray scope segments

def segmentsStray (scope : Scope Slot) : List Segment → Bool
  | [] => false
  | segment :: rest => segmentStrays scope segment || segmentsStray scope rest

def segmentStrays (scope : Scope Slot) : Segment → Bool
  | .plain _ => false
  | .applied name (.mk _ args) => argsStray (hasPlaceholder name.text) scope args

def argsStray (rendered : Bool) (scope : Scope Slot) : List TypeArg → Bool
  | [] => false
  | arg :: rest => argStrays rendered scope arg || argsStray rendered scope rest

def argStrays (rendered : Bool) (scope : Scope Slot) : TypeArg → Bool
  | .unbounded _ => false
  | .exact ref => refStrays scope ref || (rendered && setting.overhangs scope ref.range.stop ref)
  | .bounded range _ ref =>
    refStrays scope ref || (rendered && setting.overhangs scope range.stop ref)

end

def paramStrays (scope : Scope Slot) (param : TypeParam) : Bool :=
  !(Slot.ofText? param.name.text).any setting.isPrimitive &&
    (param.bounds.any (setting.refStrays scope) ||
      param.bounds.any (setting.overhangs scope param.range.stop))

def paramsStray (scope : Scope Slot) (params : TypeParams) : Bool :=
  params.params.any (setting.paramStrays scope)

mutual

def memberStrays (scope : Scope Slot) : Member → Bool
  | .typeUse ref | .importDecl _ ref _ _ => setting.refStrays scope ref
  | .typeDecl _ _ _ params supertypes members =>
    let inner := scope.inside params
    params.any (setting.paramsStray inner) || (supertypes.any (setting.refStrays inner) ||
      membersStray inner members)
  | .methodDecl _ params members =>
    let inner := scope.inside (some params)
    setting.paramsStray inner params || membersStray inner members
  | .creation _ type members constructorArgs =>
    constructorArgs.any (fun list => setting.argsStray true scope list.args) ||
      (setting.refStrays scope type || membersStray scope members)
  | .witness _ args _ => setting.argsStray true scope args.args

def membersStray (scope : Scope Slot) : List Member → Bool
  | [] => false
  | member :: rest => memberStrays scope member || membersStray scope rest

end

end Conditions

variable {setting : Setting} {scope : Scope Slot}

theorem render_judged {range inner : Range} {edits : List Edit}
    (confined : setting.Confined inner edits) (left : range.start ≤ inner.start) :
    (setting.render range edits).Judged (Edit.passes range.stop edits) := by
  have nonempty : ∀ edit ∈ Edit.sort edits, edit.start < edit.stop := fun edit member =>
    (confined.lies edit ((Edit.sort_perm edits).mem_iff.mp member)).nonempty
  have before : (Edit.sort edits).Pairwise Edit.Before :=
    Edit.sort_before (fun edit member => (confined.lies edit member).nonempty) confined.apart
  have start (edit : Edit) (member : edit ∈ edits) : (range.start : Int) ≤ edit.start := by
    have low := (confined.lies edit member).low
    omega
  unfold render Edit.render
  rw [Edit.validate_before nonempty before]
  cases first : (Edit.sort edits).find? (Edit.strays range.start range.stop) with
  | none =>
    refine Traced.Meets.lift (fun _ failed => by cases failed) fun _ _ => ?_
    refine Edit.passes_false fun edit member => ?_
    have fits := List.find?_eq_none.mp first edit ((Edit.sort_perm edits).mem_iff.mpr member)
    simp only [Edit.strays, Bool.or_eq_true, decide_eq_true_eq, not_or, Int.not_lt] at fits
    exact fits.2
  | some edit =>
    refine Traced.Meets.lift (fun fault failed => ?_) fun _ made => by cases made
    cases failed
    refine ⟨by simp [Fault.code], fun _ => ?_⟩
    have member := (Edit.sort_perm edits).mem_iff.mp (List.mem_of_find?_eq_some first)
    have out := List.find?_some first
    -- It starts in the range, so it strays at the end.
    have low := start edit member
    simp only [Edit.strays, Bool.or_eq_true, decide_eq_true_eq] at out
    exact List.any_eq_true.mpr ⟨edit, member, decide_eq_true (by omega)⟩

theorem keepEntry_judged {range inner : Range} {edits : List Edit} {values : List (Option SlotType)}
    {derived : Bool} (confined : setting.Confined inner edits) (left : range.start ≤ inner.start) :
    (setting.keepEntry range values derived edits).Judged (Edit.passes range.stop edits) :=
  (render_judged confined left).map _

theorem keepEntry_judged_nil (range : Range) (values : List (Option SlotType)) (derived : Bool) :
    (setting.keepEntry range values derived []).Judged false := Traced.Judged.pure _

theorem refEntry_judged {range : Range} {derived : RefEdits → Bool} {ref : TypeRef}
    (sound : (Subtree.ref ref).Sound (lexemesOf setting.tokens))
    (left : range.start ≤ ref.range.start) (right : ref.range.stop ≤ range.stop)
    (visited : (setting.refEdits none scope ref).Judged (setting.refStrays scope ref)) :
    (setting.refEntry scope range derived ref).Judged
      (setting.refStrays scope ref || setting.overhangs scope range.stop ref) := by
  refine bareValue_judged.after fun bare isBare => ?_
  cases bare with
  | some value =>
    obtain ⟨slot, found, -⟩ := bareValue_some isBare
    -- A placeholder is rendered as it stands, without edits.
    obtain ⟨own, name, dims, rfl, -⟩ := bareSlot_some found
    have none : (setting.refStrays scope (.mk own [.plain name] dims) ||
        setting.overhangs scope range.stop (.mk own [.plain name] dims)) = false := rfl
    rw [none]
    dsimp only
    split
    next => exact .pure _
    next => exact keepEntry_judged_nil range _ _
  | none =>
    refine visited.bind fun inner made => ?_
    have confined := yields_confined (refEdits_yields ref made) trivial sound
    -- The edits are confined to the reference, so rendering judges by where the last one ends.
    rw [← refEdits_passes made sound right]
    exact keepEntry_judged confined left

section References

theorem segmentsStray_eq (segments : List Segment) :
    setting.segmentsStray scope segments = segments.any (setting.segmentStrays scope) := by
  induction segments with
  | nil => rw [segmentsStray, List.any_nil]
  | cons segment rest ih => rw [segmentsStray, ih, List.any_cons]

theorem argsStray_eq (rendered : Bool) (args : List TypeArg) :
    setting.argsStray rendered scope args = args.any (setting.argStrays rendered scope) := by
  induction args with
  | nil => rw [argsStray, List.any_nil]
  | cons arg rest ih => rw [argsStray, ih, List.any_cons]

theorem membersStray_eq (members : List Member) :
    setting.membersStray scope members = members.any (setting.memberStrays scope) := by
  induction members with
  | nil => rw [membersStray, List.any_nil]
  | cons member rest ih => rw [membersStray, ih, List.any_cons]

theorem foreignEdits_judged {owner : List Char} {args : List TypeArg}
    (inner : ∀ arg ∈ args, ∀ ref ∈ arg.ref?,
      (setting.refEdits (some owner) scope ref).Judged (setting.refStrays scope ref)) :
    (setting.foreignEdits owner scope args).Judged (setting.argsStray false scope args) := by
  have each : ∀ arg ∈ args,
      (setting.foreignEntry owner scope arg).Judged (setting.argStrays false scope arg) := by
    intro arg member
    have here := inner arg member
    -- Arguments of a type that is no template are edited in place and never rendered alone.
    cases arg with
    | unbounded range =>
      rw [argStrays]
      exact .pure _
    | exact ref | bounded range kind ref =>
      rw [argStrays, Bool.false_and, Bool.or_false]
      exact (here ref rfl).map _
  rw [foreignEdits_eq, argsStray_eq]
  exact (Traced.Judged.mapM each).map _

theorem argEntry_judged {inScope : Option (List SlotType)} {position : Nat} {arg : TypeArg}
    (sound : arg.subtree.Sound (lexemesOf setting.tokens))
    (inner : ∀ ref ∈ arg.ref?, (setting.refEdits none scope ref).Judged (setting.refStrays scope ref)) :
    (setting.argEntry inScope scope position arg).Judged (setting.argStrays true scope arg) := by
  cases arg with
  | unbounded range =>
    rw [argStrays]
    rcases setting.argEntry_unbounded inScope position range with ⟨_, _, -, -, -, same⟩ | ⟨-, _, _, -, same⟩
    · rw [same]
      exact .pure _
    · rw [same]
      exact keepEntry_judged_nil range _ _
  | exact ref =>
    rw [argEntry_exact, argStrays, Bool.true_and]
    exact refEntry_judged sound (Nat.le_refl _) (Nat.le_refl _) (inner ref rfl)
  | bounded range kind ref =>
    obtain ⟨bound, left, right⟩ := arg_ref rfl sound
    rw [argEntry_bounded, argStrays, Bool.true_and]
    exact refEntry_judged bound left right (inner ref rfl)

theorem argEdits_judged {inScope : Option (List SlotType)} {position : Nat} {args : List TypeArg}
    (each : ∀ arg ∈ args, ∀ position,
      (setting.argEntry inScope scope position arg).Judged (setting.argStrays true scope arg)) :
    (setting.argEdits inScope scope position args).Judged (setting.argsStray true scope args) := by
  induction args generalizing position with
  | nil =>
    rw [argEdits, argsStray]
    exact .pure _
  | cons arg rest ih =>
    rw [argEdits, argsStray]
    refine (each arg List.mem_cons_self position).bind fun first _ => ?_
    exact (ih fun arg member => each arg (List.mem_cons_of_mem _ member)).map _

theorem segmentEdits_judged {segment : Segment}
    (sound : ∀ list ∈ segment.args?, (Subtree.args list).Sound (lexemesOf setting.tokens))
    (inner : ∀ ref ∈ segment.refs, ∀ owner,
      (setting.refEdits owner scope ref).Judged (setting.refStrays scope ref)) :
    (setting.segmentEdits scope segment).Judged (setting.segmentStrays scope segment) := by
  cases segment with
  | plain name =>
    rw [segmentEdits, segmentStrays]
    split
    next => exact .pure _
    next => exact values_judged.after fun _ _ => rename_judged.map _
  | applied name list =>
    cases list with
    | mk range args =>
      have below := sound _ rfl
      have among : ∀ arg ∈ args, ∀ ref ∈ arg.ref?, ref ∈ (Segment.applied name (.mk range args)).refs :=
        fun arg member ref has => List.mem_filterMap.mpr ⟨arg, member, has⟩
      rw [segmentEdits, segmentStrays]
      split
      next zero =>
        have visits : (setting.foreignEdits name.text scope args).Judged _ :=
          foreignEdits_judged fun arg member ref has => inner ref (among arg member ref has) _
        rw [segmentCount_eq_zero.mp zero]
        exact visits.map _
      next more =>
        have has : hasPlaceholder name.text = true :=
          eq_true_of_ne_false fun plain => more (segmentCount_eq_zero.mpr plain)
        rw [has]
        refine values_judged.after fun inScope _ => ?_
        split
        next diamond =>
          cases List.isEmpty_iff.mp diamond
          rw [argsStray]
          exact rename_judged.map _
        next =>
          have entries : (setting.argEdits (some inScope) scope 0 args).Judged _ :=
            argEdits_judged fun arg member _ => argEntry_judged (below.child (List.mem_map_of_mem member))
              fun ref has => inner ref (among arg member ref has) none
          -- Renaming never strays, and so only the entries decide.
          rw [← Bool.or_false (setting.argsStray true scope args)]
          refine entries.bind fun entries _ => ?_
          split
          next => exact rename_judged.map _
          next => exact (Traced.Judged.notice _).after fun _ _ => rename_judged.map _

theorem segmentsEdits_judged {segments : List Segment}
    (each : ∀ segment ∈ segments,
      (setting.segmentEdits scope segment).Judged (setting.segmentStrays scope segment)) :
    (setting.segmentsEdits scope segments).Judged (setting.segmentsStray scope segments) := by
  rw [segmentsEdits_eq, segmentsStray_eq]
  exact (Traced.Judged.mapM each).map _

theorem refEdits_judged {owner : Option (List Char)} {ref : TypeRef}
    (sound : (Subtree.ref ref).Sound (lexemesOf setting.tokens)) :
    (setting.refEdits owner scope ref).Judged (setting.refStrays scope ref) := by
  induction ref using TypeRef.induction generalizing owner with
  | mk range segments dims inner =>
    rw [refEdits, refStrays]
    refine bareSlot_judged.after fun bare isBare => ?_
    cases bare with
    | none =>
      refine segmentsEdits_judged fun segment member => segmentEdits_judged ?_ ?_
      · intro list given
        exact sound.child (List.mem_map_of_mem (List.mem_filterMap.mpr ⟨segment, member, given⟩))
      · exact fun ref among _ => inner segment member ref among (sound.inner member among)
    | some slot =>
      obtain ⟨own, name, _, same, -⟩ := bareSlot_some isBare
      cases same
      exact (get_judged slot).after fun value _ => bareEdit_judged.map _

end References

theorem refsEdits_judged {refs : List TypeRef}
    (sound : ∀ ref ∈ refs, (Subtree.ref ref).Sound (lexemesOf setting.tokens)) :
    (setting.refsEdits scope refs).Judged (refs.any (setting.refStrays scope)) := by
  rw [refsEdits_eq]
  exact (Traced.Judged.mapM fun ref member => refEdits_judged (sound ref member)).map _

theorem explicitArgs_judged {args : TypeArgs}
    (sound : (Subtree.args args).Sound (lexemesOf setting.tokens)) :
    (setting.explicitArgs scope args).Judged (setting.argsStray true scope args.args) := by
  have entries : ∀ arg ∈ args.args, arg.subtree.Sound (lexemesOf setting.tokens) := fun _ member =>
    sound.child (List.mem_map_of_mem member)
  have visits : (setting.argEdits none scope 0 args.args).Judged _ :=
    argEdits_judged fun arg member _ => argEntry_judged (entries arg member) fun ref has =>
      refEdits_judged ((entries arg member).bound has)
  exact visits.map _

theorem paramEntry_judged {param : TypeParam}
    (sound : (Subtree.param param).Sound (lexemesOf setting.tokens)) :
    (setting.paramEntry scope param).Judged (setting.paramStrays scope param) := by
  have kept : (setting.paramKept scope param).Judged
      (param.bounds.any (setting.refStrays scope) ||
        param.bounds.any (setting.overhangs scope param.range.stop)) := by
    refine (refsEdits_judged fun ref member => ?_).bind fun edits made => ?_
    · exact sound.child (List.mem_map_of_mem member)
    obtain ⟨confined, passes⟩ := bounds_confined made sound
    rw [← passes]
    exact keepEntry_judged confined (Nat.le_refl _)
  rw [paramStrays]
  cases named : Slot.ofText? param.name.text with
  | none =>
    rw [paramEntry_none named]
    exact kept
  | some slot =>
    rw [paramEntry_some named, Option.any_some]
    refine (get_judged slot).after fun value found => ?_
    rw [isPrimitive_of_get (Traced.lift_ok.mp found)]
    cases value.isPrimitive with
    | true => exact .pure _
    | false => exact kept

theorem paramsEdits_judged {params : TypeParams}
    (sound : (Subtree.params params).Sound (lexemesOf setting.tokens)) :
    (setting.paramsEdits scope params).Judged (setting.paramsStray scope params) := by
  have entries : (setting.paramEntries scope params.params).Judged (setting.paramsStray scope params) := by
    rw [paramEntries_eq]
    exact (Traced.Judged.mapM fun param member =>
      paramEntry_judged (sound.child (List.mem_map_of_mem member))).map _
  exact entries.map _

theorem optionalParams_judged {params : Option TypeParams}
    (sound : ∀ list ∈ params.toList, (Subtree.params list).Sound (lexemesOf setting.tokens)) :
    (setting.optionalParams scope params).Judged (params.any (setting.paramsStray scope)) := by
  cases params with
  | none => exact .pure _
  | some list => exact paramsEdits_judged (sound list List.mem_cons_self)

theorem optionalArgs_judged {explicit : Option TypeArgs}
    (sound : ∀ list ∈ explicit, (Subtree.args list).Sound (lexemesOf setting.tokens)) :
    (setting.optionalArgs scope explicit).Judged
      (explicit.any fun list => setting.argsStray true scope list.args) := by
  cases explicit with
  | none => exact .pure _
  | some list => exact (explicitArgs_judged (sound list rfl)).map _

theorem membersEdits_judged {members : List Member}
    (each : ∀ member ∈ members, (setting.memberEdits scope member).Judged (setting.memberStrays scope member)) :
    (setting.membersEdits scope members).Judged (setting.membersStray scope members) := by
  rw [membersEdits_eq, membersStray_eq]
  exact (Traced.Judged.mapM each).map _

theorem memberEdits_judged {scope : Scope Slot} {member : Member}
    (sound : member.subtree.Sound (lexemesOf setting.tokens)) :
    (setting.memberEdits scope member).Judged (setting.memberStrays scope member) := by
  induction member using Member.induction generalizing scope with
  | typeUse ref =>
    rw [memberEdits, memberStrays]
    exact (refEdits_judged sound).map _
  | importDecl range ref isStatic onDemand =>
    rw [memberEdits, memberStrays]
    exact (refEdits_judged (sound.child List.mem_cons_self)).map _
  | typeDecl range keyword name params supertypes members inner =>
    rw [memberEdits, memberStrays]
    refine values_judged.after fun values _ => rename_judged.after fun _ _ => ?_
    refine (optionalParams_judged fun list member => ?_).bind fun _ _ => ?_
    · exact sound.child (Subtree.params_child (Option.mem_toList.mp member))
    refine (refsEdits_judged fun ref member => ?_).bind fun _ _ => ?_
    · exact sound.child (Subtree.super_child member)
    exact (membersEdits_judged fun member found =>
      inner member found (sound.child (Subtree.member_child found))).map _
  | methodDecl range params members inner =>
    rw [memberEdits, memberStrays]
    refine (paramsEdits_judged (sound.child List.mem_cons_self)).bind fun _ _ => ?_
    exact (membersEdits_judged fun member found =>
      inner member found (sound.child (Subtree.member_child found))).map _
  | creation range type members constructorArgs inner =>
    have made : (Subtree.ref type).Sound (lexemesOf setting.tokens) :=
      sound.child (List.mem_append_left _ List.mem_cons_self)
    rw [memberEdits_creation, memberStrays]
    refine (optionalArgs_judged fun list given => ?_).bind fun _ _ => ?_
    · exact sound.child (Subtree.args_child given)
    refine (refEdits_judged made).bind fun _ _ => ?_
    exact (membersEdits_judged fun member found =>
      inner member found (sound.child (Subtree.member_child found))).map _
  | witness range args method =>
    rw [memberEdits, memberStrays, ← Bool.or_false (setting.argsStray true scope args.args)]
    refine (explicitArgs_judged (sound.child List.mem_cons_self)).bind fun made _ => ?_
    exact values_judged.after fun _ _ => rename_judged.map _

theorem edits_judged {tree : Tree} (sound : (Subtree.unit tree).Sound (lexemesOf setting.tokens)) :
    (setting.edits tree).Judged
      (setting.membersStray (Scope.outermost setting.binding) tree.members) := by
  rw [← Bool.or_false (setting.membersStray _ _)]
  refine (membersEdits_judged fun member found => ?_).bind fun _ _ => ?_
  · exact memberEdits_judged (sound.child (Subtree.member_child found))
  · exact docEdits_judged.map _

end Setting

theorem Binding.check_judged {binding : Binding} {slotCount : Nat} :
    (Traced.lift (binding.check slotCount)).Judged false := by
  refine .harmless fun fault failed => ?_
  have failed : binding.check slotCount = .error fault := failed
  rw [check] at failed
  split at failed
  next =>
    split at failed
    next =>
      cases failed
      simp [Fault.code]
    next => cases failed
  next =>
    split at failed
    next => cases failed
    next =>
      cases failed
      simp [Fault.code]

theorem Edit.inside_iff {edits : List Edit} {range : Range}
    (start : ∀ edit ∈ edits, (range.start : Int) ≤ edit.start) :
    (∀ edit ∈ edits, (range.start : Int) ≤ edit.start ∧ edit.stop ≤ (range.stop : Int)) ↔
      passes range.stop edits = false := by
  constructor
  · intro inside
    exact passes_false fun edit member => (inside edit member).2
  · intro short edit member
    have fits := List.any_eq_false.mp short edit member
    simp only [decide_eq_true_eq, Int.not_lt] at fits
    exact ⟨start edit member, fits⟩

namespace Template

variable {source : List Char} {filename : String} {template : Template}

/-- Whether specializing the template renders an entry that overhangs. -/
def strays (template : Template) (binding : Binding) : Bool :=
  Setting.membersStray ⟨template.tokens, binding⟩ (Scope.outermost binding) template.tree.members

theorem specialize_judged (read : Template.read source filename = .ok template) (binding : Binding) :
    (template.specialize binding).Judged (template.strays binding) := by
  obtain ⟨-, parsed⟩ := read_ok read
  have sound := parse_sound parsed
  have docs := parseTokens_docs (parse_ok parsed).2
  have collected : (template.edits binding).Judged (template.strays binding) :=
    Binding.check_judged.after fun _ _ => Setting.edits_judged sound
  rw [← Bool.or_false (template.strays binding)]
  refine collected.bind fun edits made => ?_
  -- Once all edits are there, the last rendering takes them.
  obtain ⟨before, within, -⟩ := Setting.edits_ok sound docs (edits_setting made)
  have rendered : Edit.render (template.tokens.map fun token => token.text) edits 0
      template.tokens.length = .ok _ := (Edit.render_positionwise (Nat.zero_le _) within before).2
  rw [rendered]
  exact .pure _

/-- A specialization never fails for edits that overlap. It fails for an edit outside its range
exactly if an entry is rendered that overhangs and nothing else fails. What an argument or a type
parameter yields lies in its range exactly if it does not overhang. -/
theorem fails_by_overhang (read : Template.read source filename = .ok template) (binding : Binding) :
    (∀ fault, (template.specialize binding).result = .error fault →
      fault.code ≠ .overlappingEdits) ∧
    ((∃ fault, (template.specialize binding).result = .error fault ∧ fault.code = .strayEdit) ↔
      template.strays binding = true ∧
        ∀ fault, (template.specialize binding).result = .error fault → fault.code = .strayEdit) ∧
    (∀ arg ref owner scope found, (Subtree.unit template.tree).Below (TypeArg.subtree arg) →
      arg.ref? = some ref →
      (Setting.refEdits ⟨template.tokens, binding⟩ owner scope ref).result = .ok found →
      ((∀ edit ∈ found.edits,
          (arg.range.start : Int) ≤ edit.start ∧ edit.stop ≤ (arg.range.stop : Int)) ↔
        Setting.overhangs ⟨template.tokens, binding⟩ scope arg.range.stop ref = false)) ∧
    (∀ param scope edits, (Subtree.unit template.tree).Below (.param param) →
      (Setting.refsEdits ⟨template.tokens, binding⟩ scope param.bounds).result = .ok edits →
      ((∀ edit ∈ edits,
          (param.range.start : Int) ≤ edit.start ∧ edit.stop ≤ (param.range.stop : Int)) ↔
        param.bounds.any (Setting.overhangs ⟨template.tokens, binding⟩ scope param.range.stop) =
          false)) := by
  have sound := parse_sound (read_ok read).2
  -- The judgement tells from the conditions on entries alone how a specialization can fail.
  have judged := specialize_judged read binding
  refine ⟨?_, ?_, ?_, ?_⟩
  · exact fun fault failed => (judged.failed fault failed).1
  · constructor
    · rintro ⟨fault, failed, stray⟩
      refine ⟨(judged.failed fault failed).2 stray, fun other failed' => ?_⟩
      rw [failed] at failed'
      cases failed'
      exact stray
    · rintro ⟨strays, only⟩
      cases outcome : (template.specialize binding).result with
      | ok text =>
        rw [judged.returned text outcome] at strays
        cases strays
      | error fault => exact ⟨fault, rfl, only fault outcome⟩
  · intro arg ref owner scope found below has made
    obtain ⟨inArg, left, right⟩ := Setting.arg_ref has (sound.at_below below)
    have confined := Setting.yields_confined (Setting.refEdits_yields ref made) trivial inArg
    rw [← Setting.refEdits_passes made inArg right]
    refine Edit.inside_iff fun edit member => ?_
    exact Int.le_trans (Int.ofNat_le.mpr left) (confined.lies edit member).low
  · intro param scope edits below made
    obtain ⟨confined, passes⟩ := Setting.bounds_confined made (sound.at_below below)
    rw [← passes]
    exact Edit.inside_iff fun edit member => (confined.lies edit member).low

theorem fails_by_overhang_spaced :
    ∃ template, Template.read "class A { KTypeFoo<KTypeBar <KType> > x; }".toList "A.java" = .ok template ∧
      template.strays ⟨.int, none⟩ = true ∧
      ∃ fault, (template.specialize ⟨.int, none⟩).result = .error fault ∧ fault.code = .strayEdit := by
  obtain ⟨template, read, fails⟩ := ok_of_any
    (show (Template.read "class A { KTypeFoo<KTypeBar <KType> > x; }".toList "A.java").toOption.any
      (fun template => failsWith (fun fault => fault.code == .strayEdit)
        (template.specialize ⟨.int, none⟩).result) = true by decide +kernel)
  obtain ⟨fault, failed, stray⟩ := error_of_failsWith fails
  have strays := (fails_by_overhang read ⟨.int, none⟩).2.1.mp ⟨fault, failed, eq_of_beq stray⟩
  exact ⟨template, read, strays.1, fault, failed, eq_of_beq stray⟩

end Template

end Specializer
