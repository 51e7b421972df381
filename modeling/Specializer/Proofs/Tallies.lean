import Specializer.Proofs.Visits

set_option autoImplicit false

namespace Specializer

namespace Setting

variable {setting : Setting} {slots : List Slot} {names : List Name} {edits : List Edit}

section Lists

variable {inScope : List SlotType} {position : Nat} {entries : Entries}

/-- What becomes of the entries of a list one by one. -/
inductive Tallies (setting : Setting) (slots : List Slot) (inScope : List SlotType) :
    Nat → List Subtree → Entries → Prop
  | nil {position : Nat} : Tallies setting slots inScope position [] .none
  | goes {position : Nat} {part : Subtree} {rest : List Subtree} {entry more : Entries}
      (drops : setting.binding.drops inScope position part = true) (kept : entry.kept = [])
      (dropped : entry.dropped = true)
      (tallies : Tallies setting slots inScope (position + part.width) rest more) :
      Tallies setting slots inScope position (part :: rest) (entry.append more)
  | stays {position : Nat} {part : Subtree} {rest : List Subtree} {entry more : Entries}
      {text : List Char} (stays : setting.binding.drops inScope position part = false)
      (kept : entry.kept = [text]) (dropped : entry.dropped = false)
      (visited : (setting.visit slots .alone part).result = .ok entry.edits)
      (rendered : (setting.render part.range entry.edits).result = .ok text)
      (tallies : Tallies setting slots inScope (position + part.width) rest more) :
      Tallies setting slots inScope position (part :: rest) (entry.append more)

namespace Tallies

variable {list : List Subtree}

theorem whole (tallies : setting.Tallies slots inScope position list entries) :
    entries.dropped = false ↔ setting.binding.survivors inScope position list = list := by
  induction tallies with
  | nil => simp [Entries.none, Binding.survivors]
  | @goes position part rest entry more drops kept dropped tallies ih =>
    have shorter := (setting.binding.survivors_sublist inScope (position + part.width) rest).length_le
    simp only [Entries.append, dropped, Bool.true_or, Bool.true_eq_false, Binding.survivors, drops,
      if_true, false_iff]
    -- Even if all the others are left they are too few.
    intro same
    rw [same, List.length_cons] at shorter
    omega
  | stays stays kept dropped visited rendered tallies ih =>
    simp [Entries.append, dropped, Binding.survivors, stays, ih]

theorem kept (tallies : setting.Tallies slots inScope position list entries) :
    List.Forall₂ (fun entry text => (setting.rendering slots entry).result = .ok text)
      (setting.binding.survivors inScope position list) entries.kept := by
  induction tallies with
  | nil => exact .nil
  | goes drops kept dropped tallies ih =>
    simpa [Binding.survivors, drops, Entries.append, kept] using ih
  | @stays position part rest entry more text stays kept dropped visited rendered tallies ih =>
    have made : (setting.rendering slots part).result = .ok text := by
      rw [rendering, Traced.bind_ok]
      exact ⟨_, visited, rendered⟩
    simpa [Binding.survivors, stays, Entries.append, kept] using ⟨made, ih⟩

theorem assembles (tallies : setting.Tallies slots inScope position list entries)
    (whole : entries.dropped = false) :
    setting.Assembles slots names (list.map fun entry => (.alone, entry)) entries.edits := by
  induction tallies with
  | nil => exact .none
  | goes drops kept dropped => simp [Entries.append, dropped] at whole
  | stays stays kept dropped visited rendered tallies ih =>
    simp only [Entries.append, dropped, Bool.false_or] at whole
    exact (Assembles.part visited).append (ih whole)

-- A list that may lose entries is edited in place, or rebuilt from those that are left.
theorem visited {manner : Manner} {part : Subtree} (trims : part.trims manner = true)
    (tallies : setting.Tallies slots (setting.wildValues slots manner) 0 part.children entries) :
    setting.Visited slots manner part (setting.listEdits part.range entries) := by
  have parts : part.parts manner = part.children.map fun entry => (.alone, entry) := by
    cases part <;> cases manner <;> first | (cases trims; done) |
      simp [Subtree.parts, Subtree.children, Manner.entry]
  have same : part.within slots = slots := by
    cases part <;> first | exact if_pos rfl | cases trims
  rw [listEdits]
  split
  next dropped =>
    refine .rebuilt trims (fun same => ?_) tallies.kept
    simp [tallies.whole.mpr same] at dropped
  next kept =>
    have kept := Bool.eq_false_iff.mpr kept
    refine .within ?_ fun _ => tallies.whole.mp kept
    rw [same, parts]
    exact tallies.assembles kept

end Tallies

theorem paramEntries_tallies {params : List TypeParam}
    (made : (setting.paramEntries (setting.scopeOf slots) params).result = .ok entries)
    (position : Nat) :
    setting.Tallies slots inScope position (params.map Subtree.param) entries := by
  induction params generalizing entries position with
  | nil =>
    rw [paramEntries, Traced.pure_ok] at made
    subst made
    exact .nil
  | cons param rest ih =>
    rw [paramEntries] at made
    simp only [Traced.bind_ok, Traced.pure_ok] at made
    obtain ⟨first, ofFirst, more, ofRest, rfl⟩ := made
    rcases paramEntry_ok ofFirst with ⟨slot, value, named, bound, primitive, rfl⟩ |
      ⟨kept, edits, text, ofBounds, rendered, rfl⟩
    next =>
      refine .goes ?_ rfl rfl (ih ofRest _)
      simp [Binding.drops, Subtree.standsFor?, named, get?_of_get bound, primitive]
    next =>
      refine .stays ?_ rfl rfl ofBounds rendered (ih ofRest _)
      simp only [Binding.drops, Subtree.standsFor?]
      cases named : Slot.ofText? param.name.text with
      | none => rfl
      | some slot =>
        cases bound : setting.binding.get? slot with
        | none => simp [bound]
        | some value => simpa [bound] using kept slot value named (by simp [Binding.get, bound])

end Lists

section Widths

variable {scope : Scope Slot} {found : RefEdits}

theorem rename_enough {name : Name} {values : List SlotType}
    (made : (setting.rename scope name values).result = .ok edits) :
    segmentCount name.text ≤ values.length := by
  obtain ⟨new, substituted, -⟩ := rename_substitutes made
  have enough := substituteInOrder_isSome name.text values
  rwa [substituted, Option.isSome_some, eq_comm, decide_eq_true_iff] at enough

theorem segmentEdits_width {segment : Segment}
    (made : (setting.segmentEdits scope segment).result = .ok found) :
    found.values.map List.length =
      if 0 < segmentCount segment.name.text then some (segmentCount segment.name.text) else none := by
  have told {name : Name} {values : List SlotType} {new : List Edit}
      (renamed : (setting.rename scope name values).result = .ok new) :
      (values.take (segmentCount name.text)).length = segmentCount name.text := by
    rw [List.length_take, Nat.min_eq_left (rename_enough renamed)]
  cases segment with
  | plain name =>
    rw [segmentEdits] at made
    split at made
    next zero =>
      cases Traced.pure_ok.mp made
      simp [Segment.name, zero]
    next some =>
      simp only [Traced.bind_ok, Traced.pure_ok] at made
      obtain ⟨values, -, new, renamed, rfl⟩ := made
      simp [Segment.name, told renamed, Nat.pos_of_ne_zero some]
  | applied name args =>
    obtain ⟨range, args⟩ := args
    rcases segmentEdits_applied made with
      ⟨plain, new, -, rfl⟩ | ⟨has, -, values, list, new, -, renamed, rfl, -⟩
    next => simp [Segment.name, segmentCount_eq_zero.mpr plain]
    next =>
      simp [Segment.name, told renamed, segmentCount_pos.mpr has]

theorem segmentsEdits_width {segments : List Segment}
    (made : (setting.segmentsEdits scope segments).result = .ok found) :
    found.values.map List.length =
      ((segments.map fun segment => segmentCount segment.name.text).filter (0 < ·)).getLast? := by
  induction segments generalizing found with
  | nil =>
    rw [segmentsEdits, Traced.pure_ok] at made
    subst made
    rfl
  | cons segment rest ih =>
    rw [segmentsEdits] at made
    simp only [Traced.bind_ok, Traced.pure_ok] at made
    obtain ⟨first, ofFirst, more, ofRest, rfl⟩ := made
    have here := segmentEdits_width ofFirst
    have later := ih ofRest
    rw [List.map_cons, List.filter_cons]
    have joined : (more.values.or first.values).map List.length =
        (more.values.map List.length).or (first.values.map List.length) := by
      cases more.values <;> rfl
    rw [joined, here, later]
    by_cases some : 0 < segmentCount segment.name.text
    next =>
      simp only [some, if_true, decide_true, List.getLast?_cons]
      cases List.getLast? _ <;> rfl
    next => simp [some]

theorem refEdits_width {owner : Option (List Char)} {ref : TypeRef}
    (made : (setting.refEdits owner scope ref).result = .ok found) :
    (found.values.getD []).length = ref.width := by
  obtain ⟨range, segments, dims⟩ := ref
  rw [refEdits, Traced.bind_ok] at made
  obtain ⟨bare, isBare, made⟩ := made
  rw [TypeRef.width, bareSlot_ok isBare]
  cases bare with
  | some slot =>
    simp only [Traced.bind_ok, Traced.pure_ok] at made
    obtain ⟨value, -, edits, -, rfl⟩ := made
    rfl
  | none =>
    have width := segmentsEdits_width made
    simp only [Option.isSome_none, Bool.false_eq_true, if_false, TypeRef.segments, ← width]
    cases found.values <;> rfl

theorem refEntry_width {range : Range} {derived : RefEdits → Bool} {ref : TypeRef} {entries : Entries}
    (made : (setting.refEntry scope range derived ref).result = .ok entries) :
    entries.values.length = ref.width := by
  rcases refEntry_ok made with ⟨value, isBare, kind⟩ | ⟨inner, text, -, visited, -, rfl⟩
  next =>
    obtain ⟨slot, found, -⟩ := bareValue_some isBare
    rw [TypeRef.width, bareSlot_ok found]
    rcases kind with ⟨-, rfl⟩ | ⟨-, text, -, rfl⟩ <;> rfl
  next =>
    rw [← refEdits_width visited]
    exact List.length_map _

theorem argEntry_wild {inScope : List SlotType} {position : Nat} {range : Range} {entries : Entries}
    (made : (setting.argEntry (some inScope) scope position (.unbounded range)).result = .ok entries) :
    entries.values = [inScope[position]?] ∧ entries.derived = true := by
  rw [argEntry] at made
  split at made
  next none =>
    simp only [Traced.bind_ok, Traced.pure_ok] at made
    obtain ⟨text, -, rfl⟩ := made
    rw [none]
    exact ⟨rfl, rfl⟩
  next value known =>
    rw [known]
    split at made
    next =>
      cases Traced.pure_ok.mp made
      exact ⟨rfl, rfl⟩
    next =>
      simp only [Traced.bind_ok, Traced.pure_ok] at made
      obtain ⟨text, -, rfl⟩ := made
      exact ⟨rfl, rfl⟩

theorem argEntry_width {inScope : List SlotType} {position : Nat} {arg : TypeArg} {entries : Entries}
    (made : (setting.argEntry (some inScope) scope position arg).result = .ok entries) :
    entries.values.length = arg.subtree.width := by
  cases arg with
  | unbounded range =>
    rw [(argEntry_wild made).1]
    rfl
  | exact ref =>
    rw [argEntry_exact] at made
    exact refEntry_width made
  | bounded range kind ref =>
    rw [argEntry_bounded] at made
    exact refEntry_width made

end Widths

section Arguments

variable {given : Option (List SlotType)} {position counted : Nat} {entries : Entries}

theorem bare_visited {scope : Scope Slot} {ref : TypeRef} {value : SlotType}
    (made : (setting.bareValue ref).result = .ok (some value)) (kept : value.isPrimitive = false) :
    (setting.refEdits none scope ref).result = .ok ⟨[], some [value]⟩ := by
  obtain ⟨slot, found, bound⟩ := bareValue_some made
  obtain ⟨range, name, dims, rfl, -⟩ := bareSlot_some found
  have generic : value.isGeneric = true := by simpa [SlotType.isPrimitive] using kept
  rw [refEdits, Traced.bind_ok]
  refine ⟨some slot, found, ?_⟩
  simp only [Traced.bind_ok, Traced.lift_ok, Traced.pure_ok]
  refine ⟨value, bound, [], ?_, rfl⟩
  simp [bareEdit, TypeRef.segments, generic, Traced.pure_ok]

theorem bareValue_none {ref : TypeRef} (made : (setting.bareValue ref).result = .ok none) :
    ref.slot? = none := by
  rw [bareValue, Traced.bind_ok] at made
  obtain ⟨bare, found, made⟩ := made
  cases bare with
  | none => exact bareSlot_ok found
  | some slot =>
    simp only [Traced.bind_ok, Traced.pure_ok] at made
    obtain ⟨_, -, other⟩ := made
    cases other

theorem refEntry_tallies {range : Range} {derived : RefEdits → Bool} {ref : TypeRef}
    (made : (setting.refEntry (setting.scopeOf slots) range derived ref).result = .ok entries) :
    ((ref.slot?.bind setting.binding.get?).any SlotType.isPrimitive = true ∧ entries.kept = [] ∧
        entries.dropped = true) ∨
      ((ref.slot?.bind setting.binding.get?).any SlotType.isPrimitive = false ∧
        entries.dropped = false ∧ ∃ text, entries.kept = [text] ∧
          (setting.visit slots .alone (.ref ref)).result = .ok entries.edits ∧
          (setting.render range entries.edits).result = .ok text) := by
  rcases refEntry_ok made with ⟨value, isBare, kind⟩ | ⟨inner, text, isBare, ofRef, rendered, rfl⟩
  next =>
    obtain ⟨slot, found, bound⟩ := bareValue_some isBare
    rw [bareSlot_ok found, Option.bind_some, get?_of_get bound, Option.any_some]
    rcases kind with ⟨primitive, rfl⟩ | ⟨kept, text, rendered, rfl⟩
    next => exact .inl ⟨primitive, rfl, rfl⟩
    next => exact .inr ⟨kept, rfl, text, rfl, visit_ref .alone (bare_visited isBare kept), rendered⟩
  next =>
    rw [bareValue_none isBare]
    exact .inr ⟨rfl, rfl, text, rfl, visit_ref .alone ofRef, rendered⟩

theorem argEdits_tallies {args : List TypeArg}
    (made : (setting.argEdits given (setting.scopeOf slots) position args).result = .ok entries)
    (agrees : given.isSome = true → counted = position) :
    setting.Tallies slots (given.getD []) counted (args.map TypeArg.subtree) entries := by
  induction args generalizing position counted entries with
  | nil =>
    rw [argEdits, Traced.pure_ok] at made
    subst made
    exact .nil
  | cons arg rest ih =>
    rw [argEdits] at made
    simp only [Traced.bind_ok, Traced.pure_ok] at made
    obtain ⟨first, ofFirst, more, ofRest, rfl⟩ := made
    -- Positions are counted only where wildcards stand for the values in scope.
    have next : given.isSome = true →
        counted + arg.subtree.width = position + first.values.length := by
      intro known
      obtain ⟨values, rfl⟩ := Option.isSome_iff_exists.mp known
      rw [agrees rfl, argEntry_width ofFirst]
    have later := ih ofRest next
    cases arg with
    | unbounded range =>
      rcases argEntry_unbounded_ok ofFirst with
        ⟨values, value, rfl, there, primitive, rfl⟩ | ⟨others, values, derived, text, rendered, rfl⟩
      next =>
        refine .goes ?_ rfl rfl later
        simp [Binding.drops, TypeArg.subtree, agrees rfl, there, primitive]
      next =>
        refine .stays ?_ rfl rfl rfl rendered later
        rw [TypeArg.subtree, Binding.drops]
        cases given with
        | none => rfl
        | some values =>
          rw [agrees rfl, Option.getD_some]
          cases there : values[position]? with
          | none => rfl
          | some value => exact others values value rfl there
    | exact ref =>
      rw [argEntry_exact] at ofFirst
      rcases refEntry_tallies ofFirst with
        ⟨drops, kept, dropped⟩ | ⟨stays, whole, text, kept, visited, rendered⟩
      next => exact .goes drops kept dropped later
      next => exact .stays stays kept whole visited rendered later
    | bounded range kind ref =>
      rw [argEntry_bounded] at ofFirst
      rcases refEntry_tallies ofFirst with
        ⟨drops, kept, dropped⟩ | ⟨stays, whole, text, kept, visited, rendered⟩
      next => exact .goes drops kept dropped later
      next => exact .stays stays kept whole visited rendered later

theorem foreignEdits_assembles {owner : List Char} {args : List TypeArg}
    (made : (setting.foreignEdits owner (setting.scopeOf slots) args).result = .ok edits) :
    setting.Assembles slots names (args.map fun arg => (.foreign owner, arg.subtree)) edits := by
  induction args generalizing edits with
  | nil =>
    rw [foreignEdits, Traced.pure_ok] at made
    subst made
    exact .none
  | cons arg rest ih =>
    cases arg with
    | unbounded range =>
      rw [foreignEdits] at made
      have visited : (setting.visit slots (.foreign owner) (.wildcard range none)).result = .ok [] := rfl
      exact (Assembles.part visited).append (ih made)
    | exact ref =>
      rw [foreignEdits] at made
      simp only [Traced.bind_ok, Traced.pure_ok] at made
      obtain ⟨first, ofFirst, more, ofRest, rfl⟩ := made
      exact (Assembles.part (visit_ref (.foreign owner) ofFirst)).append (ih ofRest)
    | bounded range kind ref =>
      rw [foreignEdits] at made
      simp only [Traced.bind_ok, Traced.pure_ok] at made
      obtain ⟨first, ofFirst, more, ofRest, rfl⟩ := made
      exact (Assembles.part (visit_wildcard (.foreign owner) range ofFirst)).append (ih ofRest)

end Arguments

end Setting

end Specializer
