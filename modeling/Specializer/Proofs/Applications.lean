import Specializer.Proofs.Adjoined
import Specializer.Proofs.ArgumentValues

set_option autoImplicit false

namespace Specializer

namespace Traced

variable {α β : Type}

theorem pure_silent (value : α) : (pure value : Traced α) = ⟨[], .ok value⟩ := rfl

theorem bind_silent {first : Traced α} {value : α} (silent : first = ⟨[], .ok value⟩) (next : α → Traced β) :
    first >>= next = next value := by
  subst silent
  rfl

end Traced

theorem substituteInOrder_some {text : List Char} {values : List SlotType}
    (enough : segmentCount text ≤ values.length) :
    ∃ new, substituteInOrder text values = some new ∧ Woven text (values.take (segmentCount text)) new := by
  have some : (substituteInOrder text values).isSome = true := by
    rw [substituteInOrder_isSome, decide_eq_true_iff]
    exact enough
  obtain ⟨new, made⟩ := Option.isSome_iff_exists.mp some
  refine ⟨new, made, woven_of_substitute ?_ ?_⟩
  next => rw [substituteInOrder_take, made]
  next => rw [List.length_take, Nat.min_eq_left enough]

theorem hasPlaceholder_of_count {text : List Char} (some : 1 ≤ segmentCount text) :
    hasPlaceholder text = true := by
  by_contra plain
  rw [segmentCount_eq_zero.mpr (Bool.eq_false_iff.mpr plain)] at some
  cases some

namespace Setting

variable {setting : Setting} {scope : Scope Slot} {owner : Option (List Char)} {name : Name}
  {range place : Range} {dims : Nat} {inScope values : List SlotType} {new : List Char}

theorem values_known (bound : ∀ slot ∈ scope.order, (setting.binding.get? slot).isSome = true) :
    ∃ inScope, scope.values setting.binding = .ok inScope := by
  have each : ∀ slot ∈ scope.order,
      setting.binding.get slot = .ok ((setting.binding.get? slot).getD .generic) := by
    intro slot member
    obtain ⟨value, same⟩ := Option.isSome_iff_exists.mp (bound slot member)
    rw [Binding.get, same, Option.getD_some]
  exact ⟨_, mapM_ok each⟩

theorem scopeOf_bound {slots : List Slot} (bound : setting.Bound slots) :
    ∀ slot ∈ (setting.scopeOf slots).order, (setting.binding.get? slot).isSome = true := by
  have follows : (setting.scopeOf slots).Follows setting.binding slots := ⟨rfl, bound⟩
  exact fun slot => follows.mem_order.mp

theorem values_silent (known : scope.values setting.binding = .ok inScope) :
    setting.values scope = ⟨[], .ok inScope⟩ := by
  rw [Setting.values, Traced.lift, known]

theorem rename_silent (has : hasPlaceholder name.text = true)
    (filled : substituteInOrder name.text values = some new) :
    setting.rename scope name values = ⟨[], .ok [replace name new]⟩ := by
  simp only [rename, filled, if_neg (substituteInOrder_changed has filled)]
  rfl

theorem refEdits_single {list : TypeArgs} {found : RefEdits} (other : Slot.ofText? name.text = none)
    (made : setting.segmentEdits scope (.applied name list) = ⟨[], .ok found⟩) :
    setting.refEdits owner scope (.mk range [.applied name list] dims) = ⟨[], .ok found⟩ := by
  have notBare : setting.bareSlot (.mk range [.applied name list] dims) = ⟨[], .ok none⟩ := by
    simp only [bareSlot, other]
    rfl
  rw [refEdits, Traced.bind_silent notBare, segmentsEdits, Traced.bind_silent made, segmentsEdits]
  change Traced.mk [] (.ok (RefEdits.mk (found.edits ++ []) found.values)) = _
  rw [List.append_nil]

theorem segmentEdits_diamond (has : hasPlaceholder name.text = true)
    (known : scope.values setting.binding = .ok inScope)
    (filled : substituteInOrder name.text inScope = some new) :
    setting.segmentEdits scope (.applied name (.mk place [])) =
      ⟨[], .ok ⟨(if (inScope.take (segmentCount name.text)).all SlotType.isPrimitive then
        [⟨place.start, place.stop, []⟩] else []) ++ [replace name new],
        some (inScope.take (segmentCount name.text))⟩⟩ := by
  have some : ¬ segmentCount name.text = 0 := by simpa [segmentCount_eq_zero] using has
  have empty : ([] : List TypeArg).isEmpty = true := rfl
  rw [segmentEdits, if_neg some, Traced.bind_silent (values_silent known), if_pos empty,
    Traced.bind_silent (rename_silent has filled)]
  rfl

theorem segmentEdits_explicit {args : List TypeArg} {entries : Entries}
    (has : hasPlaceholder name.text = true) (known : scope.values setting.binding = .ok inScope)
    (nonempty : args ≠ [])
    (listed : setting.argEdits (some inScope) scope 0 args = ⟨[], .ok entries⟩)
    (derived : entries.derived = true)
    (filled : substituteInOrder name.text (entries.resolve inScope) = some new) :
    setting.segmentEdits scope (.applied name (.mk place args)) =
      ⟨[], .ok ⟨setting.listEdits place entries ++ [replace name new],
        some ((entries.resolve inScope).take (segmentCount name.text))⟩⟩ := by
  have some : ¬ segmentCount name.text = 0 := by simpa [segmentCount_eq_zero] using has
  have full : ¬ args.isEmpty = true := by simpa using nonempty
  rw [segmentEdits, if_neg some, Traced.bind_silent (values_silent known), if_neg full,
    Traced.bind_silent listed, if_pos derived, Traced.bind_silent (rename_silent has filled)]
  rfl

theorem texts_at {index : Nat} {lexeme : Lexeme}
    (there : (lexemesOf setting.tokens)[index]? = some lexeme) :
    setting.texts.getD index [] = lexeme.text := by
  obtain ⟨token, found, rfl⟩ := lexemesOf_some there
  rw [texts, List.getD_eq_getElem?_getD, List.getElem?_map, found, Option.map_some, Option.getD_some]

theorem render_name (stands : name.Stands (lexemesOf setting.tokens)) :
    setting.render name.range [] = ⟨[], .ok name.text⟩ := by
  have shown : (Edit.slice setting.texts name.index (name.index + 1 : Nat)).flatten = name.text := by
    rw [Edit.slice_flatten, List.range'_one, List.flatMap_singleton, texts_at stands]
  exact congrArg (fun text => Traced.mk [] (.ok text)) shown

section Bare

variable {ref : TypeRef} {slot : Slot} {value : SlotType} {given : Option (List SlotType)} {position : Nat}

theorem bareSlot_silent (bare : ref.slot? = some slot) : setting.bareSlot ref = ⟨[], .ok (some slot)⟩ := by
  unfold TypeRef.slot? at bare
  split at bare
  next => exact congrArg (fun found => Traced.mk [] (.ok found)) bare
  next => cases bare

theorem get_of_get? (bound : setting.binding.get? slot = some value) :
    setting.binding.get slot = .ok value := by
  rw [Binding.get, bound]

theorem bareValue_bound (bare : ref.slot? = some slot) (bound : setting.binding.get? slot = some value) :
    setting.bareValue ref = ⟨[], .ok (some value)⟩ := by
  rw [bareValue, Traced.bind_silent (bareSlot_silent bare)]
  simp only [get_of_get? bound]
  rfl

theorem argEntry_primitive (bare : ref.slot? = some slot) (bound : setting.binding.get? slot = some value)
    (primitive : value.isPrimitive = true) :
    setting.argEntry given scope position (.exact ref) = ⟨[], .ok (.drop value)⟩ := by
  rw [argEntry_exact, refEntry, Traced.bind_silent (bareValue_bound bare bound)]
  simp only [primitive, if_true]
  rfl

theorem argEntry_generic (named : Slot.ofText? name.text = some slot)
    (bound : setting.binding.get? slot = some value) (generic : value.isPrimitive = false)
    (stands : name.Stands (lexemesOf setting.tokens)) :
    setting.argEntry given scope position (.exact (.mk name.range [.plain name] 0)) =
      ⟨[], .ok (.keep [some value] true name.text [])⟩ := by
  have bare : (TypeRef.mk name.range [.plain name] 0).slot? = some slot := named
  rw [argEntry_exact, refEntry, Traced.bind_silent (bareValue_bound bare bound)]
  simp only [generic, Bool.false_eq_true, if_false]
  rw [keepEntry, TypeRef.range, Traced.bind_silent (render_name stands)]
  rfl

end Bare

end Setting

theorem TypeRef.Written.bare {lexemes : List Lexeme} {ref : TypeRef} {slot : Slot}
    (written : ref.Written lexemes) (bare : ref.slot? = some slot) (dimless : ref.dims = 0) :
    ∃ name : Name, ref = .mk name.range [.plain name] 0 ∧ Slot.ofText? name.text = some slot := by
  obtain ⟨range, segments, dims⟩ := ref
  unfold TypeRef.slot? at bare
  split at bare
  next place name count same =>
    cases same
    cases dimless
    obtain ⟨first, rest, same, index, ends⟩ := written.begins
    cases same
    refine ⟨name, ?_, bare⟩
    have stop : range.stop = name.index + 1 := by
      rcases ends with ⟨-, -, stop⟩ | ⟨_, -, -, ⟨-, more⟩ | ⟨-, more⟩⟩
      next => exact stop
      next => exact absurd rfl more
      next => exact absurd rfl more
    have start : name.index = range.start := index
    rw [show range = name.range by rw [Name.range, ← stop, start]]
  next => cases bare

end Specializer
