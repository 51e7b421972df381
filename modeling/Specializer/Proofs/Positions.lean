import Specializer.Proofs.Treatment
import Specializer.Template

set_option autoImplicit false

namespace Specializer

/-- Words set between the parts of a text, as long as there are both. -/
def weave : List (List Char) → List (List Char) → List Char
  | gap :: gaps, word :: words => gap ++ (word ++ weave gaps words)
  | gaps, _ => gaps.flatten

theorem fillInOrder_weave {parts : List Piece} {values : List SlotType} {new : List Char}
    {slots : List Slot} (made : fillInOrder parts values = some new)
    (cut : parts.filterMap (fun | .slot s => some s | .char _ => none) = slots) :
    ∃ gaps, gaps.length = slots.length + 1 ∧
      parts.flatMap Piece.text = weave gaps (slots.map fun slot => slot.name.toList) ∧
      new = weave gaps ((values.take slots.length).map fun value => value.capitalized.toList) := by
  induction parts generalizing values new slots with
  | nil =>
    cases Option.some.inj made
    cases cut
    exact ⟨[[]], rfl, rfl, rfl⟩
  | cons piece rest ih =>
    cases piece with
    | char c =>
      simp only [fillInOrder, Option.map_eq_some_iff] at made
      obtain ⟨tail, later, rfl⟩ := made
      obtain ⟨gaps, count, old, new⟩ := ih later cut
      -- The character belongs to the first of the gaps.
      obtain ⟨gap, gaps, rfl⟩ := List.exists_cons_of_length_eq_add_one count
      refine ⟨(c :: gap) :: gaps, count, ?_, ?_⟩
      · rw [List.flatMap_cons, old]
        cases slots <;> rfl
      · rw [new]
        cases values.take slots.length <;> rfl
    | slot s =>
      cases values with
      | nil => cases made
      | cons value values =>
        simp only [fillInOrder, Option.map_eq_some_iff] at made
        obtain ⟨tail, later, rfl⟩ := made
        cases slots with
        | nil => cases cut
        | cons slot slots =>
          obtain ⟨rfl, behind⟩ := List.cons.inj cut
          obtain ⟨gaps, count, old, new⟩ := ih later behind
          refine ⟨[] :: gaps, by simp [count], ?_, ?_⟩
          · rw [List.flatMap_cons, old]
            rfl
          · rw [new]
            rfl

namespace Binding

variable (binding : Binding)

def order (declared : List Slot) : List Slot :=
  declared ++ (Scope.outermost binding).order.filter fun slot => !declared.contains slot

/-- The new text has the capitalized value of the slot in turn for each placeholder of the old. -/
def Positioned (declared : List Slot) (old new : List Char) : Prop :=
  ∃ (values : List SlotType) (gaps : List (List Char)), (binding.order declared).map binding.get? = values.map some ∧
    segmentCount old ≤ (binding.order declared).length ∧ gaps.length = segmentCount old + 1 ∧
    old = weave gaps ((segments old).map fun slot => slot.name.toList) ∧
    new = weave gaps
      ((values.take (segmentCount old)).map fun value => value.capitalized.toList)

variable {binding}

theorem get?_of_get {slot : Slot} {value : SlotType} (bound : binding.get slot = .ok value) :
    binding.get? slot = some value := @Setting.get?_of_get ⟨[], binding⟩ _ _ bound

theorem mem_outermost {slot : Slot} :
    slot ∈ (Scope.outermost binding).order ↔ (binding.get? slot).isSome = true := by
  cases slot <;> cases bound : binding.value <;> simp [Scope.outermost, get?, bound]

end Binding

namespace Scope

variable {scope : Scope Slot} {binding : Binding} {declared : List Slot} {values : List SlotType}

theorem values_bound (made : scope.values binding = .ok values) :
    scope.order.map binding.get? = values.map some := by
  unfold Scope.values at made
  generalize scope.order = slots at made
  have each := mapM_eq_ok made
  clear made
  induction each with
  | nil => rfl
  | cons bound _ ih => rw [List.map_cons, List.map_cons, Binding.get?_of_get bound, ih]

theorem order_bound (made : scope.values binding = .ok values) :
    ∀ slot ∈ scope.order, (binding.get? slot).isSome = true := by
  intro slot member
  have listed : binding.get? slot ∈ values.map some := values_bound made ▸ List.mem_map_of_mem member
  obtain ⟨value, -, same⟩ := List.mem_map.mp listed
  rw [← same]
  rfl

structure Follows (scope : Scope Slot) (binding : Binding) (declared : List Slot) : Prop where
  order : scope.order = binding.order declared
  bound : ∀ slot ∈ declared, (binding.get? slot).isSome = true

theorem outermost_follows : (outermost binding).Follows binding [] := by
  refine ⟨?_, nofun⟩
  simp [Binding.order]

theorem Follows.mem_order (follows : scope.Follows binding declared) {slot : Slot} :
    slot ∈ scope.order ↔ (binding.get? slot).isSome = true := by
  rw [follows.order, Binding.order, List.mem_append, List.mem_filter, Binding.mem_outermost]
  by_cases own : slot ∈ declared
  · simp [own, follows.bound slot own]
  · simp [own]

-- Inside a declaration what it declares counts; if it declares nothing, what counted outside.
theorem Follows.inside (follows : scope.Follows binding declared) {params : Option TypeParams}
    (bound : ∀ slot ∈ (params.map TypeParams.declared).getD [], (binding.get? slot).isSome = true) :
    (scope.inside params).Follows binding
      (if (params.map TypeParams.declared).getD [] = [] then declared
        else (params.map TypeParams.declared).getD []) := by
  unfold Scope.inside nested
  generalize (params.map TypeParams.declared).getD [] = own at bound
  by_cases none : own = []
  · simpa [none] using follows
  · refine ⟨?_, by simpa [none] using bound⟩
    -- The slots of any scope are those that are bound, so only what is declared matters.
    have others : Slot.all.filter (fun slot => decide (slot ∈ scope.order) && !decide (slot ∈ own)) =
        (outermost binding).order.filter fun slot => !decide (slot ∈ own) := by
      have reordered : (outermost binding).order =
          Slot.all.filter fun slot => decide (slot ∈ scope.order) := by
        have member (slot : Slot) : decide (slot ∈ scope.order) = (binding.get? slot).isSome := by
          rw [Bool.eq_iff_iff, decide_eq_true_iff, follows.mem_order]
        cases bound : binding.value <;> simp [member, outermost, Slot.all, Binding.get?, bound]
      rw [reordered, List.filter_filter]
      refine List.filter_congr fun slot _ => ?_
      simp [Bool.and_comm]
    simp [none, others, Binding.order]

theorem Follows.positioned (follows : scope.Follows binding declared) (bound : scope.values binding = .ok values)
    {old new : List Char} (substituted : substituteInOrder old values = some new) :
    binding.Positioned declared old new := by
  have woven := fillInOrder_weave substituted (Eq.refl (segments old))
  rw [pieces_text] at woven
  obtain ⟨gaps, count, spelled, filled⟩ := woven
  have each := values_bound bound
  have enough := substituteInOrder_isSome old values
  rw [substituted, Option.isSome_some, eq_comm, decide_eq_true_iff] at enough
  have length : scope.order.length = values.length := by simpa using congrArg List.length each
  rw [follows.order] at each length
  exact ⟨values, gaps, each, length ▸ enough, count, spelled, filled⟩

end Scope

namespace Setting

variable {setting : Setting} {scope : Scope Slot} {name : Name} {values : List SlotType}
  {edits : List Edit}

theorem rename_substitutes (made : (setting.rename scope name values).result = .ok edits) :
    ∃ new, substituteInOrder name.text values = some new ∧
      edits = if hasPlaceholder name.text then [replace name new] else [] := by
  unfold rename at made
  split at made
  next => cases made
  next new substituted =>
    refine ⟨new, substituted, ?_⟩
    rw [Traced.pure_ok] at made
    by_cases has : hasPlaceholder name.text = true
    · rw [if_neg (substituteInOrder_changed has substituted)] at made
      rw [if_pos has, made]
    · rw [substituteInOrder_plain (Bool.eq_false_iff.mpr has)] at substituted
      rw [if_pos (Option.some.inj substituted).symm] at made
      rw [if_neg has, made]

-- A name that is given the values of a scope is respelled by position.
theorem rename_positioned {declared : List Slot} (follows : scope.Follows setting.binding declared)
    (bound : scope.values setting.binding = .ok values)
    (made : (setting.rename scope name values).result = .ok edits)
    (has : hasPlaceholder name.text = true) :
    ∃ new, setting.binding.Positioned declared name.text new ∧ replace name new ∈ edits := by
  obtain ⟨new, substituted, rfl⟩ := rename_substitutes made
  exact ⟨new, follows.positioned bound substituted, by simp [has]⟩

end Setting

end Specializer
