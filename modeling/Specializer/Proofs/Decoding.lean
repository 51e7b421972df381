import Specializer.Proofs.Placeholders

set_option autoImplicit false

namespace Specializer

theorem SlotType.mem_all (type : SlotType) : type ∈ SlotType.all := by cases type <;> decide

theorem capitalized_starts {first second : SlotType}
    (starts : first.capitalized.toList <+: second.capitalized.toList) : first = second := by
  have apart : (SlotType.all.all fun a => SlotType.all.all fun b =>
      !a.capitalized.toList.isPrefixOf b.capitalized.toList || a == b) = true := by decide
  simp only [List.all_eq_true] at apart
  have here := apart first first.mem_all second second.mem_all
  simpa [List.isPrefixOf_iff_prefix.mpr starts] using here

theorem capitalized_append {first second : SlotType} {text other : List Char}
    (same : first.capitalized.toList ++ text = second.capitalized.toList ++ other) :
    first = second ∧ text = other := by
  have types : first = second := by
    have ours : first.capitalized.toList <+: second.capitalized.toList ++ other :=
      same ▸ List.prefix_append _ _
    rcases List.prefix_or_prefix_of_prefix ours (List.prefix_append _ _) with starts | starts
    next => exact capitalized_starts starts
    next => exact (capitalized_starts starts).symm
  subst types
  exact ⟨rfl, List.append_cancel_left same⟩

def slotsIn (parts : List Piece) : Nat :=
  (parts.filterMap fun | .slot s => some s | .char _ => none).length

theorem Filled.length {parts : List Piece} {new : List Char} (filled : Filled parts new) :
    2 * slotsIn parts ≤ new.length := by
  induction filled with
  | nil => simp [slotsIn]
  | @char c rest text tail ih =>
    change 2 * slotsIn rest ≤ text.length + 1
    omega
  | @slot s type rest text tail ih =>
    have long : 2 ≤ type.capitalized.toList.length := by cases type <;> decide
    change 2 * (slotsIn rest + 1) ≤ _
    rw [List.length_append]
    omega

theorem fillInOrder_take (parts : List Piece) (values : List SlotType) :
    fillInOrder parts (values.take (slotsIn parts)) = fillInOrder parts values := by
  induction parts generalizing values with
  | nil => rfl
  | cons piece rest ih =>
    cases piece with
    | char c =>
      change (fillInOrder rest (values.take (slotsIn rest))).map (c :: ·) = _
      rw [ih, fillInOrder]
    | slot s =>
      cases values with
      | nil => rfl
      | cons value values =>
        change (fillInOrder rest (values.take (slotsIn rest))).map _ = _
        rw [ih, fillInOrder]

theorem fillInOrder_injective {parts : List Piece} {first second : List SlotType}
    {text : List Char} (one : fillInOrder parts first = some text)
    (other : fillInOrder parts second = some text) :
    first.take (slotsIn parts) = second.take (slotsIn parts) := by
  induction parts generalizing first second text with
  | nil => simp [slotsIn]
  | cons piece rest ih =>
    cases piece with
    | char c =>
      simp only [fillInOrder, Option.map_eq_some_iff] at one other
      obtain ⟨tail, ofFirst, rfl⟩ := one
      obtain ⟨again, ofSecond, same⟩ := other
      cases same
      exact ih ofFirst ofSecond
    | slot s =>
      cases first with
      | nil => cases one
      | cons value first =>
        cases second with
        | nil => cases other
        | cons type second =>
          simp only [fillInOrder, Option.map_eq_some_iff] at one other
          obtain ⟨tail, ofFirst, rfl⟩ := one
          obtain ⟨again, ofSecond, same⟩ := other
          obtain ⟨rfl, rfl⟩ := capitalized_append same
          exact congrArg (type :: ·) (ih ofFirst ofSecond)

theorem substituteInOrder_eq_iff {text new other : List Char} {first second : List SlotType}
    (one : substituteInOrder text first = some new)
    (two : substituteInOrder text second = some other) :
    new = other ↔ first.take (segmentCount text) = second.take (segmentCount text) := by
  constructor
  next =>
    rintro rfl
    exact fillInOrder_injective one two
  next =>
    intro same
    have count : slotsIn (pieces text) = segmentCount text := rfl
    rw [substituteInOrder, ← fillInOrder_take, count] at one two
    rw [same, two] at one
    exact (Option.some.inj one).symm

end Specializer
