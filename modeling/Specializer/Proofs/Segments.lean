import Specializer.Proofs.Decoding

set_option autoImplicit false

namespace Specializer

section Cutting

def Slot.inFront? (text : List Char) : Option Slot :=
  Slot.all.find? fun slot => slot.name.toList.isPrefixOf text

theorem Slot.inFront?_eq_some {text : List Char} {slot : Slot} :
    Slot.inFront? text = some slot ↔ slot.name.toList <+: text := by
  constructor
  next =>
    intro found
    have starts := @List.find?_some _ (fun slot : Slot => slot.name.toList.isPrefixOf text) _ _ found
    exact List.isPrefixOf_iff_prefix.mp starts
  next =>
    rintro ⟨rest, rfl⟩
    cases slot <;> simp [inFront?, Slot.all, Slot.name]

theorem tails_name (slot : Slot) (rest : List Char) :
    (slot.name.toList ++ rest).tails.filterMap Slot.inFront? =
      slot :: rest.tails.filterMap Slot.inFront? := by
  cases slot <;> rfl

-- Names do not hide each other: wherever the name of a slot stands, there is a segment.
theorem segments_tails (text : List Char) : segments text = text.tails.filterMap Slot.inFront? := by
  rw [segments]
  induction text using cut_induction with
  | nil => rfl
  | name slot rest ih =>
    rw [pieces_name]
    exact (congrArg (slot :: ·) ih).trans (tails_name slot rest).symm
  | letter c rest own ih =>
    have none : Slot.inFront? (c :: rest) = none := by
      refine Option.eq_none_iff_forall_ne_some.mpr fun slot found => ?_
      obtain ⟨behind, same⟩ := Slot.inFront?_eq_some.mp found
      rw [← same, pieces_name] at own
      cases own
    rw [own, List.filterMap_cons_none rfl, ih, List.tails_cons, List.filterMap_cons_none none]

end Cutting

section Filling

theorem fillInOrder_respelled (front : List Piece) (slot other : Slot) (behind : List Piece)
    (values : List SlotType) :
    fillInOrder (front ++ .slot other :: behind) values =
      fillInOrder (front ++ .slot slot :: behind) values := by
  induction front generalizing values with
  | nil => cases values <;> rfl
  | cons piece front ih =>
    cases piece with
    | char c => rw [List.cons_append, List.cons_append, fillInOrder, fillInOrder, ih]
    | slot own =>
      cases values with
      | nil => rfl
      | cons value values => rw [List.cons_append, List.cons_append, fillInOrder, fillInOrder, ih]

theorem substituteInOrder_respelled (front : List Char) (slot other : Slot) (behind : List Char)
    (values : List SlotType) :
    substituteInOrder (front ++ other.name.toList ++ behind) values =
      substituteInOrder (front ++ slot.name.toList ++ behind) values := by
  rw [substituteInOrder, substituteInOrder, List.append_assoc, List.append_assoc, pieces_around, pieces_around]
  exact fillInOrder_respelled (pieces front) slot other (pieces behind) values

theorem substituteInOrder_eq_none {text : List Char} {values : List SlotType} :
    substituteInOrder text values = none ↔ values.length < segmentCount text := by
  rw [← Option.isNone_iff_eq_none, ← Option.not_isSome, substituteInOrder_isSome]
  simp

-- What is put in can be read back, and nothing but the values that are used makes a difference.
theorem substituteInOrder_eq_some {text new : List Char} {values others : List SlotType}
    (made : substituteInOrder text values = some new) :
    substituteInOrder text others = some new ↔
      others.take (segmentCount text) = values.take (segmentCount text) := by
  constructor
  next =>
    intro again
    exact (substituteInOrder_eq_iff again made).mp rfl
  next =>
    intro same
    have count : slotsIn (pieces text) = segmentCount text := rfl
    rw [substituteInOrder, ← fillInOrder_take, count] at made ⊢
    rw [same, made]

theorem substituteInOrder_nameless {text new : List Char} {values : List SlotType}
    (made : substituteInOrder text values = some new) (slot : Slot) : ¬ slot.name.toList <:+: new := by
  intro inside
  have plain := (fillInOrder_filled made).plain
  rw [hasPlaceholder_iff.mpr ⟨slot, inside⟩] at plain
  cases plain

end Filling

/-- The segments of a text are the names of slots in it, each place where one stands counted. Putting values in
for them fails exactly if there are too few; what comes out has no name of a slot in it, not even one formed with
what stands beside a value. It depends on the values that are used, differs whenever they do, and stays the same
if a segment spells another slot. -/
theorem substituteInOrder_segments (text : List Char) (values : List SlotType) :
    segments text = text.tails.filterMap Slot.inFront? ∧
    (∀ slot : Slot, slot ∈ segments text ↔ slot.name.toList <:+: text) ∧
    (substituteInOrder text values = none ↔ values.length < segmentCount text) ∧
    (∀ (front : List Char) (slot other : Slot) (behind : List Char),
      text = front ++ slot.name.toList ++ behind →
        substituteInOrder (front ++ other.name.toList ++ behind) values = substituteInOrder text values) ∧
    ∀ new, substituteInOrder text values = some new →
      (∀ slot : Slot, ¬ slot.name.toList <:+: new) ∧
      ∀ others, substituteInOrder text others = some new ↔
        others.take (segmentCount text) = values.take (segmentCount text) := by
  refine ⟨segments_tails text, fun slot => mem_segments_iff, substituteInOrder_eq_none, ?_, ?_⟩
  next =>
    rintro front slot other behind rfl
    exact substituteInOrder_respelled front slot other behind values
  next =>
    intro new made
    exact ⟨substituteInOrder_nameless made, fun others => substituteInOrder_eq_some made⟩

-- A segment between letters of another name, which stay apart when a type is put in.
theorem substituteInOrder_segments_between :
    ∃ text new, text = "KKTypeTypeVTypeMap".toList ∧ new = "KIntTypeLongMap".toList ∧
      text.tails.filterMap Slot.inFront? = [.key, .value] ∧ substituteInOrder text [.int] = none ∧
      substituteInOrder text [.int, .long] = some new ∧ (∀ slot : Slot, ¬ slot.name.toList <:+: new) ∧
      substituteInOrder "KVTypeTypeVTypeMap".toList [.int, .long] = some new ∧
      substituteInOrder text [.int, .long, .byte] = some new ∧
      substituteInOrder text [.long, .int] ≠ some new := by
  refine ⟨_, _, rfl, rfl, ?_⟩
  have made : substituteInOrder "KKTypeTypeVTypeMap".toList [.int, .long] =
      some "KIntTypeLongMap".toList := by rfl
  obtain ⟨-, -, short, -⟩ := substituteInOrder_segments "KKTypeTypeVTypeMap".toList [.int]
  obtain ⟨places, -, -, respelled, filled⟩ :=
    substituteInOrder_segments "KKTypeTypeVTypeMap".toList [.int, .long]
  obtain ⟨plain, readBack⟩ := filled _ made
  refine ⟨places.symm, short.mpr (by decide), made, plain, ?_, (readBack _).mpr rfl, ?_⟩
  · exact (respelled ['K'] .key .value "TypeVTypeMap".toList rfl).trans made
  · rw [ne_eq, readBack]
    decide

end Specializer
