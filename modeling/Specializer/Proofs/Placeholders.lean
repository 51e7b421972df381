import Mathlib.Data.List.Infix
import Specializer.Placeholder

set_option autoImplicit false

namespace Specializer

theorem hasPlaceholder_false {text : List Char} :
    hasPlaceholder text = false ↔ segments text = [] := by
  simp [hasPlaceholder]

theorem segmentCount_eq_zero {text : List Char} :
    segmentCount text = 0 ↔ hasPlaceholder text = false := by
  rw [hasPlaceholder_false, segmentCount, List.length_eq_zero_iff]

theorem segmentCount_pos {text : List Char} : 0 < segmentCount text ↔ hasPlaceholder text = true := by
  rw [Nat.pos_iff_ne_zero, ne_eq, segmentCount_eq_zero, Bool.not_eq_false]

theorem Slot.name_length (slot : Slot) : slot.name.toList.length = 5 := by
  cases slot <;> rfl

theorem pieces_name (slot : Slot) (rest : List Char) :
    pieces (slot.name.toList ++ rest) = .slot slot :: pieces rest := by
  cases slot <;> rfl

theorem pieces_cons (c : Char) (rest : List Char) :
    pieces (c :: rest) = .char c :: pieces rest ∨
      ∃ (slot : Slot) (behind : List Char), c :: rest = slot.name.toList ++ behind ∧
        pieces (c :: rest) = .slot slot :: pieces behind := by
  rw [pieces.eq_def]
  split
  next behind same => exact .inr ⟨.key, behind, same, rfl⟩
  next behind same => exact .inr ⟨.value, behind, same, rfl⟩
  next d more _ _ same =>
    cases same
    exact .inl rfl
  next same => cases same

theorem cut_induction {motive : List Char → Prop} (nil : motive [])
    (name : ∀ (slot : Slot) (rest : List Char), motive rest → motive (slot.name.toList ++ rest))
    (letter : ∀ (c : Char) (rest : List Char), pieces (c :: rest) = .char c :: pieces rest →
      motive rest → motive (c :: rest)) (text : List Char) : motive text := by
  induction size : text.length using Nat.strongRecOn generalizing text with
  | _ size ih =>
    subst size
    cases text with
    | nil => exact nil
    | cons c rest =>
      rcases pieces_cons c rest with own | ⟨slot, behind, split, -⟩
      · exact letter c rest own (ih rest.length (Nat.lt_succ_self _) rest rfl)
      · have shorter : behind.length < (c :: rest).length := by
          rw [split, List.length_append, slot.name_length]
          omega
        rw [split]
        exact name slot behind (ih behind.length shorter behind rfl)

theorem pieces_plain {text : List Char} (plain : hasPlaceholder text = false) :
    pieces text = text.map .char := by
  rw [hasPlaceholder_false, segments] at plain
  induction text using cut_induction with
  | nil => rfl
  | name slot rest _ => simp [pieces_name] at plain
  | letter c rest own ih =>
    rw [own] at plain ⊢
    rw [ih (by simpa using plain), List.map_cons]

theorem substituteInOrder_plain {text : List Char} (plain : hasPlaceholder text = false)
    (values : List SlotType) : substituteInOrder text values = some text := by
  rw [substituteInOrder, pieces_plain plain]
  clear plain
  induction text with
  | nil => rfl
  | cons c rest ih => rw [List.map_cons, fillInOrder, ih, Option.map_some]

def Piece.text : Piece → List Char
  | .char c => [c]
  | .slot s => s.name.toList

theorem pieces_text (text : List Char) : (pieces text).flatMap Piece.text = text := by
  induction text using cut_induction with
  | nil => rfl
  | name slot rest ih =>
    rw [pieces_name, List.flatMap_cons, ih]
    rfl
  | letter c rest own ih =>
    rw [own, List.flatMap_cons, ih]
    rfl

-- No name of a slot begins inside another.
theorem name_apart {slot other : Slot} {c : Char} {front rest behind : List Char}
    (same : c :: front ++ (slot.name.toList ++ rest) = other.name.toList ++ behind) :
    ∃ between, c :: front = other.name.toList ++ between := by
  rcases List.append_eq_append_iff.mp same with ⟨middle, name, overlap⟩ | ⟨middle, front, -⟩
  · cases middle with
    | nil => exact ⟨[], by rw [name]; simp⟩
    | cons d middle =>
      -- The first letter of a name occurs in none behind its first place.
      have first : d ∈ ['K', 'V'] := by
        cases slot <;> simp [Slot.name] at overlap <;> simp [← overlap.1]
      have later : d ∈ ['T', 'y', 'p', 'e'] := by
        have tail : other.name.toList.tail = front ++ d :: middle := by rw [name]; rfl
        have all : other.name.toList.tail = ['T', 'y', 'p', 'e'] := by cases other <;> rfl
        rw [← all, tail]
        simp
      simp only [List.mem_cons, List.not_mem_nil, or_false] at first later
      rcases first with rfl | rfl <;> simp at later
  · exact ⟨middle, front⟩

theorem pieces_around (front : List Char) (slot : Slot) (behind : List Char) :
    pieces (front ++ (slot.name.toList ++ behind)) = pieces front ++ .slot slot :: pieces behind := by
  -- By the pieces of what stands in front, which may hold names itself.
  induction front using cut_induction with
  | nil => exact pieces_name slot behind
  | name other rest ih => rw [List.append_assoc, pieces_name, pieces_name, ih, List.cons_append]
  | letter c front own ih =>
    rcases pieces_cons c (front ++ (slot.name.toList ++ behind)) with joined | ⟨other, after, same, -⟩
    · rw [List.cons_append, joined, own, ih, List.cons_append]
    · obtain ⟨between, split⟩ := name_apart same
      rw [split, pieces_name] at own
      cases own

theorem mem_segments_iff {text : List Char} {slot : Slot} :
    slot ∈ segments text ↔ slot.name.toList <:+: text := by
  constructor
  · intro member
    obtain ⟨piece, found, same⟩ := List.mem_filterMap.mp member
    cases piece with
    | char c => cases same
    | slot other =>
      cases same
      obtain ⟨front, rest, split⟩ := List.append_of_mem found
      refine ⟨front.flatMap Piece.text, rest.flatMap Piece.text, ?_⟩
      have whole := pieces_text text
      rw [split, List.flatMap_append, List.flatMap_cons] at whole
      rw [← whole, List.append_assoc]
      rfl
  · rintro ⟨front, rest, rfl⟩
    rw [List.append_assoc, segments, pieces_around, List.filterMap_append]
    exact List.mem_append_right _ List.mem_cons_self

theorem hasPlaceholder_iff {text : List Char} :
    hasPlaceholder text = true ↔ ∃ slot : Slot, slot.name.toList <:+: text := by
  have present : hasPlaceholder text = true ↔ segments text ≠ [] := by simp [hasPlaceholder]
  constructor
  · intro has
    obtain ⟨slot, member⟩ := List.exists_mem_of_ne_nil _ (present.mp has)
    exact ⟨slot, mem_segments_iff.mp member⟩
  · rintro ⟨slot, inside⟩
    exact present.mpr (List.ne_nil_of_mem (mem_segments_iff.mpr inside))

theorem plain_of_infix {part text : List Char} (inside : part <:+: text)
    (plain : hasPlaceholder text = false) : hasPlaceholder part = false := by
  by_contra has
  obtain ⟨slot, named⟩ := hasPlaceholder_iff.mp (eq_true_of_ne_false has)
  have whole : hasPlaceholder text = true := hasPlaceholder_iff.mpr ⟨slot, named.trans inside⟩
  rw [plain] at whole
  cases whole

theorem Slot.ofText?_some {text : List Char} {slot : Slot} (named : Slot.ofText? text = some slot) :
    text = slot.name.toList := by
  have same := List.find?_some named
  exact (eq_of_beq same).symm

theorem Slot.ofText?_plain {text : List Char} (plain : hasPlaceholder text = false) :
    Slot.ofText? text = none := by
  cases named : Slot.ofText? text with
  | none => rfl
  | some slot =>
    have has : hasPlaceholder text = true :=
      hasPlaceholder_iff.mpr ⟨slot, Slot.ofText?_some named ▸ List.infix_refl _⟩
    rw [plain] at has
    cases has

inductive Filled : List Piece → List Char → Prop
  | nil : Filled [] []
  | char (c : Char) {rest : List Piece} {text : List Char} (tail : Filled rest text) :
      Filled (.char c :: rest) (c :: text)
  | slot (s : Slot) (type : SlotType) {rest : List Piece} {text : List Char}
      (tail : Filled rest text) : Filled (.slot s :: rest) (type.capitalized.toList ++ text)

theorem fillInOrder_filled {parts : List Piece} {values : List SlotType} {new : List Char}
    (made : fillInOrder parts values = some new) : Filled parts new := by
  induction parts generalizing values new with
  | nil =>
    simp only [fillInOrder, Option.some.injEq] at made
    exact made ▸ .nil
  | cons piece rest ih =>
    cases piece with
    | char c =>
      simp only [fillInOrder, Option.map_eq_some_iff] at made
      obtain ⟨tail, later, rfl⟩ := made
      exact .char c (ih later)
    | slot s =>
      cases values with
      | nil => simp [fillInOrder] at made
      | cons value values =>
        simp only [fillInOrder, Option.map_eq_some_iff] at made
        obtain ⟨tail, later, rfl⟩ := made
        exact .slot s value (ih later)

theorem fillBySlot_filled {ε : Type} {value : Slot → Except ε SlotType} {parts : List Piece}
    {new : List Char} (made : fillBySlot value parts = .ok new) : Filled parts new := by
  induction parts generalizing new with
  | nil =>
    simp only [fillBySlot, Except.ok.injEq] at made
    exact made ▸ .nil
  | cons piece rest ih =>
    cases piece with
    | char c =>
      cases later : fillBySlot value rest with
      | error fault => simp [fillBySlot, later, Except.map] at made
      | ok tail =>
        simp only [fillBySlot, later, Except.map, Except.ok.injEq] at made
        exact made ▸ .char c (ih later)
    | slot s =>
      cases got : value s with
      | error fault => simp [fillBySlot, got, bind, Except.bind] at made
      | ok type =>
        cases later : fillBySlot value rest with
        | error fault => simp [fillBySlot, got, later, bind, Except.bind] at made
        | ok tail =>
          simp only [fillBySlot, got, later, bind, Except.bind, pure, Except.pure,
            Except.ok.injEq] at made
          exact made ▸ .slot s type (ih later)

theorem pieces_cons_char {c : Char} {text : List Char} {parts : List Piece}
    (cut : pieces text = .char c :: parts) : ∃ rest, text = c :: rest ∧ parts = pieces rest := by
  cases text with
  | nil => cases cut
  | cons d rest =>
    rcases pieces_cons d rest with own | ⟨slot, behind, -, own⟩
    · rw [own] at cut
      cases cut
      exact ⟨rest, rfl, rfl⟩
    · rw [own] at cut
      cases cut

-- No letter of a placeholder after its first begins a type, and no type has the first.
theorem capitalized_head (type : SlotType) :
    ∃ c rest, type.capitalized.toList = c :: rest ∧ c ∉ ['T', 'y', 'p', 'e'] := by
  cases type <;> exact ⟨_, _, rfl, by decide⟩

theorem capitalized_plain (type : SlotType) : ∀ c ∈ type.capitalized.toList, c ≠ 'K' ∧ c ≠ 'V' := by
  have all : type.capitalized.toList.all (fun c => c != 'K' && c != 'V') = true := by
    cases type <;> decide
  simpa using all

-- Letters that begin no type come from the text itself.
theorem Filled.letters {letters text new : List Char} (filled : Filled (pieces text) new)
    (plain : ∀ c ∈ letters, c ∈ ['T', 'y', 'p', 'e']) (starts : letters <+: new) :
    letters <+: text := by
  induction letters generalizing text new with
  | nil => exact List.nil_prefix
  | cons letter letters ih =>
    generalize cut : pieces text = parts at filled
    cases filled with
    | nil => simp at starts
    | char c tail =>
      obtain ⟨rest, rfl, rfl⟩ := pieces_cons_char cut
      rw [List.cons_prefix_cons] at starts ⊢
      exact ⟨starts.1, ih tail (fun c member => plain c (List.mem_cons_of_mem _ member)) starts.2⟩
    | slot s type tail =>
      obtain ⟨c, rest, capitalized, other⟩ := capitalized_head type
      rw [capitalized, List.cons_append, List.cons_prefix_cons] at starts
      exact absurd (starts.1 ▸ plain letter List.mem_cons_self) other

theorem hasPlaceholder_cons {c : Char} (key : c ≠ 'K') (value : c ≠ 'V') (text : List Char) :
    hasPlaceholder (c :: text) = hasPlaceholder text := by
  rcases pieces_cons c text with own | ⟨slot, behind, same, -⟩
  · simp [hasPlaceholder, segments, own]
  · cases slot with
    | key => exact absurd (List.cons.inj same).1 key
    | value => exact absurd (List.cons.inj same).1 value

theorem hasPlaceholder_plain_append {front : List Char} (plain : ∀ c ∈ front, c ≠ 'K' ∧ c ≠ 'V')
    (text : List Char) : hasPlaceholder (front ++ text) = hasPlaceholder text := by
  induction front with
  | nil => rfl
  | cons c front ih =>
    obtain ⟨key, value⟩ := plain c List.mem_cons_self
    rw [List.cons_append, hasPlaceholder_cons key value,
      ih fun c member => plain c (List.mem_cons_of_mem _ member)]

theorem Filled.plain {text new : List Char} (filled : Filled (pieces text) new) :
    hasPlaceholder new = false := by
  induction text using cut_induction generalizing new with
  | nil =>
    change Filled [] new at filled
    cases filled
    rfl
  | name slot rest ih =>
    rw [pieces_name] at filled
    cases filled with
    | slot s type tail => rw [hasPlaceholder_plain_append (capitalized_plain type), ih tail]
  | letter c rest own ih =>
    rw [own] at filled
    cases filled with
    | @char _ _ tail filled =>
      by_contra has
      obtain ⟨slot, named⟩ := hasPlaceholder_iff.mp (eq_true_of_ne_false has)
      rcases List.infix_cons_iff.mp named with starts | later
      · -- The rest of the name would have stood behind `c` in the text already.
        obtain ⟨first, name⟩ : ∃ first, slot.name.toList = first :: ['T', 'y', 'p', 'e'] := by
          cases slot <;> exact ⟨_, rfl⟩
        rw [name, List.cons_prefix_cons] at starts
        obtain ⟨more, rfl⟩ := filled.letters (fun _ => id) starts.2
        have cut := pieces_name slot more
        rw [name, starts.1, List.cons_append, own] at cut
        cases cut
      · have inside : hasPlaceholder tail = true := hasPlaceholder_iff.mpr ⟨slot, later⟩
        rw [ih filled] at inside
        cases inside

theorem substituteInOrder_changed {text new : List Char} {values : List SlotType}
    (has : hasPlaceholder text = true) (made : substituteInOrder text values = some new) :
    new ≠ text := by
  rintro rfl
  rw [(fillInOrder_filled made).plain] at has
  cases has

theorem fillInOrder_isSome (parts : List Piece) (values : List SlotType) :
    (fillInOrder parts values).isSome =
      decide ((parts.filterMap fun | .slot s => some s | .char _ => none).length ≤ values.length) := by
  induction parts generalizing values with
  | nil => simp [fillInOrder]
  | cons piece rest ih =>
    cases piece with
    | char c => simp [fillInOrder, ih]
    | slot s => cases values <;> simp [fillInOrder, ih]

theorem substituteInOrder_isSome (text : List Char) (values : List SlotType) :
    (substituteInOrder text values).isSome = decide (segmentCount text ≤ values.length) :=
  fillInOrder_isSome (pieces text) values

end Specializer
