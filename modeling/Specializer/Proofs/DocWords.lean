import Mathlib.Data.List.SplitBy
import Specializer.DocText
import Specializer.Proofs.Outcomes
import Specializer.Proofs.Placeholders

set_option autoImplicit false

namespace Specializer

namespace Filled

theorem all {test : Char → Bool} (types : ∀ type : SlotType, ∀ c ∈ type.capitalized.toList, test c)
    {text new : List Char} (filled : Filled (pieces text) new) (passes : ∀ c ∈ text, test c) :
    ∀ c ∈ new, test c := by
  induction text using cut_induction generalizing new with
  | nil =>
    change Filled [] new at filled
    cases filled
    exact passes
  | name slot rest ih =>
    rw [pieces_name] at filled
    cases filled with
    | slot s type tail =>
      intro c member
      rcases List.mem_append.mp member with inside | behind
      · exact types type c inside
      · exact ih tail (fun c member => passes c (List.mem_append_right _ member)) c behind
  | letter first rest own ih =>
    rw [own] at filled
    cases filled with
    | char _ tail =>
      intro c member
      rcases List.mem_cons.mp member with rfl | behind
      · exact passes c List.mem_cons_self
      · exact ih tail (fun c member => passes c (List.mem_cons_of_mem _ member)) c behind

theorem ne_nil {text new : List Char} (filled : Filled (pieces text) new) (present : text ≠ []) :
    new ≠ [] := by
  generalize cut : pieces text = parts at filled
  cases filled with
  | nil => exact absurd (by simpa [cut] using (pieces_text text).symm) present
  | char c tail => exact List.cons_ne_nil _ _
  | slot s type tail =>
    obtain ⟨c, rest, capitalized, -⟩ := capitalized_head type
    simp [capitalized]

end Filled

namespace DocText

variable {binding : Binding} {values : Option (List SlotType)}

theorem plural_ident (type : SlotType) : type.plural.toList ≠ [] ∧
    ∀ c ∈ type.plural.toList, isIdentPart c = true ∧ c ≠ 'K' ∧ c ≠ 'V' := by
  have all : type.plural.toList.all (fun c => isIdentPart c && (c != 'K' && c != 'V')) = true := by
    cases type <;> decide
  exact ⟨by cases type <;> decide, by simpa using all⟩

theorem spelling_ident (type : SlotType) : type.spelling.toList ≠ [] ∧
    ∀ c ∈ type.spelling.toList, isIdentPart c = true ∧ c ≠ 'K' ∧ c ≠ 'V' := by
  have all : type.spelling.toList.all (fun c => isIdentPart c && (c != 'K' && c != 'V')) = true := by
    cases type <;> decide
  exact ⟨by cases type <;> decide, by simpa using all⟩

theorem capitalized_ident (type : SlotType) :
    ∀ c ∈ type.capitalized.toList, isIdentPart c = true := by
  have all : type.capitalized.toList.all isIdentPart = true := by cases type <;> decide
  exact List.all_eq_true.mp all

theorem plain_of_letters {text : List Char} (plain : ∀ c ∈ text, c ≠ 'K' ∧ c ≠ 'V') :
    hasPlaceholder text = false := by
  have all := hasPlaceholder_plain_append plain []
  rwa [List.append_nil] at all

theorem plural?_some {word : List Char} {slot : Slot} (named : plural? word = some slot) :
    Slot.ofText? word = none := by
  have same := List.find?_some named
  rw [← eq_of_beq same]
  cases slot <;> decide

theorem fillWord_ok {word new : List Char} (present : word ≠ [])
    (ident : ∀ c ∈ word, isIdentPart c = true) (made : fillWord binding values word = .ok new) :
    (new ≠ [] ∧ ∀ c ∈ new, isIdentPart c = true) ∧
      ((∃ slot, Slot.ofText? word = some slot ∧ binding.get? slot = some .generic ∧ new = word) ∨
        (∀ slot, Slot.ofText? word = some slot → binding.get? slot ≠ some .generic) ∧
          hasPlaceholder new = false) := by
  have given (other : Slot.ofText? word = none) (filled : Filled (pieces word) new) :
      (new ≠ [] ∧ ∀ c ∈ new, isIdentPart c = true) ∧
        ((∃ slot, Slot.ofText? word = some slot ∧ binding.get? slot = some .generic ∧ new = word) ∨
          (∀ slot, Slot.ofText? word = some slot → binding.get? slot ≠ some .generic) ∧
            hasPlaceholder new = false) :=
    ⟨⟨filled.ne_nil present, filled.all capitalized_ident ident⟩,
      .inr ⟨by simp [other], filled.plain⟩⟩
  -- A plural, a placeholder alone, or a word around placeholders.
  rw [fillWord.eq_def] at made
  split at made
  next slot named =>
    simp only [bind_eq_ok, pure_eq_ok] at made
    obtain ⟨type, -, rfl⟩ := made
    obtain ⟨nonempty, letters⟩ := plural_ident type
    refine ⟨⟨nonempty, fun c member => (letters c member).1⟩, .inr ⟨?_, ?_⟩⟩
    · simp [plural?_some named]
    · exact plain_of_letters fun c member => (letters c member).2
  next =>
    split at made
    next slot named =>
      simp only [bind_eq_ok, pure_eq_ok] at made
      obtain ⟨type, bound, rfl⟩ := made
      have got : binding.get? slot = some type := by
        rw [Binding.get] at bound
        split at bound <;> simp_all
      by_cases generic : type = .generic
      · subst generic
        exact ⟨⟨present, ident⟩, .inl ⟨slot, named, got, rfl⟩⟩
      · have primitive : type.isGeneric = false := by cases type <;> simp_all [SlotType.isGeneric]
        obtain ⟨nonempty, letters⟩ := spelling_ident type
        simp only [primitive, Bool.false_eq_true, if_false]
        refine ⟨⟨nonempty, fun c member => (letters c member).1⟩, .inr ⟨?_, ?_⟩⟩
        · intro other same
          rw [named] at same
          cases same
          simp [got, generic]
        · exact plain_of_letters fun c member => (letters c member).2
    next other =>
      split at made
      next => exact given other (fillBySlot_filled made)
      next =>
        split at made
        next => exact given other (fillBySlot_filled made)
        next =>
          split at made
          next new' filled =>
            rw [pure_eq_ok] at made
            subst made
            exact given other (fillInOrder_filled filled)
          next => exact given other (fillBySlot_filled made)

def Kin (run new : List Char) : Prop :=
  new ≠ [] ∧ ∃ word : Bool, (∀ c ∈ run, isIdentPart c = word) ∧ ∀ c ∈ new, isIdentPart c = word

theorem run_class {text run : List Char} (member : run ∈ runs text) :
    run ≠ [] ∧ ∃ word : Bool, ∀ c ∈ run, isIdentPart c = word := by
  have nonempty : run ≠ [] := List.ne_nil_of_mem_splitBy member
  refine ⟨nonempty, isIdentPart (run.head nonempty), ?_⟩
  have chain : run.IsChain fun a b => isIdentPart a = isIdentPart b :=
    (List.isChain_of_mem_splitBy member).imp fun a b same => by simpa using same
  cases run with
  | nil => exact absurd rfl nonempty
  | cons first rest =>
    intro c member
    rcases List.mem_cons.mp member with rfl | behind
    · rfl
    · exact ((List.pairwise_cons.mp (List.isChain_iff_pairwise.mp chain)).1 c behind).symm

-- A run with a placeholder holds a letter of its name, so it is a word.
theorem run_word {text run : List Char} (member : run ∈ runs text)
    (has : hasPlaceholder run = true) : ∀ c ∈ run, isIdentPart c = true := by
  obtain ⟨-, word, same⟩ := run_class member
  obtain ⟨slot, front, rest, rfl⟩ := hasPlaceholder_iff.mp has
  have letter : isIdentPart 'T' = word := same 'T' (by cases slot <;> simp [Slot.name])
  intro c inside
  rw [same c inside, ← letter]
  decide

theorem fillRun_ok {text run new : List Char} (member : run ∈ runs text)
    (made : fillRun binding values run = .ok new) :
    Kin run new ∧ (new = run ↔ hasPlaceholder run = true →
      ∃ slot, Slot.ofText? run = some slot ∧ binding.get? slot = some .generic) := by
  obtain ⟨present, word, same⟩ := run_class member
  rw [fillRun] at made
  split at made
  next has =>
    have ident := run_word member has
    obtain ⟨⟨nonempty, letters⟩, outcome⟩ := fillWord_ok present ident made
    refine ⟨⟨nonempty, true, ident, letters⟩, ?_⟩
    rcases outcome with ⟨slot, named, generic, rfl⟩ | ⟨other, plain⟩
    · exact ⟨fun _ _ => ⟨slot, named, generic⟩, fun _ => rfl⟩
    · constructor
      · rintro rfl
        rw [plain] at has
        cases has
      · intro bare
        obtain ⟨slot, named, generic⟩ := bare has
        exact absurd generic (other slot named)
  next plain =>
    rw [pure_eq_ok] at made
    subst made
    exact ⟨⟨present, word, same, same⟩, fun _ has => absurd has plain, fun _ => rfl⟩

theorem chain_of_kin {parts filled : List (List Char)} (kin : List.Forall₂ Kin parts filled)
    (present : [] ∉ parts) (chain : parts.IsChain fun a b =>
      ∃ ha hb, (isIdentPart (a.getLast ha) == isIdentPart (b.head hb)) = false) :
    filled.IsChain fun a b =>
      ∃ ha hb, (isIdentPart (a.getLast ha) == isIdentPart (b.head hb)) = false := by
  induction kin with
  | nil => exact .nil
  | @cons run new parts filled first rest ih =>
    cases rest with
    | nil => exact List.isChain_singleton _
    | @cons run' new' parts filled second rest =>
      obtain ⟨⟨ha, hb, apart⟩, later⟩ := List.isChain_cons_cons.mp chain
      refine List.isChain_cons_cons.mpr ⟨?_, ih (fun member => present (by simp_all)) later⟩
      obtain ⟨nonempty, word, ofRun, ofNew⟩ := first
      obtain ⟨nonempty', word', ofRun', ofNew'⟩ := second
      refine ⟨nonempty, nonempty', ?_⟩
      rw [ofNew _ (List.getLast_mem _), ofNew' _ (List.head_mem _)]
      rwa [ofRun _ (List.getLast_mem _), ofRun' _ (List.head_mem _)] at apart

theorem kin_of_mem {parts filled : List (List Char)} (kin : List.Forall₂ Kin parts filled)
    {new : List Char} (member : new ∈ filled) : ∃ run, Kin run new := by
  induction kin with
  | nil => cases member
  | cons first _ ih =>
    rcases List.mem_cons.mp member with rfl | later
    · exact ⟨_, first⟩
    · exact ih later

theorem runs_filled {text : List Char} {filled : List (List Char)}
    (kin : List.Forall₂ Kin (runs text) filled) : runs filled.flatten = filled := by
  refine List.splitBy_flatten ?_ ?_ ?_
  · intro empty
    obtain ⟨run, nonempty, -⟩ := kin_of_mem kin empty
    exact nonempty rfl
  · intro new member
    obtain ⟨run, -, word, -, same⟩ := kin_of_mem kin member
    refine List.Pairwise.isChain (List.Pairwise.imp_of_mem ?_ (List.pairwise_of_forall fun _ _ => trivial))
    intro a b first second _
    simp [same a first, same b second]
  · exact chain_of_kin kin (List.nil_notMem_splitBy _ _)
      (List.isChain_getLast_head_splitBy (fun a b => isIdentPart a == isIdentPart b) text)

-- A comment stays as it is exactly if its only words with placeholders are bare ones of generic
-- slots.
theorem fill_same {text new : List Char} (made : fill binding values text = .ok new) :
    new = text ↔ ∀ run ∈ runs text, hasPlaceholder run = true →
      ∃ slot, Slot.ofText? run = some slot ∧ binding.get? slot = some .generic := by
  simp only [fill, bind_eq_ok, pure_eq_ok] at made
  obtain ⟨parts, filled, rfl⟩ := made
  have each := (List.forall₂_and_left (runs text) _).mpr ⟨fun run member => member, mapM_eq_ok filled⟩
  have kin : List.Forall₂ Kin (runs text) parts := each.imp fun run new both =>
    (fillRun_ok both.1 both.2).1
  have whole : (runs text).flatten = text := List.flatten_splitBy _ _
  have same : parts.flatten = text ↔ parts = runs text := by
    constructor
    · intro same
      rw [← runs_filled kin, same]
    · rintro rfl
      exact whole
  have marks : List.Forall₂ (fun run new => new = run ↔ hasPlaceholder run = true →
      ∃ slot, Slot.ofText? run = some slot ∧ binding.get? slot = some .generic) (runs text) parts :=
    each.imp fun run new both => (fillRun_ok both.1 both.2).2
  rw [same]
  clear each kin whole same filled
  generalize runs text = cut at marks ⊢
  induction marks with
  | nil => simp
  | cons first _ ih => simp only [List.cons.injEq, List.forall_mem_cons, ih, first]

end DocText

end Specializer
