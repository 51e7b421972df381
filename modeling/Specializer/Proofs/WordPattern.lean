import Specializer.Proofs.DocWords
import Specializer.Token.Lexer

set_option autoImplicit false

namespace Specializer

namespace DocText

open Lexer (runLength)

def namesSlot (text : List Char) : Bool := Slot.all.any fun slot => slot.name.toList.isPrefixOf text

/-- How much the pattern matches at the front of a text. It goes over characters of a word as far as it can,
and comes back to where the name of a slot stands; behind that, it goes as far as it can again. -/
def matchLength? : List Char → Option Nat
  | [] => none
  | c :: rest =>
    (if isIdentPart c then (matchLength? rest).map (· + 1) else none).or
      (if namesSlot (c :: rest) then some (5 + runLength isIdentPart ((c :: rest).drop 5)) else none)

/-- The text with each match of the pattern replaced, from left to right. The first `skip` characters belong
to the match before. -/
def replaceMatches (replace : List Char → Except Fault (List Char)) :
    (skip : Nat) → List Char → Except Fault (List Char)
  | _, [] => pure []
  | skip + 1, _ :: rest => replaceMatches replace skip rest
  | 0, c :: rest =>
    match matchLength? (c :: rest) with
    | some length => do
      let new ← replace ((c :: rest).take length)
      let more ← replaceMatches replace (length - 1) rest
      pure (new ++ more)
    | none => do
      let more ← replaceMatches replace 0 rest
      pure (c :: more)

/-- The parts are the maximal runs of a text, of characters of a word and of others. -/
structure Cut (text : List Char) (parts : List (List Char)) : Prop where
  whole : parts.flatten = text
  present : ∀ part ∈ parts, part ≠ []
  uniform : ∀ part ∈ parts, ∃ word : Bool, ∀ c ∈ part, isIdentPart c = word
  maximal : parts.IsChain fun first second => ∀ c ∈ first.getLast?, ∀ d ∈ second.head?,
    isIdentPart c ≠ isIdentPart d

/-- What becomes of a run. One without a placeholder stays, and so does a bare placeholder of a generic slot;
any other gives way to a word without a placeholder. -/
structure FillsRun (binding : Binding) (values : Option (List SlotType)) (run new : List Char) : Prop where
  plain : hasPlaceholder run = false → new = run
  word : hasPlaceholder run = true → (∀ c ∈ run, isIdentPart c = true) ∧ new ≠ [] ∧
    (∀ c ∈ new, isIdentPart c = true) ∧ fillWord binding values run = .ok new
  bare : ∀ slot, run = slot.name.toList → binding.get? slot = some .generic → new = run
  changed : hasPlaceholder run = true →
    (∀ slot, run = slot.name.toList → binding.get? slot ≠ some .generic) →
      new ≠ run ∧ hasPlaceholder new = false

section Matches

variable {run behind text : List Char}

theorem namesSlot_iff : namesSlot text = true ↔ ∃ slot : Slot, slot.name.toList <+: text := by
  simp only [namesSlot, List.any_eq_true, List.isPrefixOf_iff_prefix]
  constructor
  · rintro ⟨slot, -, starts⟩
    exact ⟨slot, starts⟩
  · rintro ⟨slot, starts⟩
    exact ⟨slot, by cases slot <;> decide, starts⟩

theorem name_ident (slot : Slot) : ∀ c ∈ slot.name.toList, isIdentPart c = true := by
  apply List.all_eq_true.mp
  cases slot <;> decide

theorem name_present (slot : Slot) : slot.name.toList ≠ [] := by
  cases slot <;> decide

theorem prefix_run {letters : List Char} (ident : ∀ c ∈ letters, isIdentPart c = true)
    (ends : ∀ c, behind.head? = some c → isIdentPart c = false) :
    letters <+: run ++ behind ↔ letters <+: run := by
  constructor
  · rintro ⟨more, same⟩
    rcases List.append_eq_append_iff.mp same with ⟨tail, rfl, -⟩ | ⟨tail, rfl, left⟩
    · exact List.prefix_append _ _
    · cases tail with
      | nil => simp
      | cons c tail =>
        have other := ends c (by rw [left]; rfl)
        rw [ident c (by simp)] at other
        cases other
  · exact fun starts => starts.trans (List.prefix_append _ _)

theorem infix_run {letters : List Char} (ident : ∀ c ∈ letters, isIdentPart c = true)
    (ends : ∀ c, behind.head? = some c → isIdentPart c = false) (inside : letters <:+: run ++ behind) :
    letters <:+: run ∨ letters <:+: behind := by
  induction run with
  | nil => exact .inr inside
  | cons c run ih =>
    rcases List.infix_cons_iff.mp inside with starts | later
    · exact .inl ((@prefix_run (c :: run) _ _ ident ends).mp starts).isInfix
    · exact (ih later).imp_left List.infix_cons

theorem infix_other {letters : List Char} (present : letters ≠ [])
    (ident : ∀ c ∈ letters, isIdentPart c = true) (other : ∀ c ∈ run, isIdentPart c = false)
    (inside : letters <:+: run ++ behind) : letters <:+: behind := by
  induction run with
  | nil => exact inside
  | cons c run ih =>
    rcases List.infix_cons_iff.mp inside with starts | later
    · obtain ⟨d, letters, rfl⟩ := List.exists_cons_of_ne_nil present
      obtain ⟨rfl, -⟩ := List.cons_prefix_cons.mp starts
      have word := ident d List.mem_cons_self
      rw [other d List.mem_cons_self] at word
      cases word
    · exact ih (fun d member => other d (List.mem_cons_of_mem _ member)) later

theorem runLength_run (ident : ∀ c ∈ run, isIdentPart c = true)
    (ends : ∀ c, behind.head? = some c → isIdentPart c = false) :
    runLength isIdentPart (run ++ behind) = run.length := by
  induction run with
  | nil =>
    cases behind with
    | nil => rfl
    | cons c behind => simp [runLength, ends c rfl]
  | cons c run ih =>
    have rest := ih fun d member => ident d (List.mem_cons_of_mem _ member)
    simp only [runLength] at rest ⊢
    rw [List.cons_append, List.takeWhile_cons_of_pos (ident c List.mem_cons_self), List.length_cons, rest,
      List.length_cons]

-- A match goes over a whole run, and there is one exactly if the run holds the name of a slot.
theorem matchLength?_run (ident : ∀ c ∈ run, isIdentPart c = true)
    (ends : ∀ c, behind.head? = some c → isIdentPart c = false) :
    matchLength? (run ++ behind) = if hasPlaceholder run then some run.length else none := by
  -- By the run: the name of a slot stands further on in it, or it has to begin right here.
  induction run with
  | nil =>
    cases behind with
    | nil => rfl
    | cons c behind =>
      have unnamed : namesSlot (c :: behind) = false := by
        rw [Bool.eq_false_iff]
        intro named
        obtain ⟨slot, starts⟩ := namesSlot_iff.mp named
        have within := (@prefix_run [] _ _ (name_ident slot) ends).mp starts
        have long := slot.name_length
        rw [List.prefix_nil.mp within] at long
        cases long
      simp [matchLength?, ends c rfl, unnamed, hasPlaceholder, segments, pieces]
  | cons c run ih =>
    have first := ident c List.mem_cons_self
    rw [List.cons_append, matchLength?, if_pos first,
      ih fun d member => ident d (List.mem_cons_of_mem _ member)]
    by_cases has : hasPlaceholder run = true
    · have whole : hasPlaceholder (c :: run) = true := by
        obtain ⟨slot, named⟩ := hasPlaceholder_iff.mp has
        exact hasPlaceholder_iff.mpr ⟨slot, List.infix_cons named⟩
      rw [if_pos has, if_pos whole]
      rfl
    · have here : namesSlot (c :: (run ++ behind)) = hasPlaceholder (c :: run) := by
        rw [Bool.eq_iff_iff, namesSlot_iff, hasPlaceholder_iff]
        apply exists_congr
        intro slot
        rw [← List.cons_append, prefix_run (name_ident slot) ends]
        refine ⟨fun starts => starts.isInfix, fun named => ?_⟩
        rcases List.infix_cons_iff.mp named with starts | inside
        · exact starts
        · exact absurd (hasPlaceholder_iff.mpr ⟨slot, inside⟩) has
      rw [if_neg has, Option.map_none, Option.none_or, here]
      split
      next named =>
        rw [← here] at named
        obtain ⟨slot, starts⟩ := namesSlot_iff.mp named
        rw [← List.cons_append, prefix_run (name_ident slot) ends] at starts
        obtain ⟨tail, split⟩ := starts
        have letters : ∀ d ∈ tail, isIdentPart d = true := fun d member =>
          ident d (split ▸ List.mem_append_right _ member)
        rw [← List.cons_append, ← split, List.append_assoc, ← slot.name_length, List.drop_left,
          runLength_run letters ends, List.length_append]
      next => rfl

end Matches

section Replacements

variable {replace : List Char → Except Fault (List Char)} {run behind text : List Char}

theorem replaceMatches_drop (skip : Nat) (text : List Char) :
    replaceMatches replace skip text = replaceMatches replace 0 (text.drop skip) := by
  induction text generalizing skip with
  | nil => simp [replaceMatches]
  | cons c rest ih =>
    cases skip with
    | zero => rfl
    | succ skip => rw [replaceMatches, ih, List.drop_succ_cons]

theorem replaceMatches_copied {c : Char} (none : matchLength? (c :: text) = none) :
    replaceMatches replace 0 (c :: text) = (replaceMatches replace 0 text).map (c :: ·) := by
  rw [replaceMatches, none]
  cases replaceMatches replace 0 text <;> rfl

theorem replaceMatches_plain (ident : ∀ c ∈ run, isIdentPart c = true)
    (ends : ∀ c, behind.head? = some c → isIdentPart c = false) (plain : hasPlaceholder run = false) :
    replaceMatches replace 0 (run ++ behind) = (replaceMatches replace 0 behind).map (run ++ ·) := by
  induction run with
  | nil =>
    rw [List.nil_append]
    cases replaceMatches replace 0 behind <;> rfl
  | cons c run ih =>
    have rest : hasPlaceholder run = false := plain_of_infix (List.infix_cons List.infix_rfl) plain
    have none := matchLength?_run ident ends
    rw [plain, if_neg Bool.false_ne_true, List.cons_append] at none
    rw [List.cons_append, replaceMatches_copied none,
      ih (fun d member => ident d (List.mem_cons_of_mem _ member)) rest]
    cases replaceMatches replace 0 behind <;> rfl

theorem replaceMatches_other (other : ∀ c ∈ run, isIdentPart c = false) :
    replaceMatches replace 0 (run ++ behind) = (replaceMatches replace 0 behind).map (run ++ ·) := by
  induction run with
  | nil =>
    rw [List.nil_append]
    cases replaceMatches replace 0 behind <;> rfl
  | cons c run ih =>
    have none := @matchLength?_run [] (c :: (run ++ behind)) nofun
      fun d head => by cases head; exact other c List.mem_cons_self
    rw [List.cons_append, replaceMatches_copied none,
      ih fun d member => other d (List.mem_cons_of_mem _ member)]
    cases replaceMatches replace 0 behind <;> rfl

theorem replaceMatches_word (ident : ∀ c ∈ run, isIdentPart c = true)
    (ends : ∀ c, behind.head? = some c → isIdentPart c = false) (has : hasPlaceholder run = true) :
    replaceMatches replace 0 (run ++ behind) = (do
      let new ← replace run
      let more ← replaceMatches replace 0 behind
      pure (new ++ more)) := by
  cases run with
  | nil => cases has
  | cons c run =>
    have found := matchLength?_run ident ends
    rw [if_pos has, List.cons_append] at found
    rw [List.cons_append, replaceMatches, found]
    dsimp only
    rw [← List.cons_append, List.take_left, List.length_cons, Nat.add_sub_cancel, replaceMatches_drop,
      List.drop_left]

end Replacements

section Runs

variable {binding : Binding} {values : Option (List SlotType)} {text new : List Char}
  {parts : List (List Char)}

theorem cut_runs (text : List Char) : Cut text (runs text) := by
  refine ⟨List.flatten_splitBy _ _, fun part member => (run_class member).1,
    fun part member => (run_class member).2, ?_⟩
  refine (List.isChain_getLast_head_splitBy (fun a b => isIdentPart a == isIdentPart b) text).imp ?_
  rintro first second ⟨left, right, apart⟩ c last d head
  rw [List.getLast?_eq_some_getLast left, Option.mem_some_iff] at last
  rw [List.head?_eq_some_head right, Option.mem_some_iff] at head
  subst last head
  simpa using apart

namespace Cut

variable {part : List Char}

theorem tail (cut : Cut text (part :: parts)) : Cut parts.flatten parts where
  whole := rfl
  present other member := cut.present other (List.mem_cons_of_mem _ member)
  uniform other member := cut.uniform other (List.mem_cons_of_mem _ member)
  maximal := cut.maximal.tail

theorem ends (cut : Cut text (part :: parts)) (ident : ∀ c ∈ part, isIdentPart c = true) :
    ∀ c, parts.flatten.head? = some c → isIdentPart c = false := by
  intro c head
  cases parts with
  | nil => cases head
  | cons second parts =>
    obtain ⟨d, tail, rfl⟩ := List.exists_cons_of_ne_nil (cut.present second (by simp))
    cases head
    have nonempty := cut.present part List.mem_cons_self
    have apart := (List.isChain_cons_cons.mp cut.maximal).1 _
      (List.getLast?_eq_some_getLast nonempty) c rfl
    rw [ident _ (List.getLast_mem nonempty)] at apart
    exact Bool.eq_false_iff.mpr apart.symm

-- The name of a slot does not reach over the end of a part.
theorem name_part (cut : Cut text parts) {slot : Slot} (named : slot.name.toList <:+: text) :
    ∃ part ∈ parts, slot.name.toList <:+: part := by
  induction parts generalizing text with
  | nil =>
    rw [← cut.whole, List.flatten_nil, List.infix_nil] at named
    have long := slot.name_length
    rw [named] at long
    cases long
  | cons part parts ih =>
    rw [← cut.whole, List.flatten_cons] at named
    have split : slot.name.toList <:+: part ∨ slot.name.toList <:+: parts.flatten := by
      obtain ⟨word, same⟩ := cut.uniform part List.mem_cons_self
      cases word with
      | true => exact infix_run (name_ident slot) (cut.ends same) named
      | false => exact .inr (infix_other (name_present slot) (name_ident slot) same named)
    rcases split with inside | behind
    · exact ⟨part, List.mem_cons_self, inside⟩
    · obtain ⟨other, member, inside⟩ := ih cut.tail behind
      exact ⟨other, List.mem_cons_of_mem _ member, inside⟩

theorem replaced (cut : Cut text parts) :
    replaceMatches (fillWord binding values) 0 text = (do
      let news ← parts.mapM (fillRun binding values)
      pure news.flatten) := by
  induction parts generalizing text with
  | nil =>
    obtain rfl := cut.whole
    rfl
  | cons part parts ih =>
    obtain rfl := cut.whole
    have rest := ih cut.tail
    obtain ⟨word, same⟩ := cut.uniform part List.mem_cons_self
    -- A part that is left as it is, is copied, and the rest goes on behind it.
    have stays : fillRun binding values part = .ok part →
        replaceMatches (fillWord binding values) 0 (part ++ parts.flatten) =
          (replaceMatches (fillWord binding values) 0 parts.flatten).map (part ++ ·) →
        replaceMatches (fillWord binding values) 0 (part :: parts).flatten = (do
          let news ← (part :: parts).mapM (fillRun binding values)
          pure news.flatten) := by
      intro kept copied
      rw [List.flatten_cons, copied, rest, List.mapM_cons, kept]
      cases parts.mapM (fillRun binding values) <;> rfl
    cases word with
    | false =>
      have plain : hasPlaceholder part = false := by
        rw [Bool.eq_false_iff]
        intro has
        obtain ⟨slot, front, behind, rfl⟩ := hasPlaceholder_iff.mp has
        have letter := same 'T' (by cases slot <;> simp [Slot.name])
        revert letter
        decide
      exact stays (by rw [fillRun, plain]; rfl) (replaceMatches_other same)
    | true =>
      have ends := cut.ends same
      by_cases has : hasPlaceholder part = true
      · rw [List.flatten_cons, replaceMatches_word same ends has, rest, List.mapM_cons, fillRun, if_pos has]
        cases fillWord binding values part with
        | error fault => rfl
        | ok new => cases parts.mapM (fillRun binding values) <;> rfl
      · have plain := Bool.eq_false_iff.mpr has
        exact stays (by rw [fillRun, plain]; rfl) (replaceMatches_plain same ends plain)

end Cut

theorem fill_matches (binding : Binding) (values : Option (List SlotType)) (text : List Char) :
    fill binding values text = replaceMatches (fillWord binding values) 0 text :=
  (cut_runs text).replaced.symm

theorem ofText?_iff {slot : Slot} : Slot.ofText? text = some slot ↔ text = slot.name.toList := by
  constructor
  · exact Slot.ofText?_some
  · rintro rfl
    cases slot <;> rfl

theorem fillRun_fills {run : List Char} (member : run ∈ runs text)
    (made : fillRun binding values run = .ok new) : FillsRun binding values run new := by
  obtain ⟨-, stays⟩ := fillRun_ok member made
  refine ⟨fun plain => stays.mpr fun has => ?_, fun has => ?_, fun slot bare generic => ?_, ?_⟩
  · rw [plain] at has
    cases has
  · have ident := run_word member has
    rw [fillRun, if_pos has] at made
    obtain ⟨⟨nonempty, letters⟩, -⟩ := fillWord_ok (run_class member).1 ident made
    exact ⟨ident, nonempty, letters, made⟩
  · exact stays.mpr fun _ => ⟨slot, ofText?_iff.mpr bare, generic⟩
  · intro has unbound
    rw [fillRun, if_pos has] at made
    obtain ⟨-, ⟨slot, named, generic, -⟩ | ⟨-, plain⟩⟩ :=
      fillWord_ok (run_class member).1 (run_word member has) made
    · exact absurd generic (unbound slot (ofText?_iff.mp named))
    · refine ⟨?_, plain⟩
      rintro rfl
      rw [plain] at has
      cases has

theorem FillsRun.left {run : List Char} (fills : FillsRun binding values run new)
    (has : hasPlaceholder new = true) :
    new = run ∧ hasPlaceholder run = true ∧
      ∃ slot, run = slot.name.toList ∧ binding.get? slot = some .generic := by
  have before : hasPlaceholder run = true := by
    by_contra plain
    rw [fills.plain (Bool.eq_false_iff.mpr plain)] at has
    exact plain has
  by_cases bare : ∃ slot, run = slot.name.toList ∧ binding.get? slot = some .generic
  · obtain ⟨slot, named, generic⟩ := bare
    exact ⟨fills.bare slot named generic, before, slot, named, generic⟩
  · have plain := (fills.changed before fun slot named generic => bare ⟨slot, named, generic⟩).2
    rw [plain] at has
    cases has

theorem FillsRun.again {run : List Char} (fills : FillsRun binding values run new) :
    fillRun binding values new = .ok new := by
  rw [fillRun]
  split
  next has =>
    obtain ⟨same, before, -⟩ := fills.left has
    obtain ⟨-, -, -, made⟩ := fills.word before
    rwa [← same] at made
  next => rfl

theorem fills_of_mem {news : List (List Char)} (fills : List.Forall₂ (FillsRun binding values) parts news)
    (member : new ∈ news) : ∃ run, FillsRun binding values run new := by
  induction fills with
  | nil => cases member
  | cons first _ ih =>
    rcases List.mem_cons.mp member with rfl | later
    · exact ⟨_, first⟩
    · exact ih later

theorem fill_cut (made : fill binding values text = .ok new) :
    ∃ news, Cut new news ∧ runs new = news ∧ List.Forall₂ (FillsRun binding values) (runs text) news := by
  simp only [fill, bind_eq_ok, pure_eq_ok] at made
  obtain ⟨news, filled, rfl⟩ := made
  have each := (List.forall₂_and_left (runs text) _).mpr ⟨fun run member => member, mapM_eq_ok filled⟩
  have kin : List.Forall₂ Kin (runs text) news := each.imp fun run new both =>
    (fillRun_ok both.1 both.2).1
  have cut := cut_runs news.flatten
  rw [runs_filled kin] at cut
  exact ⟨news, cut, runs_filled kin, each.imp fun run new both => fillRun_fills both.1 both.2⟩

end Runs

/-- The words of a text that hold the name of a slot, and nothing else, give way to other words. Once they have,
filling changes nothing; and if all slots are bound to primitives, no name of a slot is left. -/
theorem fill_words {binding : Binding} {values : Option (List SlotType)} {text new : List Char}
    (made : fill binding values text = .ok new) :
    replaceMatches (fillWord binding values) 0 text = .ok new ∧
    (∃ parts news, Cut text parts ∧ Cut new news ∧ List.Forall₂ (FillsRun binding values) parts news) ∧
    fill binding values new = .ok new ∧
    ((∀ slot type, binding.get? slot = some type → type.isPrimitive = true) →
      ∀ slot : Slot, ¬ slot.name.toList <:+: new) := by
  obtain ⟨news, cut, same, fills⟩ := fill_cut made
  refine ⟨fill_matches binding values text ▸ made, ⟨runs text, news, cut_runs text, cut, fills⟩, ?_, ?_⟩
  · have each : ∀ part ∈ news, fillRun binding values part = .ok (id part) := by
      intro part member
      obtain ⟨run, filled⟩ := fills_of_mem fills member
      exact filled.again
    rw [fill, same, mapM_ok each, List.map_id]
    exact congrArg Except.ok cut.whole
  · intro primitive slot named
    obtain ⟨part, member, inside⟩ := cut.name_part named
    obtain ⟨run, filled⟩ := fills_of_mem fills member
    obtain ⟨-, -, bare, -, generic⟩ := filled.left (hasPlaceholder_iff.mpr ⟨slot, inside⟩)
    have bound := primitive bare .generic generic
    cases bound

theorem fill_words_primitive :
    ∃ new, fill ⟨.int, some .long⟩ (some [.long, .int]) "KTypes of KTypeVTypeFoo$ KType.".toList = .ok new ∧
      replaceMatches (fillWord ⟨.int, some .long⟩ (some [.long, .int])) 0
        "KTypes of KTypeVTypeFoo$ KType.".toList = .ok new ∧
      fill ⟨.int, some .long⟩ (some [.long, .int]) new = .ok new ∧
      ∀ slot : Slot, ¬ slot.name.toList <:+: new := by
  obtain ⟨new, made, -⟩ := ok_of_any (show (fill ⟨.int, some .long⟩ (some [.long, .int])
    "KTypes of KTypeVTypeFoo$ KType.".toList).toOption.any
      (fun new => new == "ints of LongIntFoo$ int.".toList) = true by decide +kernel)
  obtain ⟨matched, -, again, plain⟩ := fill_words made
  refine ⟨new, made, matched, again, plain ?_⟩
  rintro (_ | _) type ⟨⟩ <;> rfl

end DocText

end Specializer
