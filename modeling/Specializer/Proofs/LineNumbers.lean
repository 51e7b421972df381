import Mathlib.Data.List.TakeWhile
import Specializer.Files.Path
import Specializer.Text.Lines

set_option autoImplicit false

namespace Specializer

/-- How many line breaks neither are a line feed nor stand right in front of one that they are one break
with. -/
def strayBreaks : List Char → Nat
  | [] => 0
  | c :: rest =>
    (if isLineBreak c && c != '\n' && !(c == '\r' && rest.head? == some '\n') then 1 else 0) +
      strayBreaks rest

def behindFeed (text : List Char) : List Char := (text.reverse.takeWhile (· != '\n')).reverse

def beforeBreak (text : List Char) : List Char := text.takeWhile fun c => !isLineBreak c

def beforeFeed (text : List Char) : List Char := text.takeWhile (· != '\n')

inductive Broken : List Char → List (List Char) → List Char → Prop
  | last {line : List Char} (unbroken : Unbroken line) : Broken line [] line
  | pair {line rest last : List Char} {ended : List (List Char)} (unbroken : Unbroken line)
      (more : Broken rest ended last) : Broken (line ++ '\r' :: '\n' :: rest) (line :: ended) last
  | single {line rest last : List Char} {c : Char} {ended : List (List Char)} (unbroken : Unbroken line)
      (breaks : isLineBreak c = true) (alone : c = '\r' → rest.head? ≠ some '\n')
      (more : Broken rest ended last) : Broken (line ++ c :: rest) (line :: ended) last

section

variable {text line rest last before : List Char} {ended : List (List Char)}

theorem Unbroken.no_feed (unbroken : Unbroken line) : '\n' ∉ line := by
  intro member
  exact absurd (unbroken _ member) (by decide)

theorem beforeBreak_unbroken (text : List Char) : Unbroken (beforeBreak text) := by
  intro c member
  simpa using List.mem_takeWhile_imp member

theorem beforeBreak_append (unbroken : Unbroken line) (rest : List Char) :
    beforeBreak (line ++ rest) = line ++ beforeBreak rest :=
  List.takeWhile_append_of_pos fun c member => by simp [unbroken c member]

theorem beforeBreak_eq (unbroken : Unbroken line) : beforeBreak line = line := by
  simpa [beforeBreak] using beforeBreak_append unbroken []

-- Line feeds are breaks, so that other breaks can only come before.
theorem beforeBreak_beforeFeed (text : List Char) : beforeBreak (beforeFeed text) = beforeBreak text := by
  rw [beforeBreak, beforeFeed, List.takeWhile_takeWhile]
  apply congrArg (List.takeWhile · text)
  funext c
  by_cases feed : c = '\n'
  next => subst feed; decide
  next => simp [feed]

theorem behindFeed_plain (plain : '\n' ∉ text) : behindFeed text = text := by
  have all : text.reverse.takeWhile (· != '\n') = text.reverse := by
    rw [List.takeWhile_eq_self_iff]
    intro c member
    have other : c ≠ '\n' := fun same => plain (same ▸ List.mem_reverse.mp member)
    simpa using other
  rw [behindFeed, all, List.reverse_reverse]

theorem behindFeed_feed (line rest : List Char) : behindFeed (line ++ '\n' :: rest) = behindFeed rest := by
  rw [behindFeed, behindFeed, List.reverse_append, List.reverse_cons, List.append_assoc,
    List.takeWhile_append]
  split
  next whole =>
    rw [(List.takeWhile_prefix _).eq_of_length whole]
    simp
  next => rfl

theorem behindFeed_cons (c : Char) (within : '\n' ∈ text) : behindFeed (c :: text) = behindFeed text := by
  obtain ⟨front, behind, rfl⟩ := List.append_of_mem within
  rw [← List.cons_append, behindFeed_feed, behindFeed_feed]

theorem beforeFeed_first (text : List Char) :
    (splitOn '\n' text).head? = some (beforeFeed text) := by
  induction text with
  | nil => rfl
  | cons c rest ih =>
    obtain ⟨more, cut⟩ := List.head?_eq_some_iff.mp ih
    rw [splitOn, cut]
    by_cases feed : c = '\n' <;> simp [beforeFeed, feed]

theorem splitOn_feeds (before rest : List Char) :
    (splitOn '\n' (before ++ rest))[before.count '\n']? = some (behindFeed before ++ beforeFeed rest) := by
  induction before with
  | nil => simpa [behindFeed, List.head?_eq_getElem?] using beforeFeed_first rest
  | cons c before ih =>
    rw [List.cons_append, splitOn]
    by_cases feed : c = '\n'
    next =>
      subst feed
      rw [if_pos rfl, List.count_cons_self, List.getElem?_cons_succ, ih]
      exact congrArg (fun behind => some (behind ++ _)) (behindFeed_feed [] before).symm
    next =>
      rw [if_neg feed, List.count_cons_of_ne feed]
      cases cut : splitOn '\n' (before ++ rest) with
      | nil =>
        rw [cut] at ih
        cases ih
      | cons first more =>
        rw [cut] at ih
        -- Whether the added character stands on the line in question.
        by_cases within : '\n' ∈ before
        next =>
          obtain ⟨n, count⟩ := Nat.exists_eq_add_one.mpr (List.count_pos_iff.mpr within)
          rw [count, List.getElem?_cons_succ] at ih
          rw [count, List.getElem?_cons_succ, ih, behindFeed_cons c within]
        next =>
          have none : '\n' ∉ c :: before := by
            rw [List.mem_cons, not_or]
            exact ⟨Ne.symm feed, within⟩
          rw [List.count_eq_zero.mpr within, List.getElem?_cons_zero, behindFeed_plain within] at ih
          rw [List.count_eq_zero.mpr within, List.getElem?_cons_zero, behindFeed_plain none,
            Option.some.inj ih, List.cons_append]

theorem strayBreaks_append (unbroken : Unbroken line) (rest : List Char) :
    strayBreaks (line ++ rest) = strayBreaks rest := by
  induction line with
  | nil => rfl
  | cons c line ih =>
    rw [List.cons_append, strayBreaks, unbroken c List.mem_cons_self,
      ih fun d member => unbroken d (List.mem_cons_of_mem _ member)]
    simp

theorem Broken.exist (text : List Char) : ∃ ended last, Broken text ended last := by
  -- By the length, because a carriage return and a line feed are taken together.
  induction size : text.length using Nat.strongRecOn generalizing text with
  | _ size ih =>
    subst size
    have split : beforeBreak text ++ text.dropWhile (fun c => !isLineBreak c) = text :=
      List.takeWhile_append_dropWhile
    have unbroken := beforeBreak_unbroken text
    generalize beforeBreak text = line at split unbroken
    have first := List.head?_dropWhile_not (fun c => !isLineBreak c) text
    cases behind : text.dropWhile fun c => !isLineBreak c with
    | nil =>
      rw [behind, List.append_nil] at split
      exact ⟨[], text, .last (split ▸ unbroken)⟩
    | cons c rest =>
      have breaks : isLineBreak c = true := by
        rw [behind] at first
        simpa using first
      rw [behind] at split
      subst split
      rw [List.length_append, List.length_cons] at ih
      by_cases both : c = '\r' ∧ rest.head? = some '\n'
      next =>
        obtain ⟨rfl, feed⟩ := both
        obtain ⟨rest, rfl⟩ := List.head?_eq_some_iff.mp feed
        rw [List.length_cons] at ih
        obtain ⟨ended, last, more⟩ := ih rest.length (by omega) rest rfl
        exact ⟨_, last, .pair unbroken more⟩
      next =>
        obtain ⟨ended, last, more⟩ := ih rest.length (by omega) rest rfl
        exact ⟨_, last, .single unbroken breaks (fun same feed => both ⟨same, feed⟩) more⟩

theorem Broken.unbroken (broken : Broken text ended last) : Unbroken last := by
  induction broken with
  | last unbroken => exact unbroken
  | pair _ _ ih => exact ih
  | single _ _ _ _ ih => exact ih

theorem Broken.suffix (broken : Broken text ended last) : last <:+ text := by
  induction broken with
  | last => exact List.suffix_rfl
  | @pair line _ _ _ _ _ ih => exact ih.trans ⟨line ++ ['\r', '\n'], by simp⟩
  | @single line _ _ c _ _ _ _ _ ih => exact ih.trans ⟨line ++ [c], by simp⟩

theorem Broken.count (broken : Broken text ended last) :
    ended.length = text.count '\n' + strayBreaks text := by
  have none {line : List Char} (unbroken : Unbroken line) : line.count '\n' = 0 :=
    List.count_eq_zero.mpr unbroken.no_feed
  induction broken with
  | last unbroken =>
    have whole := strayBreaks_append unbroken []
    rw [List.append_nil] at whole
    rw [none unbroken, whole]
    rfl
  | pair unbroken more ih =>
    rw [List.length_cons, ih, List.count_append, none unbroken, strayBreaks_append unbroken]
    simp [strayBreaks]
    omega
  | @single line rest last c ended unbroken breaks alone more ih =>
    rw [List.length_cons, ih, List.count_append, none unbroken, strayBreaks_append unbroken, strayBreaks]
    by_cases feed : c = '\n'
    next => subst feed; simp; omega
    next =>
      have stray : (isLineBreak c && c != '\n' && !(c == '\r' && rest.head? == some '\n')) = true := by
        by_cases pair : c = '\r'
        next => simp [breaks, feed, alone pair]
        next => simp [breaks, feed, pair]
      rw [if_pos stray, List.count_cons_of_ne feed]
      omega

theorem Broken.lines (broken : Broken text ended last) (apart : rest.head? ≠ some '\n') :
    lines (text ++ rest) = ended ++ lines (last ++ rest) := by
  induction broken with
  | last => rfl
  | pair unbroken more ih =>
    rw [List.append_assoc, List.cons_append, List.cons_append, lines_pair unbroken, ih,
      List.cons_append]
  | @single line behind last c ended unbroken breaks alone more ih =>
    have still : c = '\r' → (behind ++ rest).head? ≠ some '\n' := by
      intro same
      cases behind with
      | nil => exact apart
      | cons d behind => exact alone same
    rw [List.append_assoc, List.cons_append, lines_break unbroken breaks still, ih,
      List.cons_append]

-- Without stray breaks, the last break is the last line feed.
theorem Broken.behindFeed (broken : Broken text ended last) (none : strayBreaks text = 0) :
    behindFeed text = last := by
  induction broken with
  | last unbroken => exact behindFeed_plain unbroken.no_feed
  | @pair line rest last ended unbroken more ih =>
    rw [strayBreaks_append unbroken] at none
    have later : strayBreaks rest = 0 := by simpa [strayBreaks] using none
    have front : line ++ '\r' :: '\n' :: rest = (line ++ ['\r']) ++ '\n' :: rest := by simp
    rw [front, behindFeed_feed, ih later]
  | @single line rest last c ended unbroken breaks alone more ih =>
    rw [strayBreaks_append unbroken, strayBreaks, Nat.add_eq_zero_iff] at none
    obtain rfl : c = '\n' := by
      by_contra other
      have pair : c = '\r' ∧ rest.head? = some '\n' := by simpa [other, breaks] using none.1
      exact alone pair.1 pair.2
    rw [behindFeed_feed, ih none.2]

theorem lines_first (present : text ≠ []) : (lines text).head? = some (beforeBreak text) := by
  obtain ⟨ended, last, broken⟩ := Broken.exist text
  cases broken with
  | last whole => rw [lines_unbroken whole present, beforeBreak_eq whole, List.head?_cons]
  | pair unbroken more => rw [lines_pair unbroken, beforeBreak_append unbroken]; simp [beforeBreak, isLineBreak]
  | single unbroken breaks alone more =>
    rw [lines_break unbroken breaks alone, beforeBreak_append unbroken]
    simp [beforeBreak, breaks]

-- The line around a place is numbered by all the breaks before it, the stray ones too.
theorem Broken.line_around (broken : Broken before ended last) (apart : rest.head? ≠ some '\n')
    (present : rest ≠ []) :
    (Specializer.lines (before ++ rest))[before.count '\n' + strayBreaks before]? =
      some (last ++ beforeBreak rest) := by
  have some : last ++ rest ≠ [] := by simp [present]
  rw [broken.lines apart, ← broken.count, List.getElem?_append_right (Nat.le_refl _), Nat.sub_self,
    ← List.head?_eq_getElem?, lines_first some, beforeBreak_append broken.unbroken]

theorem Broken.line_ended (broken : Broken before ended last) (apart : rest.head? ≠ some '\n')
    {n : Nat} (early : n < before.count '\n' + strayBreaks before) :
    (Specializer.lines (before ++ rest))[n]? = (Specializer.lines before)[n]? := by
  have alone := @Broken.lines _ [] _ _ broken (by simp)
  rw [List.append_nil, List.append_nil] at alone
  rw [← broken.count] at early
  rw [broken.lines apart, alone, List.getElem?_append_left early, List.getElem?_append_left early]

end

end Specializer
