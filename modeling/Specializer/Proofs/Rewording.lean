import Specializer.Proofs.DocWords
import Specializer.Proofs.Relexing
import Specializer.Proofs.Treatment

set_option autoImplicit false

namespace Specializer

open Lexer

section Words

def IsWord (text : List Char) : Prop :=
  ∃ c tail, text = c :: tail ∧ isIdentStart c = true ∧ ∀ d ∈ tail, isIdentPart d = true

theorem classify_ident {c : Char} {rest : List Char} {length : Nat}
    (read : classify c rest = some (.ident, length)) :
    isIdentStart c = true ∧ length = runLength isIdentPart rest := by
  rcases classify_some read with ⟨-, comment⟩ | ⟨-, quoted⟩ | ⟨other, -⟩ | ⟨other, -⟩ | ⟨other, -⟩ |
    ⟨other, -⟩ | ⟨other, -⟩ | ⟨-, word⟩ | ⟨mark, -⟩
  · simpa using comment?_some comment
  · simpa using quotedLiteral?_some quoted
  all_goals first
    | cases other
    | exact word
    | exact absurd rfl (punctuation?_solid mark).1

theorem IsWord.whole {text : List Char} (word : IsWord text) : Whole ⟨.ident, text⟩ := by
  obtain ⟨c, tail, rfl, start, part⟩ := word
  have read : classify c (tail ++ []) = some (.ident, tail.length) := by
    rw [classify_word start, List.append_nil, runLength, List.takeWhile_eq_self_iff.mpr part]
  exact whole_of_classify read

theorem Lexer.Whole.word {text : List Char} (whole : Whole ⟨.ident, text⟩) : IsWord text := by
  cases whole with
  | @solid _ c tail _ read =>
    obtain ⟨start, run⟩ := classify_ident (read [] nofun)
    exact ⟨c, tail, rfl, start, runLength_all run.symm⟩

theorem IsWord.filled {text new : List Char} (word : IsWord text) (filled : Filled (pieces text) new) :
    IsWord new := by
  obtain ⟨c, tail, rfl, start, part⟩ := word
  have letters : ∀ d ∈ new, isIdentPart d = true := by
    refine filled.all DocText.capitalized_ident fun d member => ?_
    rcases List.mem_cons.mp member with rfl | later
    · exact isIdentPart_of_isIdentStart start
    · exact part d later
  generalize cut : pieces (c :: tail) = parts at filled
  cases filled with
  | nil => simpa [cut] using pieces_text (c :: tail)
  | char d behind =>
    obtain ⟨rest, same, -⟩ := pieces_cons_char cut
    cases same
    exact ⟨_, _, rfl, start, fun d member => letters d (List.mem_cons_of_mem _ member)⟩
  | slot s type behind =>
    obtain ⟨first, more, same, head⟩ : ∃ first more, type.capitalized.toList = first :: more ∧
        isIdentStart first = true := by cases type <;> exact ⟨_, _, rfl, by decide⟩
    rw [same, List.cons_append] at letters ⊢
    exact ⟨first, _, rfl, head, fun d member => letters d (List.mem_cons_of_mem _ member)⟩

theorem spelling_word (type : SlotType) : IsWord type.spelling.toList := by
  have letters := (DocText.spelling_ident type).2
  obtain ⟨first, more, same, head⟩ : ∃ first more, type.spelling.toList = first :: more ∧
      isIdentStart first = true := by cases type <;> exact ⟨_, _, rfl, by decide⟩
  rw [same] at letters ⊢
  exact ⟨first, more, rfl, head, fun d member => (letters d (List.mem_cons_of_mem _ member)).1⟩

theorem IsWord.respelled {text new : List Char} (word : IsWord text) (spelled : Respelled text new) :
    IsWord new := by
  rcases spelled with filled | ⟨type, rfl⟩
  · exact word.filled filled
  · exact spelling_word type

end Words

section Comments

inductive Reworded : List Char → List Char → Prop
  | nil : Reworded [] []
  | char (c : Char) {old new : List Char} (behind : Reworded old new) :
      Reworded (c :: old) (c :: new)
  | word {word other old new : List Char} (present : word ≠ []) (there : other ≠ [])
      (ident : ∀ c ∈ word, isIdentPart c = true) (letters : ∀ c ∈ other, isIdentPart c = true)
      (behind : Reworded old new) : Reworded (word ++ old) (other ++ new)

namespace Reworded

variable {old new : List Char}

theorem refl (text : List Char) : Reworded text text := by
  induction text with
  | nil => exact .nil
  | cons c text ih => exact .char c ih

theorem append {front other : List Char} (first : Reworded front other)
    (second : Reworded old new) : Reworded (front ++ old) (other ++ new) := by
  induction first with
  | nil => exact second
  | char c _ ih => exact .char c ih
  | word present there ident letters _ ih =>
    rw [List.append_assoc, List.append_assoc]
    exact .word present there ident letters ih

theorem empty (reworded : Reworded [] new) : new = [] := by
  generalize nothing : [] = text at reworded
  cases reworded with
  | nil => rfl
  | char => cases nothing
  | word present => exact absurd (List.append_eq_nil_iff.mp nothing.symm).1 present

theorem mark {c : Char} (reworded : Reworded (c :: old) new) (mark : isIdentPart c = false) :
    ∃ rest, new = c :: rest ∧ Reworded old rest := by
  generalize whole : c :: old = text at reworded
  cases reworded with
  | nil => cases whole
  | char d behind =>
    cases whole
    exact ⟨_, rfl, behind⟩
  | @word word _ _ _ present _ ident =>
    obtain ⟨d, tail, rfl⟩ := List.exists_cons_of_ne_nil present
    cases whole
    rw [ident c List.mem_cons_self] at mark
    cases mark

theorem front {c : Char} (reworded : Reworded old new) (mark : isIdentPart c = false)
    (head : new.head? = some c) : old.head? = some c := by
  cases reworded with
  | nil => cases head
  | char d _ => exact head
  | @word _ other _ _ _ there _ letters =>
    obtain ⟨d, tail, rfl⟩ := List.exists_cons_of_ne_nil there
    obtain rfl : d = c := by simpa using head
    rw [letters d List.mem_cons_self] at mark
    cases mark

end Reworded

theorem throughCommentEnd_letters {word : List Char} (letters : ∀ c ∈ word, isIdentPart c = true)
    (rest : List Char) :
    throughCommentEnd (word ++ rest) = (throughCommentEnd rest).map (· + word.length) := by
  induction word with
  | nil => simp
  | cons c word ih =>
    have other : c ≠ '*' := by
      rintro rfl
      exact absurd (letters _ List.mem_cons_self) (by decide)
    rw [List.cons_append, throughCommentEnd_cons, if_neg fun both => other both.1,
      ih fun d member => letters d (List.mem_cons_of_mem _ member), Option.map_map]
    simp only [Function.comp_def, List.length_cons, Nat.add_assoc]

-- A comment ends where it did: no word is part of the mark that ends it.
theorem Reworded.closed {old new : List Char} (reworded : Reworded old new)
    (closed : throughCommentEnd old = some old.length) : throughCommentEnd new = some new.length := by
  induction reworded with
  | nil => cases closed
  | @char c old new behind ih =>
    rw [throughCommentEnd_cons] at closed ⊢
    split at closed
    next ends =>
      obtain ⟨d, rfl⟩ := List.length_eq_one_iff.mp (Nat.succ.inj (Option.some.inj closed).symm)
      obtain rfl : d = '/' := by simpa using ends.2
      obtain ⟨rest, rfl, nothing⟩ := behind.mark (by decide)
      simp [ends.1, nothing.empty]
    next goesOn =>
      obtain ⟨length, found, same⟩ := Option.map_eq_some_iff.mp closed
      obtain rfl := Nat.succ.inj same
      rw [if_neg, ih found]
      · rfl
      · rintro ⟨star, slash⟩
        exact goesOn ⟨star, behind.front (by decide) slash⟩
  -- A word moves the end by its length and has no star in it.
  | @word word other old new _ _ ident letters behind ih =>
    rw [throughCommentEnd_letters ident, Option.map_eq_some_iff] at closed
    obtain ⟨length, found, same⟩ := closed
    rw [List.length_append] at same
    obtain rfl : length = old.length := by omega
    rw [throughCommentEnd_letters letters, ih found, Option.map_some, List.length_append, Nat.add_comm]

theorem classify_doc {c : Char} {rest : List Char} {length : Nat}
    (read : classify c rest = some (.docComment, length)) :
    c = '/' ∧ ∃ more within, rest = '*' :: '*' :: more ∧ more.head? ≠ some '/' ∧
      throughCommentEnd more = some within ∧ length = within + 2 := by
  rcases classify_some read with ⟨rfl, comment⟩ | ⟨-, quoted⟩ | ⟨other, -⟩ | ⟨other, -⟩ | ⟨other, -⟩ |
    ⟨other, -⟩ | ⟨other, -⟩ | ⟨other, -⟩ | ⟨mark, -⟩
  · simpa using comment?_some comment
  · simpa using quotedLiteral?_some quoted
  all_goals first
    | cases other
    | exact absurd (punctuation?_solid mark).2 (by decide)

theorem Reworded.whole {old new : List Char} (reworded : Reworded old new)
    (whole : Whole ⟨.docComment, old⟩) :
    Whole ⟨.docComment, new⟩ ∧ new.head? = some '/' := by
  cases whole with
  | @solid _ c tail _ read =>
    obtain ⟨rfl, more, within, same, front, closed, length⟩ := classify_doc (read [] nofun)
    rw [List.append_nil] at same
    subst same
    obtain rfl : within = more.length := by simpa using length.symm
    obtain ⟨_, rfl, behindSlash⟩ := reworded.mark (by decide)
    obtain ⟨_, rfl, behindStar⟩ := behindSlash.mark (by decide)
    obtain ⟨new, rfl, body⟩ := behindStar.mark (by decide)
    have opens : new.head? ≠ some '/' := fun head => front (body.front (by decide) head)
    refine ⟨?_, rfl⟩
    have again : classify '/' ('*' :: '*' :: new ++ []) =
        some (.docComment, ('*' :: '*' :: new).length) := by
      rw [List.append_nil, classify_slash, comment?_doc new opens, body.closed closed]
      rfl
    exact whole_of_classify again

theorem DocText.fill_reworded {binding : Binding} {values : Option (List SlotType)}
    {text new : List Char} (made : fill binding values text = .ok new) : Reworded text new := by
  simp only [fill, bind_eq_ok, pure_eq_ok] at made
  obtain ⟨parts, filled, rfl⟩ := made
  have each := (List.forall₂_and_left (runs text) _).mpr ⟨fun run member => member, mapM_eq_ok filled⟩
  have whole : (runs text).flatten = text := List.flatten_splitBy _ _
  have reworded : List.Forall₂ Reworded (runs text) parts := each.imp fun run new both => by
    obtain ⟨⟨there, word, ofRun, ofNew⟩, same⟩ := fillRun_ok both.1 both.2
    -- A run that changes is a word; the others stay.
    by_cases has : hasPlaceholder run = true
    · have ident := run_word both.1 has
      have present := (run_class both.1).1
      have letters : ∀ c ∈ new, isIdentPart c = true := by
        obtain ⟨c, member⟩ := List.exists_mem_of_ne_nil _ present
        intro d inside
        rw [ofNew d inside, ← ofRun c member, ident c member]
      simpa using Reworded.word present there ident letters .nil
    · rw [same.mpr fun yes => absurd yes has]
      exact .refl run
  generalize runs text = cut at reworded whole
  subst whole
  clear each filled
  induction reworded with
  | nil => exact .nil
  | cons first _ ih => exact first.append ih

end Comments

end Specializer
