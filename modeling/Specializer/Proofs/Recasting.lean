import Specializer.Proofs.Rewording

set_option autoImplicit false

namespace Specializer

namespace Lexer

section Numbers

def isInert (c : Char) : Bool :=
  !isDecimal c && !isHexDigit c && !(['x', 'X', 'l', 'L', '.', '+', '-'].contains c)

variable {a c : Char} {front rest : List Char}

theorem isInert_hexDigit (inert : isInert a = true) : isHexDigit a = false := by
  simp only [isInert, Bool.and_eq_true, Bool.not_eq_true'] at inert
  exact inert.1.2

theorem isInert_digit (inert : isInert a = true) : isDigitOrUnderscore a = false := by
  have hex := isInert_hexDigit inert
  simp only [isInert, Bool.and_eq_true, Bool.not_eq_true'] at inert
  simp only [isHexDigit, Bool.or_eq_false_iff] at hex
  simp [isDigitOrUnderscore, inert.1.1, hex.2]

theorem isInert_decimal (inert : isInert a = true) : isDecimal a = false := by
  have digit := isInert_digit inert
  simp only [isDigitOrUnderscore, Bool.or_eq_false_iff] at digit
  exact digit.1

theorem isInert_binaryDigit (inert : isInert a = true) : isBinaryDigit a = false := by
  have hex := isInert_hexDigit inert
  by_contra digit
  simp only [Bool.not_eq_false, isBinaryDigit, Bool.or_eq_true, beq_iff_eq] at digit
  rcases digit with (rfl | rfl) | rfl <;> exact absurd hex (by decide)

theorem ne_of_isInert (inert : isInert a = true) {d : Char} (active : isInert d = false) : a ≠ d := by
  rintro rfl
  rw [inert] at active
  cases active

theorem runLength_stop {p : Char → Bool} (stop : p a = false) :
    runLength p (front ++ a :: rest) = runLength p front := by
  simp only [runLength, List.takeWhile_append, List.takeWhile_cons, stop]
  split <;> simp_all

theorem fractionLength_inert (inert : isInert a = true) :
    fractionLength (front ++ a :: rest) = fractionLength front := by
  have point : a ≠ '.' := ne_of_isInert inert (by decide)
  cases front with
  | nil => simp [fractionLength, point]
  | cons d front =>
    by_cases dot : d = '.'
    · subst dot
      simp only [List.cons_append, fractionLength, runLength_stop (isInert_digit inert)]
    · simp [fractionLength, dot]

theorem suffixLength_inert (inert : isInert a = true) :
    suffixLength (front ++ a :: rest) = suffixLength front := by
  cases front with
  | nil =>
    refine if_neg fun found => ?_
    have active : ['l', 'L', 'f', 'F', 'd', 'D'].all (fun d => !isInert d) = true := by decide
    have here := List.all_eq_true.mp active a (List.contains_iff_mem.mp found)
    simp [inert] at here
  | cons d front => rfl

theorem exponentLength_inert (inert : isInert a = true) :
    exponentLength (front ++ a :: rest) = exponentLength front := by
  have digit := isInert_decimal inert
  cases front with
  | nil =>
    have small : a ≠ 'e' := ne_of_isInert inert (by decide)
    have capital : a ≠ 'E' := ne_of_isInert inert (by decide)
    simp [exponentLength, small, capital]
  | cons e front =>
    cases front with
    | nil =>
      have plus : a ≠ '+' := ne_of_isInert inert (by decide)
      have minus : a ≠ '-' := ne_of_isInert inert (by decide)
      simp [exponentLength, plus, minus, runLength, digit]
    | cons s front =>
      have behind (skip : Nat) (one : skip ≤ 1) :
          runLength isDecimal ((s :: (front ++ a :: rest)).drop skip) =
            runLength isDecimal ((s :: front).drop skip) := by
        rw [← List.cons_append, List.drop_append_of_le_length (by simp; omega), runLength_stop digit]
      simp only [List.cons_append, exponentLength]
      rw [behind _ (by split <;> omega)]

theorem radixLength_inert {lower upper : Char} {isDigit : Char → Bool}
    (digit : isDigit a = false) (marks : a ≠ lower ∧ a ≠ upper) :
    radixLength c (front ++ a :: rest) lower upper isDigit =
      radixLength c front lower upper isDigit := by
  cases front with
  | nil => simp [radixLength, marks]
  | cons mark front => simp only [List.cons_append, radixLength, runLength_stop digit]

theorem numeralLength_inert (inert : isInert a = true) :
    numeralLength c (front ++ a :: rest) = numeralLength c front := by
  have hex : radixLength c (front ++ a :: rest) 'x' 'X' isHexDigit =
      radixLength c front 'x' 'X' isHexDigit :=
    radixLength_inert (isInert_hexDigit inert)
      ⟨ne_of_isInert inert (by decide), ne_of_isInert inert (by decide)⟩
  have binary : radixLength c (front ++ a :: rest) 'b' 'B' isBinaryDigit =
      radixLength c front 'b' 'B' isBinaryDigit :=
    radixLength_inert (isInert_binaryDigit inert)
      ⟨ne_of_isInert inert (by decide), ne_of_isInert inert (by decide)⟩
  have places : runLength isDigitOrUnderscore front ≤ front.length := runLength_le _ _
  have fraction : fractionLength ((front ++ a :: rest).drop (runLength isDigitOrUnderscore front)) =
      fractionLength (front.drop (runLength isDigitOrUnderscore front)) := by
    rw [List.drop_append_of_le_length places, fractionLength_inert inert]
  have bound := fractionLength_le (front.drop (runLength isDigitOrUnderscore front))
  rw [List.length_drop] at bound
  have head : (front ++ a :: rest).head?.any isDecimal = front.head?.any isDecimal := by
    cases front with
    | nil => simp [isInert_decimal inert]
    | cons d front => rfl
  simp only [numeralLength, hex, binary, runLength_stop (isInert_digit inert), fraction, head]
  rw [List.drop_append_of_le_length (by omega), exponentLength_inert inert,
    List.drop_append_of_le_length places, exponentLength_inert inert]

theorem numberLength_inert (inert : isInert a = true) :
    numberLength c (front ++ a :: rest) = numberLength c front := by
  rw [numberLength, numberLength, numeralLength_inert inert]
  cases read : numeralLength c front with
  | none => rfl
  | some length =>
    have bound := numeralLength_le read
    rw [Option.map_some, Option.map_some, List.drop_append_of_le_length bound,
      suffixLength_inert inert]

end Numbers

section Blocks

theorem quotes_front {old new : List Char} (reworded : Reworded old new) :
    (new.take 2 == ['\x22', '\x22']) = true → (old.take 2 == ['\x22', '\x22']) = true := by
  intro double
  cases new with
  | nil => cases double
  | cons c new =>
    simp only [List.take_succ_cons, beq_iff_eq, List.cons.injEq] at double
    obtain ⟨rfl, second⟩ := double
    obtain ⟨old, rfl⟩ := List.head?_eq_some_iff.mp (reworded.front (by decide) rfl)
    obtain ⟨rest, same, behind⟩ := reworded.mark (by decide)
    cases same
    have head : old.head? = some '\x22' := by
      refine behind.front (by decide) ?_
      cases new with
      | nil => cases second
      | cons d new => simpa using second
    obtain ⟨old, rfl⟩ := List.head?_eq_some_iff.mp head
    rfl

theorem throughTripleQuote_letters {word rest : List Char} {previous : Char}
    (letters : ∀ c ∈ word, isIdentPart c = true) (present : word ≠ []) :
    ∃ last, isIdentPart last = true ∧ throughTripleQuote previous (word ++ rest) =
      (throughTripleQuote last rest).map (· + word.length) := by
  induction word generalizing previous with
  | nil => exact absurd rfl present
  | cons c word ih =>
    have letter := letters c List.mem_cons_self
    have other : (c == '\x22') = false := by
      by_contra same
      rw [eq_of_beq (eq_true_of_ne_false same)] at letter
      exact absurd letter (by decide)
    have step : throughTripleQuote previous (c :: word ++ rest) =
        (throughTripleQuote c (word ++ rest)).map (· + 1) := by
      simp [throughTripleQuote, other]
    by_cases alone : word = []
    · subst alone
      exact ⟨c, letter, step⟩
    · obtain ⟨last, ends, found⟩ := @ih c (fun d member => letters d (List.mem_cons_of_mem _ member))
        alone
      refine ⟨last, ends, ?_⟩
      rw [step, found, Option.map_map]
      simp only [Function.comp_def, List.length_cons, Nat.add_assoc]

theorem throughTripleQuote_reworded {old new : List Char} (reworded : Reworded old new)
    {previous other : Char} (escapes : other = '\\' ↔ previous = '\\')
    (unclosed : throughTripleQuote previous old = none) : throughTripleQuote other new = none := by
  induction reworded generalizing previous other with
  | nil => rfl
  | @char c old new behind ih =>
    rw [throughTripleQuote] at unclosed ⊢
    split at unclosed
    next => cases unclosed
    next goesOn =>
      have tail : throughTripleQuote c old = none := by simpa using unclosed
      rw [if_neg, ih Iff.rfl tail]
      · rfl
      · intro closes
        simp only [Bool.and_eq_true, bne_iff_ne, ne_eq, escapes] at closes goesOn
        exact goesOn ⟨closes.1, quotes_front behind closes.2⟩
  -- The last letter of a word is no backslash, whichever word it is.
  | @word word other' old new present there ident letters behind ih =>
    obtain ⟨last, ends, found⟩ := throughTripleQuote_letters ident present
    obtain ⟨last', ends', found'⟩ := throughTripleQuote_letters letters there
    have plain {c : Char} (letter : isIdentPart c = true) : c ≠ '\\' := by
      rintro rfl
      exact absurd letter (by decide)
    rw [found, Option.map_eq_none_iff] at unclosed
    rw [found', ih (iff_of_false (plain ends') (plain ends)) unclosed]
    rfl

end Blocks

/-- The texts have other words, and differ first where no number can reach. -/
structure Akin (old new : List Char) : Prop where
  reworded : Reworded old new
  alike : old = new ∨ ∃ front a b rest more, old = front ++ a :: rest ∧ new = front ++ b :: more ∧
    isInert a = true ∧ isInert b = true

namespace Akin

variable {old new : List Char}

theorem refl (text : List Char) : Akin text text := ⟨.refl text, .inl rfl⟩

theorem append {front other : List Char} (first : Akin front other) (second : Akin old new) :
    Akin (front ++ old) (other ++ new) := by
  refine ⟨first.reworded.append second.reworded, ?_⟩
  rcases first.alike with rfl | ⟨common, a, b, rest, more, rfl, rfl, left, right⟩
  · rcases second.alike with rfl | ⟨common, a, b, rest, more, rfl, rfl, left, right⟩
    · exact .inl rfl
    · exact .inr ⟨front ++ common, a, b, rest, more, by simp, by simp, left, right⟩
  · exact .inr ⟨common, a, b, rest ++ old, more ++ new, by simp, by simp, left, right⟩

theorem numberLength {c : Char} {tail : List Char} (akin : Akin old new) :
    numberLength c (tail ++ new) = numberLength c (tail ++ old) := by
  rcases akin.alike with rfl | ⟨front, a, b, rest, more, rfl, rfl, left, right⟩
  · rfl
  · rw [← List.append_assoc, ← List.append_assoc, numberLength_inert left, numberLength_inert right]

theorem front {c : Char} (akin : Akin old new) (mark : isIdentPart c = false)
    (head : new.head? = some c) : old.head? = some c := akin.reworded.front mark head

theorem same {c : Char} (akin : Akin old new)
    (mark : ∀ d, old.head? = some d → isIdentPart d = false) (head : new.head? = some c) :
    old.head? = some c := by
  cases old with
  | nil =>
    rw [akin.reworded.empty] at head
    cases head
  | cons d old =>
    obtain ⟨rest, rfl, -⟩ := akin.reworded.mark (mark d rfl)
    exact head

end Akin

section Tokens

variable {kind : Kind} {c : Char} {tail rest other : List Char}

theorem run_stop {p : Char → Bool} (run : runLength p (tail ++ rest) = tail.length)
    (head : rest.head? = some c) : p c = false := by
  by_contra passes
  obtain ⟨more, rfl⟩ := List.head?_eq_some_iff.mp head
  have all := runLength_all run
  rw [runLength, List.takeWhile_append_of_pos all, List.length_append] at run
  simp [passes] at run

variable (akin : Akin rest other)

include akin

theorem slash_akin (read : classify '/' (tail ++ rest) = some (kind, tail.length))
    (closed : kind = .op → (tail ++ rest).head? ≠ some '*') :
    classify '/' (tail ++ other) = some (kind, tail.length) := by
  rw [classify_slash] at read ⊢
  cases comment : comment? (tail ++ rest) with
  | none =>
    simp only [comment, Option.none_or, Option.some.injEq, Prod.mk.injEq] at read
    obtain ⟨rfl, empty⟩ := read
    obtain rfl := List.length_eq_zero_iff.mp empty.symm
    have none : comment? other = none := by
      refine comment?_none fun d head => ⟨?_, ?_⟩
      · rintro rfl
        obtain ⟨rest, rfl⟩ := List.head?_eq_some_iff.mp (akin.front (by decide) head)
        simp [comment?] at comment
      · rintro rfl
        exact closed rfl (akin.front (by decide) head)
    rw [List.nil_append, none]
    rfl
  | some found =>
    simp only [comment, Option.some_or, Option.some.injEq] at read
    subst read
    rw [comment?_same comment]
    · rfl
    -- A line comment goes on to the end of its line.
    · rintro rfl d head
      have stop (e : Char) (first : rest.head? = some e) : e = '\n' := by
        rcases comment?_some comment with ⟨wrong, -⟩ | ⟨wrong, -⟩ | ⟨wrong, -⟩ | ⟨-, more, same, length⟩
        · cases wrong
        · cases wrong
        · cases wrong
        obtain ⟨inner, rfl, rfl⟩ := split_front ['/'] same (by simp [length])
        have run : runLength (· != '\n') (inner ++ rest) = inner.length := by
          simp only [List.cons_append, List.nil_append, List.length_cons] at length
          omega
        simpa using run_stop run first
      have mark (e : Char) (first : rest.head? = some e) : isIdentPart e = false := by
        rw [stop e first]
        decide
      exact stop d (akin.same mark head)

theorem quote_akin (read : classify '\x22' (tail ++ rest) = some (kind, tail.length)) :
    classify '\x22' (tail ++ other) = some (kind, tail.length) := by
  rw [classify_quote] at read ⊢
  by_cases special : kind = .string ∧ tail = ['\x22'] ∧ other.head? = some '\x22'
  -- An empty string before another: no text block begins there, because none would end.
  · obtain ⟨rfl, rfl, head⟩ := special
    obtain ⟨more, rfl⟩ := List.head?_eq_some_iff.mp (akin.front (by decide) head)
    obtain ⟨new, rfl, behind⟩ := akin.reworded.mark (by decide)
    have unclosed : throughTripleQuote '\x22' more = none := by
      by_contra found
      obtain ⟨within, found⟩ := Option.ne_none_iff_exists'.mp found
      rw [show ['\x22'] ++ '\x22' :: more = '\x22' :: '\x22' :: more from rfl,
        quotedLiteral?_block found] at read
      cases read
    have still := throughTripleQuote_reworded behind Iff.rfl unclosed
    simp [quotedLiteral?, still, throughQuote]
  · exact quotedLiteral?_same read fun string empty head => special ⟨string, empty, head⟩

theorem colon_akin (read : classify ':' (tail ++ rest) = some (kind, tail.length)) :
    classify ':' (tail ++ other) = some (kind, tail.length) := by
  rw [classify_colon] at read
  split at read
  next double =>
    obtain ⟨rfl, one⟩ := Prod.mk.inj (Option.some.inj read)
    obtain ⟨d, rfl⟩ := List.length_eq_one_iff.mp one.symm
    obtain rfl : d = ':' := by simpa using double
    rw [classify_colon]
    rfl
  next single =>
    obtain ⟨rfl, none⟩ := Prod.mk.inj (Option.some.inj read)
    obtain rfl := List.length_eq_zero_iff.mp none.symm
    rw [classify_colon, if_neg]
    · rfl
    · intro double
      cases other with
      | nil => cases double
      | cons d other =>
        obtain rfl : d = ':' := by simpa using double
        obtain ⟨more, rfl⟩ := List.head?_eq_some_iff.mp (akin.front (by decide) rfl)
        exact single rfl

theorem dot_akin (read : classify '.' (tail ++ rest) = some (kind, tail.length)) :
    classify '.' (tail ++ other) = some (kind, tail.length) := by
  rw [classify_dot] at read ⊢
  rw [akin.numberLength]
  cases number : numberLength '.' (tail ++ rest) with
  | some length => simpa [number] using read
  | none =>
    simp only [number, Option.map_none, Option.none_or] at read ⊢
    split at read
    next three =>
      obtain ⟨rfl, two⟩ := Prod.mk.inj (Option.some.inj read)
      obtain rfl : tail = ['.', '.'] := by
        rw [← eq_of_beq three, two, List.take_left]
      rfl
    next fewer =>
      obtain ⟨rfl, none⟩ := Prod.mk.inj (Option.some.inj read)
      obtain rfl := List.length_eq_zero_iff.mp none.symm
      rw [if_neg]
      · rfl
      · intro three
        obtain ⟨other, rfl⟩ : ∃ more, other = '.' :: '.' :: more := by
          rw [List.nil_append, beq_iff_eq] at three
          exact ⟨other.drop 2, by rw [← List.take_append_drop 2 other, three]; rfl⟩
        obtain ⟨more, rfl⟩ := List.head?_eq_some_iff.mp (akin.front (by decide) rfl)
        obtain ⟨_, same, behind⟩ := akin.reworded.mark (by decide)
        cases same
        obtain ⟨more, rfl⟩ := List.head?_eq_some_iff.mp (behind.front (by decide) rfl)
        exact fewer rfl

-- A run of characters ends where it did if what follows it there is no letter.
theorem run_akin {p : Char → Bool} (run : runLength p (tail ++ rest) = tail.length)
    (marks : ∀ d, p d = true → isIdentPart d = false) :
    runLength p (tail ++ other) = tail.length := by
  rw [runLength_same (Nat.le_of_eq run), run]
  intro d head
  by_contra passes
  have first := akin.front (marks d (eq_true_of_ne_false passes)) head
  rw [run_stop run first] at passes
  exact passes rfl

theorem word_akin {new : List Char} (run : runLength isIdentPart (tail ++ rest) = tail.length)
    (word : IsWord (c :: new)) :
    classify c (new ++ other) = some (.ident, new.length) := by
  obtain ⟨_, _, same, start, letters⟩ := word
  cases same
  have mark (d : Char) (head : rest.head? = some d) : isIdentPart d = false := run_stop run head
  have all : runLength isIdentPart (new ++ []) = new.length := by
    rw [List.append_nil, runLength, List.takeWhile_eq_self_iff.mpr letters]
  rw [classify_word start, runLength_same (Nat.le_of_eq all), all]
  exact fun d head => mark d (akin.same mark head)

theorem classify_akin (read : classify c (tail ++ rest) = some (kind, tail.length))
    (closed : kind = .op → c = '/' → (tail ++ rest).head? ≠ some '*') :
    classify c (tail ++ other) = some (kind, tail.length) := by
  -- The class is told by the first character; only of those that begin several kinds more has to be
  -- read.
  by_cases mark : c ∈ ['/', '\x22', '\x27', ':', '.']
  · simp only [List.mem_cons, List.not_mem_nil, or_false] at mark
    rcases mark with rfl | rfl | rfl | rfl | rfl
    · exact slash_akin akin read fun op => closed op rfl
    · exact quote_akin akin read
    · rw [classify_apostrophe] at read ⊢
      obtain ⟨length, through, same⟩ := Option.map_eq_some_iff.mp read
      obtain ⟨rfl, rfl⟩ := Prod.mk.inj same
      rw [throughQuote_same (by decide) through]
      rfl
    · exact colon_akin akin read
    · exact dot_akin akin read
  · by_cases digit : isDecimal c = true
    · rw [classify_digit digit, akin.numberLength, ← classify_digit digit, read]
    · by_cases blank : isSourceBlank c = true
      · rw [classify_blank blank] at read ⊢
        obtain ⟨rfl, run⟩ := Prod.mk.inj (Option.some.inj read)
        rw [run_akin akin run fun d space => ?_]
        simp only [isSourceBlank, Bool.or_eq_true, beq_iff_eq] at space
        rcases space with (((rfl | rfl) | rfl) | rfl) | rfl <;> decide
      · by_cases word : isIdentStart c = true
        · rw [classify_word word] at read
          obtain ⟨rfl, run⟩ := Prod.mk.inj (Option.some.inj read)
          exact word_akin akin run ⟨c, tail, rfl, word, runLength_all run⟩
        · have plain := classify_mark mark (Bool.eq_false_iff.mpr digit)
            (Bool.eq_false_iff.mpr blank) (Bool.eq_false_iff.mpr word)
          rw [plain] at read ⊢
          exact read

end Tokens

section Rows

variable {source : List Char} {lexemes others : List Lexeme}

theorem Lexes.step {kind : Kind} {c : Char} {tail : List Char}
    (read : classify c (tail ++ source) = some (kind, tail.length))
    (closed : kind = .op → c = '/' → (tail ++ source).head? ≠ some '*')
    (more : Lexes source lexemes) :
    Lexes (c :: tail ++ source) (⟨kind, c :: tail⟩ :: lexemes) := by
  have behind : Lexes ((tail ++ source).drop tail.length) lexemes := by rwa [List.drop_left]
  have lexes := Lexes.cons read closed behind
  rwa [List.take_left] at lexes

theorem Lexes.first {first : Lexeme} (lexes : Lexes source (first :: lexemes)) :
    ∃ kind c tail rest, first = ⟨kind, c :: tail⟩ ∧ source = c :: tail ++ rest ∧
      classify c (tail ++ rest) = some (kind, tail.length) ∧
      (kind = .op → c = '/' → (tail ++ rest).head? ≠ some '*') ∧ Lexes rest lexemes := by
  cases lexes with
  | @cons c rest kind length lexemes read closed more =>
    have bound := classify_le read
    refine ⟨kind, c, rest.take length, rest.drop length, rfl, by simp, ?_, ?_, more⟩
    · rw [List.take_append_drop, read, List.length_take, Nat.min_eq_left bound]
    · rwa [List.take_append_drop]

inductive Recasts : Lexeme → Lexeme → Prop
  | same (lexeme : Lexeme) : Recasts lexeme lexeme
  | word {old new : List Char} (akin : Akin old new) (word : IsWord new) :
      Recasts ⟨.ident, old⟩ ⟨.ident, new⟩
  | doc {old new : List Char} (akin : Akin old new) (whole : Whole ⟨.docComment, new⟩) :
      Recasts ⟨.docComment, old⟩ ⟨.docComment, new⟩

theorem Recasts.akin {old new : Lexeme} (recasts : Recasts old new) : Akin old.text new.text := by
  cases recasts with
  | same => exact .refl _
  | word akin => exact akin
  | doc akin => exact akin

theorem Lexes.recast (lexes : Lexes source lexemes) (recasts : List.Forall₂ Recasts lexemes others) :
    Lexes (others.flatMap Lexeme.text) others ∧ Akin source (others.flatMap Lexeme.text) := by
  induction recasts generalizing source with
  | nil =>
    cases lexes
    exact ⟨.nil, .refl _⟩
  | @cons old new lexemes others recast _ ih =>
    obtain ⟨kind, c, tail, rest, rfl, rfl, read, closed, more⟩ := lexes.first
    obtain ⟨again, akin⟩ := ih more
    refine ⟨?_, recast.akin.append akin⟩
    rw [List.flatMap_cons]
    cases recast with
    | same =>
      refine again.step (classify_akin akin read closed) ?_
      rintro rfl rfl star
      obtain rfl := slash_alone read
      exact closed rfl rfl (akin.front (by decide) star)
    | @word _ new _ word =>
      obtain ⟨-, run⟩ := classify_ident read
      have spelled := word
      obtain ⟨d, new, rfl, -⟩ := word
      exact again.step (word_akin akin run.symm spelled) (by rintro ⟨⟩)
    | doc _ whole =>
      cases whole with
      | solid _ reads => exact again.step (reads _ fun _ _ => rfl) (by rintro ⟨⟩)

theorem classify_star (rest : List Char) : classify '*' rest = some (.op, 0) :=
  classify_mark (by decide) (by decide) (by decide) (by decide) rest

theorem openComment?_tail {token : Token} {tokens : List Token}
    (none : openComment? (token :: tokens) = none) : openComment? tokens = Option.none := by
  cases tokens with
  | nil => rfl
  | cons second tokens =>
    rw [openComment?] at none
    split at none
    next => cases none
    next => exact none

-- A slash that is an operator, with a star behind it, leaves a comment open: the star is a token of
-- its own.
theorem openComment?_slash {length : Nat} {rest : List Char} {here : Position} {tokens : List Token}
    (read : classify '/' rest = some (.op, length)) (star : rest.head? = some '*')
    (behind : Lexes (rest.drop length) (lexemesOf tokens)) :
    openComment? (⟨⟨.op, '/' :: rest.take length⟩, here⟩ :: tokens) ≠ none := by
  obtain ⟨rest, rfl⟩ := List.head?_eq_some_iff.mp star
  have alone : length = 0 := by
    rw [classify_slash] at read
    cases comment : comment? ('*' :: rest) with
    | none =>
      rw [comment, Option.none_or] at read
      exact (Prod.mk.inj (Option.some.inj read)).2.symm
    | some found =>
      rw [comment, Option.some_or] at read
      obtain rfl := Option.some.inj read
      simpa using comment?_some comment
  subst alone
  cases tokens with
  | nil => cases behind
  | cons second more =>
    obtain ⟨kind, d, tail, _, first, same, read', -⟩ := behind.first
    obtain ⟨rfl, rfl⟩ := List.cons.inj same
    rw [classify_star] at read'
    obtain ⟨rfl, none⟩ := Prod.mk.inj (Option.some.inj read')
    obtain rfl := List.length_eq_zero_iff.mp none.symm
    have opens : second.kind = .op ∧ second.text = ['*'] :=
      ⟨congrArg Lexeme.kind first, congrArg Lexeme.text first⟩
    simp [openComment?, opens]

theorem scan_lexes {skip : Nat} {here : Position} {text : List Char} {tokens : List Token}
    (scanned : scan skip here text = .ok tokens) (closed : openComment? tokens = none) :
    Lexes (text.drop skip) (lexemesOf tokens) := by
  refine scan_induction (motive := fun text tokens => openComment? tokens = none →
    Lexes text (lexemesOf tokens)) (fun _ => .nil) ?_ scanned closed
  intro c rest kind length here tokens read ih closed
  have behind := ih (openComment?_tail closed)
  refine .cons read ?_ behind
  rintro rfl rfl star
  exact openComment?_slash read star behind closed

end Rows

end Lexer

theorem tokenize_lexes {source : List Char} {tokens : List Token}
    (lexed : tokenize source = .ok tokens) : Lexer.Lexes source (lexemesOf tokens) := by
  obtain ⟨scanned, closed⟩ := tokenize_scan lexed
  exact Lexer.scan_lexes scanned closed

end Specializer
