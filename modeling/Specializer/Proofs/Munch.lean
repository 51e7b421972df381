import Mathlib.Data.List.TakeWhile
import Mathlib.Tactic.ByContra
import Specializer.Token.Lexer

set_option autoImplicit false

namespace Specializer

namespace Lexer

section Characters

/-- The inner ranges that are left when each outer one took from the front those that lie in it. -/
def leftOver (outer inner : List (Nat × Nat)) : List (Nat × Nat) :=
  outer.foldl (fun left range => left.dropWhile fun taken =>
    range.1 ≤ taken.1 && taken.2 ≤ range.2) inner

theorem within_of_leftOver {outer inner : List (Nat × Nat)} (none : leftOver outer inner = [])
    {range : Nat × Nat} (member : range ∈ inner) :
    ∃ around ∈ outer, around.1 ≤ range.1 ∧ range.2 ≤ around.2 := by
  induction outer generalizing inner with
  | nil =>
    cases none
    cases member
  | cons first rest ih =>
    rw [← List.takeWhile_append_dropWhile (p := fun taken : Nat × Nat =>
      first.1 ≤ taken.1 && taken.2 ≤ first.2) (l := inner)] at member
    rcases List.mem_append.mp member with taken | left
    · have lies := List.mem_takeWhile_imp taken
      simp only [Bool.and_eq_true, decide_eq_true_eq] at lies
      exact ⟨first, List.mem_cons_self, lies⟩
    · obtain ⟨around, present, lies⟩ := ih none left
      exact ⟨around, List.mem_cons_of_mem _ present, lies⟩

theorem isWord_of_isDecimal {c : Char} (digit : isDecimal c = true) : isWord c = true := by
  -- Both tables are in increasing order, so one pass over them is enough.
  have inside : leftOver wordRanges digitRanges = [] := by decide +kernel
  by_cases ascii : isAscii c = true
  · simp only [isDecimal, isWord, ascii, if_true] at digit ⊢
    simp [Char.isAlphanum, digit]
  · simp only [isDecimal, isWord, ascii, Bool.false_eq_true, if_false, inRanges, List.any_eq_true,
      Bool.and_eq_true, decide_eq_true_eq] at digit ⊢
    obtain ⟨digits, member, low, high⟩ := digit
    obtain ⟨words, present, left, right⟩ := within_of_leftOver inside member
    exact ⟨words, present, by omega, by omega⟩

theorem isDecimal_of_isIdentStart {c : Char} (start : isIdentStart c = true) : isDecimal c = false := by
  simp only [isIdentStart, Bool.or_eq_true, Bool.and_eq_true, Bool.not_eq_true', beq_iff_eq] at start
  rcases start with ⟨-, other⟩ | rfl
  · exact other
  · decide

theorem isIdentPart_of_isIdentStart {c : Char} (start : isIdentStart c = true) :
    isIdentPart c = true := by
  simp only [isIdentStart, isIdentPart, Bool.or_eq_true, Bool.and_eq_true] at start ⊢
  exact start.imp And.left id

theorem ne_of_isIdentStart {c d : Char} (start : isIdentStart c = true)
    (other : isIdentStart d = false) : c ≠ d := by
  rintro rfl
  rw [start] at other
  cases other

end Characters

section Classes

-- Only behind a zero can a number be in another base.
theorem radixLength_none {c : Char} (digit : isDecimal c = false) (rest : List Char) (lower upper : Char)
    (isDigit : Char → Bool) : radixLength c rest lower upper isDigit = none := by
  have zero : (c == '0') = false := by
    by_contra same
    rw [eq_of_beq (eq_true_of_ne_false same)] at digit
    exact absurd digit (by decide)
  cases rest with
  | nil => rfl
  | cons mark digits => simp [radixLength, zero]

theorem numberLength_none {c : Char} (digit : isDecimal c = false) (dot : c ≠ '.') (rest : List Char) :
    numberLength c rest = none := by
  rw [numberLength, numeralLength, radixLength_none digit, radixLength_none digit, digit,
    beq_false_of_ne dot]
  rfl

theorem numberLength_point (rest : List Char)
    (front : ∀ c, rest.head? = some c → isDecimal c = false) : numberLength '.' rest = none := by
  have digit : isDecimal '.' = false := by decide
  have fraction : rest.head?.any isDecimal = false := (Option.any_eq_false _ _).mpr front
  rw [numberLength, numeralLength, radixLength_none digit, radixLength_none digit, digit, fraction]
  rfl

theorem classify_slash (rest : List Char) :
    classify '/' rest = (comment? rest).or (some (.op, 0)) := by
  have word : isIdentStart '/' = false := by decide
  have mark : punctuation? '/' = some .op := rfl
  simp [classify, numberLength_none (show isDecimal '/' = false by decide), isSourceBlank, mark, word]

theorem classify_quote (rest : List Char) : classify '\x22' rest = quotedLiteral? rest := by
  have word : isIdentStart '\x22' = false := by decide
  have mark : punctuation? '\x22' = none := rfl
  simp [classify, numberLength_none (show isDecimal '\x22' = false by decide), isSourceBlank, mark, word]

theorem classify_apostrophe (rest : List Char) :
    classify '\x27' rest = (throughQuote '\x27' rest).map fun length => (.charLit, length) := by
  have word : isIdentStart '\x27' = false := by decide
  have mark : punctuation? '\x27' = none := rfl
  simp [classify, numberLength_none (show isDecimal '\x27' = false by decide), isSourceBlank, mark, word]

theorem classify_colon (rest : List Char) :
    classify ':' rest = if rest.take 1 == [':'] then some (.dcolon, 1) else some (.op, 0) := by
  have word : isIdentStart ':' = false := by decide
  have mark : punctuation? ':' = some .op := rfl
  simp [classify, numberLength_none (show isDecimal ':' = false by decide), isSourceBlank, mark, word]

theorem classify_dot (rest : List Char) :
    classify '.' rest = ((numberLength '.' rest).map fun length => (.number, length)).or
      (if rest.take 2 == ['.', '.'] then some (.ellipsis, 2) else some (.dot, 0)) := by
  have word : isIdentStart '.' = false := by decide
  have mark : punctuation? '.' = some .dot := rfl
  simp [classify, isSourceBlank, mark, word]

theorem classify_digit {c : Char} (digit : isDecimal c = true) (rest : List Char) :
    classify c rest = (numberLength c rest).map fun length => (.number, length) := by
  have other (d : Char) (not : isDecimal d = false) : c ≠ d := by
    rintro rfl
    rw [digit] at not
    cases not
  have read : (numberLength c rest).isSome = true := by
    simp only [numberLength, numeralLength, digit, if_true, Option.isSome_map, Option.isSome_or,
      Option.isSome_some, Bool.or_true]
  obtain ⟨length, same⟩ := Option.isSome_iff_exists.mp read
  simp [classify, same, other '/' (by decide), other '\x22' (by decide), other '\x27' (by decide)]

theorem classify_blank {c : Char} (blank : isSourceBlank c = true) (rest : List Char) :
    classify c rest = some (.blank, runLength isSourceBlank rest) := by
  have ascii : isDecimal c = false ∧ c ≠ '.' ∧ c ≠ '/' ∧ c ≠ '\x22' ∧ c ≠ '\x27' ∧ c ≠ ':' := by
    simp only [isSourceBlank, Bool.or_eq_true, beq_iff_eq] at blank
    rcases blank with (((rfl | rfl) | rfl) | rfl) | rfl <;> decide
  obtain ⟨digit, dot, slash, quote, apostrophe, colon⟩ := ascii
  simp [classify, numberLength_none digit dot, dot, slash, quote, apostrophe, colon, blank]

theorem classify_word {c : Char} (start : isIdentStart c = true) (rest : List Char) :
    classify c rest = some (.ident, runLength isIdentPart rest) := by
  have other (d : Char) (not : isIdentStart d = false) : c ≠ d := ne_of_isIdentStart start not
  have blank : isSourceBlank c = false := by
    simp [isSourceBlank, other ' ' (by decide), other '\t' (by decide), other '\x0c' (by decide),
      other '\r' (by decide), other '\n' (by decide)]
  simp [classify, numberLength_none (isDecimal_of_isIdentStart start) (other '.' (by decide)),
    other '/' (by decide), other '\x22' (by decide), other '\x27' (by decide), other '.' (by decide),
    other ':' (by decide), blank, start]

theorem classify_mark {c : Char} (marks : c ∉ ['/', '\x22', '\x27', ':', '.'])
    (digit : isDecimal c = false) (blank : isSourceBlank c = false) (word : isIdentStart c = false)
    (rest : List Char) : classify c rest = (punctuation? c).map fun kind => (kind, 0) := by
  simp only [List.mem_cons, List.not_mem_nil, or_false, not_or] at marks
  obtain ⟨slash, quote, apostrophe, colon, dot⟩ := marks
  simp [classify, numberLength_none digit dot, slash, quote, apostrophe, colon, dot, blank, word]

theorem classify_some {c : Char} {rest : List Char} {kind : Kind} {length : Nat}
    (read : classify c rest = some (kind, length)) :
    (c = '/' ∧ comment? rest = some (kind, length)) ∨
      (c = '\x22' ∧ quotedLiteral? rest = some (kind, length)) ∨
      (kind = .charLit ∧ throughQuote '\x27' rest = some length) ∨
      (kind = .number ∧ numberLength c rest = some length) ∨
      (kind = .ellipsis ∧ length = 2 ∧ rest.take 2 = ['.', '.']) ∨
      (kind = .dcolon ∧ length = 1 ∧ rest.take 1 = [':']) ∨
      (kind = .blank ∧ length = runLength isSourceBlank rest) ∨
      (kind = .ident ∧ isIdentStart c = true ∧ length = runLength isIdentPart rest) ∨
      (punctuation? c = some kind ∧ length = 0) := by
  -- In the order in which the classes are tried; from the ellipsis on, each is told by its first
  -- character.
  simp only [classify, Option.or_eq_some_iff, Option.ite_none_right_eq_some,
    Option.map_eq_some_iff, Prod.mk.injEq, beq_iff_eq] at read
  rcases read with comment | ⟨-, quoted | ⟨-, ⟨-, _, quote, rfl, rfl⟩ |
    ⟨-, ⟨_, number, rfl, rfl⟩ | ⟨-, other⟩⟩⟩⟩
  · exact .inl comment
  · exact .inr (.inl quoted)
  · exact .inr (.inr (.inl ⟨rfl, quote⟩))
  · exact .inr (.inr (.inr (.inl ⟨rfl, number⟩)))
  · simp only [Bool.and_eq_true, beq_iff_eq] at other
    split at other
    next dots =>
      cases other
      simp [dots.2]
    next =>
      split at other
      next colons =>
        cases other
        simp [colons.2]
      next =>
        split at other
        next =>
          cases other
          simp
        next =>
          split at other
          next start =>
            cases other
            simp [start]
          next =>
            obtain ⟨_, mark, same⟩ := Option.map_eq_some_iff.mp other
            cases same
            simp [mark]

theorem punctuation?_solid {c : Char} {kind : Kind} (mark : punctuation? c = some kind) :
    kind ≠ .ident ∧ kind.isTrivia = false := by
  unfold punctuation? at mark
  split at mark <;> cases mark <;> decide

end Classes

section Numbers

def Blunt (rest : List Char) : Prop :=
  ∀ c, rest.head? = some c → isIdentPart c = false ∧ c ≠ '.'

variable {c : Char} {tail rest other : List Char}

theorem runLength_same {p : Char → Bool} (inside : runLength p (tail ++ rest) ≤ tail.length)
    (stop : ∀ c, other.head? = some c → p c = false) :
    runLength p (tail ++ other) = runLength p (tail ++ rest) := by
  have none : other.takeWhile p = [] := by
    cases other with
    | nil => rfl
    | cons c other => simp [stop c rfl]
  simp only [runLength, List.takeWhile_append] at inside ⊢
  split
  next all =>
    simp only [all, if_true, List.length_append] at inside
    simp only [none, List.length_append, List.length_nil]
    omega
  next => rfl

theorem isIdentPart_digit {c : Char} (digit : isDigitOrUnderscore c = true) : isIdentPart c = true := by
  simp only [isDigitOrUnderscore, Bool.or_eq_true, beq_iff_eq] at digit
  rcases digit with digit | rfl
  · simp [isIdentPart, isWord_of_isDecimal digit]
  · decide

theorem isIdentPart_hexDigit {c : Char} (digit : isHexDigit c = true) : isIdentPart c = true := by
  have all : (List.range 128).all (fun code =>
      !isHexDigit (Char.ofNat code) || isIdentPart (Char.ofNat code)) = true := by decide +kernel
  have ascii : c.toNat < 128 := by
    simp only [isHexDigit, Char.isDigit, Char.le_def, UInt32.le_iff_toNat_le, Bool.or_eq_true,
      Bool.and_eq_true, decide_eq_true_eq, beq_iff_eq, ge_iff_le] at digit
    rcases digit with letter | rfl
    · simp only [Char.toNat_val, Char.reduceToNat] at letter
      omega
    · decide
  have here := List.all_eq_true.mp all c.toNat (List.mem_range.mpr ascii)
  simpa [Char.ofNat_toNat, digit] using here

theorem isIdentPart_binaryDigit {c : Char} (digit : isBinaryDigit c = true) :
    isIdentPart c = true := by
  simp only [isBinaryDigit, Bool.or_eq_true, beq_iff_eq] at digit
  rcases digit with (rfl | rfl) | rfl <;> decide

theorem Blunt.stops (blunt : Blunt other) {p : Char → Bool}
    (letters : ∀ c, p c = true → isIdentPart c = true) (c : Char) (head : other.head? = some c) :
    p c = false := by
  by_contra passes
  have part := letters c (eq_true_of_ne_false passes)
  rw [(blunt c head).1] at part
  cases part

theorem fractionLength_same (inside : fractionLength (tail ++ rest) ≤ tail.length)
    (blunt : Blunt other) : fractionLength (tail ++ other) = fractionLength (tail ++ rest) := by
  cases tail with
  | nil =>
    have zero : fractionLength rest = 0 := by simpa using inside
    simp only [List.nil_append, zero]
    cases other with
    | nil => rfl
    | cons c other => simp [fractionLength, (blunt c rfl).2]
  | cons c tail =>
    by_cases dot : c = '.'
    · subst dot
      simp only [List.cons_append, fractionLength, List.length_cons] at inside ⊢
      have digits : runLength isDigitOrUnderscore (tail ++ rest) ≤ tail.length := by omega
      rw [runLength_same digits (blunt.stops fun _ => isIdentPart_digit)]
    · simp [fractionLength, dot]

theorem suffixLength_same (inside : suffixLength (tail ++ rest) ≤ tail.length)
    (blunt : Blunt other) : suffixLength (tail ++ other) = suffixLength (tail ++ rest) := by
  cases tail with
  | nil =>
    have zero : suffixLength rest = 0 := by simpa using inside
    simp only [List.nil_append, zero]
    cases other with
    | nil => rfl
    | cons c other =>
      refine if_neg fun found => ?_
      have part : ['l', 'L', 'f', 'F', 'd', 'D'].all isIdentPart = true := by decide
      have letter := List.all_eq_true.mp part c (List.contains_iff_mem.mp found)
      rw [(blunt c rfl).1] at letter
      cases letter
  | cons c tail => rfl

theorem exponentLength_ne_one (text : List Char) : exponentLength text ≠ 1 := by
  fun_cases exponentLength text <;> omega

theorem exponentLength_same (whole : exponentLength (tail ++ rest) +
      suffixLength ((tail ++ rest).drop (exponentLength (tail ++ rest))) = tail.length)
    (blunt : Blunt other) : exponentLength (tail ++ other) = exponentLength (tail ++ rest) := by
  cases tail with
  | nil =>
    have zero : exponentLength rest = 0 := by simp at whole; omega
    simp only [List.nil_append, zero]
    cases other with
    | nil => rfl
    | cons c other =>
      refine if_neg fun found => ?_
      simp only [Bool.or_eq_true, beq_iff_eq] at found
      have part := (blunt c rfl).1
      rcases found with rfl | rfl <;> exact absurd part (by decide)
  | cons e tail =>
    by_cases exponent : e = 'e' ∨ e = 'E'
    · have noSuffix : suffixLength (e :: (tail ++ rest)) = 0 := by
        rcases exponent with rfl | rfl <;> rfl
      have positive : exponentLength (e :: (tail ++ rest)) ≠ 0 := by
        intro zero
        simp [zero, noSuffix] at whole
      have bound : exponentLength (e :: (tail ++ rest)) ≤ tail.length + 1 := by
        simp only [List.cons_append, List.length_cons] at whole
        omega
      have noDigit : ∀ c, other.head? = some c → isDecimal c = false := blunt.stops fun _ digit =>
        isIdentPart_digit (by simp [isDigitOrUnderscore, digit])
      -- The number does not end with the letter, since an exponent has a digit at least.
      cases tail with
      | nil =>
        have more := exponentLength_ne_one (e :: ([] ++ rest))
        simp only [List.length_nil] at bound
        omega
      | cons s tail =>
        simp only [List.cons_append, exponentLength, Bool.or_eq_true, beq_iff_eq, exponent,
          if_true] at positive bound ⊢
        by_cases sign : s = '+' ∨ s = '-'
        · simp only [sign, if_true, List.drop_succ_cons, List.drop_zero] at positive bound ⊢
          have digits : runLength isDecimal (tail ++ rest) ≤ tail.length := by
            simp only [List.length_cons] at bound
            split at bound <;> omega
          rw [runLength_same digits noDigit]
        · simp only [sign, if_false, List.drop_zero] at positive bound ⊢
          have digits : runLength isDecimal ((s :: tail) ++ rest) ≤ (s :: tail).length := by
            simp only [List.length_cons, List.cons_append] at bound ⊢
            split at bound <;> omega
          have same := runLength_same digits noDigit
          simp only [List.cons_append] at same
          rw [same]
    · simp only [List.cons_append, exponentLength, Bool.or_eq_true, beq_iff_eq, exponent, if_false]

theorem radixLength_some {lower upper : Char} {isDigit : Char → Bool} {length : Nat}
    (read : radixLength c rest lower upper isDigit = some length) :
    ∃ mark digits, rest = mark :: digits ∧ (c = '0' ∧ (mark = lower ∨ mark = upper)) ∧
      runLength isDigit digits ≠ 0 ∧ length = 1 + runLength isDigit digits := by
  cases rest with
  | nil => cases read
  | cons mark digits =>
    simp only [radixLength, Option.ite_none_right_eq_some, Option.some.injEq, Bool.and_eq_true,
      Bool.or_eq_true, beq_iff_eq, bne_iff_ne, ne_eq] at read
    exact ⟨mark, digits, rfl, read.1.1, read.1.2, read.2.symm⟩

theorem radixLength_same {lower upper : Char} {isDigit : Char → Bool}
    (letters : ∀ mark, mark = lower ∨ mark = upper → isIdentPart mark = true)
    (digits : ∀ c, isDigit c = true → isIdentPart c = true)
    (inside : ∀ length, radixLength c (tail ++ rest) lower upper isDigit = some length →
      length ≤ tail.length) (blunt : Blunt other) :
    radixLength c (tail ++ other) lower upper isDigit =
      radixLength c (tail ++ rest) lower upper isDigit := by
  cases tail with
  -- The zero stands alone, and the letter that would give it a radix is not there.
  | nil =>
    have before : radixLength c rest lower upper isDigit = none := by
      by_contra read
      obtain ⟨length, read⟩ := Option.ne_none_iff_exists'.mp read
      have zero := inside length read
      obtain ⟨_, _, -, -, -, rfl⟩ := radixLength_some read
      simp at zero
    have after : radixLength c other lower upper isDigit = none := by
      by_contra read
      obtain ⟨length, read⟩ := Option.ne_none_iff_exists'.mp read
      obtain ⟨mark, _, rfl, ⟨-, marks⟩, -⟩ := radixLength_some read
      have part := letters mark marks
      rw [(blunt mark rfl).1] at part
      cases part
    simp only [List.nil_append, before, after]
  | cons mark tail =>
    have same : runLength isDigit (tail ++ other) = runLength isDigit (tail ++ rest) ∨
        ¬ (c = '0' ∧ (mark = lower ∨ mark = upper)) := by
      by_cases marked : c = '0' ∧ (mark = lower ∨ mark = upper)
      · refine .inl (runLength_same ?_ (blunt.stops digits))
        by_cases none : runLength isDigit (tail ++ rest) = 0
        · omega
        · have bound := inside (1 + runLength isDigit (tail ++ rest)) (by
            simp [radixLength, marked, none])
          simp only [List.length_cons] at bound
          omega
      · exact .inr marked
    rcases same with same | unmarked
    · simp only [List.cons_append, radixLength, same]
    · simp [radixLength, unmarked]

-- What comes after the first digits, up to a suffix: the front of the number has `length` places.
theorem exponentLength_behind {length : Nat} (inside : length ≤ tail.length)
    (whole : length + exponentLength ((tail ++ rest).drop length) + suffixLength ((tail ++ rest).drop
      (length + exponentLength ((tail ++ rest).drop length))) = tail.length) (blunt : Blunt other) :
    exponentLength ((tail ++ other).drop length) = exponentLength ((tail ++ rest).drop length) := by
  rw [← List.drop_drop] at whole
  rw [List.drop_append_of_le_length inside] at whole ⊢
  rw [List.drop_append_of_le_length inside]
  refine exponentLength_same ?_ blunt
  rw [List.length_drop]
  omega

def decimalLength (c : Char) (rest : List Char) : Option Nat :=
  if isDecimal c then
    let whole := runLength isDigitOrUnderscore rest
    let fraction := fractionLength (rest.drop whole)
    some (whole + fraction + exponentLength (rest.drop (whole + fraction)))
  else if c == '.' && rest.head?.any isDecimal then
    let fraction := runLength isDigitOrUnderscore rest
    some (fraction + exponentLength (rest.drop fraction))
  else none

theorem numeralLength_eq (c : Char) (rest : List Char) :
    numeralLength c rest = (radixLength c rest 'x' 'X' isHexDigit).or
      ((radixLength c rest 'b' 'B' isBinaryDigit).or (decimalLength c rest)) := rfl

theorem decimalLength_same {length : Nat} (read : decimalLength c (tail ++ rest) = some length)
    (whole : length + suffixLength ((tail ++ rest).drop length) = tail.length) (blunt : Blunt other) :
    decimalLength c (tail ++ other) = some length := by
  have stops := blunt.stops fun _ => isIdentPart_digit
  rw [decimalLength] at read ⊢
  split at read
  next digit =>
    have length_eq := Option.some.inj read
    subst length_eq
    have first : runLength isDigitOrUnderscore (tail ++ rest) ≤ tail.length := by omega
    rw [if_pos digit, runLength_same first stops]
    generalize runLength isDigitOrUnderscore (tail ++ rest) = places at *
    have fraction : fractionLength ((tail ++ other).drop places) =
        fractionLength ((tail ++ rest).drop places) := by
      rw [List.drop_append_of_le_length first, List.drop_append_of_le_length first]
      refine fractionLength_same ?_ blunt
      rw [List.length_drop, ← List.drop_append_of_le_length first]
      omega
    dsimp only
    rw [fraction, exponentLength_behind (by omega) whole blunt]
  next noDigit =>
    split at read
    next point =>
      have length_eq := Option.some.inj read
      subst length_eq
      have first : runLength isDigitOrUnderscore (tail ++ rest) ≤ tail.length := by omega
      -- The digit behind the point is in the number, so it stands there still.
      have head : (tail ++ other).head? = (tail ++ rest).head? := by
        cases tail with
        | nil =>
          cases rest with
          | nil => simp at point
          | cons d rest => simp_all [runLength, isDigitOrUnderscore]
        | cons d tail => rfl
      rw [if_neg noDigit, head, if_pos point]
      dsimp only
      rw [runLength_same first stops, exponentLength_behind first whole blunt]
    next => cases read

theorem numeralLength_same {length : Nat} (read : numeralLength c (tail ++ rest) = some length)
    (whole : length + suffixLength ((tail ++ rest).drop length) = tail.length) (blunt : Blunt other) :
    numeralLength c (tail ++ other) = some length := by
  have hex : radixLength c (tail ++ other) 'x' 'X' isHexDigit =
      radixLength c (tail ++ rest) 'x' 'X' isHexDigit := by
    refine radixLength_same (by rintro mark (rfl | rfl) <;> decide) (fun _ => isIdentPart_hexDigit)
      ?_ blunt
    intro found is
    rw [numeralLength, is] at read
    cases read
    omega
  have binary (decimal : radixLength c (tail ++ rest) 'x' 'X' isHexDigit = none) :
      radixLength c (tail ++ other) 'b' 'B' isBinaryDigit =
        radixLength c (tail ++ rest) 'b' 'B' isBinaryDigit := by
    refine radixLength_same (by rintro mark (rfl | rfl) <;> decide)
      (fun _ => isIdentPart_binaryDigit) ?_ blunt
    intro found is
    rw [numeralLength, decimal, is] at read
    cases read
    omega
  -- What was read tells which of the three forms the number has, and it keeps that form.
  rw [numeralLength_eq] at read ⊢
  rw [hex]
  cases isHex : radixLength c (tail ++ rest) 'x' 'X' isHexDigit with
  | some found => simpa [isHex] using read
  | none =>
    rw [binary isHex]
    cases isBinary : radixLength c (tail ++ rest) 'b' 'B' isBinaryDigit with
    | some found => simpa [isHex, isBinary] using read
    | none =>
      rw [isHex, isBinary, Option.none_or, Option.none_or] at read
      rw [Option.none_or, Option.none_or, decimalLength_same read whole blunt]

theorem numberLength_same (read : numberLength c (tail ++ rest) = some tail.length)
    (blunt : Blunt other) : numberLength c (tail ++ other) = some tail.length := by
  simp only [numberLength, Option.map_eq_some_iff] at read
  obtain ⟨length, numeral, whole⟩ := read
  rw [numberLength, numeralLength_same numeral whole blunt, Option.map_some]
  have inside : length ≤ tail.length := by omega
  rw [List.drop_append_of_le_length inside] at whole ⊢
  have suffix : suffixLength (tail.drop length ++ rest) ≤ (tail.drop length).length := by
    rw [List.length_drop]
    omega
  rw [suffixLength_same suffix blunt, whole]

end Numbers

end Lexer

end Specializer
