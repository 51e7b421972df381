import Specializer.Proofs.Munch
import Specializer.Proofs.Relocation

set_option autoImplicit false

namespace Specializer

namespace Lexer

section Closed

variable {tail rest other : List Char}

theorem throughCommentEnd_cons (c : Char) (text : List Char) :
    throughCommentEnd (c :: text) =
      if c = '*' ∧ text.head? = some '/' then some 2 else (throughCommentEnd text).map (· + 1) := by
  split
  next ends =>
    obtain ⟨rfl, head⟩ := ends
    obtain ⟨more, rfl⟩ := List.head?_eq_some_iff.mp head
    rfl
  next goesOn =>
    refine throughCommentEnd.eq_2 c text fun more star slash => goesOn ⟨star, ?_⟩
    rw [slash]
    rfl

theorem throughCommentEnd_ge {text : List Char} {length : Nat}
    (read : throughCommentEnd text = some length) : 2 ≤ length := by
  induction text generalizing length with
  | nil => cases read
  | cons c text ih =>
    rw [throughCommentEnd_cons] at read
    split at read
    · cases read
      omega
    · obtain ⟨before, found, rfl⟩ := Option.map_eq_some_iff.mp read
      have two := ih found
      omega

theorem throughCommentEnd_same (read : throughCommentEnd (tail ++ rest) = some tail.length) :
    throughCommentEnd (tail ++ other) = some tail.length := by
  induction tail with
  | nil =>
    have two := throughCommentEnd_ge read
    simp at two
  | cons c tail ih =>
    rw [List.cons_append, throughCommentEnd_cons] at read ⊢
    split at read
    next ends =>
      obtain ⟨d, rfl⟩ : ∃ d, tail = [d] := List.length_eq_one_iff.mp (by simpa using read.symm)
      rw [if_pos (by simpa using ends)]
      rfl
    next goesOn =>
      obtain ⟨length, found, same⟩ := Option.map_eq_some_iff.mp read
      simp only [List.length_cons, Nat.add_right_cancel_iff] at same
      subst same
      obtain ⟨d, more, rfl⟩ : ∃ d more, tail = d :: more := by
        have two := throughCommentEnd_ge found
        cases tail with
        | nil => simp at two
        | cons d more => exact ⟨d, more, rfl⟩
      rw [if_neg (by simpa using goesOn), ih found]
      rfl

theorem throughQuote_ge {quote : Char} {text : List Char} {length : Nat}
    (read : throughQuote quote text = some length) : 1 ≤ length := by
  fun_cases throughQuote quote text <;> simp_all [throughQuote] <;> omega

theorem throughQuote_plain {c : Char} (plain : c ≠ '\\') (quote : Char) (text : List Char) :
    throughQuote quote (c :: text) =
      if c == quote then some 1
      else if c == '\\' || c == '\r' || c == '\n' then none
      else (throughQuote quote text).map (· + 1) :=
  throughQuote.eq_2 quote c text fun _ _ escape _ => plain escape

theorem throughQuote_same {quote : Char} (plain : quote ≠ '\\')
    (read : throughQuote quote (tail ++ rest) = some tail.length) :
    throughQuote quote (tail ++ other) = some tail.length := by
  -- On the length: a backslash takes the next character with it.
  induction size : tail.length using Nat.strongRecOn generalizing tail with
  | _ size ih =>
    subst size
    cases tail with
    | nil =>
      have one := throughQuote_ge read
      simp at one
    | cons c tail =>
      by_cases escape : c = '\\'
      · subst escape
        cases tail with
        | nil =>
          cases rest with
          | nil => simp [throughQuote, plain.symm] at read
          | cons d rest =>
            simp only [List.cons_append, List.nil_append, throughQuote] at read
            split at read
            · cases read
            · simp at read
        | cons d tail =>
          simp only [List.cons_append, throughQuote] at read ⊢
          split at read
          next => cases read
          next sameLine =>
            obtain ⟨length, found, same⟩ := Option.map_eq_some_iff.mp read
            simp only [List.length_cons, Nat.add_right_cancel_iff] at same
            rw [if_neg sameLine, ih tail.length (by simp only [List.length_cons]; omega) (same ▸ found) rfl]
            rfl
      · rw [List.cons_append, throughQuote_plain escape] at read ⊢
        split at read
        next ends => rw [if_pos ends, read]
        next goesOn =>
          split at read
          next => cases read
          next sameLine =>
            obtain ⟨length, found, same⟩ := Option.map_eq_some_iff.mp read
            simp only [List.length_cons, Nat.add_right_cancel_iff] at same
            rw [if_neg goesOn, if_neg sameLine, ih tail.length (by simp) (same ▸ found) rfl]
            rfl

theorem throughTripleQuote_ge {previous : Char} {text : List Char} {length : Nat}
    (read : throughTripleQuote previous text = some length) : 3 ≤ length := by
  induction text generalizing previous length with
  | nil => cases read
  | cons c text ih =>
    rw [throughTripleQuote] at read
    split at read
    · cases read
      omega
    · obtain ⟨before, found, rfl⟩ := Option.map_eq_some_iff.mp read
      have three := ih found
      omega

theorem throughTripleQuote_same {previous : Char}
    (read : throughTripleQuote previous (tail ++ rest) = some tail.length) :
    throughTripleQuote previous (tail ++ other) = some tail.length := by
  induction tail generalizing previous with
  | nil =>
    have three := throughTripleQuote_ge read
    simp at three
  | cons c tail ih =>
    have two : 2 ≤ tail.length := by
      have three := throughTripleQuote_ge read
      simp only [List.length_cons] at three
      omega
    rw [List.cons_append, throughTripleQuote] at read ⊢
    rw [List.take_append_of_le_length two] at read ⊢
    split at read
    next ends => rw [if_pos ends, read]
    next goesOn =>
      obtain ⟨length, found, same⟩ := Option.map_eq_some_iff.mp read
      simp only [List.length_cons, Nat.add_right_cancel_iff] at same
      rw [if_neg goesOn, ih (same ▸ found)]
      rfl

theorem comment?_doc (rest : List Char) (front : rest.head? ≠ some '/') :
    comment? ('*' :: '*' :: rest) =
      (throughCommentEnd rest).map fun length => (.docComment, length + 2) :=
  comment?.eq_2 rest fun more slash => front (by rw [slash]; rfl)

theorem comment?_block (rest : List Char) (front : rest.head? ≠ some '*') :
    comment? ('*' :: rest) = (throughCommentEnd rest).map fun length => (.blockComment, length + 1) :=
  comment?.eq_3 rest (fun more star => front (by rw [star]; rfl))
    fun more star => front (by rw [star]; rfl)

theorem comment?_some {kind : Kind} {length : Nat} (read : comment? rest = some (kind, length)) :
    (kind = .blockComment ∧ length = 3 ∧ ∃ more, rest = '*' :: '*' :: '/' :: more) ∨
      (kind = .docComment ∧ ∃ more within, rest = '*' :: '*' :: more ∧ more.head? ≠ some '/' ∧
        throughCommentEnd more = some within ∧ length = within + 2) ∨
      (kind = .blockComment ∧ ∃ more within, rest = '*' :: more ∧ more.head? ≠ some '*' ∧
        throughCommentEnd more = some within ∧ length = within + 1) ∨
      (kind = .lineComment ∧ ∃ more, rest = '/' :: more ∧
        length = 1 + runLength (· != '\n') more) := by
  fun_cases comment? rest with
  | case1 more =>
    cases read
    exact .inl ⟨rfl, rfl, more, rfl⟩
  | case2 more front =>
    have opens : more.head? ≠ some '/' := fun head => by
      obtain ⟨rest, rfl⟩ := List.head?_eq_some_iff.mp head
      exact front rest rfl
    rw [comment?_doc more opens] at read
    obtain ⟨within, closed, same⟩ := Option.map_eq_some_iff.mp read
    cases same
    exact .inr (.inl ⟨rfl, more, within, rfl, opens, closed, rfl⟩)
  | case3 more front front' =>
    have opens : more.head? ≠ some '*' := fun head => by
      obtain ⟨rest, rfl⟩ := List.head?_eq_some_iff.mp head
      exact front' rest rfl
    rw [comment?_block more opens] at read
    obtain ⟨within, closed, same⟩ := Option.map_eq_some_iff.mp read
    cases same
    exact .inr (.inr (.inl ⟨rfl, more, within, rfl, opens, closed, rfl⟩))
  | case4 more =>
    cases read
    exact .inr (.inr (.inr ⟨rfl, more, rfl, rfl⟩))
  | case5 => simp_all [comment?]

theorem split_front (front : List Char) {more : List Char} (same : tail ++ rest = front ++ more)
    (bound : front.length ≤ tail.length) : ∃ inner, tail = front ++ inner ∧ more = inner ++ rest := by
  obtain ⟨inner, rfl⟩ : front <+: tail :=
    List.prefix_of_prefix_length_le (same ▸ List.prefix_append front more)
      (List.prefix_append tail rest) bound
  rw [List.append_assoc] at same
  exact ⟨inner, rfl, (List.append_cancel_left same).symm⟩

theorem comment?_same {kind : Kind} (read : comment? (tail ++ rest) = some (kind, tail.length))
    (line : kind = .lineComment → ∀ c, other.head? = some c → c = '\n') :
    comment? (tail ++ other) = some (kind, tail.length) := by
  rcases comment?_some read with ⟨rfl, three, more, same⟩ |
    ⟨rfl, more, within, same, front, closed, length⟩ |
    ⟨rfl, more, within, same, front, closed, length⟩ | ⟨rfl, more, same, length⟩
  · obtain ⟨inner, rfl, -⟩ := split_front ['*', '*', '/'] same (by simp [three])
    obtain rfl : inner = [] := by simpa using three
    rfl
  · have two := throughCommentEnd_ge closed
    obtain ⟨inner, rfl, rfl⟩ := split_front ['*', '*'] same (by simp [length])
    obtain rfl : within = inner.length := by simpa using length.symm
    cases inner with
    | nil => simp at two
    | cons d inner =>
      have doc := comment?_doc (d :: inner ++ other) front
      rw [throughCommentEnd_same closed] at doc
      exact doc
  · have two := throughCommentEnd_ge closed
    obtain ⟨inner, rfl, rfl⟩ := split_front ['*'] same (by simp [length])
    obtain rfl : within = inner.length := by simpa using length.symm
    cases inner with
    | nil => simp at two
    | cons d inner =>
      have block := comment?_block (d :: inner ++ other) front
      rw [throughCommentEnd_same closed] at block
      exact block
  -- A line comment is the only one that has no end of its own.
  · obtain ⟨inner, rfl, rfl⟩ := split_front ['/'] same (by simp [length])
    have run : runLength (· != '\n') (inner ++ rest) = inner.length := by
      simp only [List.cons_append, List.nil_append, List.length_cons] at length
      omega
    have same : runLength (· != '\n') (inner ++ other) = runLength (· != '\n') (inner ++ rest) :=
      runLength_same (Nat.le_of_eq run) fun c head => by simp [line rfl c head]
    simp only [List.cons_append, List.nil_append, comment?, same, run, List.length_cons]
    rw [Nat.add_comm]

theorem comment?_none (front : ∀ c, other.head? = some c → c ≠ '/' ∧ c ≠ '*') :
    comment? other = none := by
  cases other with
  | nil => rfl
  | cons c other =>
    obtain ⟨slash, star⟩ := front c rfl
    simp [comment?, slash, star]

theorem quotedLiteral?_some {kind : Kind} {length : Nat}
    (read : quotedLiteral? rest = some (kind, length)) :
    (kind = .textBlock ∧ ∃ more within, rest = '\x22' :: '\x22' :: more ∧
        throughTripleQuote '\x22' more = some within ∧ length = within + 2) ∨
      (kind = .string ∧ throughQuote '\x22' rest = some length) := by
  simp only [quotedLiteral?, Option.or_eq_some_iff, Option.map_eq_some_iff, Prod.mk.injEq,
    Option.ite_none_right_eq_some, beq_iff_eq] at read
  rcases read with ⟨opens, within, closed, rfl, rfl⟩ | ⟨-, within, closed, rfl, rfl⟩
  · refine .inl ⟨rfl, rest.drop 2, within, ?_, closed, rfl⟩
    rw [← List.take_append_drop 2 rest, opens]
    rfl
  · exact .inr ⟨rfl, closed⟩

theorem quotedLiteral?_block {within : Nat} (closed : throughTripleQuote '\x22' rest = some within) :
    quotedLiteral? ('\x22' :: '\x22' :: rest) = some (.textBlock, within + 2) := by
  simp [quotedLiteral?, closed]

theorem quotedLiteral?_string {length : Nat} (closed : throughQuote '\x22' rest = some length)
    (single : rest.take 2 ≠ ['\x22', '\x22']) : quotedLiteral? rest = some (.string, length) := by
  simp [quotedLiteral?, closed, single]

theorem quotedLiteral?_same {kind : Kind}
    (read : quotedLiteral? (tail ++ rest) = some (kind, tail.length))
    (string : kind = .string → tail = ['\x22'] → other.head? ≠ some '\x22') :
    quotedLiteral? (tail ++ other) = some (kind, tail.length) := by
  rcases quotedLiteral?_some read with ⟨rfl, more, within, same, closed, length⟩ | ⟨rfl, closed⟩
  · obtain ⟨inner, rfl, rfl⟩ := split_front ['\x22', '\x22'] same (by simp [length])
    obtain rfl : within = inner.length := by simpa using length.symm
    exact quotedLiteral?_block (throughTripleQuote_same closed)
  · refine quotedLiteral?_string (throughQuote_same (by decide) closed) fun double => ?_
    -- Two quotation marks in front close the string, so there is no more of it than the second.
    cases tail with
    | nil =>
      have one := throughQuote_ge closed
      simp at one
    | cons c tail =>
      simp only [List.cons_append, List.take_succ_cons, List.cons.injEq] at double
      obtain ⟨rfl, double⟩ := double
      rw [List.cons_append, throughQuote_plain (by decide)] at closed
      simp only [beq_self_eq_true, if_true, List.length_cons, Option.some.injEq] at closed
      obtain rfl : tail = [] := List.length_eq_zero_iff.mp (by omega)
      refine string rfl rfl ?_
      cases other with
      | nil => simp at double
      | cons d other => simpa using double

end Closed

end Lexer

def Lexeme.stopsAt (lexeme : Lexeme) (c : Char) : Bool :=
  match lexeme.kind with
  | .ident => !isIdentPart c
  | .number => !isIdentPart c && c != '.'
  | .string => lexeme.text != ['\x22', '\x22'] || c != '\x22'
  | .dot => !isDecimal c && c != '.'
  | .op => !(lexeme.text == [':'] && c == ':') && !(lexeme.text == ['/'] && (c == '/' || c == '*'))
  | .lineComment => c == '\n'
  | _ => true

def Lexeme.Stops (lexeme : Lexeme) (rest : List Char) : Prop :=
  ∀ c, rest.head? = some c → lexeme.stopsAt c = true

namespace Lexer

/-- The text of a token is read as that token in front of any text that it stops at. -/
inductive Whole : Lexeme → Prop
  | blanks {text : List Char} (present : text ≠ []) (all : ∀ c ∈ text, isSourceBlank c = true) :
      Whole ⟨.blank, text⟩
  | solid {kind : Kind} {c : Char} {tail : List Char} (other : kind ≠ .blank)
      (read : ∀ rest, Lexeme.Stops ⟨kind, c :: tail⟩ rest →
        classify c (tail ++ rest) = some (kind, tail.length)) : Whole ⟨kind, c :: tail⟩

theorem runLength_all {p : Char → Bool} {tail rest : List Char}
    (run : runLength p (tail ++ rest) = tail.length) : ∀ c ∈ tail, p c = true := by
  rw [runLength, List.takeWhile_append] at run
  split at run
  next all =>
    intro c member
    rw [← (List.takeWhile_prefix p).eq_of_length all] at member
    exact List.mem_takeWhile_imp member
  next some => exact absurd run some

section Classes

variable {kind : Kind} {c : Char} {tail rest : List Char}

theorem whole_slash (read : classify '/' (tail ++ rest) = some (kind, tail.length)) :
    Whole ⟨kind, '/' :: tail⟩ := by
  rw [classify_slash] at read
  cases comment : comment? (tail ++ rest) with
  | none =>
    simp only [comment, Option.none_or, Option.some.injEq, Prod.mk.injEq] at read
    obtain ⟨rfl, empty⟩ := read
    obtain rfl := List.length_eq_zero_iff.mp empty.symm
    refine .solid (by decide) fun other stops => ?_
    -- A slash stops where no comment begins.
    have none : comment? other = none := comment?_none fun c head => by
      simpa [Lexeme.stopsAt] using stops c head
    rw [classify_slash, List.nil_append, none]
    rfl
  | some found =>
    simp only [comment, Option.some_or, Option.some.injEq] at read
    subst read
    have solid : kind ≠ .blank := by
      rintro rfl
      simpa using comment?_some comment
    refine .solid solid fun other stops => ?_
    rw [classify_slash, comment?_same comment ?_]
    · rfl
    -- Only a line comment depends on what is behind it.
    · rintro rfl c head
      simpa [Lexeme.stopsAt] using stops c head

theorem whole_quote (read : classify '\x22' (tail ++ rest) = some (kind, tail.length)) :
    Whole ⟨kind, '\x22' :: tail⟩ := by
  rw [classify_quote] at read
  have solid : kind ≠ .blank := by
    rintro rfl
    simpa using quotedLiteral?_some read
  refine .solid solid fun other stops => ?_
  rw [classify_quote]
  refine quotedLiteral?_same read ?_
  -- The empty string would open a text block with another quote behind it.
  rintro rfl rfl head
  simpa [Lexeme.stopsAt] using stops _ head

theorem whole_apostrophe (read : classify '\x27' (tail ++ rest) = some (kind, tail.length)) :
    Whole ⟨kind, '\x27' :: tail⟩ := by
  rw [classify_apostrophe] at read
  obtain ⟨length, through, same⟩ := Option.map_eq_some_iff.mp read
  obtain ⟨rfl, rfl⟩ := Prod.mk.inj same
  refine .solid (by decide) fun other _ => ?_
  rw [classify_apostrophe, throughQuote_same (by decide) through]
  rfl

theorem whole_colon (read : classify ':' (tail ++ rest) = some (kind, tail.length)) :
    Whole ⟨kind, ':' :: tail⟩ := by
  rw [classify_colon] at read
  split at read
  next double =>
    obtain ⟨rfl, one⟩ := Prod.mk.inj (Option.some.inj read)
    obtain ⟨d, rfl⟩ := List.length_eq_one_iff.mp one.symm
    obtain rfl : d = ':' := by simpa using double
    refine .solid (by decide) fun other _ => ?_
    rw [classify_colon]
    rfl
  next =>
    obtain ⟨rfl, none⟩ := Prod.mk.inj (Option.some.inj read)
    obtain rfl := List.length_eq_zero_iff.mp none.symm
    refine .solid (by decide) fun other stops => ?_
    rw [classify_colon, if_neg]
    · rfl
    · cases other with
      | nil => simp
      | cons d other => simpa [Lexeme.stopsAt] using stops d rfl

theorem whole_dot (read : classify '.' (tail ++ rest) = some (kind, tail.length)) :
    Whole ⟨kind, '.' :: tail⟩ := by
  rw [classify_dot] at read
  cases number : numberLength '.' (tail ++ rest) with
  | some length =>
    simp only [number, Option.map_some, Option.some_or, Option.some.injEq, Prod.mk.injEq] at read
    obtain ⟨rfl, rfl⟩ := read
    refine .solid (by decide) fun other stops => ?_
    rw [classify_dot, numberLength_same number]
    · rfl
    · intro d head
      simpa [Lexeme.stopsAt] using stops d head
  | none =>
    simp only [number, Option.map_none, Option.none_or] at read
    split at read
    -- Three dots are read as one mark, whatever comes after them.
    next three =>
      obtain ⟨rfl, two⟩ := Prod.mk.inj (Option.some.inj read)
      obtain rfl : tail = ['.', '.'] := by
        rw [← eq_of_beq three, two, List.take_left]
      refine .solid (by decide) fun other _ => ?_
      rw [classify_dot, numberLength_point _ (by simp; decide)]
      rfl
    next =>
      obtain ⟨rfl, none⟩ := Prod.mk.inj (Option.some.inj read)
      obtain rfl := List.length_eq_zero_iff.mp none.symm
      refine .solid (by decide) fun other stops => ?_
      have front : ∀ d, other.head? = some d → isDecimal d = false ∧ d ≠ '.' := fun d head => by
        simpa [Lexeme.stopsAt] using stops d head
      rw [classify_dot, List.nil_append, numberLength_point other fun d head => (front d head).1,
        if_neg]
      · rfl
      · cases other with
        | nil => simp
        | cons d other => simp [(front d rfl).2]

theorem whole_digit (digit : isDecimal c = true)
    (read : classify c (tail ++ rest) = some (kind, tail.length)) : Whole ⟨kind, c :: tail⟩ := by
  rw [classify_digit digit] at read
  obtain ⟨length, number, same⟩ := Option.map_eq_some_iff.mp read
  obtain ⟨rfl, rfl⟩ := Prod.mk.inj same
  refine .solid (by decide) fun other stops => ?_
  rw [classify_digit digit, numberLength_same number]
  · rfl
  · intro d head
    simpa [Lexeme.stopsAt] using stops d head

theorem whole_blank (blank : isSourceBlank c = true)
    (read : classify c (tail ++ rest) = some (kind, tail.length)) : Whole ⟨kind, c :: tail⟩ := by
  rw [classify_blank blank] at read
  obtain ⟨rfl, run⟩ := Prod.mk.inj (Option.some.inj read)
  refine .blanks (List.cons_ne_nil _ _) fun d member => ?_
  rcases List.mem_cons.mp member with rfl | later
  · exact blank
  · exact runLength_all run d later

theorem whole_word (word : isIdentStart c = true)
    (read : classify c (tail ++ rest) = some (kind, tail.length)) : Whole ⟨kind, c :: tail⟩ := by
  rw [classify_word word] at read
  obtain ⟨rfl, run⟩ := Prod.mk.inj (Option.some.inj read)
  refine .solid (by decide) fun other stops => ?_
  rw [classify_word word, runLength_same (Nat.le_of_eq run), run]
  intro d head
  simpa [Lexeme.stopsAt] using stops d head

theorem whole_mark (plain : ∀ rest, classify c rest = (punctuation? c).map fun kind => (kind, 0))
    (read : classify c (tail ++ rest) = some (kind, tail.length)) : Whole ⟨kind, c :: tail⟩ := by
  rw [plain] at read
  obtain ⟨found, punctuation, same⟩ := Option.map_eq_some_iff.mp read
  obtain ⟨rfl, none⟩ := Prod.mk.inj same
  obtain rfl := List.length_eq_zero_iff.mp none.symm
  refine .solid ?_ fun other _ => ?_
  · rintro rfl
    exact absurd (punctuation?_solid punctuation).2 (by decide)
  · rw [plain, punctuation]
    rfl

theorem whole_of_classify (read : classify c (tail ++ rest) = some (kind, tail.length)) :
    Whole ⟨kind, c :: tail⟩ := by
  -- The first character tells the class, in the order in which they are tried.
  by_cases mark : c ∈ ['/', '\x22', '\x27', ':', '.']
  · simp only [List.mem_cons, List.not_mem_nil, or_false] at mark
    rcases mark with rfl | rfl | rfl | rfl | rfl
    · exact whole_slash read
    · exact whole_quote read
    · exact whole_apostrophe read
    · exact whole_colon read
    · exact whole_dot read
  · by_cases digit : isDecimal c = true
    · exact whole_digit digit read
    · by_cases blank : isSourceBlank c = true
      · exact whole_blank blank read
      · by_cases word : isIdentStart c = true
        · exact whole_word word read
        · exact whole_mark (classify_mark mark (Bool.eq_false_iff.mpr digit)
            (Bool.eq_false_iff.mpr blank) (Bool.eq_false_iff.mpr word)) read

end Classes

section Bounds

variable {c : Char} {rest : List Char}

theorem runLength_le (p : Char → Bool) (text : List Char) : runLength p text ≤ text.length :=
  (List.takeWhile_prefix p).length_le

theorem throughCommentEnd_le {length : Nat} (read : throughCommentEnd rest = some length) :
    length ≤ rest.length := by
  induction rest generalizing length with
  | nil => cases read
  | cons c rest ih =>
    rw [throughCommentEnd_cons] at read
    split at read
    next ends =>
      obtain ⟨more, rfl⟩ := List.head?_eq_some_iff.mp ends.2
      cases read
      simp
    next =>
      obtain ⟨within, found, rfl⟩ := Option.map_eq_some_iff.mp read
      exact Nat.succ_le_succ (ih found)

theorem throughTripleQuote_le {previous : Char} {length : Nat}
    (read : throughTripleQuote previous rest = some length) : length ≤ rest.length := by
  induction rest generalizing previous length with
  | nil => cases read
  | cons c rest ih =>
    rw [throughTripleQuote] at read
    split at read
    next ends =>
      simp only [Bool.and_eq_true, beq_iff_eq] at ends
      have two := congrArg List.length ends.2
      simp only [List.length_take, List.length_cons, List.length_nil] at two
      cases read
      simp only [List.length_cons]
      omega
    next =>
      obtain ⟨within, found, rfl⟩ := Option.map_eq_some_iff.mp read
      exact Nat.succ_le_succ (ih found)

theorem throughQuote_le {quote : Char} {length : Nat}
    (read : throughQuote quote rest = some length) : length ≤ rest.length := by
  fun_induction throughQuote quote rest generalizing length with
  | case1 => cases read
  | case2 c rest sameLine ih =>
    obtain ⟨within, found, rfl⟩ := Option.map_eq_some_iff.mp read
    exact Nat.succ_le_succ (Nat.succ_le_succ (ih found))
  | case3 =>
    cases read
    simp
  | case4 => cases read
  | case5 c rest _ _ _ ih =>
    obtain ⟨within, found, rfl⟩ := Option.map_eq_some_iff.mp read
    exact Nat.succ_le_succ (ih found)
  | case6 => cases read

theorem fractionLength_le (text : List Char) : fractionLength text ≤ text.length := by
  fun_cases fractionLength text with
  | case1 rest =>
    have bound := runLength_le isDigitOrUnderscore rest
    simp only [List.length_cons]
    omega
  | case2 => exact Nat.zero_le _

theorem suffixLength_le (text : List Char) : suffixLength text ≤ text.length := by
  fun_cases suffixLength text <;> simp

theorem exponentLength_le (text : List Char) : exponentLength text ≤ text.length := by
  fun_cases exponentLength text with
  | case2 e rest exponent sign digits some =>
    have bound := runLength_le isDecimal (rest.drop sign)
    rw [List.length_drop] at bound
    simp only [List.length_cons]
    omega
  | case1 | case3 | case4 => exact Nat.zero_le _

theorem numeralLength_le {length : Nat} (read : numeralLength c rest = some length) :
    length ≤ rest.length := by
  simp only [numeralLength, Option.or_eq_some_iff] at read
  rcases read with hex | ⟨-, binary | ⟨-, decimal⟩⟩
  · obtain ⟨mark, digits, rfl, -, -, rfl⟩ := radixLength_some hex
    have bound := runLength_le isHexDigit digits
    simp only [List.length_cons]
    omega
  · obtain ⟨mark, digits, rfl, -, -, rfl⟩ := radixLength_some binary
    have bound := runLength_le isBinaryDigit digits
    simp only [List.length_cons]
    omega
  · have places := runLength_le isDigitOrUnderscore rest
    split at decimal
    next =>
      cases decimal
      have fraction := fractionLength_le (rest.drop (runLength isDigitOrUnderscore rest))
      have exponent := exponentLength_le (rest.drop (runLength isDigitOrUnderscore rest +
        fractionLength (rest.drop (runLength isDigitOrUnderscore rest))))
      simp only [List.length_drop] at fraction exponent
      omega
    next =>
      split at decimal
      next =>
        cases decimal
        have exponent := exponentLength_le (rest.drop (runLength isDigitOrUnderscore rest))
        simp only [List.length_drop] at exponent
        omega
      next => cases decimal

theorem numberLength_le {length : Nat} (read : numberLength c rest = some length) :
    length ≤ rest.length := by
  obtain ⟨within, numeral, rfl⟩ := Option.map_eq_some_iff.mp read
  have bound := numeralLength_le numeral
  have suffix := suffixLength_le (rest.drop within)
  rw [List.length_drop] at suffix
  omega

theorem comment?_le {kind : Kind} {length : Nat} (read : comment? rest = some (kind, length)) :
    length ≤ rest.length := by
  rcases comment?_some read with ⟨-, rfl, more, rfl⟩ | ⟨-, more, within, rfl, -, closed, rfl⟩ |
    ⟨-, more, within, rfl, -, closed, rfl⟩ | ⟨-, more, rfl, rfl⟩
  · simp
  · exact Nat.succ_le_succ (Nat.succ_le_succ (throughCommentEnd_le closed))
  · exact Nat.succ_le_succ (throughCommentEnd_le closed)
  · have bound := runLength_le (· != '\n') more
    simp only [List.length_cons]
    omega

theorem quotedLiteral?_le {kind : Kind} {length : Nat}
    (read : quotedLiteral? rest = some (kind, length)) : length ≤ rest.length := by
  rcases quotedLiteral?_some read with ⟨-, more, within, rfl, closed, rfl⟩ | ⟨-, closed⟩
  · exact Nat.succ_le_succ (Nat.succ_le_succ (throughTripleQuote_le closed))
  · exact throughQuote_le closed

theorem classify_le {kind : Kind} {length : Nat} (read : classify c rest = some (kind, length)) :
    length ≤ rest.length := by
  rcases classify_some read with ⟨-, comment⟩ | ⟨-, quoted⟩ | ⟨-, quote⟩ | ⟨-, number⟩ |
    ⟨-, rfl, dots⟩ | ⟨-, rfl, colon⟩ | ⟨-, rfl⟩ | ⟨-, -, rfl⟩ | ⟨-, rfl⟩
  · exact comment?_le comment
  · exact quotedLiteral?_le quoted
  · exact throughQuote_le quote
  · exact numberLength_le number
  · have two := congrArg List.length dots
    simp only [List.length_take, List.length_cons, List.length_nil] at two
    omega
  · have one := congrArg List.length colon
    simp only [List.length_take, List.length_cons, List.length_nil] at one
    omega
  · exact runLength_le _ _
  · exact runLength_le _ _
  · exact Nat.zero_le _

end Bounds

end Lexer

end Specializer
