import Specializer.Proofs.Tiling

set_option autoImplicit false

namespace Specializer

/-- A part of what a text block holds: a backslash with the character behind it, or a character that stands
for itself. -/
inductive Glyph
  | escaped (c : Char)
  | bare (c : Char)
deriving DecidableEq, Repr

namespace Glyph

def text : Glyph → List Char
  | escaped c => ['\\', c]
  | bare c => [c]

def quote : Glyph := bare '\x22'

def spell (glyphs : List Glyph) : List Char := glyphs.flatMap text

end Glyph

def blockMark : List Char := ['\x22', '\x22', '\x22']

def textBlock (glyphs : List Glyph) : List Char := blockMark ++ Glyph.spell glyphs ++ blockMark

/-- What a text block can hold: no backslash stands for itself, and of quotes that do there are never three
in a row and none at the end. -/
structure IsContent (glyphs : List Glyph) : Prop where
  escapes : .bare '\\' ∉ glyphs
  apart : ¬ [.quote, .quote, .quote] <:+: glyphs
  ending : glyphs.getLast? ≠ some .quote

def tokenizeFrom (here : Position) (text : List Char) : Except Fault (List Token) := do
  let tokens ← Lexer.scan 0 here text
  match Lexer.openComment? tokens with
  | some slash => throw (.unterminatedComment slash.span)
  | none => pure tokens

theorem tokenize_from (source : List Char) : tokenize source = tokenizeFrom .first source := rfl

section Content

variable {glyph : Glyph} {glyphs : List Glyph}

theorem IsContent.tail (content : IsContent (glyph :: glyphs)) : IsContent glyphs := by
  constructor
  · exact fun member => content.escapes (List.mem_cons_of_mem _ member)
  · exact fun inside => content.apart (List.infix_cons inside)
  · intro last
    apply content.ending
    rw [List.getLast?_cons, last, Option.getD_some]

theorem IsContent.more (content : IsContent (.quote :: glyphs)) : glyphs ≠ [] := by
  rintro rfl
  exact content.ending rfl

-- Behind a quote of the content, no two quotes stand, not even where the closing mark begins.
theorem IsContent.no_mark (content : IsContent (.quote :: glyphs)) (rest : List Char) :
    (Glyph.spell glyphs ++ (blockMark ++ rest)).take 2 ≠ ['\x22', '\x22'] := by
  cases glyphs with
  | nil => exact absurd rfl content.more
  | cons first glyphs =>
    cases first with
    | escaped c => simp [Glyph.spell, Glyph.text]
    | bare c =>
      by_cases quote : c = '\x22'
      · subst quote
        cases glyphs with
        | nil => exact absurd rfl content.tail.more
        | cons second glyphs =>
          cases second with
          | escaped d => simp [Glyph.spell, Glyph.text]
          | bare d =>
            have other : d ≠ '\x22' := by
              rintro rfl
              exact content.apart ⟨[], glyphs, rfl⟩
            simp [Glyph.spell, Glyph.text, other]
      · simp [Glyph.spell, Glyph.text, quote]

theorem IsContent.last_backslash (content : IsContent glyphs) :
    (Glyph.spell glyphs).getLastD '\x22' = '\\' ↔ glyphs.getLast? = some (.escaped '\\') := by
  cases glyphs using List.reverseRecOn with
  | nil => simp [Glyph.spell]
  | append_singleton front last =>
    have plain : last ≠ .bare '\\' := by
      rintro rfl
      exact content.escapes (by simp)
    cases last <;> simp_all [Glyph.spell, Glyph.text]

end Content

namespace Lexer

variable {glyphs : List Glyph}

theorem throughTripleQuote_cons (previous c : Char) (rest : List Char) :
    throughTripleQuote previous (c :: rest) =
      if previous ≠ '\\' ∧ c = '\x22' ∧ rest.take 2 = ['\x22', '\x22'] then some 3
      else (throughTripleQuote c rest).map (· + 1) := by
  simp [throughTripleQuote, and_assoc]

theorem throughTripleQuote_content (content : IsContent glyphs) (previous : Char) (rest : List Char) :
    throughTripleQuote previous (Glyph.spell glyphs ++ (blockMark ++ rest)) =
      (throughTripleQuote ((Glyph.spell glyphs).getLastD previous) (blockMark ++ rest)).map
        (· + (Glyph.spell glyphs).length) := by
  induction glyphs generalizing previous with
  | nil => simp [Glyph.spell]
  | cons glyph glyphs ih =>
    have later := ih content.tail
    cases glyph with
    | escaped c =>
      have both : Glyph.spell (.escaped c :: glyphs) = '\\' :: c :: Glyph.spell glyphs := rfl
      rw [both, List.cons_append, List.cons_append, throughTripleQuote_cons, if_neg (by simp),
        throughTripleQuote_cons, if_neg (by simp), later, List.getLastD_cons, List.getLastD_cons]
      simp [Function.comp_def, Nat.add_assoc]
    | bare c =>
      have one : Glyph.spell (.bare c :: glyphs) = c :: Glyph.spell glyphs := rfl
      have goesOn : ¬ (previous ≠ '\\' ∧ c = '\x22' ∧
          (Glyph.spell glyphs ++ (blockMark ++ rest)).take 2 = ['\x22', '\x22']) := by
        rintro ⟨-, rfl, quotes⟩
        exact content.no_mark rest quotes
      rw [one, List.cons_append, throughTripleQuote_cons, if_neg goesOn, later, List.getLastD_cons]
      simp [Function.comp_def, Nat.add_assoc]

theorem throughTripleQuote_mark (previous : Char) (rest : List Char) :
    throughTripleQuote previous (blockMark ++ rest) =
      if previous = '\\' then (throughTripleQuote '\x22' ('\x22' :: '\x22' :: rest)).map (· + 1)
      else some 3 := by
  rw [blockMark, List.cons_append, throughTripleQuote_cons]
  by_cases backslash : previous = '\\' <;> simp [backslash]

theorem textBlock_eq (glyphs : List Glyph) (rest : List Char) :
    textBlock glyphs ++ rest =
      '\x22' :: '\x22' :: '\x22' :: (Glyph.spell glyphs ++ (blockMark ++ rest)) := by
  simp [textBlock, blockMark]

theorem textBlock_length (glyphs : List Glyph) :
    (textBlock glyphs).length = (Glyph.spell glyphs).length + 6 := by
  simp [textBlock, blockMark]

theorem classify_textBlock (content : IsContent glyphs)
    (ends : glyphs.getLast? ≠ some (.escaped '\\')) (rest : List Char) :
    classify '\x22' ('\x22' :: '\x22' :: (Glyph.spell glyphs ++ (blockMark ++ rest))) =
      some (.textBlock, (Glyph.spell glyphs).length + 5) := by
  have free := mt content.last_backslash.mp ends
  rw [classify_quote, quotedLiteral?]
  simp only [List.take_succ_cons, List.take_zero, List.drop_succ_cons, List.drop_zero, beq_self_eq_true,
    if_true, throughTripleQuote_content content, throughTripleQuote_mark, if_neg free]
  simp [Nat.add_comm, ← Nat.add_assoc]

-- Behind an escaped backslash the closing mark does not count: a later one ends the block, or the first
-- two quotes are an empty text.
theorem classify_unended (content : IsContent glyphs)
    (ends : glyphs.getLast? = some (.escaped '\\')) (rest : List Char) :
    classify '\x22' ('\x22' :: '\x22' :: (Glyph.spell glyphs ++ (blockMark ++ rest))) = some (.string, 1) ∨
      ∃ length, (Glyph.spell glyphs).length + 5 < length ∧
        classify '\x22' ('\x22' :: '\x22' :: (Glyph.spell glyphs ++ (blockMark ++ rest))) =
          some (.textBlock, length) := by
  have backslash := content.last_backslash.mpr ends
  rw [classify_quote, quotedLiteral?]
  simp only [List.take_succ_cons, List.take_zero, List.drop_succ_cons, List.drop_zero, beq_self_eq_true,
    if_true, throughTripleQuote_content content, throughTripleQuote_mark, if_pos backslash]
  cases read : throughTripleQuote '\x22' ('\x22' :: '\x22' :: rest) with
  | none => exact .inl (by simp [throughQuote])
  | some within =>
    have three := throughTripleQuote_ge read
    refine .inr ⟨within + 1 + (Glyph.spell glyphs).length + 2, by omega, ?_⟩
    simp

end Lexer

theorem tokenizeFrom_cons {here : Position} {c : Char} {rest : List Char} {kind : Kind} {length : Nat}
    (read : Lexer.classify c rest = some (kind, length)) (plain : kind ≠ .op) :
    tokenizeFrom here (c :: rest) =
      (tokenizeFrom (here.advance (c :: rest.take length)) (rest.drop length)).map
        (⟨⟨kind, c :: rest.take length⟩, here⟩ :: ·) := by
  rw [tokenizeFrom, tokenizeFrom, Lexer.scan, read]
  dsimp only
  rw [Lexer.scan_drop]
  cases Lexer.scan 0 (here.advance (c :: rest.take length)) (rest.drop length) with
  | error fault => rfl
  | ok more =>
    have same : Lexer.openComment? (⟨⟨kind, c :: rest.take length⟩, here⟩ :: more) =
        Lexer.openComment? more := by
      cases more <;> simp [Lexer.openComment?, plain]
    simp only [bind, Except.bind, Except.map, same]
    cases Lexer.openComment? more <;> rfl

/-- A source that begins with a text block is read as that block and then as what follows, if its content
does not end with the escape of a backslash. If it does, its first token is no such block: it is a longer
one, or the empty text that the first two quotes make. -/
theorem tokenize_textBlock {glyphs : List Glyph} (content : IsContent glyphs) (rest : List Char) :
    (glyphs.getLast? ≠ some (.escaped '\\') →
      tokenize (textBlock glyphs ++ rest) =
        (tokenizeFrom (Position.first.advance (textBlock glyphs)) rest).map
          (⟨⟨.textBlock, textBlock glyphs⟩, .first⟩ :: ·)) ∧
    (glyphs.getLast? = some (.escaped '\\') →
      ∀ first more stop, Cuts (textBlock glyphs ++ rest) 0 (first :: more) stop →
        first.toLexeme = ⟨.string, ['\x22', '\x22']⟩ ∨
          (first.kind = .textBlock ∧ (textBlock glyphs).length < first.text.length)) := by
  rw [Lexer.textBlock_eq]
  constructor
  · intro ends
    -- The first quote is the token's own character, and what follows it is what the class is read
    -- from.
    have read := Lexer.classify_textBlock content ends rest
    have split : '\x22' :: '\x22' :: (Glyph.spell glyphs ++ (blockMark ++ rest)) =
        (textBlock glyphs).tail ++ rest := by simp [textBlock, blockMark]
    have size : (textBlock glyphs).tail.length = (Glyph.spell glyphs).length + 5 := by
      rw [List.length_tail, Lexer.textBlock_length]
      omega
    have whole : '\x22' :: (textBlock glyphs).tail = textBlock glyphs := by simp [textBlock, blockMark]
    rw [tokenize_from, tokenizeFrom_cons read (by decide), split, ← size, List.take_left,
      List.drop_left, whole]
  · intro ends first more stop cuts
    cases cuts with
    | @cons _ _ c behind kind length _ here read later =>
      rw [List.drop_zero] at here
      cases here
      rw [← Lexer.classify_first] at read
      rcases Lexer.classify_unended content ends rest with short | ⟨long, beyond, found⟩
      · rw [short] at read
        cases read
        exact .inl rfl
      · have fits := Lexer.classify_le found
        rw [found] at read
        cases read
        refine .inr ⟨rfl, ?_⟩
        rw [Lexer.textBlock_length, List.length_cons, List.length_take_of_le fits]
        omega

-- A block with escaped and with unescaped quotes ends at its mark. One with an escaped backslash in front of
-- the mark falls apart.
theorem tokenize_textBlock_escapes :
    (IsContent [.escaped '\x22', .quote, .quote, .escaped '\\', .bare 'b'] ∧
      tokenize "\x22\x22\x22\\\x22\x22\x22\\\\b\x22\x22\x22;".toList =
        .ok [⟨⟨.textBlock, "\x22\x22\x22\\\x22\x22\x22\\\\b\x22\x22\x22".toList⟩, .first⟩,
          ⟨⟨.semi, [';']⟩, ⟨13, 1, 14⟩⟩]) ∧
    IsContent [.escaped '\\'] ∧
      ∃ first more, tokenize "\x22\x22\x22\\\\\x22\x22\x22;".toList = .ok (first :: more) ∧
        first.toLexeme = ⟨.string, ['\x22', '\x22']⟩ := by
  have quotes : IsContent [.escaped '\x22', .quote, .quote, .escaped '\\', .bare 'b'] :=
    ⟨by decide, by decide, by decide⟩
  have backslash : IsContent [.escaped '\\'] := ⟨by decide, by decide, by decide⟩
  refine ⟨⟨quotes, ?_⟩, backslash, ?_⟩
  · exact ((tokenize_textBlock quotes [';']).1 (by decide)).trans (by decide +kernel)
  · obtain ⟨tokens, lexed, short⟩ := ok_of_any
      (show (tokenize "\x22\x22\x22\\\\\x22\x22\x22;".toList).toOption.any (fun tokens =>
        tokens.head?.any fun token => token.text.length == 2) = true by decide +kernel)
    cases tokens with
    | nil => cases short
    | cons first more =>
      refine ⟨first, more, lexed, ?_⟩
      rcases (tokenize_textBlock backslash [';']).2 (by decide) first more _ (tokenize_ok.mp lexed).1 with
        empty | ⟨-, longer⟩
      · exact empty
      · have two : first.text.length = 2 := eq_of_beq short
        rw [two] at longer
        exact absurd longer (by decide)

end Specializer
