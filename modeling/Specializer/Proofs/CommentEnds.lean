import Specializer.Proofs.Tiling

set_option autoImplicit false

namespace Specializer

/-- A comment with the mark that ends it at its end and nowhere before, where the mark that opens it does not
count. -/
structure IsBlock (text : List Char) : Prop where
  opens : ['/', '*'] <+: text
  closes : ['*', '/'] <:+ text
  apart : 4 ≤ text.length
  first : ∀ offset, 2 ≤ offset → ['*', '/'] <+: text.drop offset → offset + 2 = text.length

/-- A comment opens at the place and never ends. -/
def Unclosed (source : List Char) (place : Nat) : Prop :=
  ∃ rest, source.drop place = '/' :: '*' :: rest ∧ ¬ ['*', '/'] <:+: rest

namespace Lexer

variable {text rest : List Char} {length : Nat}

theorem ends_here {c : Char} : ['*', '/'] <+: c :: text ↔ c = '*' ∧ text.head? = some '/' := by
  cases text with
  | nil => simp
  | cons d text => simp [List.cons_prefix_cons, eq_comm]

theorem throughCommentEnd_first (read : throughCommentEnd text = some length) :
    ['*', '/'] <:+ text.take length ∧
      ∀ offset, ['*', '/'] <+: (text.take length).drop offset → offset + 2 = length := by
  induction text generalizing length with
  | nil => cases read
  | cons c rest ih =>
    rw [throughCommentEnd_cons] at read
    split at read
    next ends =>
      cases read
      obtain ⟨rfl, head⟩ := ends
      obtain ⟨more, rfl⟩ := List.head?_eq_some_iff.mp head
      refine ⟨List.suffix_rfl, fun offset starts => ?_⟩
      -- The mark is at the end here, and neither of its characters begins another.
      match offset with
      | 0 => rfl
      | 1 => simp at starts
      | offset + 2 => simp at starts
    next goesOn =>
      obtain ⟨within, found, rfl⟩ := Option.map_eq_some_iff.mp read
      obtain ⟨closes, first⟩ := ih found
      rw [List.take_succ_cons]
      refine ⟨closes.trans (List.suffix_cons _ _), fun offset starts => ?_⟩
      cases offset with
      | zero =>
        have two := throughCommentEnd_ge found
        rw [List.drop_zero, ends_here, List.head?_take, if_neg (by omega)] at starts
        exact absurd starts goesOn
      | succ offset =>
        have behind := first offset starts
        omega

theorem throughCommentEnd_none : throughCommentEnd text = none ↔ ¬ ['*', '/'] <:+: text := by
  induction text with
  | nil => simp [throughCommentEnd]
  | cons c rest ih =>
    rw [throughCommentEnd_cons, List.infix_cons_iff, ends_here, not_or]
    split
    next ends => simp [ends]
    next goesOn => rw [Option.map_eq_none_iff, ih, and_iff_right goesOn]

theorem blockLength_some (read : blockLength rest = some length) :
    ∃ more within, rest = '*' :: more ∧ throughCommentEnd more = some within ∧ length = within + 1 := by
  cases rest with
  | nil => cases read
  | cons c more =>
    by_cases star : c = '*'
    · subst star
      obtain ⟨within, found, rfl⟩ := Option.map_eq_some_iff.mp read
      exact ⟨more, within, rfl, found, rfl⟩
    · simp [blockLength, star] at read

theorem blockLength_isBlock (read : blockLength rest = some length) : IsBlock ('/' :: rest.take length) := by
  obtain ⟨more, within, rfl, found, rfl⟩ := blockLength_some read
  obtain ⟨closes, first⟩ := throughCommentEnd_first found
  have two := throughCommentEnd_ge found
  have size : (more.take within).length = within := List.length_take_of_le (throughCommentEnd_le found)
  rw [List.take_succ_cons]
  refine ⟨⟨_, rfl⟩, (closes.trans (List.suffix_cons _ _)).trans (List.suffix_cons _ _), ?_, ?_⟩
  · simp only [List.length_cons, size]
    omega
  · intro offset behind starts
    obtain ⟨inner, rfl⟩ := Nat.exists_eq_add_of_le' behind
    have ends := first inner starts
    simp only [List.length_cons, size]
    omega

theorem blockLength_of_doc (read : docLength rest = some length) : blockLength rest = some length := by
  rw [docLength.eq_def] at read
  split at read
  next => cases read
  next more other =>
    rw [blockLength, throughCommentEnd_cons, if_neg, Option.map_map]
    · exact read
    · rintro ⟨-, head⟩
      obtain ⟨tail, rfl⟩ := List.head?_eq_some_iff.mp head
      exact other tail rfl
  next => cases read

theorem docLength_of_block (read : blockLength rest = some length) :
    docLength rest = if ['/', '*', '*'] <+: '/' :: rest.take length ∧
      '/' :: rest.take length ≠ ['/', '*', '*', '/'] then some length else none := by
  obtain ⟨more, within, rfl, found, rfl⟩ := blockLength_some read
  have two := throughCommentEnd_ge found
  obtain ⟨below, rfl⟩ := Nat.exists_eq_add_of_le' two
  cases more with
  | nil => cases found
  | cons d more =>
    -- Without a second star nothing documents; with one, a slash right behind it ends the comment.
    by_cases star : d = '*'
    · subst star
      rw [throughCommentEnd_cons] at found
      split at found
      next ends =>
        obtain ⟨tail, rfl⟩ := List.head?_eq_some_iff.mp ends.2
        obtain rfl : below = 0 := by simpa using found.symm
        rw [if_neg (by simp)]
        rfl
      next goesOn =>
        obtain ⟨inner, closed, same⟩ := Option.map_eq_some_iff.mp found
        have doc := docLength.eq_2 more fun tail slash => goesOn ⟨rfl, by rw [slash]; rfl⟩
        rw [doc, closed, if_pos]
        · simp only [Option.map_some, Option.some.injEq]
          omega
        · refine ⟨by simp, fun same => goesOn ⟨rfl, ?_⟩⟩
          simp only [List.take_succ_cons, List.cons.injEq, true_and] at same
          have head := congrArg List.head? same
          rwa [List.head?_take, if_neg (Nat.succ_ne_zero _)] at head
    · rw [if_neg (by simp [Ne.symm star])]
      exact docLength.eq_3 _ (by simp [star]) (by simp [star])

theorem classify_unclosed (endless : ¬ ['*', '/'] <:+: rest) :
    classify '/' ('*' :: rest) = some (.op, 0) ∧ classify '*' rest = some (.op, 0) := by
  refine ⟨?_, classify_mark (by decide) (by decide) (by decide) (by decide) rest⟩
  rw [classify_slash]
  cases read : comment? ('*' :: rest) with
  | none => rfl
  | some found =>
    rcases comment?_some read with ⟨-, -, more, same⟩ | ⟨-, more, within, same, -, closed, -⟩ |
      ⟨-, more, within, same, -, closed, -⟩ | ⟨-, more, same, -⟩
    · cases same
      exact absurd (List.prefix_append ['*', '/'] more).isInfix endless
    · cases same
      have open_ : throughCommentEnd more = none :=
        throughCommentEnd_none.mpr fun inside => endless (List.infix_cons inside)
      rw [open_] at closed
      cases closed
    · cases same
      rw [throughCommentEnd_none.mpr endless] at closed
      cases closed
    · cases same

theorem unclosed_of_op (read : classify '/' ('*' :: rest) = some (.op, 0)) : ¬ ['*', '/'] <:+: rest := by
  intro inside
  rw [classify_slash, comment?_first] at read
  cases closed : throughCommentEnd rest with
  | none => exact throughCommentEnd_none.mp closed inside
  | some within =>
    rw [blockLength, closed] at read
    cases documents : docLength ('*' :: rest) <;> simp [documents] at read

end Lexer

section Cuts

variable {source : List Char} {place stop : Nat} {first slash : Token} {tokens more : List Token}

-- Where a comment never ends, its slash and its star are tokens, and only there does a star follow a slash.
theorem Cuts.unclosed_iff (cuts : Cuts source place (first :: more) stop) (whole : stop = source.length) :
    Unclosed source place ↔ first.toLexeme = ⟨.op, ['/']⟩ ∧
      more.head?.map Token.toLexeme = some ⟨.op, ['*']⟩ := by
  cases cuts with
  | @cons _ _ c behind kind length _ here read later =>
    rw [← Lexer.classify_first] at read
    have short : length ≤ behind.length := Lexer.classify_le read
    obtain ⟨-, left, -⟩ := Cuts.step here (Lexer.classify_first c behind ▸ read)
    constructor
    · rintro ⟨rest, opens, endless⟩
      rw [here] at opens
      cases opens
      obtain ⟨slash, star⟩ := Lexer.classify_unclosed endless
      rw [slash] at read
      cases read
      rw [List.drop_zero] at left
      refine ⟨rfl, ?_⟩
      cases later with
      | nil =>
        rw [List.drop_eq_nil_of_le (Nat.le_of_eq whole.symm)] at left
        cases left
      | @cons _ _ d tail other size tokens next found final =>
        rw [left] at next
        cases next
        rw [← Lexer.classify_first, star] at found
        cases found
        rfl
    · rintro ⟨same, star⟩
      simp only [Lexeme.mk.injEq, List.cons.injEq] at same
      obtain ⟨rfl, rfl, none⟩ := same
      cases later with
      | nil => cases star
      | @cons _ _ d tail other size tokens next found final =>
        simp only [List.head?_cons, Option.map_some, Option.some.injEq, Lexeme.mk.injEq,
          List.cons.injEq] at star
        obtain ⟨rfl, rfl, -⟩ := star
        -- The slash is a single character, so the star is the next.
        obtain rfl : length = 0 := by
          have size := congrArg List.length none
          rwa [List.length_take_of_le short] at size
        rw [List.drop_zero, next] at left
        subst left
        exact ⟨tail, here, Lexer.unclosed_of_op read⟩

theorem openComment?_cons (first : Token) (more : List Token) :
    Lexer.openComment? (first :: more) = if first.toLexeme = ⟨.op, ['/']⟩ ∧
      more.head?.map Token.toLexeme = some ⟨.op, ['*']⟩ then some first else Lexer.openComment? more := by
  cases more with
  | nil => simp [Lexer.openComment?]
  | cons second rest =>
    obtain ⟨⟨kind, text⟩, start⟩ := first
    obtain ⟨⟨other, behind⟩, place⟩ := second
    simp [Lexer.openComment?, and_assoc]

open scoped Classical in
theorem Cuts.openComment (cuts : Cuts source place tokens stop) (whole : stop = source.length) :
    Lexer.openComment? tokens = tokens.find? fun token => decide (Unclosed source token.start.offset) := by
  induction cuts with
  | nil place => rfl
  | @cons place stop c rest kind length tokens here read more ih =>
    have mark := (Cuts.cons here read more).unclosed_iff whole
    rw [openComment?_cons, ih whole]
    by_cases open_ : Unclosed source (placeAt source place).offset
    · rw [if_pos (mark.mp open_)]
      simp [open_]
    · rw [if_neg fun both => open_ (mark.mpr both)]
      simp [open_]

theorem Cuts.openComment_some (cuts : Cuts source 0 tokens source.length) :
    Lexer.openComment? tokens = some slash ↔ ∃ front behind, tokens = front ++ slash :: behind ∧
      Unclosed source slash.start.offset ∧ ∀ earlier ∈ front, ¬ Unclosed source earlier.start.offset := by
  rw [cuts.openComment rfl, List.find?_eq_some_iff_append]
  simp only [decide_eq_true_eq, Bool.not_eq_true', decide_eq_false_iff_not]
  grind

theorem Cuts.openComment_none (cuts : Cuts source 0 tokens source.length) :
    Lexer.openComment? tokens = none ↔ ∀ token ∈ tokens, ¬ Unclosed source token.start.offset := by
  rw [cuts.openComment rfl, List.find?_eq_none]
  simp only [decide_eq_true_eq]

theorem Cuts.unclosed_text (cuts : Cuts source place tokens stop) (whole : stop = source.length)
    (member : slash ∈ tokens) (open_ : Unclosed source slash.start.offset) : slash.text = ['/'] := by
  induction cuts with
  | nil => cases member
  | cons here read more ih =>
    rcases List.mem_cons.mp member with rfl | behind
    · exact congrArg Lexeme.text (((Cuts.cons here read more).unclosed_iff whole).mp open_).1
    · exact ih whole behind

theorem Cuts.comment (cuts : Cuts source place tokens stop) {token : Token} (member : token ∈ tokens)
    (comment : token.kind = .blockComment ∨ token.kind = .docComment) :
    IsBlock token.text ∧
      (token.kind = .docComment ↔ ['/', '*', '*'] <+: token.text ∧ token.text ≠ ['/', '*', '*', '/']) := by
  obtain ⟨c, rest, length, -, takes, text, higher⟩ := cuts.taken member
  have both : c = '/' ∧ Lexer.blockLength rest = some length ∧
      (token.kind = .docComment ↔ Lexer.docLength rest = some length) := by
    rcases comment with kind | kind
    · rw [kind] at takes higher
      obtain ⟨rfl, block⟩ : c = '/' ∧ Lexer.blockLength rest = some length := by
        simpa [Kind.takes?] using takes
      have doc := higher .docComment (by decide)
      rw [Kind.takes?, if_pos rfl] at doc
      exact ⟨rfl, block, by simp [kind, doc]⟩
    · rw [kind] at takes
      obtain ⟨rfl, doc⟩ : c = '/' ∧ Lexer.docLength rest = some length := by
        simpa [Kind.takes?] using takes
      exact ⟨rfl, Lexer.blockLength_of_doc doc, by simp [kind, doc]⟩
  obtain ⟨rfl, block, documents⟩ := both
  refine ⟨text ▸ Lexer.blockLength_isBlock block, ?_⟩
  rw [documents, Lexer.docLength_of_block block, ← text]
  split <;> simp_all

end Cuts

/-- Every comment but those of a line ends with the first mark that can end it, and documents exactly if two
stars open it and it does not end with the second. If all of a source can be cut into tokens, it is rejected
exactly if a comment opens at one of them and never ends, at the slash of the first. -/
theorem tokenize_comments {source : List Char} {tokens : List Token}
    (cuts : Cuts source 0 tokens source.length) :
    (∀ token ∈ tokens, token.kind = .blockComment ∨ token.kind = .docComment →
      IsBlock token.text ∧ (token.kind = .docComment ↔
        ['/', '*', '*'] <+: token.text ∧ token.text ≠ ['/', '*', '*', '/'])) ∧
    (tokenize source = .ok tokens ↔ ∀ token ∈ tokens, ¬ Unclosed source token.start.offset) ∧
    ((∃ fault, tokenize source = .error fault ∧ fault.code.label = "TE1002") ↔
      ∃ token ∈ tokens, Unclosed source token.start.offset) ∧
    ∀ fault, tokenize source = .error fault → fault.code.label = "TE1002" ∧
      ∃ front slash behind, tokens = front ++ slash :: behind ∧ Unclosed source slash.start.offset ∧
        (∀ earlier ∈ front, ¬ Unclosed source earlier.start.offset) ∧
        fault.span = some slash.start.charSpan := by
  -- All of the source can be cut, so no character blocks it and only a comment can be at fault.
  have rejected : ∀ fault, tokenize source = .error fault → ∃ slash,
      Lexer.openComment? tokens = some slash ∧ fault = .unterminatedComment slash.span := by
    intro fault failed
    rcases tokenize_error failed with ⟨other, place, c, upTo, blocked, -⟩ |
      ⟨other, slash, through, opened, rfl⟩
    · cases cuts.scan_end.symm.trans (upTo.scan_blocked blocked)
    · cases cuts.scan_end.symm.trans through.scan_end
      exact ⟨slash, opened, rfl⟩
  have accepted : tokenize source = .ok tokens ↔ ∀ token ∈ tokens, ¬ Unclosed source token.start.offset := by
    rw [tokenize_ok, and_iff_right cuts, cuts.openComment_none]
  refine ⟨fun token member => cuts.comment member, accepted, ⟨?_, ?_⟩, fun fault failed => ?_⟩
  · rintro ⟨fault, failed, -⟩
    by_contra closed
    rw [accepted.mpr fun token member open_ => closed ⟨token, member, open_⟩] at failed
    cases failed
  · rintro ⟨token, member, open_⟩
    cases read : tokenize source with
    | ok found =>
      cases cuts.scan_end.symm.trans (tokenize_ok.mp read).1.scan_end
      exact absurd open_ (accepted.mp read token member)
    | error fault =>
      obtain ⟨slash, -, rfl⟩ := rejected fault read
      exact ⟨_, rfl, rfl⟩
  · obtain ⟨slash, opened, rfl⟩ := rejected fault failed
    obtain ⟨front, behind, split, open_, closed⟩ := cuts.openComment_some.mp opened
    refine ⟨rfl, front, slash, behind, split, open_, closed, ?_⟩
    have text := cuts.unclosed_text rfl (split ▸ by simp) open_
    have span : slash.span = slash.start.charSpan := by
      rw [Token.span, Token.stop, text]
      rfl
    exact congrArg some span

theorem tokenize_comments_samples :
    (∃ tokens, tokenize "/**/ /*/ a */ /** b */ x".toList = .ok tokens ∧
      ∀ token ∈ tokens, token.kind = .blockComment ∨ token.kind = .docComment → IsBlock token.text) ∧
    ∃ fault, tokenize "a /*/ b".toList = .error fault ∧ fault.code.label = "TE1002" := by
  constructor
  · obtain ⟨tokens, lexed, -⟩ := ok_of_any
      (show (tokenize "/**/ /*/ a */ /** b */ x".toList).toOption.any (fun _ => true) = true by
        decide +kernel)
    obtain ⟨comments, -⟩ := tokenize_comments (tokenize_ok.mp lexed).1
    exact ⟨tokens, lexed, fun token member comment => (comments token member comment).1⟩
  · obtain ⟨tokens, scanned, second⟩ := ok_of_any
      (show (Lexer.scan 0 Position.first "a /*/ b".toList).toOption.any
        (fun tokens => tokens.any fun token => token.start.offset == 2) = true by decide +kernel)
    obtain ⟨slash, member, place⟩ := List.any_eq_true.mp second
    obtain ⟨-, -, rejected, -⟩ := tokenize_comments (scan_cuts scanned)
    have endless : Unclosed "a /*/ b".toList slash.start.offset :=
      eq_of_beq place ▸ ⟨['/', ' ', 'b'], rfl, by decide⟩
    exact rejected.mpr ⟨slash, member, endless⟩

end Specializer
