import Specializer.Proofs.WholeTokens

set_option autoImplicit false

namespace Specializer

namespace Lexer

def docLength : List Char → Option Nat
  | '*' :: '*' :: '/' :: _ => none
  | '*' :: '*' :: rest => (throughCommentEnd rest).map (· + 2)
  | _ => none

def blockLength : List Char → Option Nat
  | '*' :: rest => (throughCommentEnd rest).map (· + 1)
  | _ => none

def lineLength : List Char → Option Nat
  | '/' :: rest => some (1 + runLength (· != '\n') rest)
  | _ => none

def textBlockLength (rest : List Char) : Option Nat :=
  if rest.take 2 = ['\x22', '\x22'] then (throughTripleQuote '\x22' (rest.drop 2)).map (· + 2)
  else none

end Lexer

namespace Kind

open Lexer

/-- How many characters behind the first a token of this kind takes, if it can begin there at all. -/
def takes? (kind : Kind) (c : Char) (rest : List Char) : Option Nat :=
  match kind with
  | docComment => if c = '/' then docLength rest else none
  | blockComment => if c = '/' then blockLength rest else none
  | lineComment => if c = '/' then lineLength rest else none
  | textBlock => if c = '\x22' then textBlockLength rest else none
  | string => if c = '\x22' then throughQuote '\x22' rest else none
  | charLit => if c = '\x27' then throughQuote '\x27' rest else none
  | number => numberLength c rest
  | ellipsis => if c = '.' ∧ rest.take 2 = ['.', '.'] then some 2 else none
  | dcolon => if c = ':' ∧ rest.take 1 = [':'] then some 1 else none
  | blank => if isSourceBlank c then some (runLength isSourceBlank rest) else none
  | ident => if isIdentStart c then some (runLength isIdentPart rest) else none
  | mark => if punctuation? c = some mark then some 0 else none

/-- Of two kinds that could begin at a place, the one of higher rank does. -/
def rank : Kind → Nat
  | docComment => 5
  | blockComment | lineComment | textBlock => 4
  | string | charLit | number => 3
  | ellipsis | dcolon => 2
  | _ => 0

def marks : List Kind :=
  [lt, gt, lpar, rpar, lbrace, rbrace, lsqb, rsqb, comma, semi, dot, qmark, atSign, amp, op]

def ranked : List Kind :=
  [docComment, blockComment, lineComment, textBlock, string, charLit, number, ellipsis, dcolon,
    blank, ident] ++ marks

def first? (c : Char) (rest : List Char) : Option (Kind × Nat) :=
  ranked.findSome? fun kind => (kind.takes? c rest).map fun length => (kind, length)

theorem mem_ranked (kind : Kind) : kind ∈ ranked := by
  cases kind <;> decide

theorem ranked_sorted : ranked.Pairwise fun first second => second.rank ≤ first.rank := by
  decide

variable {kind : Kind} {c : Char} {rest : List Char} {length : Nat}

theorem first?_some (found : first? c rest = some (kind, length)) :
    kind.takes? c rest = some length ∧ ∀ other : Kind, kind.rank < other.rank → other.takes? c rest = none := by
  obtain ⟨front, first, behind, split, here, none⟩ := List.findSome?_eq_some_iff.mp found
  obtain ⟨taken, takes, same⟩ := Option.map_eq_some_iff.mp here
  cases same
  refine ⟨takes, fun other higher => ?_⟩
  have listed := mem_ranked other
  have sorted := ranked_sorted
  rw [split] at listed sorted
  -- What stands behind has no higher rank.
  rcases List.mem_append.mp listed with before | after
  · simpa using none other before
  · have order := (List.pairwise_cons.mp (List.pairwise_append.mp sorted).2.1).1
    rcases List.mem_cons.mp after with rfl | after
    · exact absurd higher (Nat.lt_irrefl _)
    · exact absurd (order other after) (Nat.not_le_of_lt higher)

theorem first?_none : first? c rest = none ↔ ∀ kind : Kind, kind.takes? c rest = none := by
  simp [first?, mem_ranked]

end Kind

namespace Lexer

theorem comment?_first (rest : List Char) :
    comment? rest = ((docLength rest).map fun length => (Kind.docComment, length)).or
      (((blockLength rest).map fun length => (Kind.blockComment, length)).or
        ((lineLength rest).map fun length => (Kind.lineComment, length))) := by
  fun_cases comment? rest with
  | case1 more => rfl
  | case2 more front =>
    have goesOn : ¬('*' = '*' ∧ more.head? = some '/') := fun ends => by
      obtain ⟨rest, rfl⟩ := List.head?_eq_some_iff.mp ends.2
      exact front rest rfl
    -- A comment that is not closed is none of either kind.
    have block : blockLength ('*' :: '*' :: more) = (throughCommentEnd more).map (· + 2) := by
      rw [blockLength, throughCommentEnd_cons, if_neg goesOn, Option.map_map]
      rfl
    rw [docLength.eq_2 more front, block]
    cases throughCommentEnd more <;> rfl
  | case3 more _ other =>
    have doc : docLength ('*' :: more) = none :=
      docLength.eq_3 _ (fun _ same => other _ (List.cons.inj same).2)
        fun _ same => other _ (List.cons.inj same).2
    rw [doc, blockLength]
    cases throughCommentEnd more <;> rfl
  | case4 more => rfl
  | case5 => simp_all [docLength, blockLength, lineLength]

theorem quotedLiteral?_first (rest : List Char) :
    quotedLiteral? rest = ((textBlockLength rest).map fun length => (Kind.textBlock, length)).or
      ((throughQuote '\x22' rest).map fun length => (Kind.string, length)) := by
  rw [quotedLiteral?, textBlockLength]
  simp only [beq_iff_eq]
  split
  · rw [Option.map_map]
    rfl
  · rfl

theorem punctuation?_first (c : Char) (rest : List Char) :
    (Kind.marks.findSome? fun kind => (kind.takes? c rest).map fun length => (kind, length)) =
      (punctuation? c).map fun kind => (kind, 0) := by
  cases mark : punctuation? c with
  | none => simp [Kind.marks, Kind.takes?, mark]
  | some kind =>
    have listed : kind ∈ Kind.marks := by
      unfold punctuation? at mark
      split at mark <;> cases mark <;> decide
    revert listed
    cases kind <;> simp [Kind.marks, Kind.takes?, mark]

theorem findSome?_cons_or {α β : Type} (f : α → Option β) (a : α) (as : List α) :
    (a :: as).findSome? f = (f a).or (as.findSome? f) := by
  rw [List.findSome?_cons]
  cases f a <;> rfl

theorem classify_first (c : Char) (rest : List Char) : classify c rest = Kind.first? c rest := by
  simp only [Kind.first?, Kind.ranked, List.cons_append, List.nil_append, findSome?_cons_or,
    punctuation?_first]
  have comments : (if c == '/' then comment? rest else none) =
      ((Kind.docComment.takes? c rest).map fun length => (Kind.docComment, length)).or
        (((Kind.blockComment.takes? c rest).map fun length => (Kind.blockComment, length)).or
          ((Kind.lineComment.takes? c rest).map fun length => (Kind.lineComment, length))) := by
    by_cases slash : c = '/' <;> simp [slash, Kind.takes?, comment?_first]
  have quoted : (if c == '\x22' then quotedLiteral? rest else none) =
      ((Kind.textBlock.takes? c rest).map fun length => (Kind.textBlock, length)).or
        ((Kind.string.takes? c rest).map fun length => (Kind.string, length)) := by
    by_cases quote : c = '\x22' <;> simp [quote, Kind.takes?, quotedLiteral?_first]
  have apostrophe : (if c == '\x27' then
        (throughQuote '\x27' rest).map fun length => (Kind.charLit, length) else none) =
      (Kind.charLit.takes? c rest).map fun length => (Kind.charLit, length) := by
    by_cases quote : c = '\x27' <;> simp [quote, Kind.takes?]
  rw [classify, comments, quoted, apostrophe]
  simp only [Kind.takes?, Option.or_assoc]
  congr 7
  by_cases dots : c = '.' ∧ rest.take 2 = ['.', '.']
  · simp [dots]
  · by_cases colons : c = ':' ∧ rest.take 1 = [':']
    · simp [colons]
    · by_cases blank : isSourceBlank c = true
      · simp [dots, colons, blank]
      · by_cases word : isIdentStart c = true <;> simp [dots, colons, blank, word]

end Lexer

end Specializer
