import Mathlib.Data.List.Chain
import Specializer.Proofs.Lexing
import Specializer.Proofs.WholeTokens

set_option autoImplicit false

namespace Specializer

namespace Lexer

inductive Lexes : List Char → List Lexeme → Prop
  | nil : Lexes [] []
  | cons {c : Char} {rest : List Char} {kind : Kind} {length : Nat} {lexemes : List Lexeme}
      (read : classify c rest = some (kind, length))
      (closed : kind = .op → c = '/' → rest.head? ≠ some '*')
      (more : Lexes (rest.drop length) lexemes) :
      Lexes (c :: rest) (⟨kind, c :: rest.take length⟩ :: lexemes)

theorem scan_drop (skip : Nat) (here : Position) (text : List Char) :
    scan skip here text = scan 0 here (text.drop skip) := by
  induction text generalizing skip with
  | nil => cases skip <;> simp [scan]
  | cons c rest ih =>
    cases skip with
    | zero => rfl
    | succ skip =>
      rw [scan, List.drop_succ_cons]
      exact ih skip

variable {source : List Char} {lexemes : List Lexeme}

theorem Lexes.head {first : Lexeme} (lexes : Lexes source (first :: lexemes)) :
    source.head? = first.text.head? := by
  cases lexes
  rfl

theorem Lexes.scan (lexes : Lexes source lexemes) (here : Position) :
    ∃ tokens, scan 0 here source = .ok tokens ∧ lexemesOf tokens = lexemes := by
  induction lexes generalizing here with
  | nil => exact ⟨[], by rw [Lexer.scan], rfl⟩
  | @cons c rest kind length lexemes read closed more ih =>
    obtain ⟨tokens, scanned, rfl⟩ := ih (here.advance (c :: rest.take length))
    refine ⟨⟨⟨kind, c :: rest.take length⟩, here⟩ :: tokens, ?_, rfl⟩
    rw [Lexer.scan, read]
    dsimp only
    rw [scan_drop, scanned]
    rfl

theorem Lexes.noOpenComment (lexes : Lexes source lexemes) {tokens : List Token}
    (same : lexemesOf tokens = lexemes) : openComment? tokens = none := by
  induction lexes generalizing tokens with
  | nil =>
    obtain rfl := List.map_eq_nil_iff.mp same
    rfl
  | @cons c rest kind length lexemes read closed more ih =>
    match tokens, same with
    | [token], _ => rfl
    | first :: second :: tokens, same =>
      obtain ⟨head, tail⟩ := List.cons.inj same
      rw [openComment?, if_neg, ih tail]
      intro opens
      simp only [Bool.and_eq_true, beq_iff_eq] at opens
      obtain ⟨⟨⟨op, slash⟩, -⟩, star⟩ := opens
      -- The star would be the first character behind the slash.
      have front : (⟨kind, c :: rest.take length⟩ : Lexeme) = ⟨.op, ['/']⟩ := by
        rw [← head, ← op, ← slash]
      simp only [Lexeme.mk.injEq, List.cons.injEq] at front
      obtain ⟨rfl, rfl, short⟩ := front
      have all : rest.drop length = rest := by
        simpa [short] using List.take_append_drop length rest
      have next : rest.head? = second.text.head? := by
        rw [all, ← tail] at more
        exact more.head
      exact closed rfl rfl (by rw [next, star]; rfl)

theorem Lexes.tokenize (lexes : Lexes source lexemes) :
    ∃ tokens, tokenize source = .ok tokens ∧ lexemesOf tokens = lexemes := by
  obtain ⟨tokens, scanned, same⟩ := lexes.scan Position.first
  refine ⟨tokens, ?_, same⟩
  simp only [Specializer.tokenize, bind_eq_ok]
  exact ⟨tokens, scanned, by rw [lexes.noOpenComment same]; rfl⟩

theorem scan_classified {skip : Nat} {here : Position} {text : List Char} {tokens : List Token}
    (scanned : scan skip here text = .ok tokens) : ∀ token ∈ tokens, Whole token.toLexeme := by
  refine scan_induction (motive := fun _ tokens => ∀ token ∈ tokens, Whole token.toLexeme)
    (List.forall_mem_nil _) ?_ scanned
  intro c rest kind length here tokens read behind
  -- The token is as long as its class says, for that many characters are left.
  have bound := classify_le read
  have taken : (rest.take length).length = length := by simp [bound]
  have again : classify c (rest.take length ++ rest.drop length) =
      some (kind, (rest.take length).length) := by
    rw [List.take_append_drop, taken, read]
  exact List.forall_mem_cons.mpr ⟨whole_of_classify again, behind⟩

def Beside (first second : Lexeme) : Prop := first.Stops second.text

def solid (lexeme : Lexeme) : Bool := lexeme.kind != .blank

theorem Whole.ne_nil {lexeme : Lexeme} (whole : Whole lexeme) : lexeme.text ≠ [] := by
  cases whole with
  | blanks present => exact present
  | solid => exact List.cons_ne_nil _ _

theorem Lexes.blanks {c : Char} {tail : List Char} (all : ∀ d ∈ c :: tail, isSourceBlank d = true)
    (lexes : Lexes source lexemes) :
    ∃ read, Lexes (c :: tail ++ source) read ∧ read.filter solid = lexemes.filter solid := by
  have first : isSourceBlank c = true := all c List.mem_cons_self
  have run : runLength isSourceBlank (tail ++ source) =
      tail.length + runLength isSourceBlank source := by
    rw [runLength, List.takeWhile_append_of_pos fun d member => all d (List.mem_cons_of_mem _ member),
      List.length_append, runLength]
  have blanks : classify c (tail ++ source) =
      some (.blank, tail.length + runLength isSourceBlank source) := by
    rw [classify_blank first, run]
  have rest : (tail ++ source).drop (tail.length + runLength isSourceBlank source) =
      source.drop (runLength isSourceBlank source) := by
    rw [← List.drop_drop, List.drop_left]
  have after {lexemes : List Lexeme}
      (more : Lexes (source.drop (runLength isSourceBlank source)) lexemes) :=
    Lexes.cons blanks (fun op => by cases op) (rest ▸ more)
  cases lexes with
  | nil => exact ⟨_, after .nil, rfl⟩
  | @cons d source kind length lexemes read closed more =>
    by_cases blank : isSourceBlank d = true
    -- Blanks that follow at once are part of the same token.
    · rw [classify_blank blank] at read
      obtain ⟨rfl, rfl⟩ := Prod.mk.inj (Option.some.inj read)
      have behind : Lexes ((d :: source).drop (runLength isSourceBlank (d :: source))) lexemes := by
        simpa [runLength, blank] using more
      exact ⟨_, after behind, rfl⟩
    · have here := Lexes.cons read closed more
      have none : runLength isSourceBlank (d :: source) = 0 := by simp [runLength, blank]
      rw [none] at after
      exact ⟨_, after here, rfl⟩

theorem slash_alone {tail rest : List Char}
    (read : classify '/' (tail ++ rest) = some (.op, tail.length)) : tail = [] := by
  rw [classify_slash] at read
  cases comment : comment? (tail ++ rest) with
  | none =>
    rw [comment, Option.none_or] at read
    exact List.length_eq_zero_iff.mp (Prod.mk.inj (Option.some.inj read)).2.symm
  | some found =>
    rw [comment, Option.some_or] at read
    obtain rfl := Option.some.inj read
    simpa using comment?_some comment

theorem lexes_of_chain (whole : ∀ lexeme ∈ lexemes, Whole lexeme) (chain : lexemes.IsChain Beside) :
    ∃ read, Lexes (lexemes.flatMap Lexeme.text) read ∧ read.filter solid = lexemes.filter solid := by
  induction lexemes with
  | nil => exact ⟨[], .nil, rfl⟩
  | cons first rest ih =>
    obtain ⟨read, lexes, same⟩ := ih (fun lexeme member => whole lexeme (List.mem_cons_of_mem _ member))
      chain.tail
    have ofFirst := whole first List.mem_cons_self
    have stops : first.Stops (rest.flatMap Lexeme.text) := by
      cases rest with
      | nil => nofun
      | cons second rest =>
        have present := (whole second (by simp)).ne_nil
        have beside : Beside first second := (List.isChain_cons_cons.mp chain).1
        intro c head
        refine beside c ?_
        rw [List.flatMap_cons, List.head?_append_of_ne_nil _ present] at head
        exact head
    rw [List.flatMap_cons]
    -- Blanks are read together with those behind them, anything else alone.
    cases ofFirst with
    | @blanks text present all =>
      obtain ⟨c, tail, rfl⟩ := List.exists_cons_of_ne_nil present
      obtain ⟨again, lexes, filtered⟩ := lexes.blanks all
      exact ⟨again, lexes, by rw [filtered, same]; rfl⟩
    | @solid kind c tail other reads =>
      have first := reads _ stops
      have closed : kind = .op → c = '/' →
          (tail ++ rest.flatMap Lexeme.text).head? ≠ some '*' := by
        rintro rfl rfl star
        obtain rfl := slash_alone first
        have stop := stops '*' star
        simp [Lexeme.stopsAt] at stop
      have behind : Lexes ((tail ++ rest.flatMap Lexeme.text).drop tail.length) read := by
        rwa [List.drop_left]
      have lexes := Lexes.cons first closed behind
      rw [List.take_left] at lexes
      have keeps : solid ⟨kind, c :: tail⟩ = true := bne_iff_ne.mpr other
      refine ⟨_, lexes, ?_⟩
      rw [List.filter_cons_of_pos keeps, List.filter_cons_of_pos keeps, same]

end Lexer

theorem tokenize_whole {source : List Char} {tokens : List Token}
    (lexed : tokenize source = .ok tokens) {token : Token} (member : token ∈ tokens) :
    Lexer.Whole token.toLexeme :=
  Lexer.scan_classified (tokenize_scan lexed).1 token member

end Specializer
