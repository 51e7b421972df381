import Specializer.Proofs.Lexing
import Specializer.Proofs.Relexing
import Specializer.Proofs.Terminals

set_option autoImplicit false

namespace Specializer

/-- The place of an offset: one line more than there are line feeds before it, and one column more
than there are characters behind the last of them. -/
def placeAt (source : List Char) (offset : Nat) : Position :=
  let before := source.take offset
  ⟨offset, 1 + before.count '\n', 1 + (before.reverse.takeWhile (· != '\n')).length⟩

/-- The tokens cover the stretch between two offsets. None is empty, and each begins where the one
before it ends. -/
inductive Tiles : Nat → List Token → Nat → Prop
  | nil (place : Nat) : Tiles place [] place
  | cons {token : Token} {tokens : List Token} {stop : Nat}
      (present : token.start.offset < token.stop.offset)
      (more : Tiles token.stop.offset tokens stop) : Tiles token.start.offset (token :: tokens) stop

/-- The tokens that a source is cut into between two offsets, where each is what the first of the kinds
takes that can begin there. -/
inductive Cuts (source : List Char) : Nat → List Token → Nat → Prop
  | nil (place : Nat) : Cuts source place [] place
  | cons {place stop : Nat} {c : Char} {rest : List Char} {kind : Kind} {length : Nat}
      {tokens : List Token} (here : source.drop place = c :: rest)
      (read : Kind.first? c rest = some (kind, length))
      (more : Cuts source (place + 1 + length) tokens stop) :
      Cuts source place (⟨⟨kind, c :: rest.take length⟩, placeAt source place⟩ :: tokens) stop

/-- No kind of token can begin at the place, though the source goes on there with this character. -/
def Blocked (source : List Char) (place : Nat) (c : Char) : Prop :=
  ∃ rest, source.drop place = c :: rest ∧ ∀ kind : Kind, kind.takes? c rest = none

def Position.charSpan (place : Position) : Span :=
  ⟨place.line, place.col, place.line, place.col + 1⟩

theorem Position.first_advance (text : List Char) : first.advance text = placeAt text text.length := by
  induction text using List.reverseRecOn with
  | nil => rfl
  | append_singleton text c ih =>
    rw [advance_append, ih, placeAt, placeAt, List.take_length, List.take_length]
    by_cases line : c = '\n'
    · simp [step, line, Nat.add_assoc]
    · simp [step, line, Nat.add_comm]

theorem placeAt_advance {source text rest : List Char} {place : Nat}
    (here : source.drop place = text ++ rest) (inside : place ≤ source.length) :
    (placeAt source place).advance text = placeAt source (place + text.length) := by
  have before : source.take (place + text.length) = source.take place ++ text := by
    rw [List.take_add, here, List.take_left]
  have prefixed {offset : Nat} (short : offset ≤ source.length) :
      Position.first.advance (source.take offset) = placeAt source offset := by
    rw [Position.first_advance]
    simp [placeAt, List.take_take, short]
  have fits : place + text.length ≤ source.length := by
    have size := congrArg List.length here
    rw [List.length_drop, List.length_append] at size
    omega
  rw [← prefixed inside, ← prefixed fits, before, Position.advance_append]

namespace Cuts

variable {source : List Char} {place stop : Nat} {tokens : List Token}

theorem step {c : Char} {rest : List Char} {kind : Kind} {length : Nat}
    (here : source.drop place = c :: rest) (read : Kind.first? c rest = some (kind, length)) :
    place + 1 + length ≤ source.length ∧ source.drop (place + 1 + length) = rest.drop length ∧
      (placeAt source place).advance (c :: rest.take length) = placeAt source (place + 1 + length) := by
  have bound : length ≤ rest.length := Lexer.classify_le (by rw [Lexer.classify_first, read])
  have size : (c :: rest.take length).length = 1 + length := by
    simp [Nat.min_eq_left bound, Nat.add_comm]
  have left : source.length - place = rest.length + 1 := by
    rw [← List.length_drop, here, List.length_cons]
  have split : source.drop place = (c :: rest.take length) ++ rest.drop length := by
    rw [here, List.cons_append, List.take_append_drop]
  refine ⟨by omega, ?_, ?_⟩
  · rw [Nat.add_assoc, ← List.drop_drop, split, ← size, List.drop_left]
  · rw [placeAt_advance split (by omega), size, Nat.add_assoc]

theorem tiles (cuts : Cuts source place tokens stop) : Tiles place tokens stop := by
  induction cuts with
  | nil place => exact .nil place
  | @cons place stop c rest kind length tokens here read more ih =>
    obtain ⟨-, -, next⟩ := step here read
    let token : Token := ⟨⟨kind, c :: rest.take length⟩, placeAt source place⟩
    have behind : token.stop.offset = place + 1 + length := congrArg Position.offset next
    have present : token.start.offset < token.stop.offset := by
      rw [behind]
      change place < place + 1 + length
      omega
    exact .cons present (behind ▸ ih)

theorem places (cuts : Cuts source place tokens stop) {token : Token} (member : token ∈ tokens) :
    token.start = placeAt source token.start.offset ∧
      token.stop = placeAt source token.stop.offset := by
  induction cuts with
  | nil => cases member
  | @cons place stop c rest kind length tokens here read more ih =>
    rcases List.mem_cons.mp member with rfl | behind
    · obtain ⟨-, -, next⟩ := step here read
      refine ⟨rfl, ?_⟩
      rw [Token.stop, next]
      rfl
    · exact ih behind

theorem taken (cuts : Cuts source place tokens stop) {token : Token} (member : token ∈ tokens) :
    ∃ c rest length, source.drop token.start.offset = c :: rest ∧
      token.kind.takes? c rest = some length ∧ token.text = c :: rest.take length ∧
      ∀ other : Kind, token.kind.rank < other.rank → other.takes? c rest = none := by
  induction cuts with
  | nil => cases member
  | @cons place stop c rest kind length tokens here read more ih =>
    rcases List.mem_cons.mp member with rfl | behind
    · obtain ⟨takes, others⟩ := Kind.first?_some read
      exact ⟨c, rest, length, here, takes, rfl, others⟩
    · exact ih behind

theorem scan (cuts : Cuts source place tokens stop) :
    Lexer.scan 0 (placeAt source place) (source.drop place) =
      (Lexer.scan 0 (placeAt source stop) (source.drop stop)).map (tokens ++ ·) := by
  induction cuts with
  | nil place => cases Lexer.scan 0 (placeAt source place) (source.drop place) <;> rfl
  | @cons place stop c rest kind length tokens here read more ih =>
    obtain ⟨-, behind, next⟩ := step here read
    rw [here, Lexer.scan, Lexer.classify_first, read]
    dsimp only
    rw [Lexer.scan_drop, next, ← behind, ih]
    cases Lexer.scan 0 (placeAt source stop) (source.drop stop) <;> rfl

theorem scan_end (cuts : Cuts source place tokens source.length) :
    Lexer.scan 0 (placeAt source place) (source.drop place) = .ok tokens := by
  rw [cuts.scan, List.drop_length, Lexer.scan]
  exact congrArg Except.ok (List.append_nil tokens)

theorem scan_blocked {c : Char} (cuts : Cuts source place tokens stop) (blocked : Blocked source stop c) :
    Lexer.scan 0 (placeAt source place) (source.drop place) =
      .error (.unexpectedChar c (placeAt source stop).charSpan) := by
  obtain ⟨rest, here, none⟩ := blocked
  rw [cuts.scan, here, Lexer.scan, Lexer.classify_first, Kind.first?_none.mpr none]
  rfl

theorem exist (source : List Char) {place : Nat} (inside : place ≤ source.length) :
    ∃ tokens stop, Cuts source place tokens stop ∧
      (stop = source.length ∨ ∃ c, Blocked source stop c) := by
  -- On what is left of the source: every token takes some of it.
  induction left : source.length - place using Nat.strongRecOn generalizing place with
  | _ left ih =>
    subst left
    cases here : source.drop place with
    | nil =>
      have past := List.drop_eq_nil_iff.mp here
      exact ⟨[], place, .nil place, .inl (Nat.le_antisymm inside past)⟩
    | cons c rest =>
      cases read : Kind.first? c rest with
      | none => exact ⟨[], place, .nil place, .inr ⟨c, rest, here, Kind.first?_none.mp read⟩⟩
      | some found =>
        obtain ⟨kind, length⟩ := found
        obtain ⟨fits, -, -⟩ := step here read
        obtain ⟨tokens, stop, more, ends⟩ := ih _ (by omega) fits rfl
        exact ⟨_, stop, .cons here read more, ends⟩

end Cuts

theorem scan_cuts {source : List Char} {tokens : List Token}
    (scanned : Lexer.scan 0 Position.first source = .ok tokens) :
    Cuts source 0 tokens source.length := by
  obtain ⟨found, stop, cuts, rfl | ⟨c, blocked⟩⟩ := Cuts.exist source (Nat.zero_le _)
  · have same := cuts.scan_end.symm.trans scanned
    cases same
    exact cuts
  · have failed := (cuts.scan_blocked blocked).symm.trans scanned
    cases failed

theorem tokenize_ok {source : List Char} {tokens : List Token} :
    tokenize source = .ok tokens ↔
      Cuts source 0 tokens source.length ∧ Lexer.openComment? tokens = none := by
  constructor
  · intro lexed
    obtain ⟨scanned, closed⟩ := tokenize_scan lexed
    exact ⟨scan_cuts scanned, closed⟩
  · rintro ⟨cuts, closed⟩
    rw [tokenize, bind_eq_ok]
    exact ⟨tokens, cuts.scan_end, by rw [closed]; rfl⟩

theorem tokenize_error {source : List Char} {fault : Fault} (failed : tokenize source = .error fault) :
    (∃ tokens place c, Cuts source 0 tokens place ∧ Blocked source place c ∧
      fault = .unexpectedChar c (placeAt source place).charSpan) ∨
    (∃ tokens slash, Cuts source 0 tokens source.length ∧
      Lexer.openComment? tokens = some slash ∧ fault = .unterminatedComment slash.span) := by
  rw [tokenize, bind_eq_error] at failed
  rcases failed with failed | ⟨tokens, scanned, checked⟩
  · obtain ⟨tokens, stop, cuts, rfl | ⟨c, blocked⟩⟩ := Cuts.exist source (Nat.zero_le _)
    · cases cuts.scan_end.symm.trans failed
    · cases (cuts.scan_blocked blocked).symm.trans failed
      exact .inl ⟨tokens, stop, c, cuts, blocked, rfl⟩
  · split at checked
    next slash opened =>
      cases checked
      exact .inr ⟨tokens, slash, scan_cuts scanned, opened, rfl⟩
    next => cases checked

theorem tokenize_blocked {source : List Char} {tokens : List Token} {place : Nat} {c : Char}
    (cuts : Cuts source 0 tokens place) (blocked : Blocked source place c) :
    tokenize source = .error (.unexpectedChar c (placeAt source place).charSpan) := by
  rw [tokenize, bind_eq_error]
  exact .inl (cuts.scan_blocked blocked)

/-- The tokens of a source are not empty, tile it from its beginning to its end and spell it; each
stands where its offsets say, and is what the kind of the highest rank takes there. A character that no
kind of token begins with is refused at its own place, and then the tokens before it reach so far. -/
theorem tokenize_tiles (source : List Char) :
    (∀ tokens, tokenize source = .ok tokens →
      Tiles 0 tokens source.length ∧ spell tokens = source ∧
      ∀ token ∈ tokens, token.text ≠ [] ∧
        token.start = placeAt source token.start.offset ∧
        token.stop = placeAt source token.stop.offset ∧
        ∃ c rest length, source.drop token.start.offset = c :: rest ∧
          token.kind.takes? c rest = some length ∧ token.text = c :: rest.take length ∧
          ∀ other : Kind, token.kind.rank < other.rank → other.takes? c rest = none) ∧
    (∀ tokens place c, Cuts source 0 tokens place → Blocked source place c →
      tokenize source = .error (.unexpectedChar c (placeAt source place).charSpan)) ∧
    (∀ fault, tokenize source = .error fault →
      (fault.code.label = "TE1001" ∧ ∃ tokens place c, Cuts source 0 tokens place ∧
        Blocked source place c ∧ fault.span = some (placeAt source place).charSpan) ∨
      (fault.code.label = "TE1002" ∧ ∃ tokens slash, Cuts source 0 tokens source.length ∧
        Lexer.openComment? tokens = some slash ∧ fault.span = some slash.span)) := by
  refine ⟨fun tokens lexed => ?_, fun tokens place c => tokenize_blocked, fun fault failed => ?_⟩
  · obtain ⟨cuts, -⟩ := tokenize_ok.mp lexed
    refine ⟨cuts.tiles, tokenize_spell lexed, fun token member => ?_⟩
    obtain ⟨start, stop⟩ := cuts.places member
    obtain ⟨c, rest, length, here, takes, text, others⟩ := cuts.taken member
    exact ⟨text ▸ List.cons_ne_nil c _, start, stop, c, rest, length, here, takes, text, others⟩
  · rcases tokenize_error failed with ⟨tokens, place, c, cuts, blocked, rfl⟩ |
      ⟨tokens, slash, cuts, opened, rfl⟩
    · exact .inl ⟨rfl, tokens, place, c, cuts, blocked, rfl⟩
    · exact .inr ⟨rfl, tokens, slash, cuts, opened, rfl⟩

theorem tokenize_tiles_lines :
    (∃ tokens, tokenize "/* x\n */ a\n".toList = .ok tokens ∧ tokens.length = 4 ∧
      Tiles 0 tokens 11 ∧ ∀ token ∈ tokens, token.text ≠ []) ∧
    tokenize "a\n #".toList = .error (.unexpectedChar '#' ⟨2, 2, 2, 3⟩) := by
  constructor
  · obtain ⟨tokens, lexed, count⟩ := ok_of_any
      (show (tokenize "/* x\n */ a\n".toList).toOption.any (fun tokens => tokens.length == 4) = true by
        decide +kernel)
    obtain ⟨tiles, -, places⟩ := (tokenize_tiles "/* x\n */ a\n".toList).1 tokens lexed
    exact ⟨tokens, lexed, eq_of_beq count, tiles, fun token member => (places token member).1⟩
  · have behind : Cuts "a\n #".toList 1 [⟨⟨.blank, ['\n', ' ']⟩, ⟨1, 1, 2⟩⟩] 3 :=
      @Cuts.cons _ 1 3 '\n' [' ', '#'] .blank 1 [] rfl (by decide +kernel) (.nil 3)
    have cuts := @Cuts.cons _ 0 3 'a' ['\n', ' ', '#'] .ident 0 _ rfl (by decide +kernel) behind
    exact (tokenize_tiles "a\n #".toList).2.1 _ 3 '#' cuts
      ⟨[], rfl, fun kind => by cases kind <;> decide +kernel⟩

end Specializer
