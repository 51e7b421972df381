import Specializer.Proofs.MemberBrackets
import Specializer.Proofs.Relocation

set_option autoImplicit false

namespace Specializer

/-- Whether a place lies in one of the ranges that open with an angle bracket. -/
def coveredBy (lexemes : List Lexeme) (ranges : List Range) (place : Nat) : Bool :=
  ranges.any fun range => lexemes[range.start]?.any (fun lexeme => lexeme.kind == .lt) &&
    decide (range.start ≤ place) && decide (place < range.stop)

def markFrom (marks : Nat → Bool) (place : Nat) (lexemes : List Lexeme) : List (Lexeme × Bool) :=
  (lexemes.zipIdx place).map fun pair => (pair.1, marks pair.2)

/-- The brackets outside of package statements, where the ranges are those of members. -/
def bracketsOutside (lexemes : List Lexeme) (ranges : List Range) : List Kind :=
  bracketsOf (outsidePackages (some 0) (markFrom (coveredBy lexemes ranges) 0 lexemes))

section Marks

variable {marks other : Nat → Bool} {place : Nat} {first second lexemes : List Lexeme}

theorem markFrom_append : markFrom marks place (first ++ second) =
    markFrom marks place first ++ markFrom marks (place + first.length) second := by
  simp [markFrom, List.zipIdx_append]

theorem markFrom_fst : (markFrom marks place lexemes).map Prod.fst = lexemes := by
  simp [markFrom, Function.comp_def]

theorem mem_markFrom {item : Lexeme × Bool} (member : item ∈ markFrom marks place lexemes) :
    ∃ index, place ≤ index ∧ index < place + lexemes.length ∧ item.2 = marks index := by
  obtain ⟨⟨lexeme, index⟩, listed, rfl⟩ := List.mem_map.mp member
  obtain ⟨low, high, -⟩ := List.mem_zipIdx listed
  exact ⟨index, low, by omega, rfl⟩

theorem markFrom_congr (same : ∀ index, place ≤ index → index < place + lexemes.length →
    marks index = other index) : markFrom marks place lexemes = markFrom other place lexemes := by
  apply List.map_congr_left
  rintro ⟨lexeme, index⟩ listed
  obtain ⟨low, high, -⟩ := List.mem_zipIdx listed
  rw [same index low (by omega)]

theorem coveredBy_append {before behind : List Range} :
    coveredBy lexemes (before ++ behind) place =
      (coveredBy lexemes before place || coveredBy lexemes behind place) := by
  simp [coveredBy]

end Marks

namespace Grammar

open Read

variable {lexemes : List Lexeme} {cursor next : Cursor}

theorem Between.on {shape : List Lexeme → Prop} (between : Between shape cursor next)
    (on : cursor.On lexemes) : next.On lexemes := by
  obtain ⟨stretch, left, position, -⟩ := between
  have whole : stretch ++ next.rest = lexemes.drop cursor.position := left.symm.trans on.rest
  constructor
  next => rw [position, ← List.drop_drop, ← whole, List.drop_left]
  next =>
    have counted := congrArg List.length whole
    rw [List.length_append, List.length_drop] at counted
    have bound := on.bound
    omega

def Keeps (marks : Nat → Bool) (cursor next : Cursor) : Prop :=
  ∃ stretch, Balanced (fun _ => true) stretch ∧
    outsidePackages (some 0) (markFrom marks cursor.position cursor.rest) =
      stretch ++ outsidePackages (some 0) (markFrom marks next.position next.rest)

variable {marks : Nat → Bool}

theorem Keeps.trans {middle : Cursor} (first : Keeps marks cursor middle)
    (second : Keeps marks middle next) : Keeps marks cursor next := by
  obtain ⟨one, balanced, kept⟩ := first
  obtain ⟨two, balancedToo, keptToo⟩ := second
  refine ⟨one ++ two, balanced.append balancedToo, ?_⟩
  rw [kept, keptToo, List.append_assoc]

theorem Between.keeps {allowed : Lexeme → Bool} (between : Between (Balanced allowed) cursor next)
    (held : ∀ lexeme index, allowed lexeme = true → cursor.position ≤ index →
      index < next.position → lexeme.spells "package" = false ∨ marks index = true) :
    Keeps marks cursor next := by
  obtain ⟨stretch, left, position, balanced⟩ := between
  refine ⟨stretch, balanced.loosen, ?_⟩
  rw [left, markFrom_append, ← position]
  apply balanced.outside_append markFrom_fst
  rintro ⟨lexeme, mark⟩ member fine
  obtain ⟨index, low, high, rfl⟩ := mem_markFrom member
  exact .inr (held lexeme index fine low (by omega))

theorem States.lt (states : States cursor next) : cursor.position < next.position := by
  obtain ⟨_, _, _, _, position, _⟩ := states
  omega

theorem States.keeps (states : States cursor next) (free : marks cursor.position = false) :
    Keeps marks cursor next := by
  obtain ⟨word, body, last, left, position, spelled, open_, semicolon⟩ := states
  have cut : markFrom marks cursor.position cursor.rest =
      (word, false) :: (markFrom marks (cursor.position + 1) body ++
        (last, marks (cursor.position + 1 + body.length)) :: markFrom marks next.position next.rest) := by
    have later : next.position = cursor.position + 1 + body.length + 1 := by omega
    rw [left, later]
    simp [markFrom, List.zipIdx_cons, List.zipIdx_append, free]
  refine ⟨[], .nil, ?_⟩
  rw [cut]
  apply outsidePackages_statement spelled _ semicolon
  intro item member
  apply open_
  rw [← @markFrom_fst marks (cursor.position + 1) body]
  exact List.mem_map_of_mem member

theorem Progress.keeps {found : Item} (progress : Progress .template found cursor next)
    (on : cursor.On lexemes)
    (own : ∀ place, coveredBy lexemes (found.1.map Member.range) place = true → marks place = true)
    (free : found.1 = [] → cursor.position < next.position → marks cursor.position = false) :
    Keeps marks cursor next := by
  have calm {start stop : Cursor} (between : Between (Balanced notPackage) start stop) : Keeps marks start stop := by
    apply between.keeps
    intro lexeme index fine _ _
    exact .inl (by simpa [notPackage] using fine)
  cases progress with
  | calm between => exact calm between
  | loose inner => exact absurd rfl inner
  | @covered member opening middle mine angled before inside behind range =>
    apply (calm (before.trans inside)).trans
    apply behind.keeps
    -- All that is read behind the angle brackets lies in the range of the member.
    intro _ index _ low high
    apply Or.inr
    apply own
    obtain ⟨lexeme, opens, kind⟩ := (before.on on).sees angled
    have order := inside.le
    rw [Nat.add_zero] at opens
    rw [coveredBy, List.any_eq_true]
    refine ⟨member.range, List.mem_map_of_mem mine, ?_⟩
    simp only [range, opens, Option.any_some, kind, Bool.true_and, Bool.and_eq_true, decide_eq_true_eq]
    omega
  | statement _ alone states => exact states.keeps (free alone states.lt)
  | closed awaited => cases awaited

theorem coveredBy_apart {ranges : List Range} {place low high : Nat}
    (successive : Successive low ranges high) (apart : place < low ∨ high ≤ place) :
    coveredBy lexemes ranges place = false := by
  rw [Bool.eq_false_iff]
  intro covered
  obtain ⟨range, member, inside⟩ := List.any_eq_true.mp covered
  simp only [Bool.and_eq_true, decide_eq_true_eq] at inside
  have bounds := successive.inside member
  omega

-- From wherever a scan of a template stands, what is left outside of package statements is balanced;
-- the members found before do not matter.
theorem scan_outside (meaningful : Meaningful lexemes) {n : Nat} {before : Before}
    {found : List Member} {earlier : List Range} {low : Nat} (on : cursor.On lexemes)
    (ended : Successive low earlier cursor.position)
    (done : scan n .template before cursor = .done found next) :
    Balanced (fun _ => true) (outsidePackages (some 0)
      (markFrom (coveredBy lexemes (earlier ++ found.map Member.range)) cursor.position cursor.rest)) := by
  induction n generalizing before cursor found earlier with
  | zero => simp [scan, stuck_done] at done
  | succ n ih =>
    rcases scan_done done with ⟨empty, -⟩ | last | ⟨members, after, middle, rest, read, scanned, rfl⟩
    next =>
      rw [empty]
      exact .nil
    next => exact absurd rfl (item_template n before _ _ _ last)
    next =>
      obtain ⟨onMiddle, row⟩ := (members_laid meaningful n).item _ _ _ _ _ on read
      obtain ⟨-, later⟩ := (members_laid meaningful n).scan _ _ _ _ _ onMiddle scanned
      have ranges : earlier ++ (members ++ rest).map Member.range =
          earlier ++ members.map Member.range ++ rest.map Member.range := by
        rw [List.map_append, List.append_assoc]
      have own : ∀ place, coveredBy lexemes (members.map Member.range) place = true →
          coveredBy lexemes (earlier ++ members.map Member.range ++ rest.map Member.range)
            place = true := by
        intro place covered
        simp [coveredBy_append, covered]
      -- A package statement holds no member, and all others end before it or begin behind it.
      have free : members = [] → cursor.position < middle.position →
          coveredBy lexemes (earlier ++ members.map Member.range ++ rest.map Member.range)
            cursor.position = false := by
        rintro rfl less
        rw [coveredBy_append, coveredBy_append, coveredBy_apart ended (.inr (Nat.le_refl _)),
          coveredBy_apart later.1 (.inl less)]
        rfl
      have progress := (members_bracketed n).item _ _ _ _ _ read
      obtain ⟨stretch, balanced, kept⟩ := progress.keeps on own free
      rw [ranges, kept]
      exact balanced.append (ih onMiddle (ended.append row.1) scanned)

theorem members_outside (meaningful : Meaningful lexemes) {found : List Member}
    (done : members lexemes = .done found next) :
    nested [] (bracketsOutside lexemes (found.map Member.range)) = true := by
  have none : Successive 0 [] 0 := Nat.le_refl 0
  have balanced := scan_outside meaningful .begin none done
  have whole := balanced.nested_append [] []
  rw [List.append_nil] at whole
  exact whole

end Grammar

section Trivia

theorem isMark_of_isTrivia {kind : Kind} (trivia : kind.isTrivia = true) :
    Grammar.isMark kind = true ∧ kind ≠ .semi := by
  revert trivia
  cases kind <;> decide

theorem outsidePackages_significant (state : Option Nat) (marked : List (Lexeme × Bool)) :
    bracketsOf (outsidePackages state (marked.filter fun item => !item.1.kind.isTrivia)) =
      bracketsOf (outsidePackages state marked) := by
  induction marked generalizing state with
  | nil => rfl
  | cons item rest ih =>
    obtain ⟨lexeme, mark⟩ := item
    by_cases trivia : lexeme.kind.isTrivia = true
    next =>
      -- A blank or a comment is no bracket, opens no statement and ends none.
      obtain ⟨mark, semicolon⟩ := isMark_of_isTrivia trivia
      have calm := Grammar.isCalm_of_kind _ mark lexeme (beq_self_eq_true _)
      obtain ⟨bracket, word⟩ := @Grammar.not_calm "package" (by decide) (by decide) _ calm
      rw [List.filter_cons_of_neg (by simp [trivia]), ih]
      cases state with
      | none => rw [outsidePackages, if_neg semicolon]
      | some depth =>
        rw [outsidePackages_kept (.inr (.inl word)), Kind.depthAfter_plain bracket]
        simp [bracketsOf, bracket]
    next =>
      rw [List.filter_cons_of_pos (by simp [trivia])]
      cases state with
      | none => rw [outsidePackages, outsidePackages, ih]
      | some depth =>
        rw [outsidePackages, outsidePackages]
        split
        next => exact ih none
        next =>
          have later := ih (some (lexeme.kind.depthAfter depth))
          simp only [bracketsOf, List.map_cons, List.filter_cons] at later ⊢
          rw [later]

theorem markFrom_significant (marks : Nat → Bool) (tokens : List Token) :
    (markFrom marks 0 (lexemesOf tokens)).filter (fun item => !item.1.kind.isTrivia) =
      markFrom (fun k => marks (placeIn tokens k)) 0 (significantLexemes tokens) := by
  have pairs : (markFrom marks 0 (lexemesOf tokens)).filter (fun item => !item.1.kind.isTrivia) =
      ((tokens.zipIdx 0).filter fun pair => !pair.1.isTrivia).map
        fun pair => (pair.1.toLexeme, marks pair.2) := by
    simp [markFrom, lexemesOf, List.zipIdx_map, List.filter_map, Function.comp_def, Token.isTrivia]
  have places : significant tokens =
      ((tokens.zipIdx 0).filter fun pair => !pair.1.isTrivia).map Prod.snd := indicesFrom_eq _ 0 tokens
  have lexemes : significantLexemes tokens =
      ((tokens.zipIdx 0).filter fun pair => !pair.1.isTrivia).map fun pair => pair.1.toLexeme := by
    conv_lhs => rw [significantLexemes, ← @List.zipIdx_map_fst _ 0 tokens, List.filter_map, List.map_map]
    rfl
  apply List.ext_getElem?
  intro k
  rw [pairs, markFrom, List.getElem?_map, List.getElem?_map, List.getElem?_zipIdx, lexemes,
    List.getElem?_map]
  cases found : ((tokens.zipIdx 0).filter fun pair => !pair.1.isTrivia)[k]? with
  | none => rfl
  | some pair =>
    have here : (significant tokens)[k]? = some pair.2 := by
      rw [places, List.getElem?_map, found, Option.map_some]
    simp [here]

theorem Relocates.le_iff {place : Nat → Nat} {lexemes texts : List Lexeme}
    (relocates : Relocates place lexemes texts) {a b : Nat} (left : a < lexemes.length)
    (right : b < lexemes.length) : place a ≤ place b ↔ a ≤ b := by
  constructor
  next =>
    intro order
    by_contra more
    have less := relocates.increasing b a (Nat.lt_of_not_le more) left
    omega
  next => exact fun order => relocates.le order right

theorem coveredBy_relocate {place : Nat → Nat} {lexemes texts : List Lexeme}
    (relocates : Relocates place lexemes texts) {ranges : List Range}
    (bounds : ∀ range ∈ ranges, range.start < range.stop ∧ range.stop ≤ lexemes.length) {k : Nat}
    (inside : k < lexemes.length) :
    coveredBy texts (ranges.map (Range.relocate place)) (place k) = coveredBy lexemes ranges k := by
  rw [coveredBy, coveredBy, List.any_map, Bool.eq_iff_iff, List.any_eq_true, List.any_eq_true]
  apply exists_congr
  intro range
  apply and_congr_right
  intro member
  obtain ⟨nonempty, bound⟩ := bounds range member
  have within := List.getElem?_eq_getElem (Nat.lt_of_lt_of_le nonempty bound)
  have opening := relocates.same range.start _ within
  have start : place range.start ≤ place k ↔ range.start ≤ k := relocates.le_iff (by omega) inside
  have stop : place k < place (range.stop - 1) + 1 ↔ k < range.stop := by
    rw [Nat.lt_succ_iff, relocates.le_iff inside (by omega)]
    omega
  simp only [Function.comp_apply, Range.relocate, opening, within, start, stop]

theorem bracketsOutside_relocate (tokens : List Token) {ranges : List Range}
    (bounds : ∀ range ∈ ranges,
      range.start < range.stop ∧ range.stop ≤ (significantLexemes tokens).length) :
    bracketsOutside (lexemesOf tokens) (ranges.map (Range.relocate (placeIn tokens))) =
      bracketsOutside (significantLexemes tokens) ranges := by
  rw [bracketsOutside, ← outsidePackages_significant, markFrom_significant, bracketsOutside]
  congr 2
  apply markFrom_congr
  intro k _ inside
  exact coveredBy_relocate (significant_relocates tokens) bounds (by omega)

end Trivia

theorem bracketsOutside_plain {lexemes : List Lexeme} (plain : ∀ lexeme ∈ lexemes, lexeme.kind ≠ .lt)
    (ranges : List Range) : bracketsOutside lexemes ranges = bracketsOutside lexemes [] := by
  have uncovered : ∀ place, coveredBy lexemes ranges place = coveredBy lexemes [] place := by
    intro place
    apply Bool.eq_false_iff.mpr
    intro covered
    obtain ⟨range, -, inside⟩ := List.any_eq_true.mp covered
    simp only [Bool.and_eq_true, Option.any_eq_true, beq_iff_eq] at inside
    obtain ⟨⟨⟨lexeme, found, kind⟩, -⟩, -⟩ := inside
    exact plain lexeme (List.mem_of_getElem? found) kind
  rw [bracketsOutside, bracketsOutside, markFrom_congr fun place _ _ => uncovered place]

/-- In whatever parses, the brackets outside of package statements are nested. If they are not, whichever
stretches behind an angle bracket are taken for members, the tokens are rejected. -/
theorem parseTokens_nested (tokens : List Token) :
    (∀ tree, parseTokens tokens = .ok tree →
      nested [] (bracketsOutside (lexemesOf tokens) (tree.members.map Member.range)) = true) ∧
    ((∀ ranges, nested [] (bracketsOutside (lexemesOf tokens) ranges) = false) →
      ∃ fault, parseTokens tokens = .error fault) := by
  have accepted : ∀ tree, parseTokens tokens = .ok tree →
      nested [] (bracketsOutside (lexemesOf tokens) (tree.members.map Member.range)) = true := by
    intro tree parsed
    obtain ⟨found, next, outcome, rfl⟩ := parseTokens_ok parsed
    have meaningful := significantLexemes_meaningful tokens
    have row := Grammar.members_row meaningful outcome
    have ranges : (relocateMembers (placeIn tokens) found).map Member.range =
        (found.map Member.range).map (Range.relocate (placeIn tokens)) := by
      simp [relocateMembers_eq, Function.comp_def]
    rw [ranges, bracketsOutside_relocate tokens fun range member => (row.1.inside member).2]
    exact Grammar.members_outside meaningful outcome
  refine ⟨accepted, fun unnested => ?_⟩
  cases parsed : parseTokens tokens with
  | error fault => exact ⟨fault, rfl⟩
  | ok tree =>
    have holds := accepted tree parsed
    rw [unnested] at holds
    cases holds

-- A statement may leave a bracket open, which then nothing may close; the word for one inside of a generic
-- method opens none.
theorem parseTokens_nested_statement :
    (∃ tokens tree, tokenize "package a(; <T> void package(;) {}".toList = .ok tokens ∧
      parseTokens tokens = .ok tree ∧ nested [] (bracketsOf (lexemesOf tokens)) = false ∧
      bracketsOutside (lexemesOf tokens) (tree.members.map Member.range) =
        [.lpar, .rpar, .lbrace, .rbrace] ∧
      nested [] (bracketsOutside (lexemesOf tokens) (tree.members.map Member.range)) = true) ∧
    ∃ tokens fault, tokenize "package a(; class A {} )".toList = .ok tokens ∧
      parseTokens tokens = .error fault := by
  constructor
  next =>
    obtain ⟨⟨tokens, tree⟩, parsed, passes⟩ := ok_of_any
      (show (parse "package a(; <T> void package(;) {}".toList).toOption.any
        (fun read => !nested [] (bracketsOf (lexemesOf read.1)) &&
          bracketsOutside (lexemesOf read.1) (read.2.members.map Member.range) ==
            [.lpar, .rpar, .lbrace, .rbrace]) = true by decide +kernel)
    simp only [Bool.and_eq_true, Bool.not_eq_true', beq_iff_eq] at passes
    obtain ⟨lexed, read⟩ := parse_ok parsed
    exact ⟨tokens, tree, lexed, read, passes.1, passes.2, (parseTokens_nested tokens).1 tree read⟩
  next =>
    obtain ⟨tokens, lexed, passes⟩ := ok_of_any
      (show (tokenize "package a(; class A {} )".toList).toOption.any
        (fun tokens => decide (∀ lexeme ∈ lexemesOf tokens, lexeme.kind ≠ .lt) &&
          !nested [] (bracketsOutside (lexemesOf tokens) [])) = true by decide +kernel)
    simp only [Bool.and_eq_true, decide_eq_true_eq, Bool.not_eq_true'] at passes
    have unnested : ∀ ranges, nested [] (bracketsOutside (lexemesOf tokens) ranges) = false := by
      intro ranges
      rw [bracketsOutside_plain passes.1, passes.2]
    obtain ⟨fault, rejected⟩ := (parseTokens_nested tokens).2 unnested
    exact ⟨tokens, fault, lexed, rejected⟩

end Specializer
