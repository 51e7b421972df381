import Specializer.Proofs.Recorded
import Specializer.Proofs.Rewording

set_option autoImplicit false

namespace Specializer

open Lexer

/-- Nothing but lists in angle brackets stands between two places. -/
inductive Bridged (tree : Tree) (start : Nat) : Nat → Prop
  | here : Bridged tree start start
  | list {part : Subtree} (bridged : Bridged tree start part.range.start)
      (below : (Subtree.unit tree).Below part)
      (list : part.kind = .typeParams ∨ part.kind = .typeArgs) : Bridged tree start part.range.stop

/-- No token runs into the next, nor into the next behind lists in angle brackets. -/
def Spaced (tokens : List Token) (tree : Tree) : Prop :=
  ∀ (index place : Nat) (first second : Token), Bridged tree (index + 1) place →
    tokens[index]? = some first → tokens[place]? = some second →
      Beside first.toLexeme second.toLexeme

section Bridges

variable {tree : Tree} {start place : Nat}

theorem Bridged.first (bridged : Bridged tree start place) :
    start = place ∨ ∃ part, (Subtree.unit tree).Below part ∧
      (part.kind = .typeParams ∨ part.kind = .typeArgs) ∧ part.range.start = start := by
  induction bridged with
  | here => exact .inl rfl
  | @list part _ below list ih =>
    rcases ih with rfl | found
    · exact .inr ⟨part, below, list, rfl⟩
    · exact .inr found

theorem Bridged.last (bridged : Bridged tree start place) :
    start = place ∨ ∃ part, (Subtree.unit tree).Below part ∧
      (part.kind = .typeParams ∨ part.kind = .typeArgs) ∧ part.range.stop = place := by
  cases bridged with
  | here => exact .inl rfl
  | @list part _ below list => exact .inr ⟨part, below, list, rfl⟩

end Bridges

section Check

def Tree.lists (tree : Tree) : List Range :=
  (tree.nodes.filter fun node => node.kind == .typeParams || node.kind == .typeArgs).map Node.range

def stopsBefore (first second : Option Token) : Bool :=
  first.all fun first => second.all fun second => second.text.head?.all first.toLexeme.stopsAt

def keepsApart (tokens : List Token) (tree : Tree) : Bool :=
  (List.range tokens.length).all (fun index => stopsBefore tokens[index]? tokens[index + 1]?) &&
    tree.lists.all fun list => stopsBefore tokens[list.start - 1]? tokens[list.stop]? &&
      tree.lists.all fun other => list.stop != other.start

variable {tokens : List Token} {tree : Tree} {start place : Nat}

theorem Tree.mem_lists {part : Subtree} (below : (Subtree.unit tree).Below part)
    (list : part.kind = .typeParams ∨ part.kind = .typeArgs) : part.range ∈ tree.lists := by
  have member : part.node ∈ tree.nodes := tree.mem_nodes_iff.mpr ⟨part, below, rfl⟩
  refine List.mem_map.mpr ⟨part.node, List.mem_filter.mpr ⟨member, ?_⟩, rfl⟩
  simpa [Subtree.node] using list

-- Bridges are of one list each if no list begins where another ends.
theorem Bridged.single
    (apart : ∀ list ∈ tree.lists, ∀ other ∈ tree.lists, list.stop ≠ other.start)
    (bridged : Bridged tree start place) :
    start = place ∨ ∃ list ∈ tree.lists, list.start = start ∧ list.stop = place := by
  cases bridged with
  | here => exact .inl rfl
  | @list part bridged below list =>
    have listed := Tree.mem_lists below list
    rcases bridged.last with rfl | ⟨other, inTree, isList, touches⟩
    · exact .inr ⟨part.range, listed, rfl, rfl⟩
    · exact absurd touches (apart _ (Tree.mem_lists inTree isList) _ listed)

theorem beside_of_stopsBefore {first second : Token}
    (stops : stopsBefore (some first) (some second) = true) :
    Beside first.toLexeme second.toLexeme := by
  intro c head
  simpa [stopsBefore, head] using stops

theorem spaced_of_keepsApart (apart : keepsApart tokens tree = true) : Spaced tokens tree := by
  simp only [keepsApart, Bool.and_eq_true, List.all_eq_true, bne_iff_ne] at apart
  obtain ⟨next, lists⟩ := apart
  intro index place first second bridged found there
  rcases bridged.single fun list member => (lists list member).2 with rfl | ⟨list, member, start, rfl⟩
  · have stops := next index (List.mem_range.mpr (List.getElem?_eq_some_iff.mp found).1)
    rw [found, there] at stops
    exact beside_of_stopsBefore stops
  · have stops := (lists list member).1
    rw [start, Nat.add_sub_cancel, found, there] at stops
    exact beside_of_stopsBefore stops

end Check

def Lexeme.Closed (lexeme : Lexeme) : Prop := ∀ next, Beside lexeme next

section Neighbours

variable {first : Lexeme}

theorem beside_mark {kind : Kind} {c : Char} {tail : List Char} (other : first.kind ≠ .lineComment)
    (mark : c ∈ ['<', '>', ',']) : Beside first ⟨kind, c :: tail⟩ := by
  have apart : isIdentPart c = false ∧ isDecimal c = false ∧ c ∉ ['.', ':', '/', '*', '\x22'] := by
    simp only [List.mem_cons, List.not_mem_nil, or_false] at mark
    rcases mark with rfl | rfl | rfl <;> decide
  obtain ⟨part, digit, marks⟩ := apart
  simp only [List.mem_cons, List.not_mem_nil, or_false, not_or] at marks
  intro d head
  obtain rfl : c = d := by simpa using head
  unfold Lexeme.stopsAt
  split
  case h_6 line => exact absurd line other
  all_goals simp [part, digit, marks]

theorem beside_word {old new : List Char} (beside : Beside first ⟨.ident, old⟩) (word : IsWord old)
    (other : IsWord new) : Beside first ⟨.ident, new⟩ := by
  obtain ⟨c, tail, rfl, start, -⟩ := word
  obtain ⟨d, rest, rfl, start', -⟩ := other
  intro e head
  obtain rfl : d = e := by simpa using head
  have stops := beside c rfl
  have differ (mark : Char) (not : isIdentStart mark = false) : d ≠ mark :=
    ne_of_isIdentStart start' not
  unfold Lexeme.stopsAt at stops ⊢
  split at stops
  case h_1 => simp [isIdentPart_of_isIdentStart start] at stops
  case h_2 => simp [isIdentPart_of_isIdentStart start] at stops
  case h_3 => simp [differ '\x22' (by decide)]
  case h_4 => simp [isDecimal_of_isIdentStart start', differ '.' (by decide)]
  case h_5 =>
    simp [differ ':' (by decide), differ '/' (by decide), differ '*' (by decide)]
  case h_6 => exact absurd (eq_of_beq stops) (ne_of_isIdentStart start (by decide))
  case h_7 => rfl

theorem Lexer.Whole.newline {lexeme : Lexeme} (whole : Whole lexeme)
    (head : lexeme.text.head? = some '\n') : lexeme.kind = .blank := by
  cases whole with
  | blanks => rfl
  | @solid kind c tail _ read =>
    obtain rfl : c = '\n' := by simpa using head
    have alone := read [] nofun
    rw [classify_blank (by decide)] at alone
    exact (Prod.mk.inj (Option.some.inj alone)).1.symm

end Neighbours

structure Laid (front back : Lexeme → Prop) (text : List Char) (lexemes : List Lexeme) : Prop where
  text : lexemes.flatMap Lexeme.text = text
  whole : ∀ lexeme ∈ lexemes, Whole lexeme
  joins : ∀ (last : Lexeme) (tail : List Lexeme), front last →
    (∀ last, back last → (last :: tail).IsChain Beside) → (last :: (lexemes ++ tail)).IsChain Beside

namespace Laid

variable {front middle back : Lexeme → Prop} {text more : List Char} {lexemes others : List Lexeme}

theorem nothing (meets : ∀ last, front last → back last) : Laid front back [] [] :=
  ⟨rfl, nofun, fun last _ fits ends => ends last (meets last fits)⟩

theorem single {lexeme : Lexeme} (whole : Whole lexeme) :
    Laid (Beside · lexeme) (· = lexeme) lexeme.text [lexeme] where
  text := List.flatMap_singleton _ _
  whole := by simpa using whole
  joins := fun _ _ beside ends => List.isChain_cons_cons.mpr ⟨beside, ends lexeme rfl⟩

theorem append (first : Laid front middle text lexemes) (second : Laid middle back more others) :
    Laid front back (text ++ more) (lexemes ++ others) where
  text := by rw [List.flatMap_append, first.text, second.text]
  whole := fun lexeme member => (List.mem_append.mp member).elim (first.whole lexeme)
    (second.whole lexeme)
  joins := fun last tail fits ends => by
    rw [List.append_assoc]
    exact first.joins last (others ++ tail) fits fun last fits => second.joins last tail fits ends

theorem narrow {before : Lexeme → Prop} (laid : Laid front back text lexemes)
    (left : ∀ last, before last → front last) : Laid before back text lexemes :=
  { laid with joins := fun last tail fits ends => laid.joins last tail (left last fits) ends }

theorem widen {behind : Lexeme → Prop} (laid : Laid front back text lexemes)
    (right : ∀ last, back last → behind last) : Laid front behind text lexemes :=
  { laid with
    joins := fun last tail fits ends =>
      laid.joins last tail fits fun last fits => ends last (right last fits) }

theorem mark {kind : Kind} {c : Char} (read : classify c ([] ++ []) = some (kind, 0))
    (closed : Lexeme.Closed ⟨kind, [c]⟩) :
    Laid (Beside · ⟨kind, [c]⟩) Lexeme.Closed [c] [⟨kind, [c]⟩] := by
  refine (single (whole_of_classify read)).widen ?_
  rintro _ rfl
  exact closed

theorem separator : Laid (Beside · ⟨.comma, [',']⟩) Lexeme.Closed [',', ' ']
    [⟨.comma, [',']⟩, ⟨.blank, [' ']⟩] := by
  have comma : Laid (Beside · ⟨.comma, [',']⟩) _ _ _ := mark (by decide) fun _ _ _ => rfl
  have blank : Laid (Beside · ⟨.blank, [' ']⟩) _ _ _ := mark (by decide) fun _ _ _ => rfl
  exact comma.append (blank.narrow fun _ closed => closed _)

end Laid

namespace Setting

variable {setting : Setting} {tree : Tree} {last : Lexeme} {place : Nat}

/-- What was written last and now meets what stands at the place: it ends before anything, or before
all that some token ends before from which only lists in angle brackets lead there. -/
def Reaches (setting : Setting) (tree : Tree) (last : Lexeme) (place : Nat) : Prop :=
  last.Closed ∨ ∃ index token, setting.tokens[index]? = some token ∧
    Bridged tree (index + 1) place ∧ ∀ next, Beside token.toLexeme next → Beside last next

theorem Reaches.beside (spaced : Spaced setting.tokens tree) {token : Token}
    (reaches : setting.Reaches tree last place) (there : setting.tokens[place]? = some token) :
    Beside last token.toLexeme := by
  rcases reaches with closed | ⟨index, before, found, bridged, ends⟩
  · exact closed _
  · exact ends _ (spaced index place before token bridged found there)

def Keeps (setting : Setting) (tree : Tree) (word : List Char) : Prop :=
  ∃ declared, (Subtree.unit tree).Below (.param declared) ∧ setting.Retains (.param declared) ∧
    declared.name.text = word

/-- A row of tokens that spells a text. It goes behind a token of the first class and before what goes
behind a token of the second. Of the identifiers with placeholders it has the names of type parameters
that stay, and of these all that stand in some places. -/
structure Row (setting : Setting) (tree : Tree) (front back : Lexeme → Prop) (spans : Nat → Prop)
    (text : List Char) (lexemes : List Lexeme) : Prop where
  text : lexemes.flatMap Lexeme.text = text
  whole : ∀ lexeme ∈ lexemes, Whole lexeme
  joins : ∀ (last : Lexeme) (tail : List Lexeme), front last →
    (∀ last, back last → (last :: tail).IsChain Beside) → (last :: (lexemes ++ tail)).IsChain Beside
  keeps : ∀ lexeme ∈ lexemes, lexeme.kind = .ident → hasPlaceholder lexeme.text = true →
    setting.Keeps tree lexeme.text
  names : ∀ declared, (Subtree.unit tree).Below (.param declared) → setting.Retains (.param declared) →
    spans declared.name.index → ⟨.ident, declared.name.text⟩ ∈ lexemes

namespace Row

variable {front middle back : Lexeme → Prop} {spans further : Nat → Prop} {text more : List Char}
  {lexemes others : List Lexeme}

theorem laid (row : setting.Row tree front back spans text lexemes) : Laid front back text lexemes :=
  ⟨row.text, row.whole, row.joins⟩

theorem nothing (meets : ∀ last, front last → back last)
    (none : ∀ declared, (Subtree.unit tree).Below (.param declared) →
      setting.Retains (.param declared) → ¬ spans declared.name.index) :
    setting.Row tree front back spans [] [] :=
  { Laid.nothing meets with
    keeps := nofun
    names := fun declared below retains inside => absurd inside (none declared below retains) }

theorem single {lexeme : Lexeme} (whole : Whole lexeme)
    (keeps : lexeme.kind = .ident → hasPlaceholder lexeme.text = true → setting.Keeps tree lexeme.text)
    (names : ∀ declared, (Subtree.unit tree).Below (.param declared) →
      setting.Retains (.param declared) → spans declared.name.index →
        lexeme = ⟨.ident, declared.name.text⟩) :
    setting.Row tree (Beside · lexeme) (· = lexeme) spans lexeme.text [lexeme] :=
  { Laid.single whole with
    keeps := by simpa using keeps
    names := fun declared below retains inside => by
      rw [names declared below retains inside]
      exact List.mem_singleton_self _ }

theorem append (first : setting.Row tree front middle spans text lexemes)
    (second : setting.Row tree middle back further more others) :
    setting.Row tree front back (fun index => spans index ∨ further index) (text ++ more)
      (lexemes ++ others) :=
  { first.laid.append second.laid with
    keeps := fun lexeme member => (List.mem_append.mp member).elim (first.keeps lexeme)
      (second.keeps lexeme)
    names := fun declared below retains inside => by
      rcases inside with inFirst | inSecond
      · exact List.mem_append_left _ (first.names declared below retains inFirst)
      · exact List.mem_append_right _ (second.names declared below retains inSecond) }

theorem narrow {before : Lexeme → Prop} (row : setting.Row tree front back spans text lexemes)
    (left : ∀ last, before last → front last) : setting.Row tree before back spans text lexemes :=
  { row with joins := (row.laid.narrow left).joins }

theorem widen {behind : Lexeme → Prop} (row : setting.Row tree front back spans text lexemes)
    (right : ∀ last, back last → behind last) : setting.Row tree front behind spans text lexemes :=
  { row with joins := (row.laid.widen right).joins }

theorem covers (row : setting.Row tree front back spans text lexemes)
    (places : ∀ declared, (Subtree.unit tree).Below (.param declared) →
      setting.Retains (.param declared) → further declared.name.index → spans declared.name.index) :
    setting.Row tree front back further text lexemes :=
  { row with
    names := fun declared below retains inside =>
      row.names declared below retains (places declared below retains inside) }

end Row

def Writes (setting : Setting) (tree : Tree) (start stop : Nat) : List Char → List Lexeme → Prop :=
  setting.Row tree (setting.Reaches tree · start) (setting.Reaches tree · stop)
    fun index => start ≤ index ∧ index < stop

theorem Writes.append {start middle stop : Nat} {text more : List Char} {lexemes others : List Lexeme}
    (first : setting.Writes tree start middle text lexemes)
    (second : setting.Writes tree middle stop more others) :
    setting.Writes tree start stop (text ++ more) (lexemes ++ others) := by
  refine (Row.append first second).covers fun _ _ _ inside => ?_
  omega

theorem Writes.single {token : Token} {lexeme : Lexeme} (there : setting.tokens[place]? = some token)
    (spaced : Spaced setting.tokens tree) (whole : Whole lexeme)
    (front : ∀ last, Beside last token.toLexeme → Beside last lexeme)
    (back : ∀ next, Beside token.toLexeme next → Beside lexeme next)
    (keeps : lexeme.kind = .ident → hasPlaceholder lexeme.text = true → setting.Keeps tree lexeme.text)
    (names : ∀ declared, (Subtree.unit tree).Below (.param declared) →
      setting.Retains (.param declared) → declared.name.index = place →
        lexeme = ⟨.ident, declared.name.text⟩) :
    setting.Writes tree place (place + 1) lexeme.text [lexeme] := by
  have row : setting.Row tree (Beside · lexeme) (· = lexeme)
      (fun index => place ≤ index ∧ index < place + 1) lexeme.text [lexeme] :=
    Row.single whole keeps fun declared below retains inside =>
      names declared below retains (by omega)
  refine (row.narrow fun last reaches => front last (reaches.beside spaced there)).widen ?_
  rintro _ rfl
  exact .inr ⟨place, token, there, .here, back⟩

def WritesEdit (setting : Setting) (tree : Tree) (edit : Edit) : Prop :=
  ∃ (start stop : Nat) (lexemes : List Lexeme), edit.start = start ∧ edit.stop = stop ∧
    setting.Writes tree start stop edit.text lexemes

section Rendering

variable (sound : (Subtree.unit tree).Sound (lexemesOf setting.tokens))
  (whole : ∀ token ∈ setting.tokens, Whole token.toLexeme) (spaced : Spaced setting.tokens tree)

include sound

theorem name_token {declared : TypeParam} (below : (Subtree.unit tree).Below (.param declared))
    {token : Token} (there : setting.tokens[declared.name.index]? = some token) :
    token.toLexeme = ⟨.ident, declared.name.text⟩ := by
  have stands := (sound.at_below below).here.stands declared.name (List.mem_singleton_self _)
  obtain ⟨found, at_, same⟩ := lexemesOf_some stands
  rw [there] at at_
  cases at_
  exact same

include whole spaced

theorem token_writes {token : Token} (there : setting.tokens[place]? = some token)
    (keeps : token.kind = .ident → hasPlaceholder token.text = true → setting.Keeps tree token.text) :
    setting.Writes tree place (place + 1) token.text [token.toLexeme] := by
  refine Writes.single there spaced (whole token (List.mem_of_getElem? there)) (fun _ => id)
    (fun _ => id) keeps fun declared below _ same => ?_
  subst same
  exact name_token sound below there

theorem slice_writes (place count : Nat) (inside : place + count ≤ setting.tokens.length)
    (keeps : ∀ index token, place ≤ index → index < place + count →
      setting.tokens[index]? = some token → token.kind = .ident → hasPlaceholder token.text = true →
        setting.Keeps tree token.text) :
    ∃ lexemes, setting.Writes tree place (place + count)
      (Edit.slice setting.texts place (place + count : Nat)).flatten lexemes := by
  rw [Edit.slice_flatten]
  induction count generalizing place with
  | zero => exact ⟨[], .nothing (fun _ => id) fun _ _ _ inside => by omega⟩
  | succ count ih =>
    have there := List.getElem?_eq_getElem (show place < setting.tokens.length by omega)
    obtain ⟨lexemes, later⟩ := ih (place + 1) (by omega) fun index token low high =>
      keeps index token (by omega) (by omega)
    have first := token_writes sound whole spaced there (keeps place _ (by omega) (by omega) there)
    have both := first.append later
    rw [show place + 1 + count = place + (count + 1) by omega] at both
    have spelled : setting.texts.getD place [] = setting.tokens[place].text := by simp [texts, there]
    rw [List.range'_succ, List.flatMap_cons, spelled]
    exact ⟨_, both⟩

theorem render_writes {edits : List Edit} {place high : Nat} (bound : place ≤ high)
    (end_ : high ≤ setting.tokens.length) (before : edits.Pairwise Edit.Before)
    (inside : ∀ edit ∈ edits, (place : Int) ≤ edit.start ∧ edit.start ≤ edit.stop ∧
      edit.stop ≤ (high : Int)) (writes : ∀ edit ∈ edits, setting.WritesEdit tree edit)
    (keeps : ∀ index token, place ≤ index → index < high → Edit.covered edits index = false →
      setting.tokens[index]? = some token → token.kind = .ident → hasPlaceholder token.text = true →
        setting.Keeps tree token.text) :
    ∃ lexemes, setting.Writes tree place high (Edit.renderFrom setting.texts place high edits)
      lexemes := by
  induction edits generalizing place with
  | nil =>
    obtain ⟨count, rfl⟩ := Nat.exists_eq_add_of_le bound
    exact slice_writes sound whole spaced place count end_ fun index token low below =>
      keeps index token low below rfl
  | cons edit rest ih =>
    obtain ⟨first, later⟩ := List.pairwise_cons.mp before
    obtain ⟨low, order, last⟩ := inside edit List.mem_cons_self
    obtain ⟨start, stop, lexemes, starts, stops, written⟩ := writes edit List.mem_cons_self
    simp only [Edit.Before, stops] at first
    rw [starts, stops] at order
    rw [starts] at low
    rw [stops] at last
    simp only [Int.ofNat_le] at low order last
    obtain ⟨behind, tail⟩ := ih last later (fun other member =>
        ⟨first other member, (inside other (List.mem_cons_of_mem _ member)).2⟩)
      (fun other member => writes other (List.mem_cons_of_mem _ member))
      fun index token after below free => by
        refine keeps index token (by omega) below ?_
        simp only [Edit.covered, List.any_cons, starts, stops, Bool.or_eq_false_iff] at free ⊢
        refine ⟨?_, free⟩
        simp only [Bool.and_eq_false_iff, decide_eq_false_iff_not]
        omega
    -- What stands before the edit stays as it is, since no edit begins there.
    obtain ⟨count, rfl⟩ := Nat.exists_eq_add_of_le low
    obtain ⟨front, head⟩ := slice_writes sound whole spaced place count (by omega)
      fun index token after below => by
        refine keeps index token after (by omega) ?_
        refine List.any_eq_false.mpr fun other member => ?_
        have ahead : ((place + count : Nat) : Int) ≤ other.start := by
          rcases List.mem_cons.mp member with rfl | inRest
          · omega
          · have far := first other inRest
            omega
        simp only [Bool.and_eq_true, decide_eq_true_eq]
        omega
    refine ⟨front ++ lexemes ++ behind, ?_⟩
    have all := (head.append written).append tail
    rwa [Edit.renderFrom, starts, stops]

end Rendering

end Setting

end Specializer
