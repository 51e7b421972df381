import Specializer.Proofs.Adjoined
import Specializer.Proofs.Erasure

set_option autoImplicit false

namespace Specializer

section Gaps

variable {lexemes : List Lexeme} {left right : Nat} {entry : Range} {entries : List Range}

def gaps (left : Nat) (commas : List Nat) (right : Nat) : List (Nat × Nat) :=
  (left :: commas).zip (commas ++ [right])

/-- Commas keep the entries of a list apart, one entry from the next. -/
structure Separated (lexemes : List Lexeme) (left : Nat) (entries : List Range) (commas : List Nat)
    (right : Nat) : Prop where
  separate : ∀ comma ∈ commas, KindAt lexemes .comma comma
  closes : KindAt lexemes .gt right
  cells : List.Forall₂ (fun entry gap => Cell lexemes gap.1 entry gap.2) entries (gaps left commas right)

theorem Fenced.separated (fenced : Fenced lexemes left entries right) :
    ∃ commas, Separated lexemes left entries commas right := by
  induction fenced with
  | last cell closes => exact ⟨[], List.forall_mem_nil _, closes, .cons cell .nil⟩
  | @more left comma right entry rest cell separates _ ih =>
    obtain ⟨commas, all, closes, cells⟩ := ih
    exact ⟨comma :: commas, List.forall_mem_cons.mpr ⟨separates, all⟩, closes, .cons cell cells⟩

/-- All tokens of meaning between two separators are tokens of the entry there. -/
def Fills (lexemes : List Lexeme) (entry : Range) (gap : Nat × Nat) : Prop :=
  ∀ index, gap.1 < index → index < gap.2 → Solid lexemes index → entry.start ≤ index ∧ index < entry.stop

/-- An annotation begins behind a separator and ahead of the entry. -/
def Preceded (lexemes : List Lexeme) (left : Nat) (entry : Range) : Prop :=
  ∃ mark, After lexemes left mark ∧ KindAt lexemes .atSign mark ∧ mark < entry.start

theorem Cell.fills_iff (cell : Cell lexemes left entry right) :
    Fills lexemes entry (left, right) ↔ ¬ Preceded lexemes left entry := by
  have order := cell.order
  have nonempty := cell.nonempty
  constructor
  next =>
    rintro fills ⟨mark, after, -, ahead⟩
    have inside := fills mark after.behind (by simp only; omega) after.solid
    omega
  next =>
    intro bare index above below solid
    -- Nothing of meaning is ahead of the entry, nor between it and the separator behind it.
    have start : After lexemes left entry.start := cell.before.resolve_right bare
    constructor
    next =>
      by_contra ahead
      exact start.first index above (Nat.lt_of_not_le ahead) solid
    next =>
      by_contra behind
      exact cell.behind.first index (by omega) below solid

end Gaps

namespace Subtree

variable {list : Subtree} {manner : Manner} {lexemes : List Lexeme}

theorem entries_separated (trims : list.trims manner = true) (filled : list.children ≠ [])
    (written : list.AllWritten lexemes) :
    ∃ commas, Separated lexemes list.range.start (list.children.map range) commas (list.range.stop - 1) := by
  refine Fenced.separated ?_
  rcases trims_list trims with ⟨given, rfl⟩ | ⟨given, rfl⟩
  next =>
    have entries := written.here.entries
    rwa [show given.params.map TypeParam.range = (params given).children.map range by
      simp [children, Function.comp_def]] at entries
  next =>
    rcases written.here.entries with ⟨none, -⟩ | entries
    next => exact absurd (by rw [children, none, List.map_nil]) filled
    next =>
      rwa [show given.args.map TypeArg.range = (args given).children.map range by
        simp [children, Function.comp_def]] at entries

end Subtree

namespace Setting

variable {setting : Setting} {slots : List Slot} {manner : Manner} {list entry : Subtree} {own : List Edit}
  {text : List Char}

/-- An entry is written with all its tokens, but for those in place of which its own edits put something. -/
structure Shown (setting : Setting) (slots : List Slot) (entry : Subtree) (own : List Edit)
    (text : List Char) : Prop where
  visited : (setting.visit slots .alone entry).result = .ok own
  inside : ∀ edit ∈ own, entry.range.start ≤ edit.start ∧ edit.start < edit.stop ∧ edit.stop ≤ entry.range.stop
  apart : own.Pairwise Edit.Apart
  shown : text = Edit.positionwise setting.texts (Edit.sort own) entry.range.start entry.range.stop

theorem rendering_shown (inCode : entry.InCode) (sound : entry.Sound (lexemesOf setting.tokens))
    (bound : setting.Bound slots) (rendered : (setting.rendering slots entry).result = .ok text) :
    ∃ own, setting.Shown slots entry own text := by
  rw [rendering, Traced.bind_ok] at rendered
  obtain ⟨own, visited, rendered⟩ := rendered
  have order := Nat.le_of_lt (inCode.bounded sound.here.bounded).1
  have rendered := Traced.lift_ok.mp rendered
  obtain ⟨within, -⟩ := Edit.render_ok rendered
  obtain ⟨ordered, shown⟩ := Edit.render_shows order rendered
  have sorted := Edit.sort_perm own
  refine ⟨own, visited, fun edit member => ?_, ?_, shown⟩
  next =>
    obtain ⟨start, -, stop⟩ := within edit (sorted.mem_iff.mpr member)
    exact ⟨start, (visit_lies inCode sound bound visited edit member).nonempty, stop⟩
  next => exact (ordered.imp Or.inl).perm sorted fun apart => apart.symm

/-- What the edits of a list do. If it loses no entry they are on tokens of its entries; if it loses some,
they write the others in place of the whole list. -/
structure Reworked (setting : Setting) (slots : List Slot) (manner : Manner) (list : Subtree)
    (own : List Edit) : Prop where
  whole : setting.rest slots manner list = list.children →
    ∀ edit ∈ own, ∀ index, Solid (lexemesOf setting.tokens) index → edit.Covers index →
      ∃ entry ∈ list.children, entry.range.start ≤ index ∧ index < entry.range.stop
  fewer : setting.rest slots manner list ≠ list.children → setting.rest slots manner list ≠ [] →
    ∃ texts, List.Forall₂ (fun entry text => ∃ inner, setting.Shown slots entry inner text)
        (setting.rest slots manner list) texts ∧
      own = [⟨list.range.start, list.range.stop, '<' :: List.intercalate [',', ' '] texts ++ ['>']⟩]

theorem list_reworked (loses : list.Loses manner) (sound : list.Sound (lexemesOf setting.tokens))
    (bound : setting.Bound slots) (made : (setting.visit slots manner list).result = .ok own) :
    setting.Reworked slots manner list own := by
  obtain ⟨inCode, -⟩ := Subtree.trims_plain loses.trims
  obtain ⟨visited, inside⟩ := visit_cases inCode bound made
  cases visited with
  | within assembles whole =>
    exact ⟨fun _ => entries_only loses.trims sound inside assembles,
      fun fewer => absurd (whole loses.trims) fewer⟩
  | @rebuilt texts trims fewer rendered =>
    refine ⟨fun whole => absurd whole fewer, fun _ stays => ⟨texts, ?_, ?_⟩⟩
    next =>
      have all (entry : Subtree) (left : entry ∈ setting.rest slots manner list) : entry ∈ list.children :=
        (setting.binding.survivors_sublist _ _ _).subset left
      refine ((List.forall₂_and_left _ _).mpr ⟨all, rendered⟩).imp fun entry text found => ?_
      exact rendering_shown (inCode.children found.1) (sound.child found.1) bound found.2
    next =>
      have written : texts ≠ [] := by
        rintro rfl
        exact stays (List.forall₂_nil_right_iff.mp rendered)
      simp [reduce, written]
  | removed diamond _ template => exact absurd diamond (loses.filled _ template)

end Setting

/-- A list that loses no entry keeps all that is between its entries. One that loses some is replaced by the
others, each with its tokens or what its own edits put in place of them; so all tokens of meaning between the
separators around an entry that stays are written or edited if no annotation is in front of the entry, and
only then. -/
theorem entries_kept {source : List Char} {tokens : List Token} {tree : Tree} {binding : Binding}
    {edits : List Edit} (parsed : parse source = .ok (tokens, tree))
    (made : (Setting.edits ⟨tokens, binding⟩ tree).result = .ok edits) {part list : Subtree}
    {manner : Manner} (below : (Subtree.unit tree).Below part) (trimmed : (manner, list) ∈ part.trimmed)
    (filled : list.children ≠ [])
    (visited : ∀ param, (Subtree.unit tree).Below (.param param) → (Subtree.param param).Below list →
      Setting.Retains ⟨tokens, binding⟩ (.param param)) :
    ∃ slots own commas, Subtree.Leads [] (.unit tree) list slots ∧
      Setting.Arrives ⟨tokens, binding⟩ (.unit tree) list own edits ∧
      Setting.Reworked ⟨tokens, binding⟩ slots manner list own ∧
      Separated (lexemesOf tokens) list.range.start (list.children.map Subtree.range) commas
        (list.range.stop - 1) ∧
      List.Forall₂ (fun entry gap => Fills (lexemesOf tokens) entry gap ↔
          ¬ Preceded (lexemesOf tokens) gap.1 entry) (list.children.map Subtree.range)
        (gaps list.range.start commas (list.range.stop - 1)) := by
  have sound := parse_sound parsed
  have docs := parseTokens_docs (parse_ok parsed).2
  have written := parseTokens_written (parse_ok parsed).2
  obtain ⟨slots, way, loses⟩ := Subtree.way_of_trimmed below trimmed
  obtain ⟨leads, bound, own, ended, arrives⟩ :=
    @Setting.edits_list ⟨tokens, binding⟩ _ _ _ _ _ docs sound made way loses.trims visited
  -- How the list is visited tells what is written; how it is written down tells what lies between.
  have reworked := @Setting.list_reworked ⟨tokens, binding⟩ _ _ _ _ loses (sound.at_below way.holds) bound
    ended
  obtain ⟨commas, separated⟩ :=
    Subtree.entries_separated loses.trims filled (written.at_below way.holds)
  exact ⟨slots, own, commas, leads, arrives, reworked, separated,
    separated.cells.imp fun _ _ cell => cell.fills_iff⟩

theorem entries_kept_annotated :
    ∃ tokens tree edits part list,
      parse "class KTypeVTypeFoo<KType, @NonNull VType> { }".toList = .ok (tokens, tree) ∧
        (Setting.edits ⟨tokens, ⟨.int, some .generic⟩⟩ tree).result = .ok edits ∧
        (Subtree.unit tree).Below part ∧ (.alone, list) ∈ part.trimmed ∧ list.children ≠ [] ∧
        (∀ param, (Subtree.unit tree).Below (.param param) → (Subtree.param param).Below list →
          Setting.Retains ⟨tokens, ⟨.int, some .generic⟩⟩ (.param param)) ∧
        list.range = ⟨3, 12⟩ ∧ KindAt (lexemesOf tokens) .atSign 7 ∧ ⟨3, 12, "<VType>".toList⟩ ∈ edits ∧
        ∃ slots own commas, Setting.Arrives ⟨tokens, ⟨.int, some .generic⟩⟩ (.unit tree) list own edits ∧
          Setting.Reworked ⟨tokens, ⟨.int, some .generic⟩⟩ slots .alone list own ∧
          Separated (lexemesOf tokens) 3 (list.children.map Subtree.range) commas 11 ∧
          List.Forall₂ (fun entry gap => Fills (lexemesOf tokens) entry gap ↔
            ¬ Preceded (lexemesOf tokens) gap.1 entry) (list.children.map Subtree.range)
              (gaps 3 commas 11) := by
  obtain ⟨⟨tokens, tree⟩, parsed, passes⟩ := ok_of_any
    (show (parse "class KTypeVTypeFoo<KType, @NonNull VType> { }".toList).toOption.any
      (fun read => (Setting.edits ⟨read.1, ⟨.int, some .generic⟩⟩ read.2).result.toOption.any
        fun edits => ((lexemesOf read.1)[7]?.map Lexeme.kind == some .atSign) &&
          edits.contains ⟨3, 12, "<VType>".toList⟩ && (Subtree.unit read.2).children.any fun part =>
            part.trimmed.any fun entry => entry.1 == .alone && entry.2.kind == .typeParams &&
              entry.2.range == ⟨3, 12⟩ && !entry.2.children.isEmpty) = true
      by decide +kernel)
  obtain ⟨edits, made, found⟩ := ok_of_any passes
  simp only [List.any_eq_true, Bool.and_eq_true, beq_iff_eq, List.contains_iff_mem] at found
  obtain ⟨⟨mark, replaced⟩, part, top, ⟨manner, list⟩, trimmed, ⟨⟨rfl, isParams⟩, range⟩, entries⟩ := found
  obtain ⟨given, rfl⟩ : ∃ given, list = .params given := by
    cases list <;> first | cases isParams; done | exact ⟨_, rfl⟩
  have below : (Subtree.unit tree).Below part := .single top
  have filled : (Subtree.params given).children ≠ [] := by simpa using entries
  -- Type parameters are never inside of others, so this list is inside of none.
  have visited (param : TypeParam) (_ : (Subtree.unit tree).Below (.param param))
      (around : (Subtree.param param).Below (.params given)) :
      Setting.Retains ⟨tokens, ⟨.int, some .generic⟩⟩ (.param param) :=
    absurd around Subtree.params_outermost
  obtain ⟨slots, own, commas, -, arrives, reworked, separated, fills⟩ :=
    entries_kept parsed made below trimmed filled visited
  rw [range] at separated fills
  exact ⟨tokens, tree, edits, part, _, parsed, made, below, trimmed, filled, visited, range,
    Option.map_eq_some_iff.mp mark, replaced, slots, own, commas, arrives, reworked, separated, fills⟩

end Specializer
