import Specializer.Proofs.LineNumbers
import Specializer.Proofs.Tiling
import Specializer.Report.Render

set_option autoImplicit false

namespace Specializer

/-- The line of a place, where line feeds alone end lines. -/
def feedLine (source : List Char) (place : Position) : List Char :=
  ((splitOn '\n' source)[place.line - 1]?).getD []

/-- The line that a report shows for a place. -/
def shownLine (source : List Char) (place : Position) : List Char :=
  ((lines source)[place.line - 1]?).getD []

/-- The first row has the line; in the second, marks stand under so many of its characters from a column on,
and there may be a colour around them. -/
def Underlined (rows : List String) (line : List Char) (col width : Nat) : Prop :=
  ∃ margin edge marks paint more,
    rows = (margin ++ String.ofList line) ::
      (edge ++ paint (String.ofList (List.replicate (col - 1) ' ' ++ marks))) :: more ∧
    edge.length = margin.length ∧ marks.length = width ∧ ' ' ∉ marks ∧
    ∃ color tint, paint = Ansi.styled color tint

theorem Position.advance_line (place : Position) {text : List Char} (single : '\n' ∉ text) :
    place.advance text = ⟨place.offset + text.length, place.line, place.col + text.length⟩ := by
  induction text generalizing place with
  | nil => rfl
  | cons c text ih =>
    rw [List.mem_cons, not_or] at single
    rw [advance_cons, ih _ single.2, step, if_neg (Ne.symm single.1)]
    simp [Nat.add_assoc, Nat.add_comm 1]

theorem pushn_empty (c : Char) (n : Nat) : "".pushn c n = String.ofList (List.replicate n c) := by
  rw [String.pushn_eq_repeat_push]
  induction n with
  | zero => rfl
  | succ n ih =>
    apply String.ext
    rw [Nat.repeat, ih, String.toList_push, String.toList_ofList, String.toList_ofList,
      List.replicate_succ']

namespace Diagnostic

theorem snippet_underlined (item : Diagnostic) (span : Span) (source : List (List Char)) (style : Style) :
    Underlined (item.snippet span source style) (sourceLine source span) (markerStart span)
      (markerWidth span) := by
  have wide : 1 ≤ markerWidth span := by
    rw [markerWidth]
    split <;> omega
  rw [snippet]
  simp only [pushn_empty]
  by_cases guides : style.guides = true
  next =>
    have marks : String.ofList (List.replicate (markerStart span - 1) ' ') ++ "┯" ++
        String.ofList (List.replicate (markerWidth span - 1) '━') =
          String.ofList (List.replicate (markerStart span - 1) ' ' ++
            '┯' :: List.replicate (markerWidth span - 1) '━') := by
      rw [String.ofList_append, String.ofList_cons, ← String.append_assoc]
      rfl
    have width : ('┯' :: List.replicate (markerWidth span - 1) '━').length = markerWidth span := by
      rw [List.length_cons, List.length_replicate, Nat.sub_add_cancel wide]
    rw [if_pos guides, marks]
    exact ⟨_, _, _, _, _, rfl, rfl, width, by simp, style.color, item.tint, rfl⟩
  next =>
    have even : "  \x60 ".length = "  | ".length := by decide +kernel
    refine ⟨"  | ", "  \x60 ", List.replicate (markerWidth span) '^', Ansi.styled false "", [], ?_, even,
      List.length_replicate, by simp, false, "", rfl⟩
    rw [if_neg guides, String.ofList_append, String.append_assoc]
    rfl

theorem lines_located {item : Diagnostic} {span : Span} (located : item.span = some span)
    (filename : String) (source : List (List Char)) (style : Style) :
    ∃ lead, item.lines filename (some source) style =
      (lead ++ item.headline filename style.color) :: item.snippet span source style := by
  simp only [lines, located]
  exact ⟨_, rfl⟩

end Diagnostic

theorem Report.render_known {report : Report} {source : List Char} (known : report.source = some source)
    (present : source ≠ []) (style : Style) :
    report.render style = String.intercalate "\n" (report.items.flatMap fun item =>
      item.lines report.filename (some (Specializer.lines source)) style) := by
  have kept : (some source).filter (fun source => !source.isEmpty) = some source := by
    simpa using present
  rw [render, known, kept, Option.map_some]

section Token

variable {source : List Char} {tokens : List Token} {token : Token}

theorem Token.span_line (single : '\n' ∉ token.text) :
    token.span = ⟨token.start.line, token.start.col, token.start.line,
      token.start.col + token.text.length⟩ := by
  rw [span, stop, token.start.advance_line single, Span.between, Int.natCast_add]

theorem snippet_token (lexed : tokenize source = .ok tokens) (member : token ∈ tokens)
    (single : '\n' ∉ token.text) (item : Diagnostic) (style : Style) :
    Underlined (item.snippet token.span (lines source) style) (shownLine source token.start)
      token.start.col token.text.length := by
  have cuts := (tokenize_ok.mp lexed).1
  have start := (cuts.places member).1
  obtain ⟨c, rest, length, -, -, text, -⟩ := cuts.taken member
  have col : 1 ≤ token.start.col := by
    rw [start, placeAt]
    exact Nat.le_add_right 1 _
  have row : 1 ≤ token.start.line := by
    rw [start, placeAt]
    exact Nat.le_add_right 1 _
  have present : 1 ≤ token.text.length := by
    rw [text]
    exact Nat.le_add_left 1 _
  have underlined := item.snippet_underlined token.span (lines source) style
  -- On one line the marks begin at the column of the token and are as many as it has characters.
  have left : Diagnostic.markerStart token.span = token.start.col := by
    rw [Diagnostic.markerStart, token.span_line single]
    dsimp only
    omega
  have width : Diagnostic.markerWidth token.span = token.text.length := by
    rw [Diagnostic.markerWidth, left, token.span_line single, if_pos rfl]
    dsimp only
    omega
  have line : Diagnostic.sourceLine (lines source) token.span = shownLine source token.start := by
    have index : ((token.start.line : Int) - 1).toNat = token.start.line - 1 := by omega
    rw [Diagnostic.sourceLine, token.span_line single]
    dsimp only
    rw [if_pos (by omega), index, shownLine]
  rwa [left, width, line] at underlined

theorem token_around (lexed : tokenize source = .ok tokens) (member : token ∈ tokens)
    (single : '\n' ∉ token.text) :
    ∃ before more, source = before ++ (token.text ++ more) ∧ before = source.take token.start.offset ∧
      token.text ++ more = source.drop token.start.offset ∧
      token.start.line = before.count '\n' + 1 ∧ token.start.col = (behindFeed before).length + 1 ∧
      token.text ++ more ≠ [] ∧ (token.text ++ more).head? ≠ some '\n' := by
  have cuts := (tokenize_ok.mp lexed).1
  have start := (cuts.places member).1
  obtain ⟨c, rest, length, here, -, text, -⟩ := cuts.taken member
  have split : token.text ++ rest.drop length = source.drop token.start.offset := by
    rw [here, text, List.cons_append, List.take_append_drop]
  refine ⟨source.take token.start.offset, rest.drop length, ?_, rfl, split, ?_, ?_, ?_, ?_⟩
  · rw [split, List.take_append_drop]
  · exact (congrArg Position.line start).trans (Nat.add_comm 1 _)
  · rw [behindFeed, List.length_reverse]
    exact (congrArg Position.col start).trans (Nat.add_comm 1 _)
  · simp [text]
  · have other : c ≠ '\n' := fun same => single (text ▸ same ▸ List.mem_cons_self)
    simpa [text] using other

theorem shownLine_clean (lexed : tokenize source = .ok tokens) (member : token ∈ tokens)
    (single : '\n' ∉ token.text) (clean : strayBreaks (source.take token.start.offset) = 0) :
    shownLine source token.start = beforeBreak (feedLine source token.start) ∧
      (((shownLine source token.start).drop (token.start.col - 1)).take token.text.length = token.text ↔
        Unbroken token.text) := by
  obtain ⟨before, more, whole, front, -, row, col, present, apart⟩ := token_around lexed member single
  obtain ⟨ended, last, broken⟩ := Broken.exist before
  rw [← front] at clean
  have line := broken.line_around apart present
  have own := splitOn_feeds before (token.text ++ more)
  rw [← whole] at line own
  have behind := broken.behindFeed clean
  have shown : shownLine source token.start = last ++ beforeBreak (token.text ++ more) := by
    rw [shownLine, row, Nat.add_sub_cancel, ← Nat.add_zero (before.count '\n'), ← clean, line,
      Option.getD_some]
  constructor
  · rw [shown, feedLine, row, Nat.add_sub_cancel, own, Option.getD_some, behind,
      beforeBreak_append broken.unbroken, beforeBreak_beforeFeed]
  · rw [shown, col, Nat.add_sub_cancel, behind, List.drop_left]
    constructor
    · intro same c inside
      rw [← same] at inside
      exact beforeBreak_unbroken _ c (List.mem_of_mem_take inside)
    · intro unbroken
      rw [beforeBreak_append unbroken, List.take_left]

-- The line that a token begins on is numbered by all breaks before it. The number of the line shown lacks
-- the stray ones, so that what is shown is a line that ended before the token.
theorem shownLine_stray (lexed : tokenize source = .ok tokens) (member : token ∈ tokens)
    (single : '\n' ∉ token.text) :
    (∃ front, front <:+ source.take token.start.offset ∧
      (lines source)[token.start.line - 1 + strayBreaks (source.take token.start.offset)]? =
        some (front ++ beforeBreak (source.drop token.start.offset))) ∧
    (strayBreaks (source.take token.start.offset) ≠ 0 →
      (lines (source.take token.start.offset))[token.start.line - 1]? =
        some (shownLine source token.start)) := by
  obtain ⟨before, more, whole, front, behind, row, -, present, apart⟩ := token_around lexed member single
  obtain ⟨ended, last, broken⟩ := Broken.exist before
  rw [← front, ← behind, row, Nat.add_sub_cancel]
  constructor
  · have line := broken.line_around apart present
    rw [← whole] at line
    exact ⟨last, broken.suffix, line⟩
  · intro some
    have early : before.count '\n' < before.count '\n' + strayBreaks before := by omega
    have same := broken.line_ended apart early
    rw [← whole] at same
    have inside : before.count '\n' < (lines before).length := by
      have alone := @Broken.lines _ [] _ _ broken (by simp)
      rw [List.append_nil] at alone
      rw [alone, List.length_append, broken.count]
      omega
    rw [shownLine, row, Nat.add_sub_cancel, same, List.getElem?_eq_getElem inside, Option.getD_some]

/-- What a report shows for a token on one line, as far as its source is known. The line is the one numbered
as the token's among the lines that any break ends, and the marks under it are in the token's columns. If no
stray break comes before the token, this is the line of the token up to the first break in it, and the marks
are under the token unless the token has a break itself. Each stray break before it puts the line of the
token one further, and what is shown then is a line that ended before. -/
theorem snippet_shows (lexed : tokenize source = .ok tokens) (member : token ∈ tokens)
    (single : '\n' ∉ token.text) :
    (∀ (report : Report) (above : List Diagnostic) (item : Diagnostic) (below : List Diagnostic)
      (style : Style), report.source = some source → report.items = above ++ item :: below →
      item.span = some token.span →
      let rowsOf := fun items : List Diagnostic => items.flatMap fun item =>
        item.lines report.filename (some (lines source)) style
      ∃ lead rows, Underlined rows (shownLine source token.start) token.start.col token.text.length ∧
        report.render style = String.intercalate "\n" (rowsOf above ++
          (lead ++ item.headline report.filename style.color) :: rows ++ rowsOf below)) ∧
    (strayBreaks (source.take token.start.offset) = 0 →
      shownLine source token.start = beforeBreak (feedLine source token.start) ∧
      (shownLine source token.start = feedLine source token.start ↔
        Unbroken (feedLine source token.start)) ∧
      (((shownLine source token.start).drop (token.start.col - 1)).take token.text.length = token.text ↔
        Unbroken token.text)) ∧
    (∃ front, front <:+ source.take token.start.offset ∧
      (lines source)[token.start.line - 1 + strayBreaks (source.take token.start.offset)]? =
        some (front ++ beforeBreak (source.drop token.start.offset))) ∧
    (strayBreaks (source.take token.start.offset) ≠ 0 →
      (lines (source.take token.start.offset))[token.start.line - 1]? =
        some (shownLine source token.start)) := by
  refine ⟨fun report above item below style known items spans => ?_, fun clean => ?_,
    shownLine_stray lexed member single⟩
  · obtain ⟨before, more, whole, -, -, -, -, some, -⟩ := token_around lexed member single
    have present : source ≠ [] := by
      rw [whole]
      exact List.append_ne_nil_of_right_ne_nil _ some
    obtain ⟨lead, rows⟩ := Diagnostic.lines_located spans report.filename (lines source) style
    refine ⟨lead, _, snippet_token lexed member single item style, ?_⟩
    rw [report.render_known known present, items, List.flatMap_append, List.flatMap_cons, rows,
      List.append_assoc]
  · obtain ⟨shown, marks⟩ := shownLine_clean lexed member single clean
    refine ⟨shown, ?_, marks⟩
    rw [shown]
    constructor
    · intro same
      rw [← same]
      exact beforeBreak_unbroken _
    · exact beforeBreak_eq

-- A form feed in the first line: the letter before it is shown in its line, the one on the second line is not.
theorem snippet_shows_formFeed :
    ∃ source tokens first last, source = "a\x0cb\nc".toList ∧ tokenize source = .ok tokens ∧
      first ∈ tokens ∧ first.text = ['a'] ∧ shownLine source first.start = ['a'] ∧
      ((shownLine source first.start).drop (first.start.col - 1)).take first.text.length = first.text ∧
      last ∈ tokens ∧ last.text = ['c'] ∧ last.start.line = 2 ∧
      (lines (source.take last.start.offset))[last.start.line - 1]? = some (shownLine source last.start) ∧
      ∃ item lead rows, item.span = some last.span ∧ Underlined rows ['b'] 1 1 ∧
        Report.render ⟨some source, "A.java", none, [item]⟩ ⟨false, false⟩ =
          String.intercalate "\n" ((lead ++ item.headline "A.java" false) :: rows) := by
  let first : Token := ⟨⟨.ident, ['a']⟩, ⟨0, 1, 1⟩⟩
  let last : Token := ⟨⟨.ident, ['c']⟩, ⟨4, 2, 1⟩⟩
  let item : Diagnostic := ⟨.warning, "TW0001", "here", some last.span, "A.java", none⟩
  have lexed : tokenize "a\x0cb\nc".toList = .ok [first, ⟨⟨.blank, ['\x0c']⟩, ⟨1, 1, 2⟩⟩,
      ⟨⟨.ident, ['b']⟩, ⟨2, 1, 3⟩⟩, ⟨⟨.blank, ['\n']⟩, ⟨3, 1, 4⟩⟩, last] := by decide +kernel
  obtain ⟨-, clean, -⟩ := @snippet_shows _ _ first lexed (by simp) (by decide)
  obtain ⟨shown, -, marks⟩ := clean (by decide +kernel)
  obtain ⟨rendered, -, -, stray⟩ := @snippet_shows _ _ last lexed (by simp) (by decide)
  have line : shownLine "a\x0cb\nc".toList last.start = ['b'] := by decide +kernel
  obtain ⟨lead, rows, underlined, whole⟩ :=
    rendered ⟨some "a\x0cb\nc".toList, "A.java", none, [item]⟩ [] item [] ⟨false, false⟩ rfl rfl rfl
  rw [line] at underlined
  refine ⟨_, _, first, last, rfl, lexed, by simp, rfl, shown.trans (by decide +kernel),
    marks.mpr (by decide), by simp, rfl, rfl, stray (by decide +kernel), item, lead, rows, rfl,
    underlined, ?_⟩
  rw [whole]
  simp

end Token

end Specializer
