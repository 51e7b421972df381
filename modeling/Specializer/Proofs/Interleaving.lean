import Specializer.Proofs.Origin
import Specializer.Proofs.Recasting
import Specializer.Proofs.Remnants

set_option autoImplicit false

namespace Specializer

open Lexer

def Lexeme.meaningful (lexeme : Lexeme) : Bool := !lexeme.kind.isTrivia

theorem significantLexemes_eq (tokens : List Token) :
    significantLexemes tokens = (lexemesOf tokens).filter Lexeme.meaningful := by
  rw [significantLexemes, lexemesOf, List.filter_map]
  rfl

theorem Laid.reads {front back : Lexeme → Prop} {text : List Char} {lexemes : List Lexeme}
    (laid : Laid front back text lexemes) (starts : ∀ last, last.Closed → front last) :
    ∃ out, tokenize text = .ok out ∧ significantLexemes out = lexemes.filter Lexeme.meaningful := by
  -- A blank stands for the beginning, since nothing runs into what is behind it.
  have chain := laid.joins ⟨.blank, [' ']⟩ [] (starts _ fun _ _ _ => rfl) fun last _ =>
    List.isChain_singleton last
  rw [List.append_nil] at chain
  obtain ⟨again, lexes, same⟩ := lexes_of_chain laid.whole chain.tail
  obtain ⟨out, lexed, spelled⟩ := (laid.text ▸ lexes).tokenize
  have meaning (items : List Lexeme) :
      (items.filter solid).filter Lexeme.meaningful = items.filter Lexeme.meaningful := by
    rw [List.filter_filter]
    refine List.filter_congr fun lexeme _ => ?_
    cases kind : lexeme.kind <;> simp [Lexeme.meaningful, solid, kind, Kind.isTrivia]
  refine ⟨out, lexed, ?_⟩
  rw [significantLexemes_eq, spelled, ← meaning again, same, meaning]

namespace Edit

def lexemes (edit : Edit) : List Lexeme :=
  (tokenize edit.text).toOption.elim [] significantLexemes

/-- The tokens with a meaning from a position on, with those of the edits in place of what they
cover. -/
def interleave (tokens : List Token) (position stop : Int) : List Edit → List Lexeme
  | [] => significantLexemes (slice tokens position stop)
  | edit :: rest =>
    significantLexemes (slice tokens position edit.start) ++ edit.lexemes ++
      interleave tokens edit.stop stop rest

end Edit

namespace Setting

variable {setting : Setting} {tree : Tree} {place : Nat} {part : Subtree} {edits : List Edit}

def Lays (setting : Setting) (tree : Tree) (start stop : Nat) : List Char → List Lexeme → Prop :=
  Laid (setting.Reaches tree · start) (setting.Reaches tree · stop)

def LaysEdit (setting : Setting) (tree : Tree) (edit : Edit) : Prop :=
  ∃ (start stop : Nat) (lexemes : List Lexeme), edit.start = start ∧ edit.stop = stop ∧
    setting.Lays tree start stop edit.text lexemes

theorem WritesEdit.lays {edit : Edit} (writes : setting.WritesEdit tree edit) :
    setting.LaysEdit tree edit := by
  obtain ⟨start, stop, lexemes, starts, stops, row⟩ := writes
  exact ⟨start, stop, lexemes, starts, stops, Row.laid row⟩

theorem Lays.reads {start stop : Nat} {text : List Char} {lexemes : List Lexeme}
    (lays : setting.Lays tree start stop text lexemes) :
    ∃ out, tokenize text = .ok out ∧ significantLexemes out = lexemes.filter Lexeme.meaningful :=
  Laid.reads lays fun _ => .inl

section Rendering

variable (whole : ∀ token ∈ setting.tokens, Whole token.toLexeme) (spaced : Spaced setting.tokens tree)

include whole spaced

theorem token_lays {token : Token} (there : setting.tokens[place]? = some token) :
    setting.Lays tree place (place + 1) token.text [token.toLexeme] := by
  have alone := Laid.single (whole token (List.mem_of_getElem? there))
  refine (alone.narrow fun last reaches => reaches.beside spaced there).widen ?_
  rintro _ rfl
  exact .inr ⟨place, token, there, .here, fun _ => id⟩

theorem slice_lays (place count : Nat) (inside : place + count ≤ setting.tokens.length) :
    setting.Lays tree place (place + count)
      (Edit.slice setting.texts place (place + count : Nat)).flatten
      (lexemesOf (Edit.slice setting.tokens place (place + count : Nat))) := by
  rw [Edit.slice_natural, Edit.slice_natural, texts, ← List.map_drop, ← List.map_take]
  induction count generalizing place with
  | zero => exact .nothing fun _ => id
  | succ count ih =>
    have here : place < setting.tokens.length := by omega
    have first := token_lays whole spaced (List.getElem?_eq_getElem here)
    have both := first.append (ih (place + 1) (by omega))
    rw [show place + 1 + count = place + (count + 1) by omega] at both
    rw [List.drop_eq_getElem_cons here, List.take_succ_cons]
    exact both

theorem render_lays {place high : Nat} (bound : place ≤ high)
    (end_ : high ≤ setting.tokens.length) (before : edits.Pairwise Edit.Before)
    (inside : ∀ edit ∈ edits, (place : Int) ≤ edit.start ∧ edit.start ≤ edit.stop ∧
      edit.stop ≤ (high : Int)) (lays : ∀ edit ∈ edits, setting.LaysEdit tree edit) :
    ∃ lexemes, setting.Lays tree place high (Edit.renderFrom setting.texts place high edits) lexemes ∧
      lexemes.filter Lexeme.meaningful = Edit.interleave setting.tokens place high edits := by
  induction edits generalizing place with
  | nil =>
    obtain ⟨count, rfl⟩ := Nat.exists_eq_add_of_le bound
    exact ⟨_, slice_lays whole spaced place count end_, (significantLexemes_eq _).symm⟩
  | cons edit rest ih =>
    obtain ⟨first, later⟩ := List.pairwise_cons.mp before
    obtain ⟨low, order, last⟩ := inside edit List.mem_cons_self
    obtain ⟨start, stop, lexemes, starts, stops, laid⟩ := lays edit List.mem_cons_self
    -- What an edit puts in is cut into lexemes on its own, and comes out the same within the whole.
    have means : edit.lexemes = lexemes.filter Lexeme.meaningful := by
      obtain ⟨out, lexed, same⟩ := laid.reads
      rw [Edit.lexemes, lexed]
      exact same
    simp only [Edit.Before, stops] at first
    rw [starts, stops] at order
    rw [starts] at low
    rw [stops] at last
    simp only [Int.ofNat_le] at low order last
    obtain ⟨behind, tail, follows⟩ := ih last later (fun other member =>
        ⟨first other member, (inside other (List.mem_cons_of_mem _ member)).2⟩)
      fun other member => lays other (List.mem_cons_of_mem _ member)
    obtain ⟨count, rfl⟩ := Nat.exists_eq_add_of_le low
    have head := slice_lays whole spaced place count (by omega)
    have all := (head.append laid).append tail
    refine ⟨_, by rwa [Edit.renderFrom, starts, stops], ?_⟩
    rw [Edit.interleave, starts, stops, significantLexemes_eq, means, ← follows,
      List.filter_append, List.filter_append]

end Rendering

section Lists

def LaysEntry (entry : Kept) : Prop :=
  ∃ lexemes, Laid Lexeme.Closed
    (fun last => Beside last ⟨.comma, [',']⟩ ∧ Beside last ⟨.gt, ['>']⟩) entry.text lexemes

theorem entries_laid {kept : List Kept} (some : kept ≠ []) (each : ∀ entry ∈ kept, LaysEntry entry) :
    ∃ lexemes, Laid Lexeme.Closed (Beside · ⟨.gt, ['>']⟩)
      (List.intercalate [',', ' '] (kept.map Kept.text)) lexemes := by
  induction kept with
  | nil => exact absurd rfl some
  | cons entry rest ih =>
    obtain ⟨lexemes, first⟩ := each entry List.mem_cons_self
    cases rest with
    | nil =>
      have alone := first.widen fun _ both => both.2
      exact ⟨lexemes, by simpa using alone⟩
    | cons next rest =>
      obtain ⟨others, later⟩ := ih (List.cons_ne_nil _ _) fun entry member =>
        each entry (List.mem_cons_of_mem _ member)
      rw [List.map_cons, List.map_cons, List.intercalate_cons_cons]
      exact ⟨_, ((first.widen fun _ both => both.1).append .separator).append later⟩

variable (sound : (Subtree.unit tree).Sound (lexemesOf setting.tokens))
  (whole : ∀ token ∈ setting.tokens, Whole token.toLexeme) (spaced : Spaced setting.tokens tree)

include sound whole spaced

theorem rebuilt_lays (below : (Subtree.unit tree).Below part)
    (list : part.kind = .typeParams ∨ part.kind = .typeArgs) {kept : List Kept} (some : kept ≠ [])
    (each : ∀ entry ∈ kept, LaysEntry entry) :
    ∃ lexemes, setting.Lays tree part.range.start part.range.stop
      ('<' :: List.intercalate [',', ' '] (kept.map Kept.text) ++ ['>']) lexemes := by
  obtain ⟨lexemes, inner⟩ := entries_laid some each
  have opens : Laid (Beside · ⟨.lt, ['<']⟩) _ _ _ := .mark (by decide) fun _ _ _ => rfl
  have closes : Laid (Beside · ⟨.gt, ['>']⟩) _ _ _ := .mark (by decide) fun _ _ _ => rfl
  have laid := (opens.append inner).append closes
  refine ⟨_, (laid.widen fun _ => .inl).narrow fun last reaches => ?_⟩
  refine Reaches.mark sound whole spaced reaches (fun index token same found => ?_) (by simp)
  have solid := ((Subtree.inCode_of_list list).bounded (sound.at_below below).here.bounded).2.1
  exact before_solid whole spaced (same ▸ solid) found

theorem entry_lays {entry : Kept} (below : (Subtree.unit tree).Below entry.part)
    (inCode : entry.part.InCode) (treats : setting.Treats entry.part entry.edits)
    (rendered : (setting.render entry.part.range entry.edits).result = .ok entry.text)
    (lays : ∀ edit ∈ entry.edits, setting.LaysEdit tree edit) : LaysEntry entry := by
  obtain ⟨order, end_, before⟩ := treats_sorted sound below inCode treats
  obtain ⟨inside, text⟩ := Edit.render_ok rendered
  obtain ⟨lexemes, laid, -⟩ := render_lays whole spaced order end_ before inside
    fun edit member => lays edit ((Edit.sort_perm _).mem_iff.mp member)
  rw [← text] at laid
  have front := Laid.narrow laid fun last (closed : last.Closed) => .inl closed
  exact ⟨lexemes, front.widen fun last reaches => reaches.behind sound whole spaced below inCode⟩

theorem edits_lay (docs : tree.docs = docComments setting.tokens)
    (made : (setting.edits tree).result = .ok edits) :
    ∀ edit ∈ edits, setting.LaysEdit tree edit := by
  refine edits_sustain docs made ⟨?_, ?_, ?_, ?_⟩
  · intro part below name own other text spelled
    exact (replace_writes sound whole spaced below own other spelled).lays
  · intro part below list kept each others
    by_cases empty : kept = []
    -- A list without entries goes, as it does where nothing in it stays.
    · subst empty
      exact (reduce_writes sound below list whole spaced (List.forall_mem_nil _) others).lays
    · have entries : ∀ entry ∈ kept, LaysEntry entry := by
        intro entry among
        obtain ⟨child, treats, rendered, lays⟩ := each entry among
        exact entry_lays sound whole spaced (below.tail child)
          ((Subtree.inCode_of_list list).children child) treats rendered lays
      obtain ⟨lexemes, laid⟩ := rebuilt_lays sound whole spaced below list empty entries
      have some : (kept.map Kept.text).isEmpty = false := by simpa using empty
      rw [reduce, some]
      exact ⟨_, _, lexemes, rfl, rfl, laid⟩
  · intro part below list empty
    have none : ∀ child ∈ part.children, ¬ setting.Retains child := by simp [empty]
    exact ⟨_, _, _, rfl, rfl, Row.laid (gone_writes sound below (.inr list) none)⟩
  · intro doc listed edit changes
    exact (doc_writes sound whole spaced docs listed changes).lays

end Lists

end Setting

section Words

/-- An identifier among the tokens ends behind so many characters. -/
def WordEnds (tokens : List Token) (count : Nat) : Prop :=
  ∃ front token rest, tokens = front ++ token :: rest ∧ token.kind = .ident ∧
    (spell (front ++ [token])).length = count

theorem Lexer.Lexes.split {source : List Char} {front rest : List Lexeme}
    (lexes : Lexes source (front ++ rest)) :
    ∃ behind, source = front.flatMap Lexeme.text ++ behind ∧ Lexes behind rest := by
  induction front generalizing source with
  | nil => exact ⟨source, rfl, lexes⟩
  | cons first front ih =>
    obtain ⟨kind, c, tail, more, rfl, rfl, -, -, later⟩ := lexes.first
    obtain ⟨behind, rfl, found⟩ := ih later
    exact ⟨behind, by simp, found⟩

theorem WordEnds.stop {left right : List Char} {out : List Token} {c : Char}
    (lexed : tokenize (left ++ right) = .ok out) (ends : WordEnds out left.length)
    (head : right.head? = some c) : isIdentPart c = false := by
  obtain ⟨front, token, rest, rfl, ident, length⟩ := ends
  have lexes := tokenize_lexes lexed
  rw [lexemesOf, List.map_append, List.map_cons] at lexes
  obtain ⟨behind, whole, found⟩ := lexes.split
  obtain ⟨kind, d, tail, more, same, rfl, read, -⟩ := found.first
  obtain rfl : kind = .ident := (congrArg Lexeme.kind same).symm.trans ident
  obtain ⟨-, run⟩ := classify_ident read
  have text : token.text = d :: tail := congrArg Lexeme.text same
  have spelled : spell (front ++ [token]) =
      (front.map fun token => token.toLexeme).flatMap Lexeme.text ++ (d :: tail) := by
    simp [spell, List.flatMap_map, text]
  rw [← List.append_assoc, ← spelled] at whole
  obtain ⟨-, rfl⟩ := List.append_inj whole length.symm
  exact run_stop run.symm head

end Words

namespace Template

variable {source : List Char} {filename : String} {template : Template} {binding : Binding}

theorem spaced_interleaves (read : Template.read source filename = .ok template) {text : List Char}
    (made : (template.specialize binding).result = .ok text) {edits : List Edit}
    (edited : (template.edits binding).result = .ok edits)
    (spaced : Spaced template.tokens template.tree) :
    (∀ edit ∈ edits, ∃ tokens, tokenize edit.text = .ok tokens) ∧
      ∃ out, tokenize text = .ok out ∧ significantLexemes out =
        Edit.interleave template.tokens 0 template.tokens.length edits := by
  obtain ⟨-, parsed⟩ := read_ok read
  have sound := parse_sound parsed
  have docs := parseTokens_docs (parse_ok parsed).2
  have whole : ∀ token ∈ template.tokens, Whole token.toLexeme :=
    fun token member => tokenize_whole (parse_ok parsed).1 member
  simp only [specialize, Traced.bind_ok, Traced.lift_ok] at made
  obtain ⟨other, again, rendered⟩ := made
  cases edited.symm.trans again
  obtain ⟨inside, rfl⟩ := Edit.render_ok rendered
  obtain ⟨before, -⟩ := Setting.edits_ok sound docs (edits_setting edited)
  have lays := Setting.edits_lay sound whole spaced docs (edits_setting edited)
  obtain ⟨lexemes, laid, meaning⟩ := Setting.render_lays whole spaced (Nat.zero_le _) (Nat.le_refl _)
    before inside lays
  obtain ⟨out, lexed, same⟩ := laid.reads
  refine ⟨fun edit member => ?_, out, lexed, same.trans meaning⟩
  obtain ⟨start, stop, inEdit, -, -, laid⟩ := lays edit member
  obtain ⟨tokens, lexed, -⟩ := laid.reads
  exact ⟨tokens, lexed⟩

theorem text_behind {edits : List Edit} (before : edits.Pairwise Edit.Before)
    (nonempty : ∀ edit ∈ edits, edit.start < edit.stop) {start stop : Nat} {next : Token}
    (deletes : ⟨start, stop, []⟩ ∈ edits) (there : template.tokens[stop]? = some next)
    (free : Edit.covered edits stop = false) :
    ∃ behind, (List.range template.tokens.length).flatMap (Edit.standing template.texts edits) =
      (List.range start).flatMap (Edit.standing template.texts edits) ++ (next.text ++ behind) := by
  have order : (start : Int) < stop := nonempty _ deletes
  obtain ⟨bound, -⟩ := List.getElem?_eq_some_iff.mp there
  obtain ⟨count, rfl⟩ := Nat.exists_eq_add_of_lt (Int.ofNat_lt.mp order)
  obtain ⟨more, length⟩ := Nat.exists_eq_add_of_lt bound
  -- Nothing stands where the deletion is, so the token is next to what stands in front of it.
  have gone : ((List.range (count + 1)).map (start + ·)).flatMap
      (Edit.standing template.texts edits) = [] := by
    refine List.flatMap_eq_nil_iff.mpr fun index member => ?_
    obtain ⟨offset, inside, rfl⟩ := List.mem_map.mp member
    have low := List.mem_range.mp inside
    have inside : (start : Int) ≤ (start + offset : Nat) ∧
        ((start + offset : Nat) : Int) < (start + count + 1 : Nat) := by omega
    rw [Edit.standing_edit before nonempty deletes inside.1 inside.2]
    exact ite_self _
  have stays : Edit.standing template.texts edits (start + count + 1) = next.text := by
    rw [Edit.standing_free nonempty free, List.getD_eq_getElem?_getD, texts, List.getElem?_map, there]
    rfl
  have split : List.range template.tokens.length = List.range start ++
      ((List.range (count + 1)).map (start + ·) ++
        (List.range (more + 1)).map (start + (count + 1) + ·)) := by
    rw [length, show start + count + 1 + more + 1 = start + (count + 1) + (more + 1) by omega,
      List.range_add, List.range_add, List.append_assoc]
  rw [split, List.flatMap_append, List.flatMap_append, gone, List.nil_append, List.range_succ_eq_map,
    List.map_cons, List.flatMap_cons, ← stays]
  exact ⟨_, rfl⟩

/-- The text of a specialization is read again as the tokens that no edit covers, with the tokens of the
edits in place of the others, if no two tokens run together where a list between them goes. Where a list
goes before an identifier, no identifier ends: one that stood before the list goes on. -/
theorem specialize_interleaves (read : Template.read source filename = .ok template)
    {text : List Char} (made : (template.specialize binding).result = .ok text) :
    ∃ edits, (template.edits binding).result = .ok edits ∧
      (Spaced template.tokens template.tree →
        (∀ edit ∈ edits, ∃ tokens, tokenize edit.text = .ok tokens) ∧
        ∃ out, tokenize text = .ok out ∧ significantLexemes out =
          Edit.interleave template.tokens 0 template.tokens.length edits) ∧
      ∀ (start stop : Nat) (next : Token), ⟨start, stop, []⟩ ∈ edits →
        template.tokens[stop]? = some next → next.kind = .ident →
        Edit.covered edits stop = false → ∀ out, tokenize text = .ok out →
          ¬ WordEnds out ((List.range start).flatMap (Edit.standing template.texts edits)).length := by
  obtain ⟨-, parsed⟩ := read_ok read
  have whole : ∀ token ∈ template.tokens, Whole token.toLexeme :=
    fun token member => tokenize_whole (parse_ok parsed).1 member
  obtain ⟨edits, edited, before, within, spelled⟩ := specialize_ok read made
  refine ⟨edits, edited, spaced_interleaves read made edited, ?_⟩
  intro start stop next deletes there ident free out lexed ends
  have nonempty : ∀ edit ∈ edits, edit.start < edit.stop := fun edit there => (within edit there).2.1
  obtain ⟨behind, same⟩ := text_behind before nonempty deletes there free
  rw [spelled, same] at lexed
  have word : Whole ⟨.ident, next.text⟩ := ident ▸ whole next (List.mem_of_getElem? there)
  obtain ⟨c, tail, front, start, -⟩ := word.word
  have stops := ends.stop lexed (by rw [front]; rfl)
  rw [isIdentPart_of_isIdentStart start] at stops
  cases stops

theorem specialize_interleaves_nested :
    (∃ template text edits out,
      Template.read
          "class KTypeA<KType, VType> extends KTypeB<KType, VTypeC<VType>> { <KType> void f() { } }".toList
          "A.java" = .ok template ∧ Spaced template.tokens template.tree ∧
        (template.specialize ⟨.int, some .generic⟩).result = .ok text ∧
        text = "class IntA<VType> extends IntB<ObjectC<VType>> { void f() { } }".toList ∧
        (template.edits ⟨.int, some .generic⟩).result = .ok edits ∧ tokenize text = .ok out ∧
        significantLexemes out =
          Edit.interleave template.tokens 0 template.tokens.length edits) ∧
      ∃ template edits out,
        Template.read "class A { KTypeFoo<KType>x; }".toList "A.java" = .ok template ∧
          (template.specialize ⟨.int, none⟩).result = .ok "class A { IntFoox; }".toList ∧
          (template.edits ⟨.int, none⟩).result = .ok edits ∧ ⟨7, 10, []⟩ ∈ edits ∧
          tokenize "class A { IntFoox; }".toList = .ok out ∧
          ¬ WordEnds out "class A \x7b IntFoo".toList.length := by
  constructor
  · obtain ⟨template, read, passes⟩ := ok_of_any
      (show (Template.read
        "class KTypeA<KType, VType> extends KTypeB<KType, VTypeC<VType>> { <KType> void f() { } }".toList
        "A.java").toOption.any (fun template => keepsApart template.tokens template.tree &&
          (template.specialize ⟨.int, some .generic⟩).result.toOption.any fun text => text ==
            "class IntA<VType> extends IntB<ObjectC<VType>> { void f() { } }".toList) = true by
        decide +kernel)
    obtain ⟨apart, specializes⟩ := Bool.and_eq_true_iff.mp passes
    obtain ⟨text, made, spells⟩ := ok_of_any specializes
    obtain ⟨edits, edited, spaced, -⟩ := specialize_interleaves read made
    obtain ⟨-, out, lexed, same⟩ := spaced (spaced_of_keepsApart apart)
    exact ⟨template, text, edits, out, read, spaced_of_keepsApart apart, made, eq_of_beq spells,
      edited, lexed, same⟩
  · obtain ⟨template, read, passes⟩ := ok_of_any
      (show (Template.read "class A { KTypeFoo<KType>x; }".toList "A.java").toOption.any
        (fun template => ((template.specialize ⟨.int, none⟩).result.toOption.any fun text => text ==
            "class A { IntFoox; }".toList && (tokenize text).toOption.any fun _ => true) &&
          (template.edits ⟨.int, none⟩).result.toOption.any fun edits =>
            edits.contains ⟨7, 10, []⟩ && !Edit.covered edits 10 &&
            (template.tokens[10]?.any fun next => next.kind == .ident) &&
            ((List.range 7).flatMap (Edit.standing template.texts edits)).length == 16) = true by
        decide +kernel)
    obtain ⟨specializes, edited⟩ := Bool.and_eq_true_iff.mp passes
    obtain ⟨text, made, spells⟩ := ok_of_any specializes
    simp only [Bool.and_eq_true, beq_iff_eq] at spells
    obtain ⟨rfl, lexes⟩ := spells
    obtain ⟨out, lexed, -⟩ := ok_of_any lexes
    obtain ⟨edits, edited, facts⟩ := ok_of_any edited
    simp only [Bool.and_eq_true, List.contains_iff_mem, Bool.not_eq_true', beq_iff_eq] at facts
    obtain ⟨⟨⟨deletes, free⟩, next⟩, length⟩ := facts
    obtain ⟨next, there, ident⟩ := (Option.any_eq_true _ _).mp next
    obtain ⟨other, again, -, glues⟩ := specialize_interleaves read made
    cases edited.symm.trans again
    have apart := glues 7 10 next deletes there (eq_of_beq ident) free out lexed
    rw [length] at apart
    exact ⟨template, edits, out, read, made, edited, deletes, lexed, apart⟩

end Template

end Specializer
