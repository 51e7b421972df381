import Specializer.Proofs.AllGeneric
import Specializer.Proofs.Origin
import Specializer.Proofs.Recasting
import Specializer.Proofs.Remnants

set_option autoImplicit false

namespace Specializer

open Lexer

theorem fillInOrder_generic {parts : List Piece} {values : List SlotType} {new : List Char}
    (generic : ∀ value ∈ values, value = .generic) (made : fillInOrder parts values = some new) :
    new = parts.flatMap Piece.text ∨ ∃ front a b rest more,
      parts.flatMap Piece.text = front ++ a :: rest ∧ new = front ++ b :: more ∧
        isInert a = true ∧ isInert b = true := by
  induction parts generalizing values new with
  | nil =>
    cases made
    exact .inl rfl
  | cons piece parts ih =>
    cases piece with
    | char c =>
      obtain ⟨text, behind, rfl⟩ := Option.map_eq_some_iff.mp made
      rcases ih generic behind with rfl | ⟨front, a, b, rest, more, same, rfl, inert⟩
      · exact .inl rfl
      · exact .inr ⟨c :: front, a, b, rest, more, congrArg (c :: ·) same, rfl, inert⟩
    -- The texts part at the first placeholder.
    | slot slot =>
      cases values with
      | nil => cases made
      | cons value values =>
        obtain ⟨text, behind, rfl⟩ := Option.map_eq_some_iff.mp made
        cases generic value List.mem_cons_self
        cases slot with
        | key => exact .inr ⟨[], 'K', 'O', _, _, rfl, rfl, by decide, by decide⟩
        | value => exact .inr ⟨[], 'V', 'O', _, _, rfl, rfl, by decide, by decide⟩

theorem IsWord.letters {text : List Char} (word : IsWord text) :
    text ≠ [] ∧ ∀ c ∈ text, isIdentPart c = true := by
  obtain ⟨c, tail, rfl, start, part⟩ := word
  refine ⟨List.cons_ne_nil _ _, fun d member => ?_⟩
  rcases List.mem_cons.mp member with rfl | later
  · exact isIdentPart_of_isIdentStart start
  · exact part d later

theorem GenericText.recasts {old new : List Char} (generic : GenericText old new)
    (word : IsWord old) : Recasts ⟨.ident, old⟩ ⟨.ident, new⟩ := by
  obtain ⟨values, all, substituted⟩ := generic
  have spelled : IsWord new := word.filled (fillInOrder_filled substituted)
  have alike := fillInOrder_generic all substituted
  rw [pieces_text] at alike
  have reworded := Reworded.word word.letters.1 spelled.letters.1 word.letters.2 spelled.letters.2 .nil
  rw [List.append_nil, List.append_nil] at reworded
  exact .word ⟨reworded, alike.imp_left Eq.symm⟩ spelled

theorem DocText.fill_recasts {binding : Binding} {values : Option (List SlotType)}
    {old new : List Char} (made : fill binding values old = .ok new)
    (whole : Whole ⟨.docComment, old⟩) : Recasts ⟨.docComment, old⟩ ⟨.docComment, new⟩ := by
  have reworded := fill_reworded made
  obtain ⟨again, head⟩ := reworded.whole whole
  obtain ⟨rest, rfl⟩ := List.head?_eq_some_iff.mp (reworded.front (by decide) head)
  obtain ⟨more, rfl⟩ := List.head?_eq_some_iff.mp head
  -- Both begin with a slash, and no number has one.
  exact .doc ⟨reworded, .inr ⟨[], '/', '/', rest, more, rfl, rfl, by decide, by decide⟩⟩ again

/-- The class of the token stays, and its text unless it is an identifier or a documentation comment
with a placeholder. -/
def Token.RenamedTo (old new : Token) : Prop :=
  new.kind = old.kind ∧ (new.text = old.text ∨
    (old.kind = .ident ∨ old.kind = .docComment) ∧ hasPlaceholder old.text = true)

namespace Template

variable {source : List Char} {filename : String} {template : Template} {binding : Binding}

theorem edits_recast (read : Template.read source filename = .ok template)
    (generic : binding.AllGeneric) {edits : List Edit}
    (edited : (template.edits binding).result = .ok edits) {edit : Edit} (member : edit ∈ edits) :
    ∃ (index : Nat) (token : Token), edit.start = index ∧ edit.stop = index + 1 ∧
      template.tokens[index]? = some token ∧ Recasts token.toLexeme ⟨token.kind, edit.text⟩ ∧
      (token.kind = .ident ∨ token.kind = .docComment) ∧ hasPlaceholder token.text = true := by
  obtain ⟨-, parsed⟩ := read_ok read
  have sound := parse_sound parsed
  have docs := parseTokens_docs (parse_ok parsed).2
  have whole {token : Token} {index : Nat} (there : template.tokens[index]? = some token) :
      Whole token.toLexeme := tokenize_whole (parse_ok parsed).1 (List.mem_of_getElem? there)
  -- The edit is of a name in code, or of a comment.
  rcases (Setting.edits_mild generic docs).returned edits (edits_setting edited) edit member with
    casts | ⟨doc, listed, changes⟩
  · obtain ⟨part, same, lower, below, name, own, new, rfl, has, cast⟩ :=
      casts edit (List.mem_singleton_self _)
    cases List.mem_singleton.mp same
    obtain ⟨token, there, same⟩ := lexemesOf_some ((sound.at_below below).here.stands name own)
    have kind : token.kind = .ident := congrArg Lexeme.kind same
    have text : token.text = name.text := congrArg Lexeme.text same
    have old : Whole ⟨.ident, name.text⟩ := same ▸ whole there
    refine ⟨name.index, token, rfl, rfl, there, ?_, .inl kind, text ▸ has⟩
    rw [same]
    exact cast.recasts old.word
  · rw [docs] at listed
    obtain ⟨token, there, isDoc⟩ := (mem_indices _ _ _).mp listed
    have kind : token.kind = .docComment := eq_of_beq isDoc
    have same : token.toLexeme = ⟨.docComment, token.text⟩ := by rw [← kind]
    have text : Setting.docText ⟨template.tokens, binding⟩ doc = token.text := by
      simp [Setting.docText, there]
    obtain ⟨values, filled⟩ := changes.filled
    rw [text] at filled
    refine ⟨doc, token, changes.start, changes.stop, there, ?_, .inr kind, ?_⟩
    · rw [same]
      exact DocText.fill_recasts filled (same ▸ whole there)
    · by_contra plain
      rw [DocText.fill_plain (Bool.eq_false_iff.mpr plain)] at filled
      exact changes.changed (text ▸ (Except.ok.inj filled).symm)

section Text

variable (read : Template.read source filename = .ok template) (generic : binding.AllGeneric)
  {edits : List Edit} (edited : (template.edits binding).result = .ok edits)

include read generic edited

theorem covered_recast {index : Nat} (covered : Edit.covered edits index = true) :
    ∃ edit ∈ edits, ∃ token : Token, edit.start = index ∧ edit.stop = index + 1 ∧
      template.tokens[index]? = some token ∧ Recasts token.toLexeme ⟨token.kind, edit.text⟩ ∧
      (token.kind = .ident ∨ token.kind = .docComment) ∧ hasPlaceholder token.text = true := by
  obtain ⟨edit, member, reaches⟩ := List.any_eq_true.mp covered
  simp only [Bool.and_eq_true, decide_eq_true_eq] at reaches
  obtain ⟨place, token, start, stop, rest⟩ := edits_recast read generic edited member
  obtain rfl : place = index := by omega
  exact ⟨edit, member, token, start, stop, rest⟩

variable (nonempty : ∀ edit ∈ edits, edit.start < edit.stop)

include nonempty

theorem standing_retained {part : Subtree} (below : (Subtree.unit template.tree).Below part)
    (retains : Setting.Retains ⟨template.tokens, binding⟩ part) {name : Name}
    (own : name ∈ part.names) : Edit.standing template.texts edits name.index = name.text := by
  obtain ⟨-, parsed⟩ := read_ok read
  have sound := parse_sound parsed
  have docs := parseTokens_docs (parse_ok parsed).2
  have free : Edit.covered edits name.index = false := by
    by_contra covered
    obtain ⟨edit, member, -, start, stop, -⟩ :=
      covered_recast read generic edited (eq_true_of_ne_false covered)
    obtain ⟨token, there, same⟩ := lexemesOf_some ((sound.at_below below).here.stands name own)
    obtain ⟨-, lower, below', changes, other, own', equal⟩ := Setting.edits_single sound
      (edits_setting edited) docs member start stop there (congrArg Lexeme.kind same)
    -- A token is the name of one node only.
    have one : lower = part := Subtree.name_unique_unit sound below' below own' own equal
    exact changes (one ▸ retains)
  rw [Edit.standing_free nonempty free, List.getD_eq_getElem?_getD, texts_name sound below own]
  rfl

variable (before : edits.Pairwise Edit.Before)

include before

theorem standing_recasts {index : Nat} {token : Token}
    (there : template.tokens[index]? = some token) :
    Recasts token.toLexeme ⟨token.kind, Edit.standing template.texts edits index⟩ ∧
      (Edit.standing template.texts edits index = token.text ∨
        (token.kind = .ident ∨ token.kind = .docComment) ∧ hasPlaceholder token.text = true) := by
  cases free : Edit.covered edits index with
  | false =>
    have same : Edit.standing template.texts edits index = token.text := by
      rw [Edit.standing_free nonempty free, List.getD_eq_getElem?_getD, texts, List.getElem?_map, there]
      rfl
    rw [same]
    exact ⟨.same _, .inl rfl⟩
  | true =>
    obtain ⟨edit, member, other, start, -, found, recasts, allowed⟩ :=
      covered_recast read generic edited free
    cases found.symm.trans there
    rw [Edit.standing_start before nonempty member start]
    exact ⟨recasts, .inr allowed⟩

theorem standing_tokenize :
    ∃ out, tokenize ((List.range template.tokens.length).flatMap
        (Edit.standing template.texts edits)) = .ok out ∧ template.tokens.length = out.length ∧
      ∀ index token, template.tokens[index]? = some token → ∃ new, out[index]? = some new ∧
        new.kind = token.kind ∧ new.text = Edit.standing template.texts edits index := by
  have lexes := tokenize_lexes (parse_ok (read_ok read).2).1
  -- Each token is put in place of one of the same kind, so the text can be cut at the same places.
  have recasts : List.Forall₂ Recasts (lexemesOf template.tokens)
      (template.tokens.mapIdx fun index token =>
        ⟨token.kind, Edit.standing template.texts edits index⟩) := by
    refine List.forall₂_iff_get.mpr ⟨by simp [lexemesOf], fun index here _ => ?_⟩
    have inside : index < template.tokens.length := by simpa [lexemesOf] using here
    simpa [lexemesOf] using
      (standing_recasts read generic edited nonempty before (List.getElem?_eq_getElem inside)).1
  have spelled : (template.tokens.mapIdx fun index token =>
      (⟨token.kind, Edit.standing template.texts edits index⟩ : Lexeme)).flatMap Lexeme.text =
        (List.range template.tokens.length).flatMap (Edit.standing template.texts edits) := by
    rw [List.flatMap_def, List.flatMap_def]
    exact congrArg List.flatten (List.ext_getElem (by simp) fun index _ _ => by simp)
  obtain ⟨out, lexed, same⟩ := (lexes.recast recasts).1.tokenize
  refine ⟨out, spelled ▸ lexed, ?_, fun index token there => ?_⟩
  · simpa [lexemesOf] using (congrArg List.length same).symm
  · have here : (lexemesOf out)[index]? =
        some ⟨token.kind, Edit.standing template.texts edits index⟩ := by
      rw [same, List.getElem?_mapIdx, there]
      rfl
    obtain ⟨new, found, equal⟩ := lexemesOf_some here
    exact ⟨new, found, (congrArg Lexeme.kind equal :), (congrArg Lexeme.text equal :)⟩

end Text

theorem generic_retains (read : Template.read source filename = .ok template)
    (generic : binding.AllGeneric) (checked : binding.check template.slotCount = .ok ())
    {part : Subtree} (below : (Subtree.unit template.tree).Below part)
    (kept : part.kind = .typeParam ∨ part.slot?.isSome = true) {name : Name} (own : name ∈ part.own) :
    Setting.Retains ⟨template.tokens, binding⟩ part := by
  have sound := parse_sound (read_ok read).2
  cases part with
  | param declared =>
    intro slot value _ bound
    rw [generic slot value bound]
    rfl
  | ref r =>
    have named : (Subtree.ref r).slot?.isSome = true := kept.resolve_left (by simp [Subtree.kind])
    obtain ⟨slot, named⟩ := Option.isSome_iff_exists.mp named
    obtain ⟨token, there, same⟩ := lexemesOf_some
      ((sound.at_below below).here.stands name (Subtree.own_names own))
    have text : token.text = name.text := congrArg Lexeme.text same
    obtain ⟨value, bound⟩ := Option.isSome_iff_exists.mp (slot_bound (List.mem_of_getElem? there)
      (congrArg Lexeme.kind same) (text ▸ Subtree.own_slot named own) checked)
    exact ⟨slot, named, generic slot value bound ▸ bound⟩
  | _ => simp [Subtree.kind, Subtree.slot?] at kept

theorem specialize_mild (read : Template.read source filename = .ok template)
    (generic : binding.AllGeneric) : (template.specialize binding).Mild fun _ => True := by
  have docs := parseTokens_docs (parse_ok (read_ok read).2).2
  have edits : (template.edits binding).Mild _ :=
    Traced.Meets.bind (.lift (fun _ _ => trivial) fun _ _ => trivial) fun _ _ (_ : True) =>
      Setting.edits_mild generic docs
  exact edits.bind fun _ _ _ => .lift (fun _ _ => trivial) fun _ _ => trivial

/-- Specialized with generic slots only, a template is renamed: the text has as many tokens, of the
same classes, and another text only where an identifier or a documentation comment has a placeholder.
Type parameters and references to a slot keep their names, no list goes, and no argument is reported
to be primitive. -/
theorem specialize_renames (read : Template.read source filename = .ok template)
    (generic : binding.AllGeneric) {text : List Char}
    (made : (template.specialize binding).result = .ok text) :
    ∃ edits out, (template.edits binding).result = .ok edits ∧ tokenize text = .ok out ∧
      List.Forall₂ Token.RenamedTo template.tokens out ∧
      (∀ part, (Subtree.unit template.tree).Below part →
        part.kind = .typeParam ∨ part.slot?.isSome = true → ∀ name ∈ part.own,
          ∃ token, out[name.index]? = some token ∧ token.text = name.text) ∧
      (∀ part, (Subtree.unit template.tree).Below part →
        part.kind = .typeParams ∨ part.kind = .typeArgs → ∀ edit ∈ edits,
          ¬ (edit.start ≤ part.range.start ∧ part.range.stop ≤ edit.stop)) ∧
      ∀ notice ∈ (template.specialize binding).notices, notice.issue.code ≠ .primitiveArgument := by
  have sound := parse_sound (read_ok read).2
  obtain ⟨edits, edited, before, within, rfl⟩ := specialize_ok read made
  have nonempty : ∀ edit ∈ edits, edit.start < edit.stop := fun edit there => (within edit there).2.1
  have checked : binding.check template.slotCount = .ok () := by
    simp only [Template.edits, Traced.bind_ok, Traced.lift_ok] at edited
    obtain ⟨_, checked, -⟩ := edited
    exact checked
  obtain ⟨out, lexed, length, stands⟩ := standing_tokenize read generic edited nonempty before
  refine ⟨edits, out, edited, lexed, ?_, ?_, ?_, (specialize_mild read generic).noted⟩
  · refine List.forall₂_iff_get.mpr ⟨length, fun index here there => ?_⟩
    have found : template.tokens[index]? = some (template.tokens.get ⟨index, here⟩) :=
      List.getElem?_eq_getElem here
    obtain ⟨new, spelled, kind, text⟩ := stands index _ found
    obtain rfl : out.get ⟨index, there⟩ = new :=
      Option.some.inj ((List.getElem?_eq_getElem there).symm.trans spelled)
    refine ⟨kind, ?_⟩
    rw [text]
    exact (standing_recasts read generic edited nonempty before found).2
  · intro part below kept name own
    have named := Subtree.own_names own
    have retains := generic_retains read generic checked below kept own
    obtain ⟨token, there, -⟩ := lexemesOf_some ((sound.at_below below).here.stands name named)
    obtain ⟨new, found, -, text⟩ := stands name.index token there
    exact ⟨new, found, text.trans (standing_retained read generic edited nonempty below retains named)⟩
  -- A list has two tokens at least, and no edit has more than one.
  · rintro part below list edit member ⟨start, stop⟩
    have wide := Subtree.list_wide list (sound.at_below below).here.arranged
    obtain ⟨index, -, first, last, -⟩ := edits_recast read generic edited member
    omega

theorem specialize_renames_documented :
    ∃ template text out,
      Template.read "/** A KTypeBag. */ class KTypeBag<KType> { KType[] x; KTypeBag<KType> y; }".toList
          "A.java" = .ok template ∧
        (template.specialize ⟨.generic, none⟩).result = .ok text ∧
        text =
          "/** A ObjectBag. */ class ObjectBag<KType> { KType[] x; ObjectBag<KType> y; }".toList ∧
        tokenize text = .ok out ∧ List.Forall₂ Token.RenamedTo template.tokens out ∧
        ∀ notice ∈ (template.specialize ⟨.generic, none⟩).notices,
          notice.issue.code ≠ .primitiveArgument := by
  obtain ⟨template, read, passes⟩ := ok_of_any
    (show (Template.read
      "/** A KTypeBag. */ class KTypeBag<KType> { KType[] x; KTypeBag<KType> y; }".toList
      "A.java").toOption.any (fun template =>
        (template.specialize ⟨.generic, none⟩).result.toOption.any fun text => text ==
          "/** A ObjectBag. */ class ObjectBag<KType> { KType[] x; ObjectBag<KType> y; }".toList) =
        true by decide +kernel)
  obtain ⟨text, made, spells⟩ := ok_of_any passes
  have generic : Binding.AllGeneric ⟨.generic, none⟩ := by
    rintro (_ | _) value bound
    · cases bound
      rfl
    · cases bound
  obtain ⟨edits, out, -, lexed, renamed, -, -, quiet⟩ := specialize_renames read generic made
  exact ⟨template, text, out, read, made, eq_of_beq spells, lexed, renamed, quiet⟩

end Template

end Specializer
