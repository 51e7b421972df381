import Specializer.Proofs.Confinement
import Specializer.Proofs.Lexing
import Specializer.Proofs.Plain

set_option autoImplicit false

namespace Specializer

namespace Setting

variable {setting : Setting} {edits : List Edit}

theorem yields_below {part : Subtree} (yields : setting.Yields part edits) :
    ∀ edit ∈ edits, ∃ lower, part.Below lower ∧
      ((∃ name ∈ lower.names, ∃ text, edit = replace name text ∧ hasPlaceholder name.text = true) ∨
        ((lower.kind = .typeParams ∨ lower.kind = .typeArgs) ∧ setting.Rebuilds lower.range edit)) := by
  induction yields with
  | none => exact nofun
  | @within part edits renamed inner names children renames yields all ih =>
    intro edit member
    rcases List.mem_append.mp (all.mem_iff.mp member) with ofName | ofChild
    · obtain ⟨pair, found, present⟩ := List.mem_flatMap.mp ofName
      refine ⟨part, .refl, .inl ⟨pair.1, names ▸ List.mem_map_of_mem found, ?_⟩⟩
      rcases renames pair found with none | ⟨text, same, has⟩
      · rw [none] at present
        cases present
      · rw [same] at present
        exact ⟨text, List.mem_singleton.mp present, has⟩
    · obtain ⟨pair, found, present⟩ := List.mem_flatMap.mp ofChild
      obtain ⟨lower, below, cause⟩ := ih pair found edit present
      have child : pair.1 ∈ part.children := children ▸ List.mem_map_of_mem found
      exact ⟨lower, below.head child, cause⟩
  | @rebuilt part edit list rebuilds =>
    intro other member
    cases List.mem_singleton.mp member
    exact ⟨part, .refl, .inr ⟨list, rebuilds⟩⟩

end Setting

namespace Template

variable {source : List Char} {filename : String} {template : Template} {binding : Binding}
  {edits : List Edit}

def texts (template : Template) : List (List Char) := template.tokens.map fun token => token.text

def EditsToken (template : Template) (kind : Kind) (edit : Edit) : Prop :=
  ∃ (index : Nat) (token : Token) (slot : Slot), template.tokens[index]? = some token ∧
    token.kind = kind ∧ slot.name.toList <:+: token.text ∧
      edit.start = index ∧ edit.stop = index + 1

def EditsList (template : Template) (binding : Binding) (edit : Edit) : Prop :=
  ∃ node ∈ template.tree.nodes, (node.kind = .typeParams ∨ node.kind = .typeArgs) ∧
    Setting.Rebuilds ⟨template.tokens, binding⟩ node.range edit

/-- No identifier and no documentation comment holds a placeholder. -/
def Plain (template : Template) : Prop :=
  ∀ token ∈ template.tokens, token.kind = .ident ∨ token.kind = .docComment →
    ∀ slot : Slot, ¬ slot.name.toList <:+: token.text

theorem gathers_kinds (sound : (Subtree.unit template.tree).Sound (lexemesOf template.tokens))
    (gathers : Setting.Gathers ⟨template.tokens, binding⟩ []
      (template.tree.members.map Member.subtree) edits) :
    ∀ edit ∈ edits, template.EditsToken .ident edit ∨ template.EditsList binding edit := by
  intro edit member
  obtain ⟨renamed, inner, noNames, ofMembers, -, yields, all⟩ := gathers
  cases List.map_eq_nil_iff.mp noNames
  obtain ⟨pair, found, present⟩ := List.mem_flatMap.mp (all.mem_iff.mp member)
  have child : pair.1 ∈ (Subtree.unit template.tree).children :=
    List.mem_append_left _ (ofMembers ▸ List.mem_map_of_mem found)
  -- The edit is traced to the node it belongs to, and from there to a token or a list.
  obtain ⟨lower, below, cause⟩ := Setting.yields_below (yields pair found) edit present
  have within : (Subtree.unit template.tree).Below lower := below.head child
  rcases cause with ⟨name, own, text, rfl, has⟩ | ⟨list, rebuilds⟩
  · obtain ⟨slot, named⟩ := hasPlaceholder_iff.mp has
    obtain ⟨token, there, same⟩ :=
      lexemesOf_some ((sound.at_below within).here.stands name own)
    have spelled : token.text = name.text := congrArg Lexeme.text same
    exact .inl ⟨name.index, token, slot, there, congrArg Lexeme.kind same, spelled ▸ named, rfl, rfl⟩
  · exact .inr ⟨lower.node, template.tree.mem_nodes_iff.mpr ⟨lower, within, rfl⟩, list, rebuilds⟩

theorem editsDoc_kind (docs : template.tree.docs = docComments template.tokens) {doc : Nat}
    {edit : Edit} (there : doc ∈ template.tree.docs)
    (changes : Setting.EditsDoc ⟨template.tokens, binding⟩ doc edit) :
    template.EditsToken .docComment edit := by
  rw [docs] at there
  obtain ⟨token, found, kind⟩ := (mem_indices _ _ _).mp there
  have text : Setting.docText ⟨template.tokens, binding⟩ doc = token.text := by
    simp only [Setting.docText, found, Option.map_some, Option.getD_some]
  have has : hasPlaceholder token.text = true := by
    -- Filling a comment without placeholders would not have changed it.
    by_contra plain
    obtain ⟨values, filled⟩ := changes.filled
    rw [text, DocText.fill_plain (Bool.eq_false_iff.mpr plain)] at filled
    exact changes.changed (text ▸ (Except.ok.inj filled).symm)
  obtain ⟨slot, named⟩ := hasPlaceholder_iff.mp has
  exact ⟨doc, token, slot, found, eq_of_beq kind, named, changes.start, changes.stop⟩

theorem plain_token (plain : template.Plain) {token : Token} (member : token ∈ template.tokens)
    (kind : token.kind = .ident ∨ token.kind = .docComment) : hasPlaceholder token.text = false := by
  by_contra has
  obtain ⟨slot, named⟩ := hasPlaceholder_iff.mp (eq_true_of_ne_false has)
  exact plain token member kind slot named

theorem plain_slotCount (plain : template.Plain) : template.slotCount = 1 := by
  have unused : template.tokens.any (fun token =>
      (token.kind == .ident || token.kind == .docComment) &&
        (segments token.text).contains .value) = false := by
    refine List.any_eq_false.mpr fun token member => ?_
    simp only [Bool.and_eq_true, Bool.or_eq_true, beq_iff_eq, not_and]
    intro kind
    rw [hasPlaceholder_false.mp (plain_token plain member kind)]
    exact nofun
  simp only [slotCount, unused]
  rfl

theorem plain_edits (read : Template.read source filename = .ok template) (plain : template.Plain)
    (key : SlotType) : template.edits ⟨key, none⟩ = pure [] := by
  obtain ⟨-, parsed⟩ := read_ok read
  have sound := parse_sound parsed
  have docs := parseTokens_docs (parse_ok parsed).2
  have members : ∀ member ∈ template.tree.members, member.subtree.Plain := by
    intro member found
    have there := sound.child (Subtree.member_child found)
    refine Subtree.Everywhere.mono there fun part within name own => ?_
    obtain ⟨token, found, same⟩ := lexemesOf_some (within.here.stands name own)
    have spelled : token.text = name.text := congrArg Lexeme.text same
    exact spelled ▸ plain_token plain (List.mem_of_getElem? found) (.inl (congrArg Lexeme.kind same))
  have comments : ∀ doc ∈ template.tree.docs,
      hasPlaceholder (Setting.docText ⟨template.tokens, ⟨key, none⟩⟩ doc) = false := by
    intro doc there
    rw [docs] at there
    obtain ⟨token, found, kind⟩ := (mem_indices _ _ _).mp there
    simp only [Setting.docText, found, Option.map_some, Option.getD_some]
    exact plain_token plain (List.mem_of_getElem? found) (.inr (eq_of_beq kind))
  rw [Template.edits, plain_slotCount plain]
  exact Setting.edits_plain rfl members comments

/-- Each edit is of an identifier or a comment with a placeholder in it or of a list in angle brackets;
the text has at each position what stands there after the edits, which is the token itself unless
an edit covers it; and a template without placeholders stays as it is, without notices. -/
theorem edits_frame (read : Template.read source filename = .ok template) :
    (∀ binding edits, (template.edits binding).result = .ok edits →
      (∀ edit ∈ edits, template.EditsToken .ident edit ∨ template.EditsList binding edit ∨
        template.EditsToken .docComment edit) ∧
      (template.specialize binding).result = .ok ((List.range template.tokens.length).flatMap
        (Edit.standing template.texts edits)) ∧
      ∀ index token, template.tokens[index]? = some token → Edit.covered edits index = false →
        Edit.standing template.texts edits index = token.text) ∧
    (template.Plain → ∀ key, template.edits ⟨key, none⟩ = ⟨[], .ok []⟩ ∧
      template.specialize ⟨key, none⟩ = ⟨[], .ok source⟩) := by
  obtain ⟨-, parsed⟩ := read_ok read
  have sound := parse_sound parsed
  have docs := parseTokens_docs (parse_ok parsed).2
  constructor
  · intro binding edits made
    -- Edits that are apart show at each position what stands there, in one pass over the text.
    obtain ⟨before, within, inCode, gathers, origin⟩ :=
      Setting.edits_ok sound docs (edits_setting made)
    obtain ⟨-, rendered⟩ := specialize_eq made before within
    refine ⟨?_, ?_, ?_⟩
    · intro edit member
      rcases origin edit member with code | ⟨doc, there, changes⟩
      · exact (gathers_kinds sound gathers edit code).imp_right .inl
      · exact .inr (.inr (editsDoc_kind docs there changes))
    · have positions : Edit.positionwise template.texts edits 0 template.tokens.length = _ :=
        Edit.positionwise_whole fun edit member =>
          Int.lt_of_lt_of_le (within edit member).2.1 (within edit member).2.2
      rw [rendered]
      exact congrArg Except.ok positions
    · intro index token there free
      rw [Edit.standing_free (fun edit member => (within edit member).2.1) free, texts,
        List.getD_eq_getElem?_getD, List.getElem?_map, there]
      rfl
  · intro plain key
    have none := plain_edits read plain key
    refine ⟨none, ?_⟩
    have spelled : template.texts.flatten = source := tokenize_spell (parse_ok parsed).1
    have rendered := Edit.render_nil template.texts
    rw [spelled, texts, List.length_map] at rendered
    rw [specialize, none, pure_bind, rendered]
    rfl

theorem edits_frame_samples :
    (∃ template edits,
      Template.read "/** KType */ class KTypeA<KType> { }".toList "A.java" = .ok template ∧
        (template.edits ⟨.int, none⟩).result = .ok edits ∧ edits.length = 3 ∧
        ∀ edit ∈ edits, template.EditsToken .ident edit ∨ template.EditsList ⟨.int, none⟩ edit ∨
          template.EditsToken .docComment edit) ∧
      ∃ template, Template.read "import a.B; // KType".toList "A.java" = .ok template ∧
        template.Plain ∧
        template.specialize ⟨.int, none⟩ = ⟨[], .ok "import a.B; // KType".toList⟩ := by
  constructor
  · obtain ⟨template, read, passes⟩ := ok_of_any
      (show (Template.read "/** KType */ class KTypeA<KType> { }".toList "A.java").toOption.any
        (fun template => (template.edits ⟨.int, none⟩).result.toOption.any
          fun edits => edits.length == 3) = true by decide +kernel)
    obtain ⟨edits, made, count⟩ := ok_of_any passes
    exact ⟨template, edits, read, made, eq_of_beq count, ((edits_frame read).1 _ _ made).1⟩
  · obtain ⟨template, read, passes⟩ := ok_of_any
      (show (Template.read "import a.B; // KType".toList "A.java").toOption.any
        (fun template => template.tokens.all fun token =>
          token.kind != .ident && token.kind != .docComment || !hasPlaceholder token.text) = true by
        decide +kernel)
    have plain : template.Plain := by
      intro token member kind slot named
      have free := List.all_eq_true.mp passes token member
      have has : hasPlaceholder token.text = true := hasPlaceholder_iff.mpr ⟨slot, named⟩
      rcases kind with kind | kind <;> simp [kind, has] at free
    exact ⟨template, read, plain, ((edits_frame read).2 plain .int).2⟩

end Template

end Specializer
