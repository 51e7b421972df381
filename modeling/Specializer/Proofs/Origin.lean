import Specializer.Proofs.Coverage
import Specializer.Proofs.Frame

set_option autoImplicit false

namespace Specializer

namespace Edit

variable {texts : List (List Char)} {edits : List Edit} {edit : Edit}

theorem standing_edit (before : edits.Pairwise Before)
    (nonempty : ∀ edit ∈ edits, edit.start < edit.stop) (member : edit ∈ edits) {index : Nat}
    (start : edit.start ≤ index) (stop : index < edit.stop) :
    standing texts edits index = if edit.start = index then edit.text else [] := by
  induction edits with
  | nil => cases member
  | cons first rest ih =>
    obtain ⟨ahead, later⟩ := List.pairwise_cons.mp before
    rcases List.mem_cons.mp member with rfl | behind
    · exact standing_within start stop ahead
    · have apart : first.stop ≤ edit.start := ahead edit behind
      have order := nonempty first List.mem_cons_self
      rw [standing_behind (by omega) (by omega)]
      exact ih later (fun edit there => nonempty edit (List.mem_cons_of_mem _ there)) behind

theorem standing_start (before : edits.Pairwise Before)
    (nonempty : ∀ edit ∈ edits, edit.start < edit.stop) (member : edit ∈ edits) {index : Nat}
    (start : edit.start = index) : standing texts edits index = edit.text := by
  have stop := nonempty edit member
  rw [standing_edit before nonempty member (by omega) (by omega), if_pos start]

end Edit

namespace Setting

variable {setting : Setting} {edits : List Edit}

theorem edits_origin {tree : Tree} (sound : (Subtree.unit tree).Sound (lexemesOf setting.tokens))
    (docs : tree.docs = docComments setting.tokens) (made : (setting.edits tree).result = .ok edits)
    {edit : Edit} (member : edit ∈ edits) :
    (∃ lower, (Subtree.unit tree).Below lower ∧
      ((∃ name ∈ lower.names, ∃ text, edit = replace name text ∧ hasPlaceholder name.text = true) ∨
        ((lower.kind = .typeParams ∨ lower.kind = .typeArgs) ∧ setting.Rebuilds lower.range edit))) ∨
      ∃ doc ∈ tree.docs, setting.EditsDoc doc edit := by
  obtain ⟨-, -, inCode, gathers, origin⟩ := edits_ok sound docs made
  refine (origin edit member).imp_left fun code => ?_
  obtain ⟨renamed, inner, noNames, ofMembers, -, yields, all⟩ := gathers
  cases List.map_eq_nil_iff.mp noNames
  obtain ⟨pair, found, present⟩ := List.mem_flatMap.mp (all.mem_iff.mp code)
  have child : pair.1 ∈ (Subtree.unit tree).children :=
    List.mem_append_left _ (ofMembers ▸ List.mem_map_of_mem found)
  obtain ⟨lower, below, cause⟩ := yields_below (yields pair found) edit present
  exact ⟨lower, below.head child, cause⟩

end Setting

namespace Template

variable {source : List Char} {filename : String} {template : Template} {binding : Binding}

theorem specialize_ok (read : Template.read source filename = .ok template) {text : List Char}
    (made : (template.specialize binding).result = .ok text) :
    ∃ edits, (template.edits binding).result = .ok edits ∧ edits.Pairwise Edit.Before ∧
      (∀ edit ∈ edits, 0 ≤ edit.start ∧ edit.start < edit.stop ∧
        edit.stop ≤ template.tokens.length) ∧
      text = (List.range template.tokens.length).flatMap (Edit.standing template.texts edits) := by
  obtain ⟨-, parsed⟩ := read_ok read
  have sound := parse_sound parsed
  have docs := parseTokens_docs (parse_ok parsed).2
  have run := made
  simp only [specialize, Traced.bind_ok] at run
  obtain ⟨edits, edited, -⟩ := run
  obtain ⟨before, within, -⟩ := Setting.edits_ok sound docs (edits_setting edited)
  refine ⟨edits, edited, before, within, ?_⟩
  have positions : Edit.positionwise template.texts edits 0 template.tokens.length = _ :=
    Edit.positionwise_whole fun edit member =>
      Int.lt_of_lt_of_le (within edit member).2.1 (within edit member).2.2
  have rendered := congrArg Traced.result (specialize_eq edited before within).2
  rw [made] at rendered
  rw [← positions]
  exact Except.ok.inj rendered

theorem texts_name (sound : (Subtree.unit template.tree).Sound (lexemesOf template.tokens))
    {part : Subtree} (below : (Subtree.unit template.tree).Below part) {name : Name}
    (own : name ∈ part.names) : template.texts[name.index]? = some name.text := by
  obtain ⟨token, there, same⟩ := lexemesOf_some ((sound.at_below below).here.stands name own)
  rw [texts, List.getElem?_map, there, Option.map_some]
  exact congrArg some (congrArg Lexeme.text same)

end Template

end Specializer
