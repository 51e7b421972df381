import Specializer.Proofs.Comments
import Specializer.Proofs.WellNested
import Specializer.Proofs.Yield

set_option autoImplicit false

namespace Specializer

namespace Setting

variable {setting : Setting} {range inner : Range} {edit other : Edit} {edits : List Edit}

structure Lies (setting : Setting) (range : Range) (edit : Edit) : Prop where
  low : (range.start : Int) ≤ edit.start
  nonempty : edit.start < edit.stop
  first : ∀ index : Nat, edit.start = index → setting.isBlankAt index = false
  high : edit.stop ≤ range.stop ∨ edit.stop = range.stop + 1 ∧ setting.isBlankAt range.stop = true

structure Confined (setting : Setting) (range : Range) (edits : List Edit) : Prop where
  lies : ∀ edit ∈ edits, setting.Lies range edit
  apart : edits.Pairwise Edit.Apart

theorem Lies.widen (lies : setting.Lies inner edit) (left : range.start ≤ inner.start)
    (right : inner.stop ≤ range.stop) : setting.Lies range edit := by
  refine ⟨?_, lies.nonempty, lies.first, ?_⟩
  · have low := lies.low
    omega
  · rcases lies.high with inside | ⟨beyond, blank⟩
    · left
      omega
    · rcases Nat.lt_or_eq_of_le right with more | same
      · left
        omega
      · exact .inr (same ▸ ⟨beyond, blank⟩)

theorem Lies.before {behind : Range} (lies : setting.Lies range edit)
    (follows : setting.Lies behind other) (order : range.stop ≤ behind.start) : edit.Before other := by
  have low := follows.low
  rcases lies.high with inside | ⟨beyond, blank⟩
  · simp only [Edit.Before]
    omega
  -- The blank behind the range is taken along, and what follows starts at no blank.
  · have elsewhere : other.start ≠ (range.stop : Int) := by
      intro same
      rw [follows.first _ same] at blank
      cases blank
    simp only [Edit.Before]
    omega

theorem Lies.apart {behind : Range} (lies : setting.Lies range edit)
    (follows : setting.Lies behind other) (apart : range.Apart behind) : edit.Apart other :=
  apart.imp (lies.before follows) (follows.before lies)

theorem Confined.perm {more : List Edit} (confined : setting.Confined range edits)
    (same : more.Perm edits) : setting.Confined range more :=
  ⟨fun edit member => confined.lies edit (same.mem_iff.mp member),
    confined.apart.perm same.symm fun apart => apart.symm⟩

theorem confined_pieces {pieces : List (Range × List Edit)}
    (apart : (pieces.map Prod.fst).Pairwise Range.Apart)
    (inside : ∀ inner ∈ pieces.map Prod.fst,
      range.start ≤ inner.start ∧ inner.stop ≤ range.stop)
    (confined : ∀ piece ∈ pieces, setting.Confined piece.1 piece.2) :
    setting.Confined range (pieces.flatMap Prod.snd) := by
  constructor
  · intro edit member
    obtain ⟨piece, found, present⟩ := List.mem_flatMap.mp member
    obtain ⟨left, right⟩ := inside piece.1 (List.mem_map_of_mem found)
    exact ((confined piece found).lies edit present).widen left right
  · refine List.pairwise_flatMap.mpr ⟨fun piece found => (confined piece found).apart, ?_⟩
    refine (List.pairwise_map.mp apart).imp_of_mem ?_
    intro first second ofFirst ofSecond apart edit there other present
    exact ((confined first ofFirst).lies edit there).apart
      ((confined second ofSecond).lies other present) apart

theorem notBlank_of_solid {index : Nat} (solid : Solid (lexemesOf setting.tokens) index) :
    setting.isBlankAt index = false := by
  obtain ⟨lexeme, found, meaning⟩ := solid
  obtain ⟨token, there, rfl⟩ := lexemesOf_some found
  rw [isBlankAt, there]
  cases kind : token.kind <;> simp_all [Kind.isTrivia]

theorem renames_confined {name : Name} (stands : name.Stands (lexemesOf setting.tokens))
    (renames : name.Renames edits) : setting.Confined name.range edits := by
  rcases renames with rfl | ⟨text, rfl, -⟩
  · exact ⟨nofun, .nil⟩
  · refine ⟨?_, List.pairwise_singleton _ _⟩
    intro edit member
    cases List.mem_singleton.mp member
    refine ⟨Int.le_refl _, by simp only [replace]; omega, ?_, .inl (by simp [replace, Name.range])⟩
    intro index same
    cases Int.ofNat.inj same
    exact notBlank_of_solid ⟨_, stands, rfl⟩

theorem rebuilds_confined (nonempty : range.start < range.stop)
    (solid : Solid (lexemesOf setting.tokens) range.start) (rebuilds : setting.Rebuilds range edit) :
    setting.Confined range [edit] := by
  refine ⟨?_, List.pairwise_singleton _ _⟩
  intro edit member
  cases List.mem_singleton.mp member
  have start := rebuilds.start
  refine ⟨by omega, ?_, ?_, ?_⟩
  · rcases rebuilds.stop with stop | ⟨stop, -⟩ <;> omega
  · intro index same
    have there : index = range.start := by omega
    exact there ▸ notBlank_of_solid solid
  · rcases rebuilds.stop with stop | ⟨stop, -, -, -, blank⟩
    · exact .inl (Int.le_of_eq stop)
    · exact .inr ⟨stop, blank⟩

theorem yields_confined {part : Subtree} (yields : setting.Yields part edits)
    (inCode : part.InCode) (sound : part.Sound (lexemesOf setting.tokens)) :
    setting.Confined part.range edits := by
  -- Names and children stand apart in the node, so what is confined to each of them is in all.
  induction yields with
  | none => exact ⟨nofun, .nil⟩
  | @within part edits renamed inner names children renames yields all ih =>
    have placed := sound.here
    let pieces := renamed.map (fun pair => (pair.1.range, pair.2)) ++
      inner.map fun pair => (pair.1.range, pair.2)
    have ranges : pieces.map Prod.fst =
        part.names.map Name.range ++ part.children.map Subtree.range := by
      simp [pieces, ← names, ← children, Function.comp_def]
    have texts : pieces.flatMap Prod.snd = renamed.flatMap Prod.snd ++ inner.flatMap Prod.snd := by
      simp [pieces, List.flatMap_map]
    obtain ⟨apart, inside⟩ := Subtree.contents_spread inCode placed
    rw [← ranges] at apart inside
    refine Confined.perm (confined_pieces apart inside ?_) (texts ▸ all)
    intro piece member
    rcases List.mem_append.mp member with ofName | ofChild
    · obtain ⟨pair, found, rfl⟩ := List.mem_map.mp ofName
      have own : pair.1 ∈ part.names := names ▸ List.mem_map_of_mem found
      exact renames_confined (placed.stands _ own) (renames pair found)
    · obtain ⟨pair, found, rfl⟩ := List.mem_map.mp ofChild
      have child : pair.1 ∈ part.children := children ▸ List.mem_map_of_mem found
      exact ih pair found (inCode.children child) (sound.child child)
  | rebuilt list rebuilds =>
    obtain ⟨nonempty, first, -⟩ := inCode.bounded sound.here.bounded
    exact rebuilds_confined nonempty first rebuilds

theorem gathers_confined {parts : List Subtree} {low high : Nat}
    (gathers : setting.Gathers [] parts edits)
    (row : Successive low (parts.map Subtree.range) high) (inCode : ∀ part ∈ parts, part.InCode)
    (sound : ∀ part ∈ parts, part.Sound (lexemesOf setting.tokens)) :
    setting.Confined ⟨low, high⟩ edits := by
  obtain ⟨renamed, inner, noNames, rfl, -, yields, all⟩ := gathers
  cases List.map_eq_nil_iff.mp noNames
  let pieces := inner.map fun pair => (pair.1.range, pair.2)
  have ranges : pieces.map Prod.fst = (inner.map Prod.fst).map Subtree.range := by
    simp [pieces, Function.comp_def]
  have texts : pieces.flatMap Prod.snd = inner.flatMap Prod.snd := by
    simp [pieces, List.flatMap_map]
  refine Confined.perm (confined_pieces ?_ ?_ ?_) (texts ▸ all)
  · rw [ranges]
    exact row.pairwise.imp .inl
  · rw [ranges]
    intro range member
    have bounds := row.inside member
    exact ⟨bounds.1, bounds.2.2⟩
  · intro piece member
    obtain ⟨pair, found, rfl⟩ := List.mem_map.mp member
    have there := List.mem_map_of_mem (f := Prod.fst) found
    exact yields_confined (yields pair found) (inCode _ there) (sound _ there)

theorem membersEdits_confined {tree : Tree} {scope : Scope Slot}
    (sound : (Subtree.unit tree).Sound (lexemesOf setting.tokens))
    (made : (setting.membersEdits scope tree.members).result = .ok edits) :
    setting.Confined ⟨0, setting.tokens.length⟩ edits := by
  have placed := sound.here
  have size : tree.size = setting.tokens.length := by
    have whole : tree.size = (lexemesOf setting.tokens).length := placed.bounded
    simpa [lexemesOf] using whole
  refine gathers_confined (membersEdits_gathers tree.members made) ?_ ?_ ?_
  · have row : Successive 0 (tree.members.map Member.range) tree.size := placed.arranged
    simpa [← size, Function.comp_def] using row
  · intro part member
    obtain ⟨inMembers, -, rfl⟩ := List.mem_map.mp member
    exact Subtree.inCode_member inMembers
  · intro part member
    exact sound.child (List.mem_append_left _ member)

theorem Confined.within (confined : setting.Confined ⟨0, setting.tokens.length⟩ edits) :
    ∀ edit ∈ edits, 0 ≤ edit.start ∧ edit.start < edit.stop ∧
      edit.stop ≤ setting.tokens.length := by
  intro edit member
  have lies := confined.lies edit member
  refine ⟨lies.low, lies.nonempty, ?_⟩
  -- The last token has nothing behind it, so there is no blank to take along.
  rcases lies.high with inside | ⟨-, blank⟩
  · exact inside
  · simp [isBlankAt] at blank

theorem edits_ok {tree : Tree} (sound : (Subtree.unit tree).Sound (lexemesOf setting.tokens))
    (docs : tree.docs = docComments setting.tokens)
    (made : (setting.edits tree).result = .ok edits) :
    edits.Pairwise Edit.Before ∧
      (∀ edit ∈ edits, 0 ≤ edit.start ∧ edit.start < edit.stop ∧
        edit.stop ≤ setting.tokens.length) ∧
      ∃ inCode, setting.Gathers [] (tree.members.map Member.subtree) inCode ∧
        ∀ edit ∈ edits, edit ∈ inCode ∨ ∃ doc ∈ tree.docs, setting.EditsDoc doc edit := by
  simp only [Setting.edits, Traced.bind_ok, Traced.lift_ok, Traced.pure_ok] at made
  obtain ⟨found, visited, inDocs, filled, rfl⟩ := made
  have confined := (membersEdits_confined sound visited).perm (Edit.sort_perm found)
  have within := confined.within
  have before := Edit.sort_before (fun edit member => (within edit
    ((Edit.sort_perm found).mem_iff.mpr member)).2.1) (membersEdits_confined sound visited).apart
  have increasing : tree.docs.Pairwise (· < ·) := docs ▸ indices_increasing _ _
  obtain ⟨ordered, ofDocs⟩ := docEdits_ok increasing filled
  have inside : ∀ edit ∈ Edit.sort found ++ inDocs, 0 ≤ edit.start ∧ edit.start < edit.stop ∧
      edit.stop ≤ setting.tokens.length := by
    intro edit member
    rcases List.mem_append.mp member with code | doc
    · exact within edit code
    · obtain ⟨doc, there, -, edits⟩ := ofDocs edit doc
      rw [docs] at there
      obtain ⟨token, found, -⟩ := (mem_indices _ _ _).mp there
      have bound := (List.getElem?_eq_some_iff.mp found).1
      have start := edits.start
      have stop := edits.stop
      omega
  -- Comments inside edited code are left out, and the others the code edits do not reach.
  have apart : (Edit.sort found ++ inDocs).Pairwise Edit.Apart := by
    refine List.pairwise_append.mpr ⟨confined.apart, ordered.imp .inl, ?_⟩
    intro edit code other doc
    obtain ⟨doc, -, kept, edits⟩ := ofDocs other doc
    have start := edits.start
    have stop := edits.stop
    rcases apart_of_kept before kept edit code with front | behind
    · exact .inl (by simp only [Edit.Before]; omega)
    · exact .inr (by simp only [Edit.Before]; omega)
  refine ⟨Edit.sort_before (fun edit member => (inside edit member).2.1) apart, ?_, found,
    membersEdits_gathers tree.members visited, ?_⟩
  · intro edit member
    exact inside edit ((Edit.sort_perm _).mem_iff.mp member)
  · intro edit member
    rcases List.mem_append.mp ((Edit.sort_perm _).mem_iff.mp member) with code | doc
    · exact .inl ((Edit.sort_perm found).mem_iff.mp code)
    · obtain ⟨doc, there, -, edits⟩ := ofDocs edit doc
      exact .inr ⟨doc, there, edits⟩

end Setting

namespace Template

variable {source : List Char} {filename : String} {template : Template} {binding : Binding}
  {edits : List Edit}

theorem read_ok (read : Template.read source filename = .ok template) :
    template.source = source ∧ parse source = .ok (template.tokens, template.tree) := by
  simp only [Template.read, bind_eq_ok, pure_eq_ok] at read
  obtain ⟨⟨tokens, tree⟩, parsed, rfl⟩ := read
  exact ⟨rfl, parsed⟩

theorem edits_setting (made : (template.edits binding).result = .ok edits) :
    (Setting.edits ⟨template.tokens, binding⟩ template.tree).result = .ok edits := by
  simp only [Template.edits, Traced.bind_ok] at made
  obtain ⟨-, -, made⟩ := made
  exact made

theorem specialize_eq (made : (template.edits binding).result = .ok edits)
    (before : edits.Pairwise Edit.Before)
    (within : ∀ edit ∈ edits, 0 ≤ edit.start ∧ edit.start < edit.stop ∧
      edit.stop ≤ template.tokens.length) :
    Edit.validate 0 template.tokens.length edits = .ok () ∧
      template.specialize binding = ⟨(template.edits binding).notices,
        .ok (Edit.positionwise (template.tokens.map fun token => token.text) edits 0
          template.tokens.length)⟩ := by
  have checked : Edit.validate 0 template.tokens.length edits = .ok () ∧
      Edit.render (template.tokens.map fun token => token.text) edits 0 template.tokens.length =
        .ok _ := Edit.render_positionwise (Nat.zero_le _) within before
  refine ⟨checked.1, ?_⟩
  rw [specialize, Traced.bind_eq made, checked.2]
  simp [Traced.lift]

/-- The edits of a template are sorted, cover some of its tokens each and none in common, so that
rendering accepts them: whatever the template and the binding, if there are edits, there is a text. -/
theorem edits_in_order (read : Template.read source filename = .ok template)
    (made : (template.edits binding).result = .ok edits) :
    edits.Pairwise (fun a b => Edit.le a b = true) ∧
      (∀ edit ∈ edits, 0 ≤ edit.start ∧ edit.start < edit.stop ∧
        edit.stop ≤ template.tokens.length) ∧
      edits.Pairwise (fun a b => a.stop ≤ b.start) ∧
      Edit.validate 0 template.tokens.length edits = .ok () ∧
      ∃ text, template.specialize binding = ⟨(template.edits binding).notices, .ok text⟩ := by
  obtain ⟨-, parsed⟩ := read_ok read
  have sound := parse_sound parsed
  have docs := parseTokens_docs (parse_ok parsed).2
  obtain ⟨before, within, -⟩ := Setting.edits_ok sound docs (edits_setting made)
  obtain ⟨accepted, rendered⟩ := specialize_eq made before within
  refine ⟨?_, within, before, accepted, _, rendered⟩
  exact before.imp_of_mem fun first _ order => Edit.le_of_before (within _ first).2.1 order

theorem edits_in_order_primitive :
    ∃ template edits,
      Template.read "/** KTypes */ class KTypeA<KType> { KType x; }".toList "A.java" = .ok template ∧
        (template.edits ⟨.int, none⟩).result = .ok edits ∧ edits.length = 4 ∧
        edits.Pairwise (fun a b => a.stop ≤ b.start) ∧
        Edit.validate 0 template.tokens.length edits = .ok () := by
  obtain ⟨template, read, passes⟩ := ok_of_any
    (show (Template.read "/** KTypes */ class KTypeA<KType> { KType x; }".toList "A.java").toOption.any
      (fun template => (template.edits ⟨.int, none⟩).result.toOption.any
        fun edits => edits.length == 4) = true by decide +kernel)
  obtain ⟨edits, made, count⟩ := ok_of_any passes
  obtain ⟨-, -, before, accepted, -⟩ := edits_in_order read made
  exact ⟨template, edits, read, made, eq_of_beq count, before, accepted⟩

end Template

end Specializer
