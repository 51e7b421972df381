import Specializer.Proofs.Capture
import Specializer.Proofs.Writing

set_option autoImplicit false

namespace Specializer

open Lexer

namespace Subtree

variable {part : Subtree} {declared : TypeParam}

theorem no_param_below (type : part.kind ∈ [.typeRef, .typeArgs, .wildcard]) :
    ¬ part.Below (.param declared) := by
  intro below
  induction below using Relation.ReflTransGen.head_induction_on with
  | refl => simp [kind] at type
  | @head part child step _ ih =>
    refine ih ?_
    cases part <;> simp only [kind, List.mem_cons, List.not_mem_nil, reduceCtorEq, or_self] at type
    case ref r =>
      obtain ⟨list, -, rfl⟩ := List.mem_map.mp step
      simp [kind]
    case args list =>
      obtain ⟨arg, -, rfl⟩ := List.mem_map.mp step
      cases arg <;> simp [TypeArg.subtree, kind]
    case wildcard range bound =>
      obtain ⟨r, -, rfl⟩ := List.mem_map.mp step
      simp [kind]

theorem param_of_list (list : part.kind = .typeParams ∨ part.kind = .typeArgs)
    (below : part.Below (.param declared)) : .param declared ∈ part.children := by
  rcases list with params | args
  · rcases below_cases below with rfl | ⟨child, member, rest⟩
    · cases params
    · cases part <;> simp only [kind, reduceCtorEq] at params
      have step := member
      obtain ⟨other, -, rfl⟩ := List.mem_map.mp member
      rcases below_cases rest with same | ⟨bound, inBounds, deeper⟩
      · exact same ▸ step
      · obtain ⟨r, -, rfl⟩ := List.mem_map.mp inBounds
        exact absurd deeper (no_param_below (by simp [kind]))
  · exact absurd below (no_param_below (by simp [args]))

end Subtree

namespace Setting

variable {setting : Setting} {tree : Tree} {last : Lexeme} {place : Nat} {part : Subtree}

theorem Reaches.across (below : (Subtree.unit tree).Below part)
    (list : part.kind = .typeParams ∨ part.kind = .typeArgs)
    (reaches : setting.Reaches tree last part.range.start) :
    setting.Reaches tree last part.range.stop := by
  rcases reaches with closed | ⟨index, token, found, bridged, ends⟩
  · exact .inl closed
  · exact .inr ⟨index, token, found, .list bridged below list, ends⟩

section Edits

variable (sound : (Subtree.unit tree).Sound (lexemesOf setting.tokens))
  (whole : ∀ token ∈ setting.tokens, Whole token.toLexeme) (spaced : Spaced setting.tokens tree)

include whole spaced

theorem before_solid {index : Nat} (solid : Solid (lexemesOf setting.tokens) (index + 1))
    {token : Token} (found : setting.tokens[index]? = some token) : token.kind ≠ .lineComment := by
  intro line
  obtain ⟨lexeme, there, meaning⟩ := solid
  obtain ⟨next, follows, rfl⟩ := lexemesOf_some there
  have ofNext := whole next (List.mem_of_getElem? follows)
  obtain ⟨c, tail, text⟩ := List.exists_cons_of_ne_nil ofNext.ne_nil
  have head : next.text.head? = some c := by rw [text]; rfl
  have stops := spaced index (index + 1) token next .here found follows c head
  -- Only the end of the line ends the comment.
  obtain rfl : c = '\n' := by simpa [Lexeme.stopsAt, line] using stops
  rw [ofNext.newline head] at meaning
  cases meaning

include sound

theorem replace_writes (below : (Subtree.unit tree).Below part) {name : Name}
    (own : name ∈ part.names) (other : ¬ setting.Retains part) {text : List Char}
    (spelled : Respelled name.text text) : setting.WritesEdit tree (replace name text) := by
  obtain ⟨token, there, same⟩ := lexemesOf_some ((sound.at_below below).here.stands name own)
  have word : IsWord name.text := by
    have old := whole token (List.mem_of_getElem? there)
    rw [same] at old
    exact old.word
  have new := word.respelled spelled
  refine ⟨name.index, name.index + 1, [⟨.ident, text⟩], rfl, rfl, ?_⟩
  refine Writes.single there spaced new.whole ?_ ?_ ?_ ?_
  · intro last beside
    rw [same] at beside
    exact beside_word beside word new
  · intro next beside
    rw [same] at beside
    exact beside
  · intro _ has
    rw [spelled.plain] at has
    cases has
  -- A type parameter that stays keeps its name, so the name is of another node.
  · intro declared below' retains equal
    have one : part = .param declared := Subtree.name_unique_unit sound below below' own
      (List.mem_singleton_self _) equal.symm
    exact absurd (one ▸ retains) other

theorem doc_writes (docs : tree.docs = docComments setting.tokens) {doc : Nat}
    (listed : doc ∈ tree.docs) {edit : Edit} (edits : setting.EditsDoc doc edit) :
    setting.WritesEdit tree edit := by
  rw [docs] at listed
  obtain ⟨token, there, kind⟩ := (mem_indices _ _ _).mp listed
  have lexeme : token.toLexeme = ⟨.docComment, token.text⟩ := by rw [← eq_of_beq kind]
  have old : Whole ⟨.docComment, token.text⟩ := lexeme ▸ whole token (List.mem_of_getElem? there)
  obtain ⟨values, filled⟩ := edits.filled
  have text : setting.docText doc = token.text := by simp [docText, there]
  rw [text] at filled
  -- The comment is still one, and still begins with a slash.
  obtain ⟨new, head⟩ := (DocText.fill_reworded filled).whole old
  have head' := ((Reworded.refl token.text).whole old).2
  refine ⟨doc, doc + 1, [⟨.docComment, edit.text⟩], edits.start, edits.stop, ?_⟩
  refine Writes.single there spaced new ?_ ?_ ?_ ?_
  · intro last beside c first
    rw [lexeme] at beside
    exact beside c (head'.trans (head.symm.trans first))
  · intro next _ c _
    rfl
  · intro ident
    cases ident
  · intro declared below _ same
    subst same
    have ident := name_token sound below there
    rw [lexeme] at ident
    cases ident

theorem Reaches.mark {kind : Kind} {c : Char} (reaches : setting.Reaches tree last place)
    (behind : ∀ index token, index + 1 = place → setting.tokens[index]? = some token →
      token.kind ≠ .lineComment) (mark : c ∈ ['<', '>', ',']) : Beside last ⟨kind, [c]⟩ := by
  rcases reaches with closed | ⟨index, token, found, bridged, ends⟩
  · exact closed _
  · refine ends _ (beside_mark ?_ mark)
    rcases bridged.first with same | ⟨lower, below, list, start⟩
    · exact behind index token same found
    · have solid := ((Subtree.inCode_of_list list).bounded (sound.at_below below).here.bounded).2.1
      exact before_solid whole spaced (start ▸ solid) found

end Edits

section Lists

theorem mark_row {kind : Kind} {c : Char} (read : classify c ([] ++ []) = some (kind, 0))
    (other : kind ≠ .ident) (closed : Lexeme.Closed ⟨kind, [c]⟩) :
    setting.Row tree (Beside · ⟨kind, [c]⟩) Lexeme.Closed (fun _ => False) [c] [⟨kind, [c]⟩] :=
  { Laid.mark read closed with
    keeps := by simp [other]
    names := fun _ _ _ inside => inside.elim }

theorem separator_row : setting.Row tree (Beside · ⟨.comma, [',']⟩) Lexeme.Closed (fun _ => False)
    [',', ' '] [⟨.comma, [',']⟩, ⟨.blank, [' ']⟩] :=
  { Laid.separator with
    keeps := by simp
    names := fun _ _ _ inside => inside.elim }

def WritesEntry (setting : Setting) (tree : Tree) (entry : Kept) : Prop :=
  ∃ lexemes, setting.Row tree Lexeme.Closed
    (fun last => Beside last ⟨.comma, [',']⟩ ∧ Beside last ⟨.gt, ['>']⟩)
    (fun index => entry.part.range.start ≤ index ∧ index < entry.part.range.stop) entry.text lexemes

theorem entries_row {kept : List Kept} (some : kept ≠ [])
    (each : ∀ entry ∈ kept, setting.WritesEntry tree entry) :
    ∃ lexemes, setting.Row tree Lexeme.Closed (Beside · ⟨.gt, ['>']⟩)
      (fun index => ∃ entry ∈ kept, entry.part.range.start ≤ index ∧ index < entry.part.range.stop)
      (List.intercalate [',', ' '] (kept.map Kept.text)) lexemes := by
  induction kept with
  | nil => exact absurd rfl some
  | cons entry rest ih =>
    obtain ⟨lexemes, first⟩ := each entry List.mem_cons_self
    cases rest with
    | nil =>
      have alone := first.widen fun _ both => both.2
      exact ⟨lexemes, by simpa using alone⟩
    | cons next rest =>
      obtain ⟨others, later⟩ := ih (List.cons_ne_nil _ _) fun entry member =>
        each entry (List.mem_cons_of_mem _ member)
      -- The entry, a comma and a blank, behind which the next entry may begin with any token.
      have front := (first.widen fun _ both => both.1).append separator_row
      rw [List.map_cons, List.map_cons, List.intercalate_cons_cons]
      refine ⟨_, (front.append later).covers fun _ _ _ inside => ?_⟩
      obtain ⟨other, member, around⟩ := inside
      rcases List.mem_cons.mp member with rfl | behind
      · exact .inl (.inl around)
      · exact .inr ⟨other, behind, around⟩

variable (sound : (Subtree.unit tree).Sound (lexemesOf setting.tokens))
  (below : (Subtree.unit tree).Below part) (list : part.kind = .typeParams ∨ part.kind = .typeArgs)

include sound below list

theorem param_inside {declared : TypeParam} (declares : (Subtree.unit tree).Below (.param declared))
    (inside : part.range.start ≤ declared.name.index ∧ declared.name.index < part.range.stop) :
    .param declared ∈ part.children := by
  refine Subtree.param_of_list list ?_
  exact Subtree.below_of_name_unit sound below (Subtree.inCode_of_list list) declares
    (List.mem_singleton_self _) inside

theorem gone_writes (none : ∀ child ∈ part.children, ¬ setting.Retains child) :
    setting.Writes tree part.range.start part.range.stop [] [] := by
  refine Row.nothing (fun last reaches => reaches.across below list) ?_
  intro declared declares retains inside
  exact none _ (param_inside sound below list declares inside) retains

-- The blanks behind a list go along with it only if there are others in front of it.
theorem swallowed_writes (none : ∀ child ∈ part.children, ¬ setting.Retains child)
    (front : setting.isBlankAt (part.range.start - 1) = true)
    (back : setting.isBlankAt part.range.stop = true) :
    setting.Writes tree part.range.start (part.range.stop + 1) [] [] := by
  refine Row.nothing ?_ ?_
  · intro last reaches
    left
    rcases reaches with closed | ⟨index, token, found, bridged, ends⟩
    · exact closed
    -- The token in front is the blank itself, for no list ends with a blank.
    · rcases bridged.last with same | ⟨other, inTree, isList, stop⟩
      · rw [← same, Nat.add_sub_cancel, isBlankAt, found] at front
        have blank : token.kind = .blank := by simpa using front
        refine fun next => ends next fun c _ => ?_
        simp [Lexeme.stopsAt, blank]
      · have solid := ((Subtree.inCode_of_list isList).bounded (sound.at_below inTree).here.bounded).2.2
        rw [← stop, notBlank_of_solid solid] at front
        cases front
  · intro declared declares retains inside
    rcases Nat.lt_or_ge declared.name.index part.range.stop with before | behind
    · exact none _ (param_inside sound below list declares ⟨inside.1, before⟩) retains
    · have same : declared.name.index = part.range.stop := by omega
      have stands := (sound.at_below declares).here.stands declared.name (List.mem_singleton_self _)
      rw [← same, notBlank_of_solid ⟨_, stands, rfl⟩] at back
      cases back

variable (whole : ∀ token ∈ setting.tokens, Whole token.toLexeme) (spaced : Spaced setting.tokens tree)

include whole spaced

theorem rebuilt_writes {kept : List Kept} (some : kept ≠ [])
    (each : ∀ entry ∈ kept, setting.WritesEntry tree entry)
    (others : ∀ child ∈ part.children, setting.Retains child → child ∈ kept.map Kept.part) :
    ∃ lexemes, setting.Writes tree part.range.start part.range.stop
      ('<' :: List.intercalate [',', ' '] (kept.map Kept.text) ++ ['>']) lexemes := by
  obtain ⟨lexemes, inner⟩ := entries_row some each
  have opens : setting.Row tree (Beside · ⟨.lt, ['<']⟩) _ _ _ _ :=
    mark_row (by decide) (by decide) fun _ _ _ => rfl
  have closes : setting.Row tree (Beside · ⟨.gt, ['>']⟩) _ _ _ _ :=
    mark_row (by decide) (by decide) fun _ _ _ => rfl
  have row := (opens.append inner).append closes
  refine ⟨_, ((row.widen fun _ => .inl).narrow ?_).covers ?_⟩
  · intro last reaches
    refine Reaches.mark sound whole spaced reaches (fun index token same found => ?_) (by simp)
    have solid := ((Subtree.inCode_of_list list).bounded (sound.at_below below).here.bounded).2.1
    exact before_solid whole spaced (same ▸ solid) found
  -- A type parameter that stays is an entry of the list, and it is kept.
  · intro declared declares retains inside
    have kept := others _ (param_inside sound below list declares inside) retains
    obtain ⟨entry, member, same⟩ := List.mem_map.mp kept
    refine .inl (.inr ⟨entry, member, ?_⟩)
    rw [same]
    exact Subtree.name_around sound declares (List.mem_singleton_self _)

theorem reduce_writes {kept : List Kept} (each : ∀ entry ∈ kept, setting.WritesEntry tree entry)
    (others : ∀ child ∈ part.children, setting.Retains child → child ∈ kept.map Kept.part) :
    setting.WritesEdit tree (setting.reduce part.range (kept.map Kept.text)) := by
  by_cases empty : kept = []
  · subst empty
    have none : ∀ child ∈ part.children, ¬ setting.Retains child :=
      fun child member retains => nomatch others child member retains
    simp only [reduce, List.map_nil, List.isEmpty_nil, if_true]
    split
    next blanks =>
      simp only [Bool.and_eq_true] at blanks
      exact ⟨_, _, _, rfl, rfl, swallowed_writes sound below list none blanks.1.2 blanks.2⟩
    next => exact ⟨_, _, _, rfl, rfl, gone_writes sound below list none⟩
  · have some : (kept.map Kept.text).isEmpty = false := by simpa using empty
    obtain ⟨lexemes, row⟩ := rebuilt_writes sound below list whole spaced empty each others
    rw [reduce, some]
    exact ⟨_, _, lexemes, rfl, rfl, row⟩

end Lists

end Setting

/-- The tree has every identifier with a placeholder as a name. -/
def Captured (tokens : List Token) (tree : Tree) : Prop :=
  ∀ (index : Nat) (token : Token), tokens[index]? = some token → token.kind = .ident →
    hasPlaceholder token.text = true → ⟨index, token.text⟩ ∈ tree.recorded

def Binding.AllPrimitive (binding : Binding) : Prop :=
  ∀ slot value, binding.get? slot = some value → value.isPrimitive = true

namespace Setting

variable {setting : Setting} {tree : Tree} {part : Subtree} {edits : List Edit}

section Entries

variable (sound : (Subtree.unit tree).Sound (lexemesOf setting.tokens))

include sound

theorem treats_sorted (below : (Subtree.unit tree).Below part) (inCode : part.InCode)
    (treats : setting.Treats part edits) :
    part.range.start ≤ part.range.stop ∧ part.range.stop ≤ setting.tokens.length ∧
      (Edit.sort edits).Pairwise Edit.Before := by
  have placed := sound.at_below below
  obtain ⟨nonempty, -, solid⟩ := inCode.bounded placed.here.bounded
  have confined := yields_confined treats.yields inCode placed
  refine ⟨Nat.le_of_lt nonempty, ?_, ?_⟩
  · have bound := solid.lt
    simp only [lexemesOf, List.length_map] at bound
    omega
  · exact Edit.sort_before (fun edit member => (confined.lies edit member).nonempty) confined.apart

theorem Reaches.behind {last : Lexeme} (whole : ∀ token ∈ setting.tokens, Whole token.toLexeme)
    (spaced : Spaced setting.tokens tree) (below : (Subtree.unit tree).Below part)
    (inCode : part.InCode) (reaches : setting.Reaches tree last part.range.stop) :
    Beside last ⟨.comma, [',']⟩ ∧ Beside last ⟨.gt, ['>']⟩ := by
  -- A part ends with a token that carries meaning, hence with no comment.
  have behind : ∀ index token, index + 1 = part.range.stop →
      setting.tokens[index]? = some token → token.kind ≠ .lineComment := by
    intro index token same found line
    obtain ⟨lexeme, there, meaning⟩ := (inCode.bounded (sound.at_below below).here.bounded).2.2
    obtain ⟨other, at_, rfl⟩ := lexemesOf_some there
    rw [← same, Nat.add_sub_cancel, found] at at_
    cases at_
    rw [line] at meaning
    cases meaning
  constructor
  · exact Reaches.mark sound whole spaced reaches behind (by simp)
  · exact Reaches.mark sound whole spaced reaches behind (by simp)

end Entries

section Treatment

variable (sound : (Subtree.unit tree).Sound (lexemesOf setting.tokens))
  (captured : Captured setting.tokens tree) (primitive : setting.binding.AllPrimitive)

include sound captured primitive

-- An identifier with a placeholder that no edit covers is the name of a type parameter.
theorem uncovered_keeps {index : Nat} {token : Token} (there : setting.tokens[index]? = some token)
    (ident : token.kind = .ident) (has : hasPlaceholder token.text = true)
    (stays : ∀ lower, (Subtree.unit tree).Below lower → ∀ name ∈ lower.names, name.index = index →
      hasPlaceholder name.text = true → lower.keyword? ≠ some name → setting.Retains lower) :
    setting.Keeps tree token.text := by
  obtain ⟨lower, below, own⟩ := Subtree.of_mem_recorded sound (captured index token there ident has)
  have retains := stays lower below _ (Subtree.own_names own) rfl has
    (Subtree.own_keyword (sound.at_below below).here.arranged own)
  cases lower with
  | param declared =>
    have name := List.mem_singleton.mp own
    exact ⟨declared, below, retains, by rw [← name]⟩
  | ref r =>
    obtain ⟨slot, -, generic⟩ := retains
    cases primitive slot .generic generic
  | _ => exact retains.elim

variable (whole : ∀ token ∈ setting.tokens, Whole token.toLexeme) (spaced : Spaced setting.tokens tree)

include whole spaced

theorem entry_renders {entry : Kept} (below : (Subtree.unit tree).Below entry.part)
    (inCode : entry.part.InCode) (treats : setting.Treats entry.part entry.edits)
    (rendered : (setting.render entry.part.range entry.edits).result = .ok entry.text)
    (writes : ∀ edit ∈ entry.edits, setting.WritesEdit tree edit) :
    ∃ lexemes, setting.Writes tree entry.part.range.start entry.part.range.stop entry.text
      lexemes := by
  obtain ⟨order, end_, before⟩ := treats_sorted sound below inCode treats
  have sorted : ∀ edit, edit ∈ Edit.sort entry.edits ↔ edit ∈ entry.edits :=
    fun edit => (Edit.sort_perm _).mem_iff
  obtain ⟨inside, text⟩ := Edit.render_ok rendered
  rw [text]
  refine render_writes sound whole spaced order end_ before inside
    (fun edit member => writes edit ((sorted edit).mp member)) ?_
  intro index token low high free there ident has
  refine uncovered_keeps sound captured primitive there ident has ?_
  rintro lower inTree name own rfl hasPlaceholder other
  by_contra changes
  -- The name is in the entry, whose edits would have covered it.
  have inEntry := Subtree.below_of_name_unit sound below inCode inTree own ⟨low, high⟩
  obtain ⟨edit, member, start, stop⟩ :=
    treats_covers treats inCode (sound.at_below below) inEntry own hasPlaceholder changes other
  have uncovered := List.any_eq_false.mp free edit ((sorted edit).mpr member)
  simp [start, stop] at uncovered

theorem entry_writes {entry : Kept} (below : (Subtree.unit tree).Below entry.part)
    (inCode : entry.part.InCode) (treats : setting.Treats entry.part entry.edits)
    (rendered : (setting.render entry.part.range entry.edits).result = .ok entry.text)
    (writes : ∀ edit ∈ entry.edits, setting.WritesEdit tree edit) :
    setting.WritesEntry tree entry := by
  obtain ⟨lexemes, row⟩ :=
    entry_renders sound captured primitive whole spaced below inCode treats rendered writes
  have front := Row.narrow row fun last (closed : last.Closed) => .inl closed
  exact ⟨lexemes, front.widen fun last reaches => reaches.behind sound whole spaced below inCode⟩

theorem edits_write (docs : tree.docs = docComments setting.tokens)
    (made : (setting.edits tree).result = .ok edits) :
    ∀ edit ∈ edits, setting.WritesEdit tree edit := by
  refine edits_sustain docs made ⟨?_, ?_, ?_, ?_⟩
  · intro part below name own other text spelled
    exact replace_writes sound whole spaced below own other spelled
  -- The entries are written first, each with its own edits, and then put between brackets.
  · intro part below list kept each others
    refine reduce_writes sound below list whole spaced (fun entry among => ?_) others
    obtain ⟨child, treats, rendered, writes⟩ := each entry among
    exact entry_writes sound captured primitive whole spaced (below.tail child)
      ((Subtree.inCode_of_list list).children child) treats rendered writes
  · intro part below list empty
    refine ⟨_, _, _, rfl, rfl, gone_writes sound below (.inr list) ?_⟩
    simp [empty]
  · intro doc listed edit changes
    exact doc_writes sound whole spaced docs listed changes

theorem whole_writes (docs : tree.docs = docComments setting.tokens)
    (made : (setting.edits tree).result = .ok edits) :
    ∃ lexemes, setting.Writes tree 0 setting.tokens.length
      (Edit.renderFrom setting.texts 0 setting.tokens.length edits) lexemes := by
  obtain ⟨before, within, -⟩ := edits_ok sound docs made
  refine render_writes sound whole spaced (Nat.zero_le _) (Nat.le_refl _) before ?_
    (edits_write sound captured primitive whole spaced docs made) ?_
  · intro edit member
    obtain ⟨start, order, stop⟩ := within edit member
    exact ⟨start, Int.le_of_lt order, stop⟩
  · intro index token _ _ free there ident has
    refine uncovered_keeps sound captured primitive there ident has ?_
    rintro lower below name own rfl hasPlaceholder other
    by_contra changes
    rw [edits_cover sound made below own hasPlaceholder changes other] at free
    cases free

end Treatment

end Setting

namespace Template

variable {source : List Char} {filename : String} {template : Template} {binding : Binding}

theorem slot_bound {token : Token} {slot : Slot} (member : token ∈ template.tokens)
    (ident : token.kind = .ident) (named : Slot.ofText? token.text = some slot)
    (checked : binding.check template.slotCount = .ok ()) : (binding.get? slot).isSome = true := by
  cases slot with
  | key => rfl
  | value =>
    have uses : template.tokens.any (fun token =>
        (token.kind == .ident || token.kind == .docComment) &&
          (segments token.text).contains .value) = true := by
      refine List.any_eq_true.mpr ⟨token, member, ?_⟩
      rw [Slot.ofText?_some named, ident]
      decide
    have two : template.slotCount = 2 := if_pos uses
    rw [two] at checked
    cases bound : binding.value with
    | none => simp [Binding.check, bound] at checked
    | some value => simp [Binding.get?, bound]

theorem retains_iff (sound : (Subtree.unit template.tree).Sound (lexemesOf template.tokens))
    (primitive : binding.AllPrimitive) (checked : binding.check template.slotCount = .ok ())
    {declared : TypeParam} (below : (Subtree.unit template.tree).Below (.param declared)) :
    Setting.Retains ⟨template.tokens, binding⟩ (.param declared) ↔
      Slot.ofText? declared.name.text = none := by
  constructor
  · intro retains
    by_contra named
    obtain ⟨slot, named⟩ := Option.ne_none_iff_exists'.mp named
    obtain ⟨token, there, same⟩ := lexemesOf_some
      ((sound.at_below below).here.stands declared.name (List.mem_singleton_self _))
    have spelled : token.text = declared.name.text := congrArg Lexeme.text same
    obtain ⟨value, bound⟩ := Option.isSome_iff_exists.mp (slot_bound (List.mem_of_getElem? there)
      (congrArg Lexeme.kind same) (spelled ▸ named) checked)
    have generic : value.isGeneric = true := retains slot value named bound
    have other := primitive slot value bound
    simp [SlotType.isPrimitive, generic] at other
  · intro none slot value named
    rw [none] at named
    cases named

/-- Where no slot is generic, the text of a specialization can be read again, and the identifiers with
placeholders in it are the names of the type parameters that have a placeholder but are none. This is
so if the tree has all identifiers with placeholders as names, and no two tokens run together where a
list between them goes. -/
theorem specialize_remnants (read : Template.read source filename = .ok template)
    (primitive : binding.AllPrimitive) (captured : Captured template.tokens template.tree)
    (spaced : Spaced template.tokens template.tree) {text : List Char}
    (made : (template.specialize binding).result = .ok text) :
    ∃ out, tokenize text = .ok out ∧ ∀ word, hasPlaceholder word = true →
      ((∃ token ∈ out, token.toLexeme = ⟨.ident, word⟩) ↔
        ∃ declared, (Subtree.unit template.tree).Below (.param declared) ∧
          declared.name.text = word ∧ Slot.ofText? word = none) := by
  obtain ⟨-, parsed⟩ := read_ok read
  have sound := parse_sound parsed
  have docs := parseTokens_docs (parse_ok parsed).2
  have whole : ∀ token ∈ template.tokens, Whole token.toLexeme :=
    fun token member => tokenize_whole (parse_ok parsed).1 member
  simp only [specialize, edits, Traced.bind_ok, Traced.lift_ok] at made
  obtain ⟨edits, ⟨_, checked, edited⟩, rendered⟩ := made
  obtain ⟨-, rfl⟩ := Edit.render_ok rendered
  obtain ⟨lexemes, row⟩ :=
    Setting.whole_writes sound captured primitive whole spaced docs edited
  -- A blank stands for the beginning, since nothing runs into what is behind it.
  have chain := row.joins ⟨.blank, [' ']⟩ [] (.inl fun _ _ _ => rfl) fun last _ =>
    List.isChain_singleton last
  rw [List.append_nil] at chain
  obtain ⟨again, lexes, same⟩ := lexes_of_chain row.whole chain.tail
  obtain ⟨out, lexed, spelled⟩ := (row.text ▸ lexes).tokenize
  refine ⟨out, lexed, fun word has => ?_⟩
  have present : (∃ token ∈ out, token.toLexeme = ⟨.ident, word⟩) ↔ ⟨.ident, word⟩ ∈ lexemes := by
    have solid : ∀ items : List Lexeme, ⟨.ident, word⟩ ∈ items.filter solid ↔ ⟨.ident, word⟩ ∈ items :=
      fun items => by simp [Lexer.solid]
    rw [← solid, ← same, solid, ← spelled, lexemesOf, List.mem_map]
  rw [present]
  constructor
  · intro member
    obtain ⟨declared, below, retains, rfl⟩ := row.keeps _ member rfl has
    exact ⟨declared, below, rfl, (retains_iff sound primitive checked below).mp retains⟩
  · rintro ⟨declared, below, rfl, other⟩
    obtain ⟨token, there, -⟩ := lexemesOf_some
      ((sound.at_below below).here.stands declared.name (List.mem_singleton_self _))
    exact row.names declared below ((retains_iff sound primitive checked below).mpr other)
      ⟨Nat.zero_le _, (List.getElem?_eq_some_iff.mp there).1⟩

theorem specialize_remnants_declared :
    ∃ template text out,
      Template.read "class A<KTypeT> { KTypeT x; }".toList "A.java" = .ok template ∧
        (template.specialize ⟨.int, none⟩).result = .ok text ∧
        text = "class A<KTypeT> { IntT x; }".toList ∧ tokenize text = .ok out ∧
        (∃ token ∈ out, token.toLexeme = ⟨.ident, "KTypeT".toList⟩) ∧
        ∃ declared, (Subtree.unit template.tree).Below (.param declared) ∧
          declared.name.text = "KTypeT".toList := by
  obtain ⟨template, read, passes⟩ := ok_of_any
    (show (Template.read "class A<KTypeT> { KTypeT x; }".toList "A.java").toOption.any
      (fun template => decide (Grammar.Exposed (significantLexemes template.tokens)) &&
        keepsApart template.tokens template.tree &&
        (template.specialize ⟨.int, none⟩).result.toOption.any fun text =>
          text == "class A<KTypeT> { IntT x; }".toList && (tokenize text).toOption.any fun out =>
            out.any fun token => token.toLexeme == ⟨.ident, "KTypeT".toList⟩) = true by decide +kernel)
  simp only [Bool.and_eq_true, decide_eq_true_eq] at passes
  obtain ⟨⟨exposed, apart⟩, specializes⟩ := passes
  obtain ⟨text, made, spells⟩ := ok_of_any specializes
  simp only [Bool.and_eq_true, beq_iff_eq] at spells
  obtain ⟨out, lexed, has⟩ := ok_of_any spells.2
  obtain ⟨token, member, same⟩ := List.any_eq_true.mp has
  have primitive : Binding.AllPrimitive ⟨.int, none⟩ := by
    rintro (_ | _) value bound
    · cases bound
      rfl
    · cases bound
  have captured : Captured template.tokens template.tree := fun index token found ident has =>
    parseTokens_recorded (parse_ok (read_ok read).2).2 exposed found ident has
  obtain ⟨out', lexed', remnants⟩ :=
    specialize_remnants read primitive captured (spaced_of_keepsApart apart) made
  rw [lexed] at lexed'
  cases lexed'
  have left : ∃ token ∈ out, token.toLexeme = ⟨.ident, "KTypeT".toList⟩ :=
    ⟨token, member, eq_of_beq same⟩
  obtain ⟨declared, below, name, -⟩ := (remnants "KTypeT".toList (by decide)).mp left
  exact ⟨template, text, out, read, made, spells.1, lexed, left, declared, below, name⟩

end Template

end Specializer
