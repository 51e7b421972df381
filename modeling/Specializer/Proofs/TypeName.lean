import Specializer.Proofs.Origin
import Specializer.Proofs.Positions

set_option autoImplicit false

namespace Specializer

namespace Setting

variable {setting : Setting} {tree : Tree} {edits : List Edit}

theorem typeDecl_renames {scope : Scope Slot} {range : Range} {keyword name : Name}
    {params : Option TypeParams} {supertypes : List TypeRef} {members : List Member}
    (made : (setting.memberEdits scope
      (.typeDecl range keyword name params supertypes members)).result = .ok edits) :
    ∃ values renamed, (scope.inside params).values setting.binding = .ok values ∧
      (setting.rename (scope.inside params) name values).result = .ok renamed ∧
      ∀ edit ∈ renamed, edit ∈ edits := by
  rw [memberEdits] at made
  simp only [Traced.bind_ok, Traced.pure_ok] at made
  obtain ⟨values, bound, ofName, renamed, _, -, _, -, _, -, rfl⟩ := made
  exact ⟨values, ofName, bound, renamed, fun edit there => by simp [there]⟩

-- No edit reaches a name outside of all lists that has no placeholder.
theorem edits_spare (sound : (Subtree.unit tree).Sound (lexemesOf setting.tokens))
    (docs : tree.docs = docComments setting.tokens) (made : (setting.edits tree).result = .ok edits)
    {part : Subtree} (below : (Subtree.unit tree).Below part) (outside : part.isType = false)
    {name : Name} (own : name ∈ part.names) (plain : hasPlaceholder name.text = false) :
    Edit.covered edits name.index = false := by
  have stands : name.Stands (lexemesOf setting.tokens) := (sound.at_below below).here.stands name own
  obtain ⟨token, there, same⟩ := lexemesOf_some stands
  refine List.any_eq_false.mpr fun edit member covers => ?_
  simp only [Bool.and_eq_true, decide_eq_true_eq] at covers
  rcases edits_origin sound docs made member with
    ⟨lower, deeper, ⟨other, inLower, text, rfl, has⟩ | ⟨list, rebuilds⟩⟩ | ⟨doc, listed, changes⟩
  -- Another name at the same place has the same spelling.
  · have index : other.index = name.index := by simp only [replace] at covers; omega
    have stands' : other.Stands (lexemesOf setting.tokens) :=
      (sound.at_below deeper).here.stands other inLower
    rw [Name.Stands, index, stands] at stands'
    have spelled : name.text = other.text := congrArg Lexeme.text (Option.some.inj stands')
    rw [← spelled, plain] at has
    cases has
  -- A list that holds the name holds the node, and one that takes a blank along takes no name.
  · have start := rebuilds.start
    have inside : name.index < lower.range.stop := by
      rcases rebuilds.stop with stop | ⟨stop, -, -, -, blank⟩
      · omega
      · have other : name.index ≠ lower.range.stop := by
          intro equal
          rw [← equal, notBlank_of_solid ⟨_, stands, rfl⟩] at blank
          cases blank
        omega
    have type : lower.isType = true := by
      rcases list with list | list <;> simp [Subtree.isType, list]
    have holds := Subtree.below_of_name_unit sound deeper (Subtree.inCode_of_list list) below own
      ⟨by omega, inside⟩
    rw [Subtree.isType_below type holds] at outside
    cases outside
  · have start := changes.start
    have stop := changes.stop
    have index : doc = name.index := by omega
    rw [docs] at listed
    obtain ⟨comment, found, kind⟩ := (mem_indices _ _ _).mp listed
    rw [index, there] at found
    cases found
    have ident : token.kind = .ident := congrArg Lexeme.kind same
    simp [ident] at kind

end Setting

namespace Template

variable {source : List Char} {filename : String} {template : Template} {binding : Binding}

theorem primaryType_declared {type : TopType} (primary : template.primaryType = some type) :
    ∃ range keyword supertypes members,
      Member.typeDecl range keyword type.name type.params supertypes members ∈ template.tree.members := by
  have listed : type ∈ template.topTypes := by
    unfold primaryType at primary
    rcases Option.or_eq_some_iff.mp primary with found | ⟨-, first⟩
    · exact List.mem_of_find?_eq_some found
    · exact List.mem_of_head? first
  obtain ⟨member, found, same⟩ := List.mem_filterMap.mp listed
  cases member <;> simp only [Option.some.injEq, reduceCtorEq] at same
  case typeDecl range keyword name params supertypes members =>
    subst same
    exact ⟨range, keyword, supertypes, members, found⟩

-- The walk and the name both take the values of the scope inside the declaration.
theorem typeName_renames {edits : List Edit} {type : TopType}
    (primary : template.primaryType = some type)
    (made : (template.edits binding).result = .ok edits) :
    ∃ name, template.typeName binding none = .ok (some name) ∧
      (hasPlaceholder type.name.text = true → Setting.replace type.name name ∈ edits) ∧
      (hasPlaceholder type.name.text = false → name = type.name.text) := by
  obtain ⟨_, _, _, _, declared⟩ := primaryType_declared primary
  obtain ⟨inCode, inDocs, visited, -, all⟩ := Setting.edits_parts (edits_setting made)
  obtain ⟨inner, ofMember, present⟩ := Setting.membersEdits_each visited declared
  obtain ⟨values, renamed, bound, ofName, kept⟩ := Setting.typeDecl_renames ofMember
  obtain ⟨name, substituted, rfl⟩ := Setting.rename_substitutes ofName
  refine ⟨name, ?_, ?_, ?_⟩
  · have spelled : nameIn ((Scope.outermost binding).inside type.params) binding type.name.text =
        .ok name := by
      rw [nameIn, bound]
      exact congrArg (fun new => Except.ok (new.getD type.name.text)) substituted
    simp only [Template.edits, Traced.bind_ok, Traced.lift_ok] at made
    obtain ⟨_, checked, -⟩ := made
    rw [typeName, checked, primary]
    exact congrArg (some <$> ·) spelled
  · intro has
    refine all.mem_iff.mpr (List.mem_append_left _ (present _ (kept _ ?_)))
    rw [if_pos has]
    exact List.mem_singleton_self _
  · intro plain
    rw [substituteInOrder_plain plain] at substituted
    exact (Option.some.inj substituted).symm

/-- If a template can be specialized, the name worked out for its primary type is what the text has at
the place of this type's declaration: what an edit of this token puts there or, if no edit reaches it,
the token itself. -/
theorem typeName_standing (read : Template.read source filename = .ok template) {type : TopType}
    (primary : template.primaryType = some type) {text : List Char}
    (made : (template.specialize binding).result = .ok text) :
    ∃ edits name, (template.edits binding).result = .ok edits ∧
      template.typeName binding none = .ok (some name) ∧
      text = (List.range template.tokens.length).flatMap (Edit.standing template.texts edits) ∧
      template.texts[type.name.index]? = some type.name.text ∧
      Edit.standing template.texts edits type.name.index = name ∧
      (⟨type.name.index, type.name.index + 1, name⟩ ∈ edits ∨
        Edit.covered edits type.name.index = false ∧ name = type.name.text) := by
  obtain ⟨-, parsed⟩ := read_ok read
  have sound := parse_sound parsed
  have docs := parseTokens_docs (parse_ok parsed).2
  obtain ⟨edits, edited, before, within, whole⟩ := specialize_ok read made
  have nonempty : ∀ edit ∈ edits, edit.start < edit.stop := fun edit there => (within edit there).2.1
  obtain ⟨range, keyword, supertypes, members, declared⟩ := primaryType_declared primary
  have below : (Subtree.unit template.tree).Below
      (.typeDecl range keyword type.name type.params supertypes members) :=
    .single (@Subtree.member_child (.unit _) _ declared)
  have own : type.name ∈ (Subtree.typeDecl range keyword type.name type.params supertypes
      members).names := List.mem_cons_of_mem _ List.mem_cons_self
  have spelled := texts_name sound below own
  obtain ⟨name, named, changes, stays⟩ := typeName_renames primary edited
  refine ⟨edits, name, edited, named, whole, spelled, ?_⟩
  by_cases has : hasPlaceholder type.name.text = true
  · have replaced := changes has
    exact ⟨Edit.standing_start before nonempty replaced rfl, .inl replaced⟩
  · have plain := Bool.eq_false_iff.mpr has
    have free := Setting.edits_spare sound docs (edits_setting edited) below rfl own plain
    refine ⟨?_, .inr ⟨free, stays plain⟩⟩
    rw [Edit.standing_free nonempty free, List.getD_eq_getElem?_getD, spelled, stays plain]
    rfl

theorem typeName_standing_swapped :
    ∃ template type text edits,
      Template.read "class Plain { } class KTypeVTypeMap<VType, KType> { }".toList "A.java" =
          .ok template ∧ template.primaryType = some type ∧
        (template.specialize ⟨.int, some .generic⟩).result = .ok text ∧
        (template.edits ⟨.int, some .generic⟩).result = .ok edits ∧
        template.typeName ⟨.int, some .generic⟩ none = .ok (some "ObjectIntMap".toList) ∧
        Edit.standing template.texts edits type.name.index = "ObjectIntMap".toList := by
  obtain ⟨template, read, passes⟩ := ok_of_any
    (show (Template.read "class Plain { } class KTypeVTypeMap<VType, KType> { }".toList
      "A.java").toOption.any (fun template => template.primaryType.isSome &&
        ((template.specialize ⟨.int, some .generic⟩).result.toOption.any fun _ => true) &&
        (template.typeName ⟨.int, some .generic⟩ none).toOption.any fun name =>
          name == some "ObjectIntMap".toList) = true by decide +kernel)
  simp only [Bool.and_eq_true] at passes
  obtain ⟨⟨primary, specialized⟩, named⟩ := passes
  obtain ⟨type, primary⟩ := Option.isSome_iff_exists.mp primary
  obtain ⟨text, made, -⟩ := ok_of_any specialized
  obtain ⟨name, ofType, spelled⟩ := ok_of_any named
  obtain ⟨edits, other, edited, named, -, -, standing, -⟩ := typeName_standing read primary made
  rw [ofType] at named
  cases eq_of_beq spelled
  cases named
  exact ⟨template, type, text, edits, read, primary, made, edited, ofType, standing⟩

end Template

end Specializer
