import Specializer.Proofs.Located

set_option autoImplicit false

namespace Specializer

section Renumbering

variable {first second through : Nat → Nat} {bound : Nat}

theorem Range.relocate_through (passes : ∀ k < bound, through (first k) = second k) {range : Range}
    (start : range.start < bound) (last : range.stop - 1 < bound) :
    (range.relocate first).relocate through = range.relocate second := by
  simp only [Range.relocate, Nat.add_sub_cancel, passes _ start, passes _ last]

theorem Name.relocate_through (passes : ∀ k < bound, through (first k) = second k) {name : Name}
    (inside : name.index < bound) : (name.relocate first).relocate through = name.relocate second := by
  simp only [Name.relocate, passes _ inside]

theorem map_through {α : Type} {move : (Nat → Nat) → α → α} {items : List α}
    (each : ∀ item ∈ items, move through (move first item) = move second item) :
    (items.map (move first)).map (move through) = items.map (move second) := by
  rw [List.map_map]
  exact List.map_congr_left each

theorem optional_through {α : Type} {move : (Nat → Nat) → α → α} {item : Option α}
    (each : ∀ given ∈ item.toList, move through (move first given) = move second given) :
    (item.map (move first)).map (move through) = item.map (move second) := by
  cases item with
  | none => rfl
  | some given => exact congrArg some (each given List.mem_cons_self)

theorem Member.relocate_through {member : Member}
    (same : (member.subtree.relocate first).relocate through = member.subtree.relocate second) :
    (member.relocate first).relocate through = member.relocate second := by
  cases member <;> simp_all [Member.subtree, Subtree.relocate, Member.relocate]

theorem TypeArg.relocate_through {arg : TypeArg}
    (same : (arg.subtree.relocate first).relocate through = arg.subtree.relocate second) :
    (arg.relocate first).relocate through = arg.relocate second := by
  cases arg <;> simp_all [TypeArg.subtree, Subtree.relocate, TypeArg.relocate]

theorem Segment.relocate_through {segment : Segment}
    (name : (segment.name.relocate first).relocate through = segment.name.relocate second)
    (args : ∀ list ∈ segment.args?, (list.relocate first).relocate through = list.relocate second) :
    (segment.relocate first).relocate through = segment.relocate second := by
  cases segment with
  | plain => exact congrArg Segment.plain name
  | applied own list => exact congrArg₂ Segment.applied name (args list rfl)

namespace Subtree

theorem relocate_node {part : Subtree} (inCode : part.InCode)
    (range : (part.range.relocate first).relocate through = part.range.relocate second)
    (names : ∀ name ∈ part.names, (name.relocate first).relocate through = name.relocate second)
    (children : ∀ child ∈ part.children,
      (child.relocate first).relocate through = child.relocate second) :
    (part.relocate first).relocate through = part.relocate second := by
  -- What is known of children is said of subtrees, and is wanted for the parts that they are made
  -- of.
  have ofRef (r : TypeRef) (member : ref r ∈ part.children) :
      (r.relocate first).relocate through = r.relocate second := ref.inj (children _ member)
  have ofArgs (list : TypeArgs) (member : args list ∈ part.children) :
      (list.relocate first).relocate through = list.relocate second := args.inj (children _ member)
  have ofParams (list : TypeParams) (member : params list ∈ part.children) :
      (list.relocate first).relocate through = list.relocate second := params.inj (children _ member)
  have ofMembers (members : List Member) (listed : ∀ member ∈ members, member.subtree ∈ part.children) :
      relocateMembers through (relocateMembers first members) = relocateMembers second members := by
    simp only [relocateMembers_eq]
    exact map_through fun member found => Member.relocate_through (children _ (listed member found))
  cases part with
  | unit | doc => exact inCode.elim
  | importDecl own r => exact congrArg₂ importDecl range (ofRef r List.mem_cons_self)
  | typeDecl own keyword name list supertypes members =>
    simp only [relocate, typeDecl.injEq]
    refine ⟨range, names _ List.mem_cons_self, names _ (List.mem_cons_of_mem _ List.mem_cons_self),
      optional_through fun given found => ofParams given ?_, map_through fun r found => ofRef r ?_,
      ofMembers members fun member found => member_child found⟩
    · exact params_child (Option.mem_toList.mp found)
    · exact super_child found
  | methodDecl own list members =>
    simp only [relocate, methodDecl.injEq]
    exact ⟨range, ofParams list List.mem_cons_self, ofMembers members fun member found => member_child found⟩
  | creation own type members list =>
    simp only [relocate, creation.injEq]
    exact ⟨range, ofRef type List.mem_cons_self, ofMembers members fun member found => member_child found,
      optional_through fun given found => ofArgs given (args_child (Option.mem_toList.mp found))⟩
  | witness own list method =>
    simp only [relocate, witness.injEq]
    exact ⟨range, ofArgs list List.mem_cons_self, names _ List.mem_cons_self⟩
  | wildcard own bound =>
    refine congrArg₂ wildcard range (optional_through fun given found => ofRef given ?_)
    exact List.mem_map_of_mem found
  | params list =>
    refine congrArg params (congrArg₂ TypeParams.mk range (map_through fun declared found => ?_))
    exact param.inj (children _ (List.mem_map_of_mem found))
  | param declared =>
    simp only [relocate, TypeParam.relocate, param.injEq, TypeParam.mk.injEq]
    exact ⟨range, names _ List.mem_cons_self, map_through fun r found =>
      ofRef r (List.mem_map_of_mem found)⟩
  | ref r =>
    cases r with
    | mk own segments dims =>
      simp only [relocate, TypeRef.relocate, relocateSegments_eq, ref.injEq, TypeRef.mk.injEq, and_true]
      refine ⟨range, map_through fun segment found => ?_⟩
      refine Segment.relocate_through (names _ (List.mem_map_of_mem found)) fun list given => ?_
      exact ofArgs list (List.mem_map_of_mem (List.mem_filterMap.mpr ⟨segment, found, given⟩))
  | args list =>
    cases list with
    | mk own entries =>
      simp only [relocate, TypeArgs.relocate, relocateArgs_eq, args.injEq, TypeArgs.mk.injEq]
      refine ⟨range, map_through fun arg found => ?_⟩
      exact TypeArg.relocate_through (children _ (List.mem_map_of_mem found))

-- Maps that make a third where there are lexemes renumber a subtree as that one does.
theorem relocate_through {lexemes : List Lexeme} {part : Subtree} (sound : part.Sound lexemes)
    (inCode : part.InCode) (passes : ∀ k < lexemes.length, through (first k) = second k) :
    (part.relocate first).relocate through = part.relocate second := by
  unfold Sound at sound
  -- On the evidence, as the children of a subtree are no parts of it to recur on.
  induction sound with
  | intro here below ih =>
    obtain ⟨-, start, last⟩ := inCode.bounded here.bounded
    refine relocate_node inCode (Range.relocate_through passes start.lt last.lt)
      (fun name member => ?_) fun child member => ih child member (inCode.children member)
    exact Name.relocate_through passes (List.getElem?_eq_some_iff.mp (here.stands name member)).1

end Subtree

end Renumbering

section Alike

variable {first second : List Token}

/-- The token of the second list with as many significant ones before it as the given one of the first
has. -/
def counterpart (first second : List Token) (index : Nat) : Nat :=
  placeIn second ((significant first).idxOf index)

theorem counterpart_place {k : Nat} (inside : k < (significantLexemes first).length) :
    counterpart first second (placeIn first k) = placeIn second k := by
  obtain ⟨bound, there⟩ := List.getElem?_eq_some_iff.mp (significant_at inside)
  have distinct : (significant first).Nodup := (indices_increasing _ first).imp Nat.ne_of_lt
  have back : (significant first).idxOf (placeIn first k) = k := by
    rw [← there, distinct.idxOf_getElem]
  rw [counterpart, back]

theorem Grammar.Failure.fault_alike {failure : Grammar.Failure}
    (same : significantLexemes first = significantLexemes second)
    (within : failure.Within (significantLexemes first)) :
    ((failure.relocate (placeIn first)).fault first).code =
        ((failure.relocate (placeIn second)).fault second).code ∧
      ((failure.relocate (placeIn first)).fault first).args =
        ((failure.relocate (placeIn second)).fault second).args := by
  have texts (k : Nat) (inside : k < (significantLexemes first).length) :
      first[placeIn first k]?.map (fun token => token.text) =
        second[placeIn second k]?.map (fun token => token.text) := by
    obtain ⟨token, there, lexeme⟩ := significant_token inside
    obtain ⟨other, stands, again⟩ := significant_token (same ▸ inside)
    rw [same, again, Option.some.injEq] at lexeme
    rw [there, stands, Option.map_some, Option.map_some, congrArg Lexeme.text lexeme]
  cases failure with
  | unbalanced k =>
    refine ⟨rfl, ?_⟩
    simp only [relocate, fault, Fault.args, texts k within]
  | expected what place =>
    cases place with
    | none => exact ⟨rfl, rfl⟩
    | some k =>
      refine ⟨rfl, ?_⟩
      simp only [relocate, fault, Fault.args, Option.map_some, texts k (within k rfl)]

/-- Tokens that agree in all but blanks and comments parse alike: to trees whose members go over into
each other with the tokens, or to failures with the same code and arguments. -/
theorem parseTokens_alike (same : significantLexemes first = significantLexemes second) :
    (∃ tree other, parseTokens first = .ok tree ∧ parseTokens second = .ok other ∧
        other.members = relocateMembers (counterpart first second) tree.members) ∨
      ∃ fault other, parseTokens first = .error fault ∧ parseTokens second = .error other ∧
        fault.code.entry.category = .template ∧ fault.code = other.code ∧ fault.args = other.args := by
  cases parsed : parseTokens first with
  | error fault =>
    obtain ⟨failure, concluded, rfl⟩ := parseTokens_error parsed
    obtain ⟨code, args⟩ := Grammar.Failure.fault_alike same (Grammar.conclude_within concluded)
    refine .inr ⟨_, (failure.relocate (placeIn second)).fault second, rfl, ?_, ?_, code, args⟩
    · rw [parseTokens_eq, ← same, concluded]
    · obtain ⟨code | code, -⟩ := fault_located parsed <;> rw [code] <;> rfl
  | ok tree =>
    obtain ⟨found, next, outcome, rfl⟩ := parseTokens_ok parsed
    refine .inl ⟨_, ⟨second.length, relocateMembers (placeIn second) found, docComments second⟩, rfl,
      ?_, ?_⟩
    · rw [parseTokens_eq, ← same, outcome]
      rfl
    · have row := Grammar.members_row (significantLexemes_meaningful first) outcome
      simp only [relocateMembers_eq]
      refine (map_through fun member there => Member.relocate_through ?_).symm
      exact Subtree.relocate_through (row.2 member there) (Subtree.inCode_member member) fun k =>
        counterpart_place

-- The segments of the import end with its last name, the import itself ends with the semicolon.
theorem parseTokens_alike_spaced :
    ∃ first second tree other, tokenize "import a.B;class A{B<C>x;}".toList = .ok first ∧
      tokenize "import a . B /* of */ ; class A { B < C > x; }".toList = .ok second ∧
      significantLexemes first = significantLexemes second ∧
      parseTokens first = .ok tree ∧ parseTokens second = .ok other ∧
      (tree.members.flatMap Member.nodes).map Node.range =
        [⟨0, 6⟩, ⟨2, 5⟩, ⟨6, 17⟩, ⟨10, 14⟩, ⟨11, 14⟩, ⟨12, 13⟩] ∧
      (other.members.flatMap Member.nodes).map Node.range =
        [⟨0, 11⟩, ⟨2, 7⟩, ⟨12, 30⟩, ⟨18, 25⟩, ⟨20, 25⟩, ⟨22, 23⟩] ∧
      other.members = relocateMembers (counterpart first second) tree.members := by
  obtain ⟨first, lexed, passes⟩ := ok_of_any (show (tokenize "import a.B;class A{B<C>x;}".toList).toOption.any
    (fun first => (tokenize "import a . B /* of */ ; class A { B < C > x; }".toList).toOption.any fun second =>
      decide (significantLexemes first = significantLexemes second) &&
        (parseTokens first).toOption.any fun tree => (parseTokens second).toOption.any fun other =>
          decide ((tree.members.flatMap Member.nodes).map Node.range =
            [⟨0, 6⟩, ⟨2, 5⟩, ⟨6, 17⟩, ⟨10, 14⟩, ⟨11, 14⟩, ⟨12, 13⟩]) &&
          decide ((other.members.flatMap Member.nodes).map Node.range =
            [⟨0, 11⟩, ⟨2, 7⟩, ⟨12, 30⟩, ⟨18, 25⟩, ⟨20, 25⟩, ⟨22, 23⟩])) = true by decide +kernel)
  obtain ⟨second, relexed, facts⟩ := ok_of_any passes
  obtain ⟨agrees, parses⟩ := Bool.and_eq_true_iff.mp facts
  have same := of_decide_eq_true agrees
  obtain ⟨tree, parsed, parses⟩ := ok_of_any parses
  obtain ⟨other, reparsed, ranges⟩ := ok_of_any parses
  obtain ⟨tight, wide⟩ := Bool.and_eq_true_iff.mp ranges
  obtain ⟨_, _, parsed', reparsed', moved⟩ | ⟨fault, _, failed, -⟩ := parseTokens_alike same
  · cases parsed.symm.trans parsed'
    cases reparsed.symm.trans reparsed'
    exact ⟨first, second, tree, other, lexed, relexed, same, parsed, reparsed, of_decide_eq_true tight,
      of_decide_eq_true wide, moved⟩
  · cases parsed.symm.trans failed

end Alike

end Specializer
