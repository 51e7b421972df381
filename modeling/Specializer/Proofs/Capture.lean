import Mathlib.Data.List.Nodup
import Specializer.Proofs.MemberCapture
import Specializer.Proofs.Relocation

set_option autoImplicit false

namespace Specializer

namespace Subtree

variable {place : Nat → Nat} {part lower : Subtree}

theorem own_relocate (part : Subtree) :
    (part.relocate place).own = part.own.map (Name.relocate place) := by
  cases part <;> simp [relocate, own, names, relocate_segments, name_relocate, TypeParam.relocate,
    Function.comp_def]

theorem below_relocate (below : part.Below lower) :
    (part.relocate place).Below (lower.relocate place) := by
  induction below with
  | refl => exact .refl
  | @tail middle lower _ step ih =>
    refine ih.tail ?_
    rw [children_relocate]
    exact List.mem_map_of_mem step

theorem recorded_relocate (place : Nat → Nat) {condition : Subtree → Prop}
    (everywhere : part.Everywhere condition) {name : Name} (recorded : name ∈ part.recorded) :
    name.relocate place ∈ (part.relocate place).recorded := by
  obtain ⟨lower, below, own⟩ := of_mem_recorded everywhere recorded
  refine mem_recorded (below_relocate below) ?_
  rw [own_relocate]
  exact List.mem_map_of_mem own

end Subtree

theorem significant_place {tokens : List Token} {index : Nat} {token : Token}
    (found : tokens[index]? = some token) (solid : token.isTrivia = false) :
    ∃ k, (significantLexemes tokens)[k]? = some token.toLexeme ∧
      placeIn tokens k = index := by
  have member : index ∈ significant tokens :=
    (mem_indices _ tokens index).mpr ⟨token, found, by simp [solid]⟩
  obtain ⟨k, there⟩ := List.mem_iff_getElem?.mp member
  refine ⟨k, ?_, ?_⟩
  · have same := getElem?_indices (fun token => !token.isTrivia) tokens k
    rw [← significant, there, Option.bind_some, found] at same
    rw [significantLexemes, List.getElem?_map, ← same, Option.map_some]
  · obtain ⟨bound, value⟩ := List.getElem?_eq_some_iff.mp there
    simp [bound, value]

theorem parseTokens_recorded {tokens : List Token} {tree : Tree}
    (parsed : parseTokens tokens = .ok tree) (exposed : Grammar.Exposed (significantLexemes tokens))
    {index : Nat} {token : Token} (found : tokens[index]? = some token) (ident : token.kind = .ident)
    (has : hasPlaceholder token.text = true) : ⟨index, token.text⟩ ∈ tree.recorded := by
  obtain ⟨k, read, placed⟩ := significant_place found (by simp [Token.isTrivia, ident, Kind.isTrivia])
  have lexeme : token.toLexeme = ⟨.ident, token.text⟩ := by rw [← ident]
  rw [lexeme] at read
  -- The members are read with places among the tokens that carry meaning, and then moved.
  obtain ⟨members, next, outcome, rfl⟩ := parseTokens_ok parsed
  have row := Grammar.members_row (significantLexemes_meaningful tokens) outcome
  have caught := Grammar.members_caught exposed outcome ⟨k, token.text⟩ (Nat.zero_le _)
    (List.getElem?_eq_some_iff.mp read).1 ⟨read, has⟩
  rw [membersRecorded_eq, List.mem_flatMap] at caught
  obtain ⟨member, among, recorded⟩ := caught
  rw [← Subtree.recorded_member] at recorded
  rw [Tree.recorded, relocateMembers_eq, membersRecorded_eq, List.flatMap_map, List.mem_flatMap]
  refine ⟨member, among, ?_⟩
  rw [← Subtree.recorded_member, Subtree.relocate_member]
  have moved := Subtree.recorded_relocate (placeIn tokens) (row.2 member among) recorded
  rwa [Name.relocate, placed] at moved

/-- Each identifier with a placeholder in it is recorded exactly once, as a segment of a reference to
a type, as the name of a declaration or of a type parameter, or as a method with type arguments. -/
theorem parse_captures {source : List Char} {tokens : List Token} {tree : Tree}
    (parsed : parse source = .ok (tokens, tree))
    (exposed : Grammar.Exposed (significantLexemes tokens)) (index : Nat) (token : Token)
    (found : tokens[index]? = some token) (ident : token.kind = .ident)
    (has : hasPlaceholder token.text = true) :
    ⟨index, token.text⟩ ∈ tree.recorded ∧ (tree.recorded.map Name.index).count index = 1 ∧
      ∃! part, (Subtree.unit tree).Below part ∧ ⟨index, token.text⟩ ∈ part.own := by
  have sound := parse_sound parsed
  have recorded := parseTokens_recorded (parse_ok parsed).2 exposed found ident has
  refine ⟨recorded, ?_, ?_⟩
  · have member := List.mem_map_of_mem (f := Name.index) recorded
    exact List.count_eq_one_of_mem (Tree.recorded_distinct sound) member
  · obtain ⟨part, below, own⟩ := Subtree.of_mem_recorded sound recorded
    refine ⟨part, ⟨below, own⟩, fun other inOther => ?_⟩
    exact Subtree.name_unique_unit sound inOther.1 below (Subtree.own_names inOther.2)
      (Subtree.own_names own) rfl

-- The type arguments that `a < KTypeB.m()` might open are given up, and read again as a use.
theorem parse_captures_comparison :
    ∃ tokens tree, parse "class A<KType> { <T> T f() { x = a < KTypeB.m(); } }".toList =
        .ok (tokens, tree) ∧ Grammar.Exposed (significantLexemes tokens) ∧
      ∃ token, tokens[29]? = some token ∧ token.text = "KTypeB".toList ∧
        ⟨29, token.text⟩ ∈ tree.recorded ∧ (tree.recorded.map Name.index).count 29 = 1 := by
  obtain ⟨⟨tokens, tree⟩, parsed, passes⟩ := ok_of_any
    (show (parse "class A<KType> { <T> T f() { x = a < KTypeB.m(); } }".toList).toOption.any
      (fun read => decide (Grammar.Exposed (significantLexemes read.1)) &&
        read.1[29]?.any fun token => token.kind == .ident && token.text == "KTypeB".toList) = true by
      decide +kernel)
  simp only [Bool.and_eq_true, decide_eq_true_eq, Option.any_eq_true, beq_iff_eq] at passes
  obtain ⟨exposed, token, found, ident, spelled⟩ := passes
  have has : hasPlaceholder token.text = true := by rw [spelled]; decide
  obtain ⟨recorded, once, -⟩ := parse_captures parsed exposed 29 token found ident has
  exact ⟨tokens, tree, parsed, exposed, token, found, spelled, recorded, once⟩

end Specializer
