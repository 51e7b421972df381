import Specializer.Proofs.MemberFences
import Specializer.Proofs.Relocation

set_option autoImplicit false

namespace Specializer

section Tokens

variable {tokens : List Token}

theorem significant_at {k : Nat} (inside : k < (significantLexemes tokens).length) :
    (significant tokens)[k]? = some (placeIn tokens k) := by
  cases found : (significant tokens)[k]? with
  | none =>
    have counted := getElem?_indices (fun token => !token.isTrivia) tokens k
    rw [show indices (fun token => !token.isTrivia) tokens = significant tokens from rfl, found] at counted
    rw [significantLexemes, List.length_map] at inside
    simp [List.getElem?_eq_getElem inside] at counted
  | some index =>
    obtain ⟨bound, value⟩ := List.getElem?_eq_some_iff.mp found
    simp [bound, value]

theorem significant_gap {k first second index : Nat} {token : Token}
    (here : (significant tokens)[k]? = some first) (next : (significant tokens)[k + 1]? = some second)
    (after : first < index) (before : index < second) (found : tokens[index]? = some token) :
    token.isTrivia = true := by
  by_contra solid
  have listed : index ∈ significant tokens :=
    (mem_indices _ _ _).mpr ⟨token, found, by simpa using solid⟩
  obtain ⟨place, bound, rfl⟩ := List.mem_iff_getElem.mp listed
  obtain ⟨boundHere, rfl⟩ := List.getElem?_eq_some_iff.mp here
  obtain ⟨boundNext, rfl⟩ := List.getElem?_eq_some_iff.mp next
  have order := List.pairwise_iff_getElem.mp (indices_increasing (fun token => !token.isTrivia) tokens)
  -- Its number among the significant tokens would lie between two that follow each other.
  rcases Nat.lt_trichotomy place k with less | rfl | more
  · exact absurd (order place k bound boundHere less) (Nat.not_lt_of_lt after)
  · exact Nat.lt_irrefl _ after
  · rcases Nat.lt_or_eq_of_le (Nat.succ_le_of_lt more) with more | rfl
    · exact absurd (order (k + 1) place boundNext bound more) (Nat.not_lt_of_lt before)
    · exact Nat.lt_irrefl _ before

section Renumbering

variable {place index left right : Nat} {entry : Range} {entries : List Range}

theorem KindAt.relocate {kind : Kind} (there : KindAt (significantLexemes tokens) kind index) :
    KindAt (lexemesOf tokens) kind (placeIn tokens index) := by
  obtain ⟨lexeme, found, same⟩ := there
  exact ⟨lexeme, (significant_relocates tokens).same _ _ found, same⟩

theorem After.relocate (after : After (significantLexemes tokens) place index) :
    After (lexemesOf tokens) (placeIn tokens place) (placeIn tokens index) := by
  have relocates := significant_relocates tokens
  have meaningful := significantLexemes_meaningful tokens
  have inside := after.solid.lt
  -- Nothing of meaning is between the two, and all is of meaning, so they follow each other.
  have next : index = place + 1 := by
    by_contra further
    have behind := after.behind
    exact after.first (place + 1) (Nat.lt_succ_self _) (by omega) (meaningful.solid (by omega))
  obtain ⟨lexeme, found, kind⟩ := after.solid
  refine ⟨relocates.increasing _ _ after.behind inside, ⟨lexeme, relocates.same _ _ found, kind⟩, ?_⟩
  rintro between above below ⟨other, there, solid⟩
  obtain ⟨token, standing, rfl⟩ := lexemesOf_some there
  subst next
  have trivia := significant_gap (significant_at (Nat.lt_of_succ_lt inside)) (significant_at inside) above
    below standing
  rw [Token.isTrivia, solid] at trivia
  cases trivia

theorem Cell.relocate (cell : Cell (significantLexemes tokens) left entry right) :
    Cell (lexemesOf tokens) (placeIn tokens left) (entry.relocate (placeIn tokens))
      (placeIn tokens right) := by
  have relocates := significant_relocates tokens
  have nonempty := cell.nonempty
  have inside := cell.behind.solid.lt
  have order := cell.order
  refine ⟨?_, ?_, cell.behind.relocate⟩
  next =>
    rcases cell.before with start | ⟨mark, after, isMark, later⟩
    next => exact .inl start.relocate
    next =>
      exact .inr ⟨_, after.relocate, isMark.relocate, relocates.increasing _ _ later (by omega)⟩
  next => exact Nat.lt_succ_of_le (relocates.le (by omega) (by omega))

theorem Fenced.relocate (fenced : Fenced (significantLexemes tokens) left entries right) :
    Fenced (lexemesOf tokens) (placeIn tokens left) (entries.map (Range.relocate (placeIn tokens)))
      (placeIn tokens right) := by
  induction fenced with
  | last cell closes => exact .last cell.relocate closes.relocate
  | more cell separates _ ih => exact .more cell.relocate separates.relocate ih

theorem Segment.last_relocate (segment : Segment) :
    (segment.relocate (placeIn tokens)).last = placeIn tokens segment.last := by
  cases segment with
  | plain name => rfl
  | applied name list =>
    rw [Segment.relocate, Segment.last, TypeArgs.range_relocate]
    rfl

theorem TypeRef.dims_relocate (ref : TypeRef) : (ref.relocate (placeIn tokens)).dims = ref.dims := by
  obtain ⟨range, segments, dims⟩ := ref
  rw [TypeRef.relocate, TypeRef.dims, TypeRef.dims]

theorem TypeRef.written_relocate {ref : TypeRef} (inside : ref.range.stop ≤ (significantLexemes tokens).length)
    (written : ref.Written (significantLexemes tokens)) :
    (ref.relocate (placeIn tokens)).Written (lexemesOf tokens) := by
  constructor
  next =>
    obtain ⟨first, rest, same, index, ends⟩ := written.begins
    refine ⟨first.relocate (placeIn tokens), rest.map (Segment.relocate (placeIn tokens)), ?_, ?_, ?_⟩
    next => rw [Subtree.relocate_segments, same, List.map_cons]
    next =>
      rw [Subtree.name_relocate, TypeRef.range_relocate]
      exact congrArg (placeIn tokens) index
    next =>
      rw [Segment.last_relocate, TypeRef.range_relocate]
      rcases ends with ⟨rfl, dims, stop⟩ | ⟨next, after, within, goesOn⟩
      next =>
        refine .inl ⟨rfl, (dims_relocate ref).trans dims, ?_⟩
        rw [Range.relocate, stop, Nat.add_sub_cancel]
      next =>
        refine .inr ⟨_, after.relocate, ?_, goesOn.imp ?_ ?_⟩
        -- Trivia may lie between two parts, but their order stays.
        next => exact Nat.lt_succ_of_le ((significant_relocates tokens).le (by omega) (by omega))
        next => exact fun dot => ⟨dot.1.relocate, by simpa using dot.2⟩
        next => exact fun bracket => ⟨bracket.1.relocate, by rw [dims_relocate]; exact bracket.2⟩
  next =>
    intro segment member list given
    rw [Subtree.relocate_segments] at member
    obtain ⟨old, found, rfl⟩ := List.mem_map.mp member
    rw [Subtree.args?_relocate] at given
    obtain ⟨oldList, applied, rfl⟩ := Option.map_eq_some_iff.mp given
    rw [Subtree.name_relocate, TypeArgs.range_relocate]
    exact (written.opens old found oldList applied).relocate

namespace Subtree

theorem written_relocate {part : Subtree} (sound : part.Sound (significantLexemes tokens))
    (inCode : part.InCode) (written : part.AllWritten (significantLexemes tokens)) :
    (part.relocate (placeIn tokens)).AllWritten (lexemesOf tokens) := by
  induction written with
  | @intro part here below ih =>
    refine .intro ?_ fun child member => ?_
    next =>
      -- Only nodes with a fence of their own have to be moved; for all others nothing is said.
      cases part with
      | ref r =>
        obtain ⟨nonempty, -, last⟩ := sound.here.bounded
        have inside := last.lt
        simp only [range_ref] at nonempty inside
        exact TypeRef.written_relocate (by omega) here
      | args list =>
        have ranges : (list.relocate (placeIn tokens)).args.map TypeArg.range =
            (list.args.map TypeArg.range).map (Range.relocate (placeIn tokens)) := by
          simp [relocate_args, Function.comp_def]
        refine ⟨?_, ?_, ?_⟩
        next =>
          rw [TypeArgs.range_relocate]
          exact here.opens.relocate
        next =>
          rw [TypeArgs.range_relocate, ranges]
          rcases here.entries with ⟨none, after⟩ | fenced
          next =>
            refine .inl ⟨?_, after.relocate⟩
            rw [relocate_args, none, List.map_nil]
          next => exact .inr fenced.relocate
        next =>
          rw [TypeArgs.range_relocate]
          exact here.closes.relocate
      | params list =>
        have ranges : (list.relocate (placeIn tokens)).params.map TypeParam.range =
            (list.params.map TypeParam.range).map (Range.relocate (placeIn tokens)) := by
          simp [TypeParams.relocate, Function.comp_def]
        refine ⟨here.opens.relocate, ?_⟩
        rw [ranges]
        exact here.entries.relocate
      | wildcard range bound => exact KindAt.relocate here
      | _ => trivial
    next =>
      rw [children_relocate] at member
      obtain ⟨old, found, rfl⟩ := List.mem_map.mp member
      exact ih old found (sound.child found) (inCode.children found)

def Joined (tokens : List Token) : Subtree → Prop
  | ref r => ∀ segment ∈ r.segments, ∀ list, segment.args? = some list →
      segment.name.index < list.range.start ∧
      (∃ token, tokens[list.range.start]? = some token ∧ token.kind = .lt) ∧
      ∀ index token, segment.name.index < index → index < list.range.start →
        tokens[index]? = some token → token.isTrivia = true
  | _ => True

theorem joined_of_written {part : Subtree} (written : part.AllWritten (lexemesOf tokens)) :
    part.Everywhere (Joined tokens) := by
  refine written.mono fun part written => ?_
  cases part with
  | ref r =>
    intro segment member list given
    have after := written.here.opens segment member list given
    have child : args list ∈ (ref r).children :=
      List.mem_map_of_mem (List.mem_filterMap.mpr ⟨segment, member, given⟩)
    obtain ⟨lexeme, found, kind⟩ := (written.child child).here.opens
    obtain ⟨token, standing, rfl⟩ := lexemesOf_some found
    refine ⟨after.behind, ⟨token, standing, kind⟩, fun index token above below there => ?_⟩
    by_contra solid
    refine after.first index above below ⟨token.toLexeme, ?_, by simpa [Token.isTrivia] using solid⟩
    rw [lexemesOf, List.getElem?_map, there]
    rfl
  | _ => trivial

end Subtree

end Renumbering

theorem parseTokens_written {tree : Tree} (parsed : parseTokens tokens = .ok tree) :
    (Subtree.unit tree).AllWritten (lexemesOf tokens) := by
  obtain ⟨found, next, outcome, rfl⟩ := parseTokens_ok parsed
  have meaningful := significantLexemes_meaningful tokens
  have row := Grammar.members_row meaningful outcome
  have written :=
    ((Grammar.members_fine Grammar.written_admits meaningful _).scan _ _ _ _ _ .begin outcome).2
  refine .intro trivial fun child member => ?_
  simp only [Subtree.children, List.mem_append, List.mem_map, relocateMembers_eq] at member
  rcases member with ⟨_, ⟨old, there, rfl⟩, rfl⟩ | ⟨index, there, rfl⟩
  next =>
    rw [Subtree.relocate_member]
    exact Subtree.written_relocate (row.2 old there) (Subtree.inCode_member old) (written old there)
  next => exact .intro trivial (List.forall_mem_nil _)

theorem parseTokens_joined {tree : Tree} (parsed : parseTokens tokens = .ok tree) :
    (Subtree.unit tree).Everywhere (Subtree.Joined tokens) :=
  Subtree.joined_of_written (parseTokens_written parsed)

end Tokens

end Specializer
