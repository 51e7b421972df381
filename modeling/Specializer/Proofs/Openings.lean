import Specializer.Proofs.Adjoined
import Specializer.Proofs.Coverage

set_option autoImplicit false

namespace Specializer

namespace Subtree

/-- A declaration, whose type parameters count inside of it. -/
def IsDecl (part : Subtree) : Prop := part.kind = .typeDecl ∨ part.kind = .methodDecl

def Opened (lexemes : List Lexeme) (part : Subtree) : Prop :=
  ∀ decl, part.Below decl → decl.IsDecl → OpensAt lexemes decl.range.start

variable {lexemes : List Lexeme} {part first second lower : Subtree}

theorem IsDecl.inCode (decl : part.IsDecl) : part.InCode := by
  cases part <;> first | exact trivial | rcases decl with kind | kind <;> cases kind

theorem isType_not_decl (type : part.isType = true) : ¬ part.IsDecl := by
  rintro (kind | kind) <;> simp [isType, kind] at type

theorem opened_of_type (type : part.isType = true) : part.Opened lexemes := fun _ below decl =>
  absurd decl (isType_not_decl (isType_below type below))

theorem Opened.node (here : part.IsDecl → OpensAt lexemes part.range.start)
    (children : ∀ child ∈ part.children, child.Opened lexemes) : part.Opened lexemes := by
  intro decl below isDecl
  rcases below_cases below with rfl | ⟨child, member, inside⟩
  · exact here isDecl
  · exact children child member decl inside isDecl

theorem opened_admits : Grammar.Admits lexemes fun member => member.subtree.Opened lexemes where
  typeUse _ := opened_of_type rfl
  importDecl _ := .node (by rintro (kind | kind) <;> cases kind) fun child member => by
    cases List.mem_singleton.mp member
    exact opened_of_type rfl
  typeDecl opens _ _ members := .node (fun _ => opens) fun child member => by
    simp only [Member.subtree, children, List.mem_append, List.mem_map] at member
    rcases member with (⟨_, -, rfl⟩ | ⟨_, -, rfl⟩) | ⟨inner, there, rfl⟩
    · exact opened_of_type rfl
    · exact opened_of_type rfl
    · exact members inner there
  methodDecl opens _ members := .node (fun _ => opens) fun child member => by
    simp only [Member.subtree, children, List.mem_cons, List.mem_map] at member
    rcases member with rfl | ⟨inner, there, rfl⟩
    · exact opened_of_type rfl
    · exact members inner there
  creation _ members _ := .node (by rintro (kind | kind) <;> cases kind) fun child member => by
    simp only [Member.subtree, children, List.mem_append, List.mem_cons, List.mem_map] at member
    rcases member with (rfl | ⟨inner, there, rfl⟩) | ⟨_, -, rfl⟩
    · exact opened_of_type rfl
    · exact members inner there
    · exact opened_of_type rfl
  witness _ := .node (by rintro (kind | kind) <;> cases kind) fun child member => by
    cases List.mem_singleton.mp member
    exact opened_of_type rfl

theorem decl_child (decl : part.IsDecl) (arranged : part.Arranged) (member : lower ∈ part.children) :
    lower.isType = true ∨ part.range.start < lower.range.start := by
  cases part <;> try (rcases decl with kind | kind <;> cases kind; done)
  case typeDecl range keyword name list supertypes members =>
    simp only [children, List.mem_append, List.mem_map] at member
    rcases member with (⟨_, -, rfl⟩ | ⟨_, -, rfl⟩) | ⟨inner, there, rfl⟩
    · exact .inl rfl
    · exact .inl rfl
    · right
      obtain ⟨header, body, rfl, successive⟩ := arranged
      have first : range.start ≤ keyword.index := successive.1
      have behind := (List.pairwise_cons.mp successive.pairwise).1 inner.range (by
        rcases List.mem_append.mp there with inHeader | inBody
        · simp [List.mem_map_of_mem inHeader]
        · simp [List.mem_map_of_mem inBody])
      rw [Member.range_subtree]
      exact Nat.lt_of_lt_of_le (Nat.lt_succ_of_le first) behind
  case methodDecl range list members =>
    rcases List.mem_cons.mp member with rfl | member
    · exact .inl rfl
    · right
      obtain ⟨inner, there, rfl⟩ := List.mem_map.mp member
      have inside := Successive.inside arranged.2.2 (List.mem_map_of_mem there)
      have first : range.start ≤ list.range.start := arranged.1
      have nonempty : list.range.start < list.range.stop := arranged.2.1
      rw [Member.range_subtree]
      change range.start < inner.range.start
      omega

theorem decl_inside (outer : part.IsDecl) (sound : part.Sound lexemes) (member : lower ∈ part.children)
    (below : lower.Below first) (decl : first.IsDecl) :
    part.range.start < first.range.start ∧ first.range.stop ≤ part.range.stop := by
  have inCode := outer.inCode
  have outside := below_range inCode sound (below.head member)
  have within := below_range (inCode.children member) (sound.child member) below
  rcases decl_child outer sound.here.arranged member with type | behind
  · exact absurd decl (isType_not_decl (isType_below type below))
  · omega

theorem decl_self (decl : part.IsDecl) (sound : part.Sound lexemes) (down : part.Below lower)
    (up : lower.Below part) : lower = part := by
  rcases below_cases down with same | ⟨child, member, below⟩
  · exact same
  · have inside := decl_inside decl sound member (below.trans up) decl
    omega

theorem decl_unique (inCode : part.InCode) (sound : part.Sound lexemes) (left : part.Below first)
    (right : part.Below second) (inFirst : first.IsDecl) (inSecond : second.IsDecl)
    (same : first.range.start = second.range.start) : first = second := by
  have everywhere := sound
  induction everywhere with
  | @intro part placed _ ih =>
    have within {child lower : Subtree} (member : child ∈ part.children) (below : child.Below lower)
        (decl : lower.IsDecl) :
        child.range.start ≤ lower.range.start ∧ lower.range.start < child.range.stop := by
      have inside := below_range (inCode.children member) (sound.child member) below
      have nonempty := (decl.inCode.bounded (sound.at_below (below.head member)).here.bounded).1
      omega
    rcases below_cases left with rfl | ⟨child, member, below⟩ <;>
      rcases below_cases right with rfl | ⟨child', member', below'⟩
    · rfl
    · have inside := (decl_inside inFirst sound member' below' inSecond).1
      omega
    · have inside := (decl_inside inSecond sound member below inFirst).1
      omega
    · have equal : child = child' := child_unique inCode placed member member'
        (within member below inFirst) (same ▸ within member' below' inSecond)
      subst equal
      exact ih child member (inCode.children member) (sound.child member) below below'

section Unit

variable {tree : Tree} (sound : (unit tree).Sound lexemes)

include sound

theorem decl_around (below : (unit tree).Below part) (decl : part.IsDecl) :
    part.range.start < part.range.stop :=
  (decl.inCode.bounded (sound.at_below below).here.bounded).1

theorem decl_unique_unit (left : (unit tree).Below first) (right : (unit tree).Below second)
    (inFirst : first.IsDecl) (inSecond : second.IsDecl) (same : first.range.start = second.range.start) :
    first = second := by
  obtain ⟨member, found, below⟩ := below_unit left inFirst.inCode
  obtain ⟨member', found', below'⟩ := below_unit right inSecond.inCode
  have equal : member = member' := member_unique sound found found' below below'
    ⟨Nat.le_refl _, decl_around sound left inFirst⟩
    ⟨Nat.le_of_eq same.symm, same ▸ decl_around sound right inSecond⟩
  subst equal
  exact decl_unique (inCode_member member) (sound_member sound found) below below' inFirst inSecond same

end Unit

theorem kind_relocate (place : Nat → Nat) (part : Subtree) : (part.relocate place).kind = part.kind := by
  cases part <;> rfl

theorem below_of_relocate {place : Nat → Nat} (below : (part.relocate place).Below lower) :
    ∃ old, part.Below old ∧ lower = old.relocate place := by
  induction below with
  | refl => exact ⟨part, .refl, rfl⟩
  | tail _ step ih =>
    obtain ⟨old, above, rfl⟩ := ih
    rw [children_relocate] at step
    obtain ⟨child, member, rfl⟩ := List.mem_map.mp step
    exact ⟨child, above.tail member, rfl⟩

end Subtree

section Tokens

variable {tokens : List Token}

theorem OpensAt.relocate {start : Nat} (opens : OpensAt (significantLexemes tokens) start) :
    OpensAt (lexemesOf tokens) (placeIn tokens start) := by
  have same := (significant_relocates tokens).same
  cases opens with
  | word there ident declares => exact .word (same _ _ there) ident declares
  | marked sign after there spelled => exact .marked sign.relocate after.relocate (same _ _ there) spelled
  | bracket opens => exact .bracket opens.relocate

theorem parseTokens_opened {tree : Tree} (parsed : parseTokens tokens = .ok tree) :
    (Subtree.unit tree).Opened (lexemesOf tokens) := by
  obtain ⟨found, next, outcome, rfl⟩ := parseTokens_ok parsed
  have meaningful := significantLexemes_meaningful tokens
  have opened :=
    ((Grammar.members_fine Subtree.opened_admits meaningful _).scan _ _ _ _ _ .begin outcome).2
  refine .node (by rintro (kind | kind) <;> cases kind) fun child member => ?_
  simp only [Subtree.children, List.mem_append, List.mem_map, relocateMembers_eq] at member
  rcases member with ⟨_, ⟨old, there, rfl⟩, rfl⟩ | ⟨index, -, rfl⟩
  · rw [Subtree.relocate_member]
    intro decl below isDecl
    obtain ⟨decl, inside, rfl⟩ := Subtree.below_of_relocate below
    rw [Subtree.IsDecl, Subtree.kind_relocate] at isDecl
    rw [Subtree.range_relocate (Subtree.IsDecl.inCode isDecl)]
    exact (opened old there decl inside isDecl).relocate
  · refine .node (by rintro (kind | kind) <;> cases kind) fun child member => ?_
    cases member

end Tokens

end Specializer
