import Specializer.Proofs.Coverage

set_option autoImplicit false

namespace Specializer

namespace Subtree

variable {lexemes : List Lexeme} {tree : Tree} {part lower : Subtree} {name : Name}
  {slots result : List Slot}

def declared : Subtree → List Slot
  | typeDecl _ _ _ list _ _ => (list.map TypeParams.declared).getD []
  | methodDecl _ list _ => list.declared
  | _ => []

def within (part : Subtree) (slots : List Slot) : List Slot :=
  if part.declared = [] then slots else part.declared

inductive Leads : List Slot → Subtree → Subtree → List Slot → Prop
  | here {slots : List Slot} {part : Subtree} : Leads slots part part (part.within slots)
  | down {slots result : List Slot} {part child lower : Subtree} (member : child ∈ part.children)
      (rest : Leads (part.within slots) child lower result) : Leads slots part lower result

/-- The slots are those of the innermost declaration around a subtree that declares some, or none if
there is no such declaration. -/
def Innermost (root part : Subtree) (slots : List Slot) : Prop :=
  (∃ decl, root.Below decl ∧ decl.Below part ∧ decl.declared = slots ∧ slots ≠ [] ∧
      ∀ other, root.Below other → other.Below part → other.declared ≠ [] → other.Below decl) ∨
    slots = [] ∧ ∀ other, root.Below other → other.Below part → other.declared = []

theorem leads_below (leads : Leads slots part lower result) : part.Below lower := by
  induction leads with
  | here => exact .refl
  | down member _ ih => exact ih.head member

theorem leads_of_below (below : part.Below lower) (slots : List Slot) :
    ∃ result, Leads slots part lower result := by
  induction below using Relation.ReflTransGen.head_induction_on generalizing slots with
  | refl => exact ⟨_, .here⟩
  | @head part child member _ ih =>
    obtain ⟨result, rest⟩ := ih (part.within slots)
    exact ⟨result, .down member rest⟩

theorem isType_declared (type : part.isType = true) : part.declared = [] := by
  cases part <;> first | rfl | simp [isType, kind] at type

-- Types declare no placeholders, so nothing changes on the way into one.
theorem Leads.type (leads : Leads slots part lower result) (type : part.isType = true) :
    result = slots := by
  induction leads with
  | here => exact if_pos (isType_declared type)
  | down member _ ih =>
    rw [ih (isType_child type member)]
    exact if_pos (isType_declared type)

theorem inCode_of_declared (declares : part.declared ≠ []) : part.InCode := by
  cases part <;> first | exact trivial | exact absurd rfl declares

theorem self_of_below (inCode : part.InCode) (sound : part.Sound lexemes) (own : name ∈ part.names)
    (down : part.Below lower) (up : lower.Below part) : lower = part := by
  rcases below_cases down with same | ⟨child, member, below⟩
  · exact same
  · exact absurd (name_range (inCode.children member) (sound.child member) (below.trans up) own)
      (name_apart_child inCode sound.here own member)

def Alone (part : Subtree) : Prop := ∀ other, part.Below other → other.Below part → other = part

theorem alone_of_name (inCode : part.InCode) (sound : part.Sound lexemes) (own : name ∈ part.names) :
    part.Alone := fun _ => self_of_below inCode sound own

theorem leads_innermost (leads : Leads slots part lower result) (inCode : part.InCode)
    (sound : part.Sound lexemes) (alone : lower.Alone) :
    (∃ decl, part.Below decl ∧ decl.Below lower ∧ decl.declared = result ∧ result ≠ [] ∧
        ∀ other, part.Below other → other.Below lower → other.declared ≠ [] → other.Below decl) ∨
      result = slots ∧ ∀ other, part.Below other → other.Below lower → other.declared = [] := by
  -- By induction on the way down; what is around the lower end must be on the way, since only one
  -- child of each node can hold its first token.
  induction leads with
  | @here slots part =>
    by_cases none : part.declared = []
    · exact .inr ⟨if_pos none, fun other down up => alone other down up ▸ none⟩
    · refine .inl ⟨part, .refl, .refl, (if_neg none).symm, by simp [within, none], ?_⟩
      intro other down up _
      rw [alone other down up]
      exact .refl
  | @down slots result part child lower member rest ih =>
    have around (child : Subtree) (member : child ∈ part.children) (below : child.Below lower) :
        child.range.start ≤ lower.range.start ∧ lower.range.start < child.range.stop := by
      have inside := below_range (inCode.children member) (sound.child member) below
      have nonempty := ((below.inCode (inCode.children member)).bounded
        (sound.at_below (below.head member)).here.bounded).1
      omega
    have onWay (other : Subtree) (down : part.Below other) (up : other.Below lower) :
        other = part ∨ child.Below other := by
      rcases below_cases down with same | ⟨child', member', below⟩
      · exact .inl same
      · have one : child' = child := child_unique inCode sound.here member' member
          (around child' member' (below.trans up)) (around child member (leads_below rest))
        exact .inr (one ▸ below)
    rcases ih (inCode.children member) (sound.child member) alone with
      ⟨decl, below, holds, same, some, last⟩ | ⟨same, none⟩
    · refine .inl ⟨decl, below.head member, holds, same, some, fun other down up declares => ?_⟩
      rcases onWay other down up with rfl | inside
      · exact below.head member
      · exact last other inside up declares
    · by_cases here : part.declared = []
      · refine .inr ⟨same.trans (if_pos here), fun other down up => ?_⟩
        rcases onWay other down up with rfl | inside
        · exact here
        · exact none other inside up
      · have taken : part.declared = result := by rw [same, within, if_neg here]
        refine .inl ⟨part, .refl, (leads_below rest).head member, taken, taken ▸ here, ?_⟩
        intro other down up declares
        rcases onWay other down up with rfl | inside
        · exact .refl
        · exact absurd (none other inside up) declares

theorem unit_innermost (sound : (unit tree).Sound lexemes) {member : Member}
    (found : member ∈ tree.members) (leads : Leads [] member.subtree lower result)
    (alone : lower.Alone) : Innermost (unit tree) lower result := by
  have child : member.subtree ∈ (unit tree).children := member_child found
  have holds : (unit tree).Below lower := (leads_below leads).head child
  have inCode : lower.InCode := (leads_below leads).inCode (inCode_member member)
  have nonempty := (inCode.bounded (sound.at_below holds).here.bounded).1
  have onWay (other : Subtree) (down : (unit tree).Below other) (up : other.Below lower)
      (declares : other.declared ≠ []) : member.subtree.Below other := by
    obtain ⟨member', found', below⟩ := below_unit down (inCode_of_declared declares)
    have one : member' = member := member_unique sound found' found (below.trans up)
      (leads_below leads) ⟨Nat.le_refl _, nonempty⟩ ⟨Nat.le_refl _, nonempty⟩
    exact one ▸ below
  rcases leads_innermost leads (inCode_member member) (sound_member sound found) alone with
    ⟨decl, below, holds, same, some, last⟩ | ⟨same, none⟩
  · refine .inl ⟨decl, below.head child, holds, same, some, fun other down up declares => ?_⟩
    exact last other (onWay other down up declares) up declares
  · refine .inr ⟨same, fun other down up => ?_⟩
    by_contra declares
    exact declares (none other (onWay other down up declares) up)

end Subtree

end Specializer
