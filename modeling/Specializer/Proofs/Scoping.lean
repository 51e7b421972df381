import Specializer.DocScope
import Specializer.Proofs.Subtree

set_option autoImplicit false

namespace Specializer

/-- What holds of a scope still holds inside a declaration in it, whose parameters all satisfy the
condition. -/
def Scope.Inherits (condition : Subtree → Prop) (holds : Scope Slot → Prop) : Prop :=
  ∀ ⦃scope⦄, holds scope → ∀ ⦃params : Option TypeParams⦄,
    (∀ list ∈ params, (Subtree.params list).Everywhere condition) → holds (scope.inside params)

variable {condition : Subtree → Prop} {holds : Scope Slot → Prop}

theorem declScopesOf_within {scope : Scope Slot} {members : List Member}
    (each : ∀ member ∈ members, ∀ decl ∈ member.declScopes scope, holds decl.scope) :
    ∀ decl ∈ declScopesOf scope members, holds decl.scope := by
  intro decl listed
  rw [declScopesOf_eq] at listed
  obtain ⟨member, found, listed⟩ := List.mem_flatMap.mp listed
  exact each member found decl listed

theorem Member.declScopes_all (inherits : Scope.Inherits condition holds) {scope : Scope Slot}
    (around : holds scope) (member : Member) (everywhere : member.subtree.Everywhere condition) :
    ∀ decl ∈ member.declScopes scope, holds decl.scope := by
  induction member using Member.induction generalizing scope with
  | typeUse ref => rw [Member.declScopes.eq_def]; exact nofun
  | importDecl range ref isStatic onDemand => rw [Member.declScopes.eq_def]; exact nofun
  | witness range args method => rw [Member.declScopes.eq_def]; exact nofun
  | typeDecl range keyword name params supertypes members inner =>
    have within : holds (scope.inside params) := inherits around fun list given =>
      everywhere.child (Subtree.params_child given)
    have below := declScopesOf_within fun member own =>
      inner member own within (everywhere.child (Subtree.member_child own))
    rw [Member.declScopes]
    exact List.forall_mem_cons.mpr ⟨within, below⟩
  | methodDecl range params members inner =>
    have within : holds (scope.inside (some params)) := inherits around fun list given =>
      Option.some.inj given ▸ everywhere.child List.mem_cons_self
    have below := declScopesOf_within fun member own =>
      inner member own within (everywhere.child (Subtree.member_child own))
    rw [Member.declScopes]
    exact List.forall_mem_cons.mpr ⟨within, below⟩
  | creation range type members constructorArgs inner =>
    -- A creation declares nothing: its members are in the scope that is around it.
    rw [Member.declScopes]
    exact declScopesOf_within fun member own =>
      inner member own around (everywhere.child (Subtree.member_child own))

theorem declScopesOf_all (inherits : Scope.Inherits condition holds) {scope : Scope Slot}
    (around : holds scope) (members : List Member)
    (everywhere : ∀ member ∈ members, member.subtree.Everywhere condition) :
    ∀ decl ∈ declScopesOf scope members, holds decl.scope :=
  declScopesOf_within fun member own => member.declScopes_all inherits around (everywhere member own)

theorem DocScope.find_all (holds : Scope Slot → Prop) {decls : List DeclScope}
    {outermost : Scope Slot} (around : holds outermost) (inside : ∀ decl ∈ decls, holds decl.scope)
    (tokens : List Token) (doc : Nat) : holds (find tokens decls outermost doc) := by
  simp only [find]
  split
  next decl found => exact inside decl (List.mem_of_find?_eq_some found)
  next =>
    cases ending :
        (decls.filter fun decl => decl.range.start ≤ doc && doc < decl.range.stop).getLast? with
    | none => exact around
    | some decl => exact inside decl (List.mem_filter.mp (List.mem_of_getLast? ending)).1

end Specializer
