import Specializer.Grammar.Words
import Specializer.Substitution

set_option autoImplicit false

namespace Specializer

structure DeclScope where
  range : Range
  scope : Scope Slot

mutual

def Member.declScopes (scope : Scope Slot) : Member → List DeclScope
  | .typeDecl range _ _ params _ members =>
    ⟨range, scope.inside params⟩ :: declScopesOf (scope.inside params) members
  | .methodDecl range params members =>
    ⟨range, scope.inside (some params)⟩ :: declScopesOf (scope.inside (some params)) members
  | .creation _ _ members _ => declScopesOf scope members
  | _ => []

def declScopesOf (scope : Scope Slot) : List Member → List DeclScope
  | [] => []
  | member :: rest => member.declScopes scope ++ declScopesOf scope rest

end

theorem declScopesOf_eq (scope : Scope Slot) (members : List Member) :
    declScopesOf scope members = members.flatMap (Member.declScopes scope) := by
  induction members with
  | nil => rw [declScopesOf, List.flatMap_nil]
  | cons member rest ih => rw [declScopesOf, ih, List.flatMap_cons]

namespace DocScope

abbrev Numbered := Nat × Token

def skipQualifiers : List Numbered → List Numbered
  | dot :: name :: rest =>
    if dot.2.kind == .dot then skipQualifiers rest else dot :: name :: rest
  | rest => rest

def closeParens : Nat → List Numbered → List Numbered
  | _, [] => []
  | depth, token :: rest =>
    let depth := match token.2.kind with
      | .lpar => depth + 1
      | .rpar => depth - 1
      | _ => depth
    if depth = 0 then rest else closeParens depth rest

def skipArguments (tokens : List Numbered) : List Numbered :=
  if tokens.head?.any fun token => token.2.kind == .lpar then closeParens 0 tokens else tokens

/-- The number of the first token that belongs to no modifier and no annotation. Each step takes one
of them away, so the number of tokens bounds the steps. -/
def declarationStart : Nat → List Numbered → Option Nat
  | 0, _ => none
  | _, [] => none
  | n + 1, token :: rest =>
    if token.2.isModifier then declarationStart n rest
    else if token.2.kind != .atSign then some token.1
    else
      match rest with
      | [] => some token.1
      | name :: rest =>
        if name.2.kind != .ident || name.2.spells "interface" then some token.1
        else declarationStart n (skipArguments (skipQualifiers rest))

def significantAfter (tokens : List Token) (index : Nat) : List Numbered :=
  (tokens.mapIdx fun i token => (i, token)).filter fun token =>
    index < token.1 && !token.2.isTrivia

def find (tokens : List Token) (decls : List DeclScope) (outermost : Scope Slot) (doc : Nat) :
    Scope Slot :=
  let target := declarationStart (tokens.length + 1) (significantAfter tokens doc)
  match decls.find? fun decl => some decl.range.start == target with
  | some decl => decl.scope
  | none =>
    let around := decls.filter fun decl => decl.range.start ≤ doc && doc < decl.range.stop
    (around.getLast?.map fun decl => decl.scope).getD outermost

end DocScope

end Specializer
