import Specializer.DocScope
import Specializer.Proofs.Openings
import Specializer.Proofs.PositionalNames

set_option autoImplicit false

namespace Specializer

/-- A range ends before another begins, or holds it behind its own first token. -/
def Range.Leads (a b : Range) : Prop := a.stop ≤ b.start ∨ a.start < b.start ∧ b.stop ≤ a.stop

/-- The declaration is the innermost of those around a token. -/
structure Subtree.Encloses (root : Subtree) (index : Nat) (decl : Subtree) : Prop where
  below : root.Below decl
  isDecl : decl.IsDecl
  around : decl.range.start ≤ index ∧ index < decl.range.stop
  innermost : ∀ other, root.Below other → other.IsDecl → other.range.start ≤ index →
    index < other.range.stop → other.range.start ≤ decl.range.start ∧ decl.range.stop ≤ other.range.stop

namespace Setting

variable {setting : Setting} {slots : List Slot} {scope : Scope Slot} {part : Subtree}
  {first second : List Subtree} {decls more : List DeclScope}

/-- The list has the scopes of the declarations in some nodes, where the slots are declared around these. -/
structure Scopes (setting : Setting) (slots : List Slot) (parts : List Subtree) (decls : List DeclScope) :
    Prop where
  sound : ∀ found ∈ decls, ∃ part ∈ parts, ∃ decl result, decl.IsDecl ∧ decl.range = found.range ∧
    Subtree.Leads slots part decl result ∧ found.scope.Follows setting.binding result
  complete : ∀ part ∈ parts, ∀ decl, part.Below decl → decl.IsDecl →
    ∃ found ∈ decls, found.range = decl.range
  ordered : decls.Pairwise fun a b => a.range.Leads b.range

namespace Scopes

theorem nothing : setting.Scopes slots [] [] := ⟨by simp, by simp, .nil⟩

variable {lexemes : List Lexeme}

theorem range {parts : List Subtree} (scopes : setting.Scopes slots parts decls)
    (inCode : ∀ part ∈ parts, part.InCode) (sound : ∀ part ∈ parts, part.Sound lexemes) {found : DeclScope}
    (member : found ∈ decls) :
    ∃ part ∈ parts, part.range.start ≤ found.range.start ∧ found.range.stop ≤ part.range.stop := by
  obtain ⟨part, there, decl, result, -, same, leads, -⟩ := scopes.sound found member
  exact ⟨part, there, same ▸ Subtree.below_range (inCode part there) (sound part there)
    (Subtree.leads_below leads)⟩

theorem append (left : setting.Scopes slots first decls) (right : setting.Scopes slots second more)
    (inCode : ∀ part ∈ first ++ second, part.InCode) (sound : ∀ part ∈ first ++ second, part.Sound lexemes)
    (apart : ∀ a ∈ first, ∀ b ∈ second, a.range.stop ≤ b.range.start) :
    setting.Scopes slots (first ++ second) (decls ++ more) := by
  refine ⟨fun found member => ?_, fun part member decl below isDecl => ?_, ?_⟩
  · rcases List.mem_append.mp member with there | there
    · obtain ⟨part, listed, rest⟩ := left.sound found there
      exact ⟨part, List.mem_append_left _ listed, rest⟩
    · obtain ⟨part, listed, rest⟩ := right.sound found there
      exact ⟨part, List.mem_append_right _ listed, rest⟩
  · rcases List.mem_append.mp member with there | there
    · obtain ⟨found, listed, same⟩ := left.complete part there decl below isDecl
      exact ⟨found, List.mem_append_left _ listed, same⟩
    · obtain ⟨found, listed, same⟩ := right.complete part there decl below isDecl
      exact ⟨found, List.mem_append_right _ listed, same⟩
  · refine List.pairwise_append.mpr ⟨left.ordered, right.ordered, fun a inFirst b inSecond => .inl ?_⟩
    obtain ⟨outer, there, -, before⟩ := left.range
      (fun part member => inCode part (List.mem_append_left _ member))
      (fun part member => sound part (List.mem_append_left _ member)) inFirst
    obtain ⟨other, also, behind, -⟩ := right.range
      (fun part member => inCode part (List.mem_append_right _ member))
      (fun part member => sound part (List.mem_append_right _ member)) inSecond
    have between := apart outer there other also
    omega

variable (inCode : part.InCode)
  (inside : setting.Scopes (part.within slots) (part.members.map Member.subtree) decls)

include inCode inside

omit inCode in
theorem sound_inside {found : DeclScope} (listed : found ∈ decls) :
    ∃ decl result, decl.IsDecl ∧ decl.range = found.range ∧ Subtree.Leads slots part decl result ∧
      found.scope.Follows setting.binding result ∧ ∃ child ∈ part.children, child.Below decl := by
  obtain ⟨child, there, decl, result, isDecl, same, leads, follows⟩ := inside.sound found listed
  obtain ⟨member, own, rfl⟩ := List.mem_map.mp there
  have step := Subtree.member_child own
  exact ⟨decl, result, isDecl, same, .down step leads, follows, _, step, Subtree.leads_below leads⟩

theorem complete_inside {child decl : Subtree} (step : child ∈ part.children) (below : child.Below decl)
    (isDecl : decl.IsDecl) : ∃ found ∈ decls, found.range = decl.range := by
  rcases Subtree.member_or_type inCode step with ⟨member, own, rfl⟩ | type
  · exact inside.complete _ (List.mem_map_of_mem own) decl below isDecl
  · exact absurd isDecl (Subtree.isType_not_decl (Subtree.isType_below type below))

theorem node (other : ¬ part.IsDecl) : setting.Scopes slots [part] decls := by
  refine ⟨fun found listed => ?_, fun top member decl below isDecl => ?_, inside.ordered⟩
  · obtain ⟨decl, result, isDecl, same, leads, follows, -⟩ := inside.sound_inside listed
    exact ⟨part, List.mem_singleton_self _, decl, result, isDecl, same, leads, follows⟩
  · cases List.mem_singleton.mp member
    rcases Subtree.below_cases below with rfl | ⟨child, step, further⟩
    · exact absurd isDecl other
    · exact inside.complete_inside inCode step further isDecl

theorem declaration (isDecl : part.IsDecl) (sound : part.Sound lexemes)
    (follows : scope.Follows setting.binding (part.within slots)) :
    setting.Scopes slots [part] (⟨part.range, scope⟩ :: decls) := by
  refine ⟨fun found listed => ?_, fun top member decl below isDecl => ?_, ?_⟩
  · rcases List.mem_cons.mp listed with rfl | listed
    · exact ⟨part, List.mem_singleton_self _, part, _, isDecl, rfl, .here, follows⟩
    · obtain ⟨decl, result, isDecl, same, leads, follows, -⟩ := inside.sound_inside listed
      exact ⟨part, List.mem_singleton_self _, decl, result, isDecl, same, leads, follows⟩
  · cases List.mem_singleton.mp member
    rcases Subtree.below_cases below with rfl | ⟨child, step, further⟩
    · exact ⟨_, List.mem_cons_self, rfl⟩
    · obtain ⟨found, listed, same⟩ := inside.complete_inside inCode step further isDecl
      exact ⟨found, List.mem_cons_of_mem _ listed, same⟩
  · refine List.pairwise_cons.mpr ⟨fun found listed => .inr ?_, inside.ordered⟩
    obtain ⟨decl, result, inner, same, -, -, child, step, below⟩ := inside.sound_inside listed
    rw [← same]
    exact Subtree.decl_inside isDecl sound step below inner

end Scopes

theorem declScopesOf_scopes {members : List Member} {edits : List Edit}
    (each : ∀ member ∈ members, ∀ {edits}, (setting.memberEdits scope member).result = .ok edits →
      setting.Scopes slots [member.subtree] (member.declScopes scope))
    (sound : ∀ member ∈ members, member.subtree.Sound (lexemesOf setting.tokens))
    (ordered : members.Pairwise fun a b => a.range.stop ≤ b.range.start)
    (made : (setting.membersEdits scope members).result = .ok edits) :
    setting.Scopes slots (members.map Member.subtree) (declScopesOf scope members) := by
  induction members generalizing edits with
  | nil =>
    rw [declScopesOf]
    exact .nothing
  | cons first rest ih =>
    rw [membersEdits] at made
    simp only [Traced.bind_ok, Traced.pure_ok] at made
    obtain ⟨ofFirst, visited, ofRest, later, rfl⟩ := made
    obtain ⟨before, behind⟩ := List.pairwise_cons.mp ordered
    have inCode : ∀ part ∈ (first :: rest).map Member.subtree, part.InCode := by
      intro part found
      obtain ⟨member, -, rfl⟩ := List.mem_map.mp found
      exact Subtree.inCode_member member
    have sound' : ∀ part ∈ (first :: rest).map Member.subtree, part.Sound (lexemesOf setting.tokens) := by
      intro part found
      obtain ⟨member, there, rfl⟩ := List.mem_map.mp found
      exact sound member there
    have inRest := ih (fun member found => each member (List.mem_cons_of_mem _ found))
      (fun member found => sound member (List.mem_cons_of_mem _ found)) behind later
    rw [declScopesOf]
    refine (each first List.mem_cons_self visited).append inRest inCode sound' ?_
    intro a inFirst b inRest
    cases List.mem_singleton.mp inFirst
    obtain ⟨member, found, rfl⟩ := List.mem_map.mp inRest
    simpa using before member found

-- That the edits were made is needed only for the scopes to be bound.
theorem declScopes_scopes (follows : scope.Follows setting.binding slots) (member : Member)
    (sound : member.subtree.Sound (lexemesOf setting.tokens)) {edits : List Edit}
    (made : (setting.memberEdits scope member).result = .ok edits) :
    setting.Scopes slots [member.subtree] (member.declScopes scope) := by
  induction member using Member.induction generalizing slots scope edits with
  | typeUse | importDecl | witness =>
    rw [Member.declScopes.eq_def]
    exact .node (Subtree.inCode_member _) .nothing (by rintro (kind | kind) <;> cases kind)
  | typeDecl range keyword name params supertypes members inner =>
    rw [memberEdits] at made
    simp only [Traced.bind_ok, Traced.pure_ok] at made
    obtain ⟨values, bound, ofName, -, ofParams, -, ofSupers, -, ofBody, visited, rfl⟩ := made
    have follows := follows.inside (declared_inside bound)
    have placed (member : Member) (own : member ∈ members) := sound.child (Subtree.member_child own)
    have inside := declScopesOf_scopes (fun member own => inner member own follows (placed member own))
      placed (Subtree.members_ordered sound.here.arranged) visited
    rw [Member.declScopes]
    exact .declaration (Subtree.inCode_member _) inside (.inl rfl) sound follows
  | methodDecl range params members inner =>
    rw [memberEdits] at made
    simp only [Traced.bind_ok, Traced.pure_ok] at made
    obtain ⟨ofParams, listed, ofBody, visited, rfl⟩ := made
    have follows : (scope.inside (some params)).Follows setting.binding _ :=
      follows.inside (paramsEdits_bound listed)
    have placed (member : Member) (own : member ∈ members) := sound.child (Subtree.member_child own)
    have inside := declScopesOf_scopes (fun member own => inner member own follows (placed member own))
      placed (Subtree.members_ordered sound.here.arranged) visited
    rw [Member.declScopes]
    exact .declaration (Subtree.inCode_member _) inside (.inr rfl) sound follows
  | creation range type members constructorArgs inner =>
    obtain ⟨-, -, ofBody, -, -, visited, -⟩ := creation_ok made
    have placed (member : Member) (own : member ∈ members) := sound.child (Subtree.member_child own)
    have inside := declScopesOf_scopes (fun member own => inner member own follows (placed member own))
      placed (Subtree.members_ordered sound.here.arranged) visited
    rw [Member.declScopes]
    exact .node (Subtree.inCode_member _) inside (by rintro (kind | kind) <;> cases kind)

section Unit

variable {tree : Tree} {edits : List Edit} {doc : Nat} {decl : Subtree} {found : DeclScope}

theorem declScopes_unit (sound : (Subtree.unit tree).Sound (lexemesOf setting.tokens))
    (visited : (setting.membersEdits (Scope.outermost setting.binding) tree.members).result = .ok edits) :
    setting.Scopes [] (tree.members.map Member.subtree)
      (declScopesOf (Scope.outermost setting.binding) tree.members) :=
  declScopesOf_scopes
    (fun member there => declScopes_scopes Scope.outermost_follows member (Subtree.sound_member sound there))
    (fun _ there => Subtree.sound_member sound there) (Subtree.members_ordered sound.here.arranged) visited

namespace Scopes

variable {lexemes : List Lexeme} (scopes : setting.Scopes [] (tree.members.map Member.subtree) decls)
  (sound : (Subtree.unit tree).Sound lexemes)

include scopes sound

theorem owner (member : found ∈ decls) :
    ∃ decl slots, (Subtree.unit tree).Below decl ∧ decl.IsDecl ∧ decl.range = found.range ∧
      (Subtree.unit tree).Innermost decl slots ∧ found.scope.Follows setting.binding slots := by
  obtain ⟨part, there, decl, slots, isDecl, same, leads, follows⟩ := scopes.sound found member
  obtain ⟨top, listed, rfl⟩ := List.mem_map.mp there
  have child : top.subtree ∈ (Subtree.unit tree).children := Subtree.member_child listed
  have below := (Subtree.leads_below leads).head child
  exact ⟨decl, slots, below, isDecl, same,
    Subtree.unit_innermost sound listed leads fun _ => Subtree.decl_self isDecl (sound.at_below below), follows⟩

omit sound in
theorem listed (below : (Subtree.unit tree).Below decl) (isDecl : decl.IsDecl) :
    ∃ found ∈ decls, found.range = decl.range := by
  obtain ⟨top, there, further⟩ := Subtree.below_unit below isDecl.inCode
  exact scopes.complete top.subtree (List.mem_map_of_mem there) decl further isDecl

theorem find_decl (below : (Subtree.unit tree).Below decl) (isDecl : decl.IsDecl) :
    ∃ found slots, decls.find? (fun found => some found.range.start == some decl.range.start) = some found ∧
      (Subtree.unit tree).Innermost decl slots ∧ found.scope.Follows setting.binding slots := by
  obtain ⟨own, there, range⟩ := scopes.listed below isDecl
  obtain ⟨found, taken⟩ : ∃ found, decls.find? (fun found => some found.range.start == some decl.range.start) =
      some found := Option.isSome_iff_exists.mp (List.find?_isSome.mpr ⟨own, there, by simp [range]⟩)
  have begins : found.range.start = decl.range.start := by simpa using List.find?_some taken
  obtain ⟨other, slots, down, same, range, innermost, follows⟩ :=
    scopes.owner sound (List.mem_of_find?_eq_some taken)
  obtain rfl : other = decl := Subtree.decl_unique_unit sound down below same isDecl (range ▸ begins)
  exact ⟨found, slots, taken, innermost, follows⟩

theorem find_none {target : Option Nat} (nowhere : ∀ decl, (Subtree.unit tree).Below decl → decl.IsDecl →
      some decl.range.start ≠ target) :
    decls.find? (fun found => some found.range.start == target) = none := by
  refine List.find?_eq_none.mpr fun found member => ?_
  obtain ⟨decl, slots, below, isDecl, range, -⟩ := scopes.owner sound member
  simpa [range] using nowhere decl below isDecl

theorem last_around :
    (∃ found decl slots, (decls.filter fun found => found.range.start ≤ doc && doc < found.range.stop).getLast? =
        some found ∧ (Subtree.unit tree).Encloses doc decl ∧
        (Subtree.unit tree).Innermost decl slots ∧ found.scope.Follows setting.binding slots) ∨
      (decls.filter fun found => found.range.start ≤ doc && doc < found.range.stop) = [] ∧
        ∀ decl, (Subtree.unit tree).Below decl → decl.IsDecl → decl.range.start ≤ doc →
          ¬ doc < decl.range.stop := by
  generalize around : (decls.filter fun found => found.range.start ≤ doc && doc < found.range.stop) = holding
  have member (found : DeclScope) : found ∈ holding ↔
      found ∈ decls ∧ found.range.start ≤ doc ∧ doc < found.range.stop := by
    simp [← around, List.mem_filter]
  -- A later scope begins behind an earlier one or is nested in it; of those around a place the last
  -- is within all.
  have ordered : holding.Pairwise fun a b => a.range.Leads b.range :=
    around ▸ scopes.ordered.filter _
  rcases List.eq_nil_or_concat holding with rfl | ⟨front, last, rfl⟩
  · refine .inr ⟨rfl, fun decl below isDecl low high => ?_⟩
    obtain ⟨own, there, range⟩ := scopes.listed below isDecl
    have none := (member own).mpr ⟨there, range ▸ low, range ▸ high⟩
    cases none
  · obtain ⟨there, low, high⟩ := (member last).mp (by simp)
    obtain ⟨decl, slots, below, isDecl, range, innermost, follows⟩ := scopes.owner sound there
    refine .inl ⟨last, decl, slots, by simp, ⟨below, isDecl, ⟨range ▸ low, range ▸ high⟩, ?_⟩, innermost, follows⟩
    intro other down same low high
    obtain ⟨own, listed, equal⟩ := scopes.listed down same
    have inside := (member own).mpr ⟨listed, equal ▸ low, equal ▸ high⟩
    rw [List.concat_eq_append] at ordered inside
    rcases List.mem_append.mp inside with before | here
    · have leads := (List.pairwise_append.mp ordered).2.2 own before last (by simp)
      rw [equal, ← range] at leads
      have holds : decl.range.start ≤ doc := range ▸ ‹last.range.start ≤ doc›
      rcases leads with apart | nested <;> omega
    · rw [← equal, List.mem_singleton.mp here, range]
      exact ⟨Nat.le_refl _, Nat.le_refl _⟩

end Scopes

end Unit

end Setting

end Specializer
