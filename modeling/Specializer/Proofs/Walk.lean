import Specializer.Proofs.Subtree

set_option autoImplicit false

namespace Specializer

variable {node : Node}

def Subtree.Holds (part : Subtree) (node : Node) : Prop :=
  ∃ lower, part.Below lower ∧ lower.node = node

theorem Subtree.Holds.self (part : Subtree) : part.Holds part.node := ⟨part, .refl, rfl⟩

theorem Subtree.Holds.child {part child : Subtree} (member : child ∈ part.children)
    (holds : child.Holds node) : part.Holds node := by
  obtain ⟨lower, below, same⟩ := holds
  exact ⟨lower, below.head member, same⟩

mutual

theorem TypeRef.holds_nodes (ref : TypeRef) (member : node ∈ ref.nodes) :
    (Subtree.ref ref).Holds node := by
  cases ref with
  | mk range segments dims =>
    rw [TypeRef.nodes] at member
    rcases List.mem_cons.mp member with rfl | member
    · exact .self (.ref (.mk range segments dims))
    · obtain ⟨args, found, holds⟩ := segments_hold segments member
      exact holds.child (List.mem_map_of_mem found)

theorem segments_hold (segments : List Segment) (member : node ∈ segmentNodes segments) :
    ∃ args ∈ segments.filterMap Segment.args?, (Subtree.args args).Holds node := by
  cases segments with
  | nil => rw [segmentNodes] at member; cases member
  | cons segment rest =>
    cases segment with
    | plain name =>
      rw [segmentNodes] at member
      exact segments_hold rest member
    | applied name args =>
      rw [segmentNodes] at member
      rcases List.mem_append.mp member with member | member
      · exact ⟨args, List.mem_cons_self, args.holds_nodes member⟩
      · obtain ⟨other, found, holds⟩ := segments_hold rest member
        exact ⟨other, List.mem_cons_of_mem _ found, holds⟩

theorem TypeArgs.holds_nodes (args : TypeArgs) (member : node ∈ args.nodes) :
    (Subtree.args args).Holds node := by
  cases args with
  | mk range list =>
    rw [TypeArgs.nodes] at member
    rcases List.mem_cons.mp member with rfl | member
    · exact .self (.args (.mk range list))
    · obtain ⟨arg, found, holds⟩ := args_hold list member
      exact holds.child (List.mem_map_of_mem found)

theorem args_hold (args : List TypeArg) (member : node ∈ argNodes args) :
    ∃ arg ∈ args, arg.subtree.Holds node := by
  cases args with
  | nil => rw [argNodes] at member; cases member
  | cons arg rest =>
    cases arg with
    | exact ref =>
      rw [argNodes] at member
      rcases List.mem_append.mp member with member | member
      · exact ⟨_, List.mem_cons_self, ref.holds_nodes member⟩
      · obtain ⟨other, found, holds⟩ := args_hold rest member
        exact ⟨other, List.mem_cons_of_mem _ found, holds⟩
    | unbounded range =>
      rw [argNodes] at member
      rcases List.mem_cons.mp member with rfl | member
      · exact ⟨_, List.mem_cons_self, .self (.wildcard range none)⟩
      · obtain ⟨other, found, holds⟩ := args_hold rest member
        exact ⟨other, List.mem_cons_of_mem _ found, holds⟩
    | bounded range kind ref =>
      rw [argNodes] at member
      rcases List.mem_cons.mp member with rfl | member
      · exact ⟨_, List.mem_cons_self, .self (.wildcard range (some ref))⟩
      · rcases List.mem_append.mp member with member | member
        · exact ⟨_, List.mem_cons_self, (ref.holds_nodes member).child List.mem_cons_self⟩
        · obtain ⟨other, found, holds⟩ := args_hold rest member
          exact ⟨other, List.mem_cons_of_mem _ found, holds⟩

end

theorem refs_hold {refs : List TypeRef} (member : node ∈ refs.flatMap TypeRef.nodes) :
    ∃ ref ∈ refs, (Subtree.ref ref).Holds node := by
  obtain ⟨ref, found, inside⟩ := List.mem_flatMap.mp member
  exact ⟨ref, found, ref.holds_nodes inside⟩

theorem TypeParam.holds_nodes {param : TypeParam} (member : node ∈ param.nodes) :
    (Subtree.param param).Holds node := by
  rcases List.mem_cons.mp member with rfl | member
  · exact .self (.param param)
  · obtain ⟨ref, found, holds⟩ := refs_hold member
    exact holds.child (List.mem_map_of_mem found)

theorem TypeParams.holds_nodes {params : TypeParams} (member : node ∈ params.nodes) :
    (Subtree.params params).Holds node := by
  rcases List.mem_cons.mp member with rfl | member
  · exact .self (.params params)
  · obtain ⟨param, found, inside⟩ := List.mem_flatMap.mp member
    exact (TypeParam.holds_nodes inside).child (List.mem_map_of_mem found)

mutual

theorem Member.holds_nodes (member : Member) (inside : node ∈ member.nodes) :
    member.subtree.Holds node := by
  cases member with
  | typeUse ref =>
    rw [Member.nodes] at inside
    exact ref.holds_nodes inside
  | importDecl range ref isStatic onDemand =>
    rw [Member.nodes] at inside
    rcases List.mem_cons.mp inside with rfl | inside
    · exact .self (.importDecl range ref)
    · exact (ref.holds_nodes inside).child List.mem_cons_self
  | typeDecl range keyword name params supertypes members =>
    rw [Member.nodes] at inside
    simp only [List.cons_append, List.mem_cons, List.mem_append] at inside
    rcases inside with rfl | (inside | inside) | inside
    · exact .self (.typeDecl range keyword name params supertypes members)
    · cases params with
      | none => cases inside
      | some params => exact (TypeParams.holds_nodes inside).child (Subtree.params_child rfl)
    · obtain ⟨ref, found, holds⟩ := refs_hold inside
      exact holds.child (Subtree.super_child found)
    · obtain ⟨member, found, holds⟩ := members_hold members inside
      exact holds.child (Subtree.member_child found)
  | methodDecl range params members =>
    rw [Member.nodes] at inside
    simp only [List.cons_append, List.mem_cons, List.mem_append] at inside
    rcases inside with rfl | inside | inside
    · exact .self (.methodDecl range params members)
    · exact (TypeParams.holds_nodes inside).child List.mem_cons_self
    · obtain ⟨member, found, holds⟩ := members_hold members inside
      exact holds.child (Subtree.member_child found)
  | creation range type members constructorArgs =>
    rw [Member.nodes] at inside
    simp only [List.cons_append, List.mem_cons, List.mem_append] at inside
    rcases inside with rfl | (inside | inside) | inside
    · exact .self (.creation range type members constructorArgs)
    · exact (type.holds_nodes inside).child (by simp [Member.subtree, Subtree.children])
    · obtain ⟨member, found, holds⟩ := members_hold members inside
      exact holds.child (Subtree.member_child found)
    · cases constructorArgs with
      | none => cases inside
      | some args => exact (args.holds_nodes inside).child (Subtree.args_child rfl)
  | witness range args method =>
    rw [Member.nodes] at inside
    rcases List.mem_cons.mp inside with rfl | inside
    · exact .self (.witness range args method)
    · exact (args.holds_nodes inside).child List.mem_cons_self

theorem members_hold (members : List Member) (inside : node ∈ memberNodes members) :
    ∃ member ∈ members, member.subtree.Holds node := by
  cases members with
  | nil => rw [memberNodes] at inside; cases inside
  | cons member rest =>
    rw [memberNodes] at inside
    rcases List.mem_append.mp inside with inside | inside
    · exact ⟨member, List.mem_cons_self, member.holds_nodes inside⟩
    · obtain ⟨other, found, holds⟩ := members_hold rest inside
      exact ⟨other, List.mem_cons_of_mem _ found, holds⟩

end

theorem Tree.holds_nodes {tree : Tree} (member : node ∈ tree.nodes) :
    (Subtree.unit tree).Holds node := by
  simp only [Tree.nodes, List.cons_append, List.mem_cons, List.mem_append, List.mem_map] at member
  rcases member with rfl | inside | ⟨index, found, rfl⟩
  · exact .self (.unit tree)
  · obtain ⟨member, found, holds⟩ := members_hold tree.members inside
    exact holds.child (Subtree.member_child found)
  · exact Subtree.Holds.child (Subtree.doc_child found) (.self (.doc index))

namespace Subtree

def nodes : Subtree → List Node
  | unit tree => tree.nodes
  | importDecl range r => ⟨.importDecl, range⟩ :: r.nodes
  | typeDecl range _ _ list supertypes members =>
    ⟨.typeDecl, range⟩ :: (list.map TypeParams.nodes).getD [] ++
      supertypes.flatMap TypeRef.nodes ++ memberNodes members
  | methodDecl range list members => ⟨.methodDecl, range⟩ :: list.nodes ++ memberNodes members
  | creation range type members list =>
    ⟨.creation, range⟩ :: type.nodes ++ memberNodes members ++ (list.map TypeArgs.nodes).getD []
  | witness range list _ => ⟨.witness, range⟩ :: list.nodes
  | params list => list.nodes
  | param declared => declared.nodes
  | ref r => r.nodes
  | args list => list.nodes
  | wildcard range bound => ⟨.wildcard, range⟩ :: (bound.map TypeRef.nodes).getD []
  | doc index => [⟨.docComment, ⟨index, index + 1⟩⟩]

theorem nodes_member (member : Member) : member.subtree.nodes = member.nodes := by
  cases member <;> rw [Member.nodes] <;> rfl

theorem self_mem_nodes (part : Subtree) : part.node ∈ part.nodes := by
  cases part <;> try exact List.mem_cons_self
  case ref r =>
    cases r
    rw [nodes, TypeRef.nodes]
    exact List.mem_cons_self
  case args list =>
    cases list
    rw [nodes, TypeArgs.nodes]
    exact List.mem_cons_self

theorem mem_memberNodes {members : List Member} {member : Member} (found : member ∈ members)
    (inside : node ∈ member.subtree.nodes) : node ∈ memberNodes members := by
  rw [nodes_member] at inside
  induction members with
  | nil => cases found
  | cons first rest ih =>
    rw [memberNodes]
    rcases List.mem_cons.mp found with rfl | found
    · exact List.mem_append_left _ inside
    · exact List.mem_append_right _ (ih found)

theorem mem_segmentNodes {segments : List Segment} {list : TypeArgs}
    (found : list ∈ segments.filterMap Segment.args?) (inside : node ∈ list.nodes) :
    node ∈ segmentNodes segments := by
  induction segments with
  | nil => cases found
  | cons segment rest ih =>
    cases segment with
    | plain name =>
      rw [segmentNodes]
      exact ih found
    | applied name first =>
      rw [segmentNodes]
      rcases List.mem_cons.mp found with rfl | found
      · exact List.mem_append_left _ inside
      · exact List.mem_append_right _ (ih found)

theorem mem_argNodes {list : List TypeArg} {arg : TypeArg} (found : arg ∈ list)
    (inside : node ∈ arg.subtree.nodes) : node ∈ argNodes list := by
  induction list with
  | nil => cases found
  | cons first rest ih =>
    rcases List.mem_cons.mp found with rfl | found
    · cases arg with
      | exact r =>
        rw [argNodes]
        exact List.mem_append_left _ inside
      | unbounded range =>
        rw [argNodes]
        rcases List.mem_singleton.mp inside with rfl
        exact List.mem_cons_self
      | bounded range kind r =>
        rw [argNodes]
        rcases List.mem_cons.mp inside with rfl | inside
        · exact List.mem_cons_self
        · exact List.mem_cons_of_mem _ (List.mem_append_left _ inside)
    · have later := ih found
      cases first <;> rw [argNodes]
      · exact List.mem_append_right _ later
      · exact List.mem_cons_of_mem _ later
      · exact List.mem_cons_of_mem _ (List.mem_append_right _ later)

theorem child_nodes {part child : Subtree} (member : child ∈ part.children)
    (inside : node ∈ child.nodes) : node ∈ part.nodes := by
  cases part <;> simp only [children, List.mem_append, List.mem_cons, List.mem_map,
    List.not_mem_nil, or_false] at member
  case unit tree =>
    refine List.mem_cons_of_mem _ (List.mem_append.mpr ?_)
    rcases member with ⟨inner, found, rfl⟩ | ⟨index, found, rfl⟩
    · exact .inl (mem_memberNodes found inside)
    · rcases List.mem_singleton.mp inside with rfl
      exact .inr (List.mem_map_of_mem found)
  case importDecl range r =>
    subst member
    exact List.mem_cons_of_mem _ inside
  case typeDecl range keyword name list supertypes members =>
    refine List.mem_cons_of_mem _ ?_
    simp only [List.append_eq, List.mem_append]
    rcases member with (⟨declared, found, rfl⟩ | ⟨r, found, rfl⟩) | ⟨inner, found, rfl⟩
    · rw [Option.mem_toList] at found
      subst found
      exact .inl (.inl inside)
    · exact .inl (.inr (List.mem_flatMap.mpr ⟨r, found, inside⟩))
    · exact .inr (mem_memberNodes found inside)
  case methodDecl range list members =>
    refine List.mem_cons_of_mem _ (List.mem_append.mpr ?_)
    rcases member with rfl | ⟨inner, found, rfl⟩
    · exact .inl inside
    · exact .inr (mem_memberNodes found inside)
  case creation range type members list =>
    refine List.mem_cons_of_mem _ ?_
    simp only [List.append_eq, List.mem_append]
    rcases member with (rfl | ⟨inner, found, rfl⟩) | ⟨explicit, found, rfl⟩
    · exact .inl (.inl inside)
    · exact .inl (.inr (mem_memberNodes found inside))
    · rw [Option.mem_toList] at found
      subst found
      exact .inr inside
  case witness range list method =>
    subst member
    exact List.mem_cons_of_mem _ inside
  case params list =>
    obtain ⟨declared, found, rfl⟩ := member
    exact List.mem_cons_of_mem _ (List.mem_flatMap.mpr ⟨declared, found, inside⟩)
  case param declared =>
    obtain ⟨r, found, rfl⟩ := member
    exact List.mem_cons_of_mem _ (List.mem_flatMap.mpr ⟨r, found, inside⟩)
  case ref r =>
    obtain ⟨list, found, rfl⟩ := member
    cases r
    rw [nodes, TypeRef.nodes]
    exact List.mem_cons_of_mem _ (mem_segmentNodes found inside)
  case args list =>
    obtain ⟨arg, found, rfl⟩ := member
    cases list
    rw [nodes, TypeArgs.nodes]
    exact List.mem_cons_of_mem _ (mem_argNodes found inside)
  case wildcard range bound =>
    obtain ⟨r, found, rfl⟩ := member
    rw [Option.mem_toList] at found
    subst found
    exact List.mem_cons_of_mem _ inside

theorem mem_nodes_of_below {part lower : Subtree} (below : part.Below lower) :
    lower.node ∈ part.nodes := by
  -- From the top: the walk over a node contains the walks over its children.
  induction below using Relation.ReflTransGen.head_induction_on with
  | refl => exact self_mem_nodes lower
  | head step _ ih => exact child_nodes step ih

end Subtree

theorem Tree.mem_nodes_iff (tree : Tree) : node ∈ tree.nodes ↔ (Subtree.unit tree).Holds node := by
  constructor
  · exact Tree.holds_nodes
  · rintro ⟨lower, below, rfl⟩
    exact Subtree.mem_nodes_of_below below

end Specializer
