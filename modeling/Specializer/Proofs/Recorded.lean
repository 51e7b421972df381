import Specializer.Proofs.Coverage

set_option autoImplicit false

namespace Specializer

mutual

def TypeRef.recorded : TypeRef → List Name
  | .mk _ segments _ => segmentsRecorded segments

def segmentsRecorded : List Segment → List Name
  | [] => []
  | .plain name :: rest => name :: segmentsRecorded rest
  | .applied name args :: rest => name :: args.recorded ++ segmentsRecorded rest

def TypeArgs.recorded : TypeArgs → List Name
  | .mk _ args => argsRecorded args

def argsRecorded : List TypeArg → List Name
  | [] => []
  | .exact ref :: rest => ref.recorded ++ argsRecorded rest
  | .unbounded _ :: rest => argsRecorded rest
  | .bounded _ _ ref :: rest => ref.recorded ++ argsRecorded rest

end

def TypeParam.recorded (param : TypeParam) : List Name :=
  param.name :: param.bounds.flatMap TypeRef.recorded

def TypeParams.recorded (params : TypeParams) : List Name := params.params.flatMap TypeParam.recorded

mutual

def Member.recorded : Member → List Name
  | .typeUse ref => ref.recorded
  | .importDecl _ ref _ _ => ref.recorded
  | .typeDecl _ _ name params supertypes members =>
    name :: params.toList.flatMap TypeParams.recorded ++ supertypes.flatMap TypeRef.recorded ++
      membersRecorded members
  | .methodDecl _ params members => params.recorded ++ membersRecorded members
  | .creation _ type members constructorArgs =>
    type.recorded ++ membersRecorded members ++ constructorArgs.toList.flatMap TypeArgs.recorded
  | .witness _ args method => method :: args.recorded

def membersRecorded : List Member → List Name
  | [] => []
  | member :: rest => member.recorded ++ membersRecorded rest

end

def Tree.recorded (tree : Tree) : List Name := membersRecorded tree.members

theorem membersRecorded_eq (members : List Member) :
    membersRecorded members = members.flatMap Member.recorded := by
  induction members with
  | nil => rw [membersRecorded, List.flatMap_nil]
  | cons member rest ih => rw [membersRecorded, ih, List.flatMap_cons]

def TypeArg.recorded : TypeArg → List Name
  | .exact ref | .bounded _ _ ref => ref.recorded
  | .unbounded _ => []

theorem argsRecorded_eq (args : List TypeArg) :
    argsRecorded args = args.flatMap TypeArg.recorded := by
  induction args with
  | nil => rw [argsRecorded, List.flatMap_nil]
  | cons arg rest ih => cases arg <;> simp [argsRecorded, TypeArg.recorded, ih]

theorem TypeArgs.recorded_eq (list : TypeArgs) :
    list.recorded = list.args.flatMap TypeArg.recorded := by
  cases list
  rw [TypeArgs.recorded, argsRecorded_eq, TypeArgs.args]

theorem segmentsRecorded_perm (segments : List Segment) :
    (segmentsRecorded segments).Perm (segments.map Segment.name ++
      (segments.filterMap Segment.args?).flatMap TypeArgs.recorded) := by
  induction segments with
  | nil => rw [segmentsRecorded]; exact .refl _
  | cons segment rest ih =>
    cases segment with
    | plain name =>
      rw [segmentsRecorded]
      exact ih.cons name
    | applied name args =>
      rw [segmentsRecorded]
      refine List.Perm.cons name ?_
      -- The names in the arguments come before those of the other segments, or behind.
      refine (ih.append_left args.recorded).trans ?_
      rw [← List.append_assoc]
      refine (List.perm_append_comm.append_right _).trans ?_
      rw [List.append_assoc]
      exact .refl _

theorem TypeRef.recorded_perm (ref : TypeRef) :
    ref.recorded.Perm (ref.segments.map Segment.name ++
      (ref.segments.filterMap Segment.args?).flatMap TypeArgs.recorded) := by
  cases ref with
  | mk range segments dims =>
    rw [TypeRef.recorded]
    exact segmentsRecorded_perm segments

namespace Subtree

def recorded : Subtree → List Name
  | unit tree => tree.recorded
  | importDecl _ r => r.recorded
  | typeDecl _ _ name list supertypes members =>
    name :: list.toList.flatMap TypeParams.recorded ++ supertypes.flatMap TypeRef.recorded ++
      membersRecorded members
  | methodDecl _ list members => list.recorded ++ membersRecorded members
  | creation _ type members list =>
    type.recorded ++ membersRecorded members ++ list.toList.flatMap TypeArgs.recorded
  | witness _ list method => method :: list.recorded
  | params list => list.recorded
  | param declared => declared.recorded
  | ref r => r.recorded
  | args list => list.recorded
  | wildcard _ bound => bound.toList.flatMap TypeRef.recorded
  | doc _ => []

@[simp] theorem recorded_params (list : TypeParams) : (params list).recorded = list.recorded := rfl

@[simp] theorem recorded_param (declared : TypeParam) :
    (param declared).recorded = declared.recorded := rfl

@[simp] theorem recorded_ref (r : TypeRef) : (ref r).recorded = r.recorded := rfl

@[simp] theorem recorded_args (list : TypeArgs) : (args list).recorded = list.recorded := rfl

@[simp] theorem recorded_doc (index : Nat) : (doc index).recorded = [] := rfl

@[simp] theorem recorded_member (member : Member) : member.subtree.recorded = member.recorded := by
  cases member <;> rw [Member.recorded] <;> rfl

@[simp] theorem recorded_arg (arg : TypeArg) : arg.subtree.recorded = arg.recorded := by
  cases arg <;> simp [TypeArg.subtree, recorded, TypeArg.recorded]

theorem recorded_perm (part : Subtree) :
    part.recorded.Perm (part.own ++ part.children.flatMap recorded) := by
  cases part
  case ref r => simpa [own, names, children, List.flatMap_map] using r.recorded_perm
  case unit tree =>
    have docs : (tree.docs.map doc).flatMap recorded = [] := by simp [List.flatMap_eq_nil_iff]
    rw [recorded, children, List.flatMap_append, docs]
    simp [own, names, List.flatMap_map, Tree.recorded, membersRecorded_eq]
  case params list =>
    rw [recorded]
    simp [own, names, children, List.flatMap_map, TypeParams.recorded]
  case args list =>
    rw [recorded]
    simp [own, names, children, List.flatMap_map, TypeArgs.recorded_eq]
  all_goals
    rw [recorded]
    simp [own, names, children, List.flatMap_map, membersRecorded_eq, TypeParam.recorded]

variable {lexemes : List Lexeme} {part lower : Subtree} {name : Name}

theorem mem_recorded (below : part.Below lower) (own : name ∈ lower.own) : name ∈ part.recorded := by
  induction below using Relation.ReflTransGen.head_induction_on with
  | refl => exact lower.recorded_perm.mem_iff.mpr (List.mem_append_left _ own)
  | @head part child step _ ih =>
    refine part.recorded_perm.mem_iff.mpr (List.mem_append_right _ ?_)
    exact List.mem_flatMap.mpr ⟨child, step, ih⟩

theorem of_mem_recorded {condition : Subtree → Prop} (everywhere : part.Everywhere condition)
    (member : name ∈ part.recorded) : ∃ lower, part.Below lower ∧ name ∈ lower.own := by
  induction everywhere with
  | @intro part _ _ ih =>
    rcases List.mem_append.mp (part.recorded_perm.mem_iff.mp member) with here | inside
    · exact ⟨part, .refl, here⟩
    · obtain ⟨child, step, inChild⟩ := List.mem_flatMap.mp inside
      obtain ⟨lower, below, own⟩ := ih child step inChild
      exact ⟨lower, below.head step, own⟩

theorem recorded_range (inCode : part.InCode) (sound : part.Sound lexemes)
    (member : name ∈ part.recorded) :
    part.range.start ≤ name.index ∧ name.index < part.range.stop := by
  obtain ⟨lower, below, own⟩ := of_mem_recorded sound member
  exact name_range inCode sound below (own_names own)

theorem own_sublist (part : Subtree) : part.own.Sublist part.names := by
  cases part <;> first | exact .refl _ | exact List.sublist_cons_self _ _

theorem recorded_apart {first second : Subtree} (apart : first.range.Apart second.range)
    (inFirst : first.InCode) (inSecond : second.InCode) (left : first.Sound lexemes)
    (right : second.Sound lexemes) :
    ∀ a ∈ first.recorded, ∀ b ∈ second.recorded, a.index ≠ b.index := by
  intro a inA b inB
  have low := recorded_range inFirst left inA
  have high := recorded_range inSecond right inB
  simp only [Range.Apart] at apart
  omega

theorem recorded_distinct (inCode : part.InCode) (sound : part.Sound lexemes) :
    part.recorded.Pairwise fun a b => a.index ≠ b.index := by
  have everywhere := sound
  induction everywhere with
  | @intro part placed _ ih =>
    obtain ⟨spread, -⟩ := contents_spread inCode placed
    obtain ⟨names, children, across⟩ := List.pairwise_append.mp spread
    refine part.recorded_perm.symm.pairwise ?_ fun differ => Ne.symm differ
    refine List.pairwise_append.mpr ⟨?_, List.pairwise_flatMap.mpr ⟨?_, ?_⟩, ?_⟩
    · refine ((List.pairwise_map.mp names).sublist part.own_sublist).imp fun apart => ?_
      simp only [Range.Apart, Name.range] at apart
      omega
    · intro child step
      exact ih child step (inCode.children step) (sound.child step)
    · refine (List.pairwise_map.mp children).imp_of_mem fun inFirst inSecond apart => ?_
      exact recorded_apart apart (inCode.children inFirst) (inCode.children inSecond)
        (sound.child inFirst) (sound.child inSecond)
    · intro own here other inside
      obtain ⟨child, step, inChild⟩ := List.mem_flatMap.mp inside
      have within := recorded_range (inCode.children step) (sound.child step) inChild
      have beside := across _ (List.mem_map_of_mem (own_names here)) _ (List.mem_map_of_mem step)
      simp only [Range.Apart, Name.range] at beside
      omega

end Subtree

theorem Tree.recorded_distinct {lexemes : List Lexeme} {tree : Tree}
    (sound : (Subtree.unit tree).Sound lexemes) : (tree.recorded.map Name.index).Nodup := by
  have inside {member : Member} (found : member ∈ tree.members) : member.subtree.Sound lexemes :=
    sound.child (Subtree.member_child found)
  refine List.pairwise_map.mpr ?_
  rw [Tree.recorded, membersRecorded_eq]
  refine List.pairwise_flatMap.mpr ⟨?_, ?_⟩
  · intro member found
    rw [← Subtree.recorded_member]
    exact Subtree.recorded_distinct (Subtree.inCode_member member) (inside found)
  · refine (Subtree.members_ordered sound.here.arranged).imp_of_mem fun {a b} inFirst inSecond order => ?_
    rw [← Subtree.recorded_member, ← Subtree.recorded_member]
    refine Subtree.recorded_apart ?_ (Subtree.inCode_member a) (Subtree.inCode_member b)
      (inside inFirst) (inside inSecond)
    simpa [Range.Apart] using Or.inl order

end Specializer
