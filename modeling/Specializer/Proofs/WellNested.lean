import Specializer.Proofs.Relocation
import Specializer.Proofs.Walk

set_option autoImplicit false

namespace Specializer

def Range.Apart (a b : Range) : Prop := a.stop ≤ b.start ∨ b.stop ≤ a.start

theorem Range.Apart.symm {a b : Range} (apart : a.Apart b) : b.Apart a := Or.symm apart

namespace Subtree

def Contents (part : Subtree) (ranges : List Range) : Prop :=
  ranges.Perm (part.names.map Name.range ++ part.children.map Subtree.range)

variable {lexemes : List Lexeme} {part : Subtree}

theorem marks_perm (segments : List Segment) :
    (segments.flatMap Segment.marks).Perm
      ((segments.map Segment.name).map Name.range ++
        (segments.filterMap Segment.args?).map TypeArgs.range) := by
  induction segments with
  | nil => exact .refl _
  | cons segment rest ih =>
    cases segment with
    | plain name => exact ih.cons _
    | applied name list =>
      refine List.Perm.cons _ ?_
      exact (ih.cons _).trans (List.perm_middle.symm)

theorem arranged_contents (inCode : part.InCode) (arranged : part.Arranged)
    (nonempty : part.range.start < part.range.stop) :
    ∃ ranges, part.Contents ranges ∧ Successive part.range.start ranges part.range.stop := by
  cases part
  case unit | doc => exact inCode.elim
  case importDecl range r => exact ⟨_, .refl _, arranged⟩
  case typeDecl range keyword name list supertypes members =>
    -- Members of the header stand in front of the supertypes, but all members come last here.
    obtain ⟨header, body, rfl, successive⟩ := arranged
    refine ⟨_, ?_, successive⟩
    simp only [Contents, names, children, List.map_append, List.map_map, Function.comp_def,
      Member.range_subtree, List.append_assoc, range_params, range_ref]
    refine List.Perm.append_left _ (List.Perm.append_left _ ?_)
    rw [← List.append_assoc, ← List.append_assoc]
    exact List.perm_append_comm.append_right _
  case methodDecl range list members =>
    refine ⟨_, ?_, arranged⟩
    simp [Contents, names, children, Function.comp_def]
  case creation range type members list =>
    refine ⟨_, ?_, arranged⟩
    simp only [Contents, names, children, List.map_append, List.map_cons, List.map_nil,
      List.nil_append, List.map_map, Function.comp_def, Member.range_subtree, range_ref, range_args]
    exact List.perm_append_comm
  case witness range list method => exact ⟨_, List.Perm.swap _ _ _, arranged⟩
  case params list =>
    refine ⟨_, ?_, Successive.widen arranged (Nat.le_succ _) (Nat.sub_le _ _)⟩
    simp [Contents, names, children, Function.comp_def]
  case param declared =>
    refine ⟨_, ?_, arranged⟩
    simp [Contents, names, children, Function.comp_def]
  case ref r =>
    obtain ⟨range, segments, dims⟩ := r
    refine ⟨_, ?_, arranged⟩
    simpa [Contents, names, children, Function.comp_def, TypeRef.segments] using
      marks_perm segments
  case args list =>
    obtain ⟨range, list⟩ := list
    refine ⟨_, ?_, Successive.widen arranged (Nat.le_succ _) (Nat.sub_le _ _)⟩
    simp [Contents, names, children, Function.comp_def, TypeArgs.args]
  case wildcard range bound =>
    refine ⟨_, ?_, Successive.widen arranged (Nat.le_succ _) (Nat.le_refl _)⟩
    simp [Contents, names, children, Function.comp_def]

/-- What it is for a node to be well nested among the tokens. -/
structure WellNested (tokens : List Token) (part : Subtree) : Prop where
  nonempty : part.kind ≠ .unit →
    part.range.start < part.range.stop ∧ part.range.stop ≤ tokens.length
  encloses : ∀ child ∈ part.children,
    part.range.start ≤ child.range.start ∧ child.range.stop ≤ part.range.stop
  apart : (part.children.filter fun child => child.kind != .docComment).Pairwise
    fun a b => a.range.Apart b.range
  ordered : part.members.Pairwise fun a b => a.range.stop ≤ b.range.start
  solid : part.kind ≠ .unit → part.kind ≠ .docComment →
    part.range.start ∈ significant tokens ∧ part.range.stop - 1 ∈ significant tokens
  named : ∀ name ∈ part.names,
    (∃ token, tokens[name.index]? = some token ∧ token.kind = .ident ∧ token.text = name.text) ∧
      (part.range.start ≤ name.index ∧ name.index < part.range.stop) ∧
      ∀ child ∈ part.children, name.index < child.range.start ∨ child.range.stop ≤ name.index

theorem mem_significant {tokens : List Token} {index : Nat} (solid : Solid (lexemesOf tokens) index) :
    index ∈ significant tokens := by
  obtain ⟨lexeme, found, meaning⟩ := solid
  obtain ⟨token, there, rfl⟩ := lexemesOf_some found
  exact (mem_indices _ _ _).mpr ⟨token, there, by simpa [Token.isTrivia] using meaning⟩

theorem members_ordered (arranged : part.Arranged) :
    part.members.Pairwise fun a b => a.range.stop ≤ b.range.start := by
  cases part
  case unit tree => exact List.pairwise_map.mp (Successive.pairwise arranged)
  case typeDecl range keyword name list supertypes members =>
    obtain ⟨header, body, rfl, successive⟩ := arranged
    have sublist : ((header ++ body).map Member.range).Sublist
        ([keyword.range, name.range] ++ list.toList.map TypeParams.range ++
          header.map Member.range ++ supertypes.map TypeRef.range ++ body.map Member.range) := by
      rw [List.map_append]
      exact ((List.sublist_append_right _ _).trans (List.sublist_append_left _ _)).append
        (List.Sublist.refl _)
    exact List.pairwise_map.mp (successive.pairwise.sublist sublist)
  case methodDecl range list members =>
    exact List.pairwise_map.mp (List.pairwise_cons.mp (Successive.pairwise arranged)).2
  case creation range type members list =>
    have behind := (List.pairwise_append.mp (Successive.pairwise arranged)).2.1
    exact List.pairwise_map.mp (List.pairwise_cons.mp behind).2
  all_goals exact .nil

theorem contents_spread (inCode : part.InCode) (placed : part.Placed lexemes) :
    (part.names.map Name.range ++ part.children.map Subtree.range).Pairwise Range.Apart ∧
      ∀ range ∈ part.names.map Name.range ++ part.children.map Subtree.range,
        part.range.start ≤ range.start ∧ range.stop ≤ part.range.stop := by
  obtain ⟨nonempty, -, -⟩ := inCode.bounded placed.bounded
  obtain ⟨ranges, contents, successive⟩ := arranged_contents inCode placed.arranged nonempty
  constructor
  · exact (successive.pairwise.imp fun order => Or.inl order).perm contents fun apart => apart.symm
  · intro range member
    have bounds := successive.inside (contents.mem_iff.mpr member)
    exact ⟨bounds.1, bounds.2.2⟩

theorem inCode_wellNested {tokens : List Token} (inCode : part.InCode)
    (placed : part.Placed (lexemesOf tokens)) : part.WellNested tokens := by
  obtain ⟨nonempty, first, last⟩ := inCode.bounded placed.bounded
  have inside : part.range.stop ≤ tokens.length := by
    have bound := last.lt
    simp only [lexemesOf, List.length_map] at bound
    omega
  obtain ⟨spread, bounds⟩ := contents_spread inCode placed
  obtain ⟨-, childrenApart, across⟩ := List.pairwise_append.mp spread
  refine ⟨fun _ => ⟨nonempty, inside⟩, ?_, ?_, members_ordered placed.arranged,
    fun _ _ => ⟨mem_significant first, mem_significant last⟩, ?_⟩
  · intro child member
    exact bounds _ (List.mem_append_right _ (List.mem_map_of_mem member))
  · exact (List.pairwise_map.mp childrenApart).sublist List.filter_sublist
  · intro name member
    refine ⟨?_, bounds _ (List.mem_append_left _ (List.mem_map_of_mem member)), ?_⟩
    · have stands := placed.stands name member
      obtain ⟨token, there, same⟩ := lexemesOf_some stands
      exact ⟨token, there, congrArg Lexeme.kind same, congrArg Lexeme.text same⟩
    · intro child found
      exact across _ (List.mem_map_of_mem member) _ (List.mem_map_of_mem found)

theorem unit_wellNested {tokens : List Token} {tree : Tree}
    (sound : (unit tree).Sound (lexemesOf tokens)) : (unit tree).WellNested tokens := by
  have placed := sound.here
  have size : tree.size = tokens.length := by
    have whole : tree.size = (lexemesOf tokens).length := placed.bounded
    simpa [lexemesOf] using whole
  have inside (child : Subtree) (member : child ∈ (unit tree).children) :
      child.range.stop ≤ tree.size := by
    rcases List.mem_append.mp member with found | found
    · obtain ⟨inner, there, rfl⟩ := List.mem_map.mp found
      have bounds := Successive.inside placed.arranged (List.mem_map_of_mem there)
      rw [Member.range_subtree]
      exact bounds.2.2
    · obtain ⟨index, -, rfl⟩ := List.mem_map.mp found
      obtain ⟨lexeme, there, -⟩ := (sound.child member).here.bounded
      have bound := (List.getElem?_eq_some_iff.mp there).1
      simp only [lexemesOf, List.length_map] at bound
      rw [size]
      exact bound
  refine ⟨fun other => (other rfl).elim, fun child member => ⟨Nat.zero_le _, inside child member⟩, ?_,
    members_ordered placed.arranged, fun other => (other rfl).elim, fun name member => by cases member⟩
  have docs : (tree.docs.map doc).filter (fun child => child.kind != .docComment) = [] := by
    simp [List.filter_eq_nil_iff, kind]
  rw [children, List.filter_append, docs, List.append_nil]
  refine List.Pairwise.sublist List.filter_sublist (List.pairwise_map.mpr ?_)
  exact (members_ordered placed.arranged).imp fun order => .inl (by simpa using order)

theorem doc_wellNested {tokens : List Token} {index : Nat}
    (placed : (doc index).Placed (lexemesOf tokens)) : (doc index).WellNested tokens := by
  obtain ⟨lexeme, there, -⟩ := placed.bounded
  have bound := (List.getElem?_eq_some_iff.mp there).1
  simp only [lexemesOf, List.length_map] at bound
  exact
    { nonempty := fun _ => ⟨Nat.lt_succ_self _, bound⟩
      encloses := fun child member => by cases member
      apart := .nil
      ordered := .nil
      solid := fun _ other => (other rfl).elim
      named := fun name member => by cases member }

theorem sound_wellNested {tokens : List Token} (sound : part.Sound (lexemesOf tokens)) :
    part.WellNested tokens := by
  cases part
  case unit tree => exact unit_wellNested sound
  case doc index => exact doc_wellNested sound.here
  all_goals exact inCode_wellNested trivial sound.here

theorem Below.inCode {lower : Subtree} (below : part.Below lower) (inCode : part.InCode) :
    lower.InCode := by
  induction below with
  | refl => exact inCode
  | tail _ step ih => exact ih.children step

end Subtree

theorem memberNodes_kind {members : List Member} {node : Node} (member : node ∈ memberNodes members) :
    node.kind ≠ .docComment := by
  obtain ⟨inner, -, lower, below, rfl⟩ := members_hold members member
  have inCode := below.inCode (Subtree.inCode_member inner)
  cases lower <;> first | exact inCode.elim | exact nofun

def Tree.docNodesAt (tree : Tree) (index : Nat) : List Node :=
  tree.nodes.filter fun node =>
    node.kind == .docComment && decide (node.range.start ≤ index ∧ index < node.range.stop)

theorem Tree.docNodesAt_eq (tree : Tree) (index : Nat) :
    tree.docNodesAt index =
      List.replicate (tree.docs.count index) ⟨.docComment, ⟨index, index + 1⟩⟩ := by
  have inCode : (memberNodes tree.members).filter (fun node =>
      node.kind == .docComment && decide (node.range.start ≤ index ∧ index < node.range.stop)) = [] := by
    refine List.filter_eq_nil_iff.mpr fun node member => ?_
    simp [memberNodes_kind member]
  -- The nodes of comments are listed after the code, one for each.
  have inDocs (docs : List Nat) : (docs.map fun doc => (⟨.docComment, ⟨doc, doc + 1⟩⟩ : Node)).filter
      (fun node => node.kind == .docComment &&
        decide (node.range.start ≤ index ∧ index < node.range.stop)) =
      List.replicate (docs.count index) ⟨.docComment, ⟨index, index + 1⟩⟩ := by
    induction docs with
    | nil => rfl
    | cons doc rest ih =>
      by_cases same : doc = index
      · subst same
        rw [List.map_cons, List.filter_cons_of_pos (by simp), ih, List.count_cons_self,
          List.replicate_succ]
      · have other : ¬ (doc ≤ index ∧ index < doc + 1) := by omega
        rw [List.map_cons, List.filter_cons_of_neg (by simpa using other), ih,
          List.count_cons_of_ne same]
  rw [docNodesAt, Tree.nodes, List.filter_append, List.filter_cons_of_neg (by simp), inCode, inDocs,
    List.nil_append]

theorem count_docComments (tokens : List Token) (index : Nat) :
    (docComments tokens).count index =
      if tokens[index]?.any (fun token => token.kind == .docComment) then 1 else 0 := by
  have distinct : (docComments tokens).Nodup := (indices_increasing _ tokens).imp Nat.ne_of_lt
  have present : index ∈ docComments tokens ↔
      tokens[index]?.any (fun token => token.kind == .docComment) = true := by
    rw [docComments, mem_indices, Option.any_eq_true]
  split
  next is => rw [distinct.count, if_pos (present.mpr is)]
  next other => rw [distinct.count, if_neg (mt present.mp other)]

/-- Every node of a parsed tree is well nested, and a token has as many nodes of documentation
comments over it as it is itself one: one that covers just this token, or none. -/
theorem parse_well_nested {source : List Char} {tokens : List Token} {tree : Tree}
    (parsed : parse source = .ok (tokens, tree)) :
    (∀ node, node ∈ tree.nodes ↔
        ∃ part, (Subtree.unit tree).Below part ∧ part.node = node) ∧
      (∀ part, (Subtree.unit tree).Below part → part.WellNested tokens) ∧
      ∀ index, tree.docNodesAt index =
        if tokens[index]?.any (fun token => token.kind == .docComment) then
          [⟨.docComment, ⟨index, index + 1⟩⟩]
        else [] := by
  have sound := parse_sound parsed
  refine ⟨fun node => tree.mem_nodes_iff, ?_, ?_⟩
  · intro part below
    exact Subtree.sound_wellNested (sound.at_below below)
  · intro index
    rw [tree.docNodesAt_eq, parseTokens_docs (parse_ok parsed).2, count_docComments]
    split
    next => rfl
    next => rfl

theorem parse_well_nested_documented :
    ∃ tokens tree, parse "/** a */ class KTypeA<KType> { KType[] x; }".toList = .ok (tokens, tree) ∧
      (∀ part, (Subtree.unit tree).Below part → part.WellNested tokens) ∧
      tree.docNodesAt 0 = [⟨.docComment, ⟨0, 1⟩⟩] := by
  obtain ⟨⟨tokens, tree⟩, parsed, documented⟩ := ok_of_any
    (show (parse "/** a */ class KTypeA<KType> { KType[] x; }".toList).toOption.any
      (fun result => result.1[0]?.any fun token => token.kind == .docComment) = true by
        decide +kernel)
  obtain ⟨-, nested, docs⟩ := parse_well_nested parsed
  refine ⟨tokens, tree, parsed, nested, ?_⟩
  rw [docs 0]
  exact if_pos documented

end Specializer
