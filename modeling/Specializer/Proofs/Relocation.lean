import Specializer.Proofs.MemberLayout
import Specializer.Proofs.Outcomes
import Specializer.Proofs.Renumbering

set_option autoImplicit false

namespace Specializer

section Indices

variable (test : Token → Bool)

theorem indicesFrom_eq (index : Nat) (tokens : List Token) :
    indicesFrom test index tokens =
      ((tokens.zipIdx index).filter fun pair => test pair.1).map Prod.snd := by
  induction tokens generalizing index with
  | nil => rfl
  | cons token rest ih =>
    by_cases passes : test token = true <;> simp [indicesFrom, passes, ih, List.zipIdx_cons]

theorem indices_increasing (tokens : List Token) : (indices test tokens).Pairwise (· < ·) := by
  rw [indices, indicesFrom_eq]
  have sublist : (((tokens.zipIdx 0).filter fun pair => test pair.1).map Prod.snd).Sublist
      ((tokens.zipIdx 0).map Prod.snd) := List.filter_sublist.map _
  refine List.Pairwise.sublist sublist ?_
  rw [List.zipIdx_map_snd]
  exact List.pairwise_lt_range'

theorem mem_indices (tokens : List Token) (index : Nat) :
    index ∈ indices test tokens ↔ ∃ token, tokens[index]? = some token ∧ test token = true := by
  rw [indices, indicesFrom_eq]
  simp only [List.mem_map, List.mem_filter, Prod.exists, List.mem_zipIdx_iff_getElem?,
    exists_eq_right]

theorem getElem?_indices (tokens : List Token) (k : Nat) :
    (indices test tokens)[k]?.bind (fun index => tokens[index]?) = (tokens.filter test)[k]? := by
  have texts : tokens.filter test =
      ((tokens.zipIdx 0).filter fun pair => test pair.1).map Prod.fst := by
    calc tokens.filter test = ((tokens.zipIdx 0).map Prod.fst).filter test := by
          rw [List.zipIdx_map_fst]
      _ = ((tokens.zipIdx 0).filter fun pair => test pair.1).map Prod.fst := by
          rw [List.filter_map]
          rfl
  -- Numbers and tokens are the two halves of one filtered list of pairs.
  rw [indices, indicesFrom_eq, texts, List.getElem?_map, List.getElem?_map]
  cases found : ((tokens.zipIdx 0).filter fun pair => test pair.1)[k]? with
  | none => rfl
  | some pair =>
    have member := (List.mem_filter.mp (List.mem_of_getElem? found)).1
    exact List.mem_zipIdx_iff_getElem?.mp member

end Indices

/-- A map of places that keeps their order and finds the same lexemes. -/
structure Relocates (place : Nat → Nat) (lexemes texts : List Lexeme) : Prop where
  increasing : ∀ a b, a < b → b < lexemes.length → place a < place b
  same : ∀ (k : Nat) (lexeme : Lexeme), lexemes[k]? = some lexeme → texts[place k]? = some lexeme

def lexemesOf (tokens : List Token) : List Lexeme := tokens.map fun token => token.toLexeme

theorem lexemesOf_some {tokens : List Token} {index : Nat} {lexeme : Lexeme}
    (found : (lexemesOf tokens)[index]? = some lexeme) :
    ∃ token, tokens[index]? = some token ∧ token.toLexeme = lexeme := by
  rw [lexemesOf, List.getElem?_map] at found
  exact Option.map_eq_some_iff.mp found

/-- Where the significant tokens stand among all. -/
abbrev placeIn (tokens : List Token) (k : Nat) : Nat :=
  (significant tokens).toArray.getD k tokens.length

theorem significant_relocates (tokens : List Token) :
    Relocates (placeIn tokens) (significantLexemes tokens) (lexemesOf tokens) := by
  have found (k : Nat) (lexeme : Lexeme) (there : (significantLexemes tokens)[k]? = some lexeme) :
      ∃ index, (significant tokens)[k]? = some index ∧ (lexemesOf tokens)[index]? = some lexeme := by
    rw [significantLexemes, List.getElem?_map, ← getElem?_indices] at there
    obtain ⟨token, bound, rfl⟩ := Option.map_eq_some_iff.mp there
    obtain ⟨index, position, at_⟩ := Option.bind_eq_some_iff.mp bound
    refine ⟨index, position, ?_⟩
    rw [lexemesOf, List.getElem?_map, at_]
    rfl
  constructor
  · intro a b less inside
    obtain ⟨first, firstAt, -⟩ := found a _ (List.getElem?_eq_getElem (Nat.lt_trans less inside))
    obtain ⟨second, secondAt, -⟩ := found b _ (List.getElem?_eq_getElem inside)
    have order : (significant tokens).Pairwise (· < ·) := indices_increasing _ tokens
    obtain ⟨boundA, valueA⟩ := List.getElem?_eq_some_iff.mp firstAt
    obtain ⟨boundB, valueB⟩ := List.getElem?_eq_some_iff.mp secondAt
    simpa [Array.getD, boundA, boundB] using
      List.pairwise_iff_getElem.mp order a b boundA boundB less
  · intro k lexeme there
    obtain ⟨index, position, at_⟩ := found k lexeme there
    obtain ⟨bound, value⟩ := List.getElem?_eq_some_iff.mp position
    simpa [Array.getD, bound, value] using at_

theorem significantLexemes_meaningful (tokens : List Token) :
    Grammar.Meaningful (significantLexemes tokens) := by
  intro lexeme member
  obtain ⟨token, found, rfl⟩ := List.mem_map.mp member
  simpa [Token.isTrivia] using (List.mem_filter.mp found).2

section Renumbering

variable {place : Nat → Nat} {lexemes texts : List Lexeme}

@[simp] theorem Name.range_relocate (name : Name) :
    (name.relocate place).range = name.range.relocate place := rfl

theorem Successive.relocate (relocates : Relocates place lexemes texts) {ranges : List Range}
    {low high low' high' : Nat} (successive : Successive low ranges high)
    (inside : high ≤ lexemes.length)
    (left : ∀ k, low ≤ k → k < lexemes.length → low' ≤ place k)
    (right : ∀ k, k < high → place k < high') (order : low' ≤ high') :
    Successive low' (ranges.map (Range.relocate place)) high' := by
  induction ranges generalizing low low' with
  | nil => exact order
  | cons range rest ih =>
    obtain ⟨start, nonempty, tail⟩ := successive
    have bound := tail.le
    -- The stop of a range is moved with its last place, which may be its first, too.
    refine ⟨left _ start (by omega), ?_, ih tail ?_ ?_⟩
    · change place range.start < place (range.stop - 1) + 1
      by_cases single : range.start = range.stop - 1
      · rw [single]
        omega
      · have less := relocates.increasing range.start (range.stop - 1) (by omega) (by omega)
        omega
    · intro k after before
      exact relocates.increasing (range.stop - 1) k (by omega) before
    · exact right (range.stop - 1) (by omega)

theorem Relocates.le (relocates : Relocates place lexemes texts) {a b : Nat} (order : a ≤ b)
    (inside : b < lexemes.length) : place a ≤ place b := by
  rcases Nat.lt_or_eq_of_le order with less | rfl
  · exact Nat.le_of_lt (relocates.increasing a b less inside)
  · exact Nat.le_refl _

theorem Successive.relocate_in (relocates : Relocates place lexemes texts) {range : Range}
    {ranges : List Range} (nonempty : range.start < range.stop)
    (inside : range.stop ≤ lexemes.length)
    (successive : Successive range.start ranges range.stop) :
    Successive (range.relocate place).start (ranges.map (Range.relocate place))
      (range.relocate place).stop := by
  refine successive.relocate relocates inside ?_ ?_ ?_
  · intro k after before
    exact relocates.le after before
  · intro k before
    exact Nat.lt_succ_of_le (relocates.le (by omega) (by omega))
  · exact Nat.le_succ_of_le (relocates.le (by omega) (by omega))

theorem Successive.relocate_behind (relocates : Relocates place lexemes texts) {range : Range}
    {ranges : List Range} (inside : range.stop ≤ lexemes.length)
    (successive : Successive (range.start + 1) ranges range.stop) :
    Successive ((range.relocate place).start + 1) (ranges.map (Range.relocate place))
      (range.relocate place).stop := by
  have room := successive.le
  refine successive.relocate relocates inside ?_ ?_ ?_
  · intro k after before
    exact relocates.increasing range.start k (by omega) before
  · intro k before
    exact Nat.lt_succ_of_le (relocates.le (by omega) (by omega))
  · exact Nat.succ_le_succ (relocates.le (by omega) (by omega))

theorem Successive.relocate_between (relocates : Relocates place lexemes texts) {range : Range}
    {ranges : List Range} (inside : range.stop ≤ lexemes.length) (nonempty : range.start < range.stop)
    (successive : Successive (range.start + 1) ranges (range.stop - 1)) :
    Successive ((range.relocate place).start + 1) (ranges.map (Range.relocate place))
      ((range.relocate place).stop - 1) := by
  have room := successive.le
  refine successive.relocate relocates (by omega) ?_ ?_ ?_
  · intro k after before
    exact relocates.increasing range.start k (by omega) before
  · intro k before
    exact relocates.increasing k (range.stop - 1) before (by omega)
  · exact relocates.increasing range.start (range.stop - 1) (by omega) (by omega)

namespace Subtree

def relocate (place : Nat → Nat) : Subtree → Subtree
  | unit tree => unit ⟨tree.size, relocateMembers place tree.members, tree.docs⟩
  | importDecl range r => importDecl (range.relocate place) (r.relocate place)
  | typeDecl range keyword name list supertypes members =>
    typeDecl (range.relocate place) (keyword.relocate place) (name.relocate place)
      (list.map (TypeParams.relocate place)) (supertypes.map (TypeRef.relocate place))
      (relocateMembers place members)
  | methodDecl range list members =>
    methodDecl (range.relocate place) (list.relocate place) (relocateMembers place members)
  | creation range type members list =>
    creation (range.relocate place) (type.relocate place) (relocateMembers place members)
      (list.map (TypeArgs.relocate place))
  | witness range list method =>
    witness (range.relocate place) (list.relocate place) (method.relocate place)
  | params list => params (list.relocate place)
  | param declared => param (declared.relocate place)
  | ref r => ref (r.relocate place)
  | args list => args (list.relocate place)
  | wildcard range bound =>
    wildcard (range.relocate place) (bound.map (TypeRef.relocate place))
  | doc index => doc index

def InCode : Subtree → Prop
  | unit _ | doc _ => False
  | _ => True

theorem inCode_member (member : Member) : member.subtree.InCode := by
  cases member <;> trivial

theorem inCode_arg (arg : TypeArg) : arg.subtree.InCode := by
  cases arg <;> trivial

theorem InCode.children {part child : Subtree} (inCode : part.InCode)
    (member : child ∈ part.children) : child.InCode := by
  cases part <;> simp only [Subtree.children, List.mem_append, List.mem_cons, List.mem_map,
    List.not_mem_nil, or_false] at member
  case unit => exact inCode.elim
  case importDecl | witness => exact member ▸ trivial
  case typeDecl =>
    rcases member with (⟨_, -, rfl⟩ | ⟨_, -, rfl⟩) | ⟨inner, -, rfl⟩
    · trivial
    · trivial
    · exact inCode_member inner
  case methodDecl =>
    rcases member with rfl | ⟨inner, -, rfl⟩
    · trivial
    · exact inCode_member inner
  case creation =>
    rcases member with (rfl | ⟨inner, -, rfl⟩) | ⟨_, -, rfl⟩
    · trivial
    · exact inCode_member inner
    · trivial
  case args =>
    obtain ⟨arg, -, rfl⟩ := member
    exact inCode_arg arg
  case params | param | ref | wildcard =>
    obtain ⟨_, -, rfl⟩ := member
    trivial

theorem relocate_member (member : Member) :
    (member.relocate place).subtree = member.subtree.relocate place := by
  cases member <;> simp [Member.relocate, Member.subtree, Subtree.relocate]

theorem relocate_arg (arg : TypeArg) :
    (arg.relocate place).subtree = arg.subtree.relocate place := by
  cases arg <;> rfl

theorem relocate_segments (r : TypeRef) :
    (r.relocate place).segments = r.segments.map (Segment.relocate place) := by
  cases r
  rw [TypeRef.relocate, TypeRef.segments, TypeRef.segments, relocateSegments_eq]

theorem relocate_args (list : TypeArgs) :
    (list.relocate place).args = list.args.map (TypeArg.relocate place) := by
  cases list
  rw [TypeArgs.relocate, TypeArgs.args, TypeArgs.args, relocateArgs_eq]

theorem args?_relocate (segment : Segment) :
    (segment.relocate place).args? = segment.args?.map (TypeArgs.relocate place) := by
  cases segment <;> rfl

theorem name_relocate (segment : Segment) :
    (segment.relocate place).name = segment.name.relocate place := by
  cases segment <;> rfl

theorem children_relocate (part : Subtree) :
    (part.relocate place).children = part.children.map (Subtree.relocate place) := by
  cases part <;> simp only [Subtree.relocate, Subtree.children, relocateMembers_eq, relocate_segments,
    relocate_args, List.map_append, List.map_cons, List.map_nil, List.map_map, Option.toList_map,
    List.filterMap_map, List.map_filterMap, Function.comp_def, relocate_member, relocate_arg,
    args?_relocate, Option.map_map, TypeParams.relocate, TypeParam.relocate]

theorem names_relocate (part : Subtree) :
    (part.relocate place).names = part.names.map (Name.relocate place) := by
  cases part <;> simp [Subtree.relocate, Subtree.names, relocate_segments, name_relocate,
    TypeParam.relocate, Function.comp_def]

theorem range_relocate {part : Subtree} (inCode : part.InCode) :
    (part.relocate place).range = part.range.relocate place := by
  cases part <;> simp only [Subtree.relocate, Subtree.range, TypeRef.range_relocate,
    TypeArgs.range_relocate, TypeParams.relocate, TypeParam.relocate]
  case unit | doc => exact inCode.elim

theorem marks_relocate (segments : List Segment) :
    (segments.map (Segment.relocate place)).flatMap Segment.marks =
      (segments.flatMap Segment.marks).map (Range.relocate place) := by
  induction segments with
  | nil => rfl
  | cons segment rest ih =>
    rw [List.map_cons, List.flatMap_cons, List.flatMap_cons, List.map_append, ih]
    congr 1
    cases segment with
    | plain name => rfl
    | applied name list => simp [Segment.relocate, Segment.marks]

theorem arranged_relocate (relocates : Relocates place lexemes texts) {part : Subtree}
    (inCode : part.InCode) (nonempty : part.range.start < part.range.stop)
    (inside : part.range.stop ≤ lexemes.length) (arranged : part.Arranged) :
    (part.relocate place).Arranged := by
  -- Nodes differ in how far their brackets keep the contents from their ends.
  cases part
  case unit | doc => exact inCode.elim
  case importDecl range r =>
    have moved := Successive.relocate_in relocates nonempty inside arranged
    simpa [Subtree.relocate, Subtree.range, Arranged] using moved
  case typeDecl range keyword name list supertypes members =>
    obtain ⟨header, body, rfl, successive⟩ := arranged
    refine ⟨header.map (Member.relocate place), body.map (Member.relocate place), ?_, ?_⟩
    · rw [relocateMembers_eq, List.map_append]
    · have moved := Successive.relocate_in relocates nonempty inside successive
      simpa [Subtree.range, Function.comp_def, Option.toList_map] using moved
  case methodDecl range list members =>
    have moved := Successive.relocate_in relocates nonempty inside arranged
    simpa [Subtree.relocate, Subtree.range, Arranged, relocateMembers_eq, Function.comp_def] using moved
  case creation range type members list =>
    have moved := Successive.relocate_in relocates nonempty inside arranged
    simpa [Subtree.relocate, Subtree.range, Arranged, relocateMembers_eq, Function.comp_def,
      Option.toList_map] using moved
  case witness range list method =>
    have moved := Successive.relocate_in relocates nonempty inside arranged
    simpa [Subtree.relocate, Subtree.range, Arranged] using moved
  case params list =>
    have moved := Successive.relocate_between relocates inside nonempty arranged
    simpa [Subtree.relocate, Subtree.range, Arranged, Function.comp_def, TypeParams.relocate] using moved
  case param declared =>
    have moved := Successive.relocate_in relocates nonempty inside arranged
    simpa [Subtree.relocate, Subtree.range, Arranged, Function.comp_def, TypeParam.relocate] using moved
  case ref r =>
    obtain ⟨range, segments, dims⟩ := r
    have moved := Successive.relocate_in relocates nonempty inside arranged
    rw [← marks_relocate] at moved
    simpa [Subtree.relocate, Subtree.range, TypeRef.relocate, TypeRef.range, Arranged,
      relocateSegments_eq] using moved
  case args list =>
    obtain ⟨range, list⟩ := list
    have moved := Successive.relocate_between relocates inside nonempty arranged
    simpa [Subtree.relocate, Subtree.range, TypeArgs.relocate, TypeArgs.range, Arranged,
      relocateArgs_eq, Function.comp_def] using moved
  case wildcard range bound =>
    have moved := Successive.relocate_behind relocates inside arranged
    simpa [Subtree.relocate, Subtree.range, Arranged, Function.comp_def, Option.toList_map] using moved

theorem InCode.bounded {part : Subtree} (inCode : part.InCode) (bounded : part.Bounded lexemes) :
    part.range.start < part.range.stop ∧ Solid lexemes part.range.start ∧
      Solid lexemes (part.range.stop - 1) := by
  cases part
  case unit | doc => exact inCode.elim
  all_goals exact bounded

theorem bounded_relocate (relocates : Relocates place lexemes texts) {part : Subtree}
    (inCode : part.InCode) (bounded : part.Bounded lexemes) :
    (part.relocate place).Bounded texts := by
  obtain ⟨nonempty, ⟨first, firstAt, firstKind⟩, last, lastAt, lastKind⟩ := inCode.bounded bounded
  have inside := (List.getElem?_eq_some_iff.mp lastAt).1
  have moved : (part.relocate place).range.start < (part.relocate place).range.stop ∧
      Solid texts (part.relocate place).range.start ∧
      Solid texts ((part.relocate place).range.stop - 1) := by
    rw [range_relocate inCode]
    refine ⟨?_, ⟨first, relocates.same _ _ firstAt, firstKind⟩,
      last, relocates.same _ _ lastAt, lastKind⟩
    exact Nat.lt_succ_of_le (relocates.le (by omega) inside)
  cases part
  case unit | doc => exact inCode.elim
  all_goals exact moved

theorem sound_relocate (relocates : Relocates place lexemes texts) {part : Subtree}
    (sound : part.Sound lexemes) (inCode : part.InCode) : (part.relocate place).Sound texts := by
  unfold Sound at sound
  -- On the evidence, not the tree: each child is sound by itself.
  induction sound with
  | @intro part here below ih =>
    obtain ⟨nonempty, -, last⟩ := inCode.bounded here.bounded
    have inside := last.lt
    refine .intro ⟨?_, ?_, bounded_relocate relocates inCode here.bounded⟩ ?_
    · exact arranged_relocate relocates inCode nonempty (by omega) here.arranged
    · intro name member
      rw [names_relocate] at member
      obtain ⟨old, found, rfl⟩ := List.mem_map.mp member
      exact relocates.same _ _ (here.stands old found)
    · intro child member
      rw [children_relocate] at member
      obtain ⟨old, found, rfl⟩ := List.mem_map.mp member
      exact ih old found (inCode.children found)

end Subtree

end Renumbering

theorem Grammar.conclude_ok {lexemes : List Lexeme} {found : List Member}
    (parsed : conclude (members lexemes) = .ok found) : ∃ next, members lexemes = .done found next := by
  cases outcome : members lexemes with
  | done value next =>
    rw [outcome] at parsed
    cases parsed
    exact ⟨next, rfl⟩
  | miss | fail | stuck =>
    rw [outcome] at parsed
    cases parsed

theorem Grammar.membersOf_eq (tokens : List Token) :
    membersOf tokens = (members (significantLexemes tokens)).relocate (placeIn tokens)
      (List.map (Member.relocate (placeIn tokens))) :=
  members_renumber (significantLexemes tokens)

-- A parse gives the members that the significant lexemes hold, at their places, or fails where the
-- lexemes do.
theorem parseTokens_eq (tokens : List Token) :
    parseTokens tokens =
      match Grammar.conclude (Grammar.members (significantLexemes tokens)) with
      | .error failure => .error ((failure.relocate (placeIn tokens)).fault tokens)
      | .ok members =>
        .ok ⟨tokens.length, relocateMembers (placeIn tokens) members, docComments tokens⟩ := by
  rw [parseTokens, Grammar.membersOf_eq, Grammar.conclude_renumber]
  cases Grammar.conclude (Grammar.members (significantLexemes tokens)) <;> rfl

theorem parseTokens_ok {tokens : List Token} {tree : Tree} (parsed : parseTokens tokens = .ok tree) :
    ∃ found next, Grammar.members (significantLexemes tokens) = .done found next ∧
      tree = ⟨tokens.length, relocateMembers (placeIn tokens) found, docComments tokens⟩ := by
  rw [parseTokens_eq] at parsed
  split at parsed
  next => cases parsed
  next found concluded =>
    obtain ⟨next, outcome⟩ := Grammar.conclude_ok concluded
    cases parsed
    exact ⟨found, next, outcome, rfl⟩

theorem parseTokens_sound {tokens : List Token} {tree : Tree}
    (parsed : parseTokens tokens = .ok tree) : (Subtree.unit tree).Sound (lexemesOf tokens) := by
  have relocates := significant_relocates tokens
  obtain ⟨found, next, outcome, rfl⟩ := parseTokens_ok parsed
  have row := Grammar.members_row (significantLexemes_meaningful tokens) outcome
  -- The root counts all tokens; its members were read over the significant ones and are moved.
  refine .intro ⟨?_, ?_, ?_⟩ ?_
  · have moved : Successive 0 ((found.map Member.range).map (Range.relocate (placeIn tokens)))
        tokens.length := by
      refine row.1.relocate relocates (Nat.le_refl _) ?_ ?_ (Nat.zero_le _)
      · intro k _ _
        exact Nat.zero_le _
      · intro k before
        have there := relocates.same k _ (List.getElem?_eq_getElem before)
        have inside := (List.getElem?_eq_some_iff.mp there).1
        simpa [lexemesOf] using inside
    simpa [Subtree.Arranged, relocateMembers_eq, Function.comp_def] using moved
  · intro name member
    cases member
  · simp [Subtree.Bounded, lexemesOf]
  · intro child member
    simp only [Subtree.children, List.mem_append, List.mem_map, relocateMembers_eq] at member
    rcases member with ⟨_, ⟨old, found, rfl⟩, rfl⟩ | ⟨index, found, rfl⟩
    · rw [Subtree.relocate_member]
      exact Subtree.sound_relocate relocates (row.2 old found) (Subtree.inCode_member old)
    · obtain ⟨token, there, kind⟩ := (mem_indices _ _ _).mp found
      refine .intro ⟨trivial, ?_, ?_⟩ ?_
      · intro name member
        cases member
      · refine ⟨token.toLexeme, ?_, by simpa using kind⟩
        rw [lexemesOf, List.getElem?_map, there]
        rfl
      · intro child member
        cases member

theorem parseTokens_docs {tokens : List Token} {tree : Tree}
    (parsed : parseTokens tokens = .ok tree) : tree.docs = docComments tokens := by
  obtain ⟨-, -, -, rfl⟩ := parseTokens_ok parsed
  rfl

theorem parse_ok {source : List Char} {tokens : List Token} {tree : Tree}
    (parsed : parse source = .ok (tokens, tree)) :
    tokenize source = .ok tokens ∧ parseTokens tokens = .ok tree := by
  simp only [parse, bind_eq_ok, pure_eq_ok, Prod.mk.injEq] at parsed
  obtain ⟨found, lexed, result, read, rfl, rfl⟩ := parsed
  exact ⟨lexed, read⟩

theorem parse_sound {source : List Char} {tokens : List Token} {tree : Tree}
    (parsed : parse source = .ok (tokens, tree)) :
    (Subtree.unit tree).Sound (lexemesOf tokens) :=
  parseTokens_sound (parse_ok parsed).2

end Specializer
