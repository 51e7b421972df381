import Mathlib.Logic.Relation
import Specializer.Proofs.Induction
import Specializer.Tree.Walk

set_option autoImplicit false

namespace Specializer

def Name.range (name : Name) : Range := ⟨name.index, name.index + 1⟩

inductive Subtree
  | unit (tree : Tree)
  | importDecl (range : Range) (ref : TypeRef)
  | typeDecl (range : Range) (keyword name : Name) (params : Option TypeParams)
      (supertypes : List TypeRef) (members : List Member)
  | methodDecl (range : Range) (params : TypeParams) (members : List Member)
  | creation (range : Range) (type : TypeRef) (members : List Member)
      (constructorArgs : Option TypeArgs)
  | witness (range : Range) (args : TypeArgs) (method : Name)
  | params (params : TypeParams)
  | param (param : TypeParam)
  | ref (ref : TypeRef)
  | args (args : TypeArgs)
  | wildcard (range : Range) (bound : Option TypeRef)
  | doc (index : Nat)

def Member.subtree : Member → Subtree
  | .typeUse ref => .ref ref
  | .importDecl range ref _ _ => .importDecl range ref
  | .typeDecl range keyword name params supertypes members =>
    .typeDecl range keyword name params supertypes members
  | .methodDecl range params members => .methodDecl range params members
  | .creation range type members constructorArgs => .creation range type members constructorArgs
  | .witness range args method => .witness range args method

def TypeArg.subtree : TypeArg → Subtree
  | .exact ref => .ref ref
  | .unbounded range => .wildcard range none
  | .bounded range _ ref => .wildcard range (some ref)

namespace Subtree

def kind : Subtree → NodeKind
  | unit _ => .unit
  | importDecl _ _ => .importDecl
  | typeDecl _ _ _ _ _ _ => .typeDecl
  | methodDecl _ _ _ => .methodDecl
  | creation _ _ _ _ => .creation
  | witness _ _ _ => .witness
  | params _ => .typeParams
  | param _ => .typeParam
  | ref _ => .typeRef
  | args _ => .typeArgs
  | wildcard _ _ => .wildcard
  | doc _ => .docComment

def range : Subtree → Range
  | unit tree => ⟨0, tree.size⟩
  | importDecl range _ | typeDecl range _ _ _ _ _ | methodDecl range _ _ | creation range _ _ _
  | witness range _ _ | wildcard range _ => range
  | params list => list.range
  | param declared => declared.range
  | ref r => r.range
  | args list => list.range
  | doc index => ⟨index, index + 1⟩

def node (part : Subtree) : Node := ⟨part.kind, part.range⟩

def children : Subtree → List Subtree
  | unit tree => tree.members.map Member.subtree ++ tree.docs.map doc
  | importDecl _ r => [ref r]
  | typeDecl _ _ _ list supertypes members =>
    list.toList.map params ++ supertypes.map ref ++ members.map Member.subtree
  | methodDecl _ list members => params list :: members.map Member.subtree
  | creation _ type members list =>
    ref type :: members.map Member.subtree ++ list.toList.map args
  | witness _ list _ => [args list]
  | params list => list.params.map param
  | param declared => declared.bounds.map ref
  | ref r => (r.segments.filterMap Segment.args?).map args
  | args list => list.args.map TypeArg.subtree
  | wildcard _ bound => bound.toList.map ref
  | doc _ => []

def names : Subtree → List Name
  | typeDecl _ keyword name _ _ _ => [keyword, name]
  | witness _ _ method => [method]
  | param declared => [declared.name]
  | ref r => r.segments.map Segment.name
  | _ => []

def members : Subtree → List Member
  | unit tree => tree.members
  | typeDecl _ _ _ _ _ members | methodDecl _ _ members | creation _ _ members _ => members
  | _ => []

@[simp] theorem range_params (list : TypeParams) : (params list).range = list.range := rfl

@[simp] theorem range_param (declared : TypeParam) : (param declared).range = declared.range := rfl

@[simp] theorem range_ref (r : TypeRef) : (ref r).range = r.range := rfl

@[simp] theorem range_args (list : TypeArgs) : (args list).range = list.range := rfl

end Subtree

@[simp] theorem Member.range_subtree (member : Member) : member.subtree.range = member.range := by
  cases member <;> rfl

@[simp] theorem TypeArg.range_subtree (arg : TypeArg) : arg.subtree.range = arg.range := by
  cases arg <;> rfl

namespace Subtree

inductive Everywhere (condition : Subtree → Prop) : Subtree → Prop
  | intro {part : Subtree} (here : condition part)
      (below : ∀ child ∈ part.children, Everywhere condition child) : Everywhere condition part

/-- A subtree below another, or that one itself. -/
def Below : Subtree → Subtree → Prop := Relation.ReflTransGen fun part child => child ∈ part.children

theorem params_child {range : Range} {keyword name : Name} {declared : Option TypeParams}
    {supertypes : List TypeRef} {members : List Member} {list : TypeParams} (own : list ∈ declared) :
    params list ∈ (typeDecl range keyword name declared supertypes members).children :=
  List.mem_append_left _ (List.mem_append_left _ (List.mem_map_of_mem (Option.mem_toList.mpr own)))

theorem super_child {range : Range} {keyword name : Name} {declared : Option TypeParams}
    {supertypes : List TypeRef} {members : List Member} {type : TypeRef} (own : type ∈ supertypes) :
    ref type ∈ (typeDecl range keyword name declared supertypes members).children :=
  List.mem_append_left _ (List.mem_append_right _ (List.mem_map_of_mem own))

theorem args_child {range : Range} {type : TypeRef} {members : List Member} {explicit : Option TypeArgs}
    {list : TypeArgs} (own : list ∈ explicit) :
    args list ∈ (creation range type members explicit).children :=
  List.mem_append_right _ (List.mem_map_of_mem (Option.mem_toList.mpr own))

theorem doc_child {tree : Tree} {index : Nat} (own : index ∈ tree.docs) :
    doc index ∈ (unit tree).children :=
  List.mem_append_right _ (List.mem_map_of_mem own)

theorem member_child {part : Subtree} {member : Member} (own : member ∈ part.members) :
    member.subtree ∈ part.children := by
  cases part <;> simp only [members, List.not_mem_nil] at own <;>
    simp only [children, List.mem_append, List.mem_cons, List.mem_map]
  case unit => exact .inl ⟨member, own, rfl⟩
  case typeDecl => exact .inr ⟨member, own, rfl⟩
  case methodDecl => exact .inr ⟨member, own, rfl⟩
  case creation => exact .inl (.inr ⟨member, own, rfl⟩)

variable {condition other : Subtree → Prop} {part : Subtree}

theorem Everywhere.here (everywhere : Everywhere condition part) : condition part := by
  cases everywhere with
  | intro here _ => exact here

theorem Everywhere.child (everywhere : Everywhere condition part) {lower : Subtree}
    (member : lower ∈ part.children) : Everywhere condition lower := by
  cases everywhere with
  | intro _ below => exact below lower member

theorem Everywhere.bound {arg : TypeArg} {r : TypeRef} (everywhere : Everywhere condition arg.subtree)
    (has : r ∈ arg.ref?) : Everywhere condition (ref r) := by
  cases arg with
  | unbounded range => cases has
  | exact inner =>
    cases has
    exact everywhere
  | bounded range kind inner =>
    cases has
    exact everywhere.child List.mem_cons_self

theorem Everywhere.inside {list : TypeArgs} (everywhere : Everywhere condition (args list)) {r : TypeRef}
    (among : r ∈ list.refs) : Everywhere condition (ref r) := by
  obtain ⟨arg, member, has⟩ := List.mem_filterMap.mp among
  exact (everywhere.child (List.mem_map_of_mem member)).bound has

theorem Everywhere.inner {outer r : TypeRef} (everywhere : Everywhere condition (ref outer))
    {segment : Segment} (member : segment ∈ outer.segments) (among : r ∈ segment.refs) :
    Everywhere condition (ref r) := by
  cases segment with
  | plain name => cases among
  | applied name list =>
    exact (everywhere.child (List.mem_map_of_mem (List.mem_filterMap.mpr ⟨_, member, rfl⟩))).inside among

theorem Everywhere.mono (everywhere : Everywhere condition part)
    (weaker : ∀ part, Everywhere condition part → other part) : Everywhere other part := by
  -- The weaker condition may look at everything below.
  induction everywhere with
  | intro here below ih => exact .intro (weaker _ (.intro here below)) ih

theorem Everywhere.at_below (everywhere : Everywhere condition part) {lower : Subtree}
    (below : Below part lower) : Everywhere condition lower := by
  induction below with
  | refl => exact everywhere
  | tail _ step ih => exact ih.child step

end Subtree

def Successive : Nat → List Range → Nat → Prop
  | low, [], high => low ≤ high
  | low, range :: rest, high =>
    low ≤ range.start ∧ range.start < range.stop ∧ Successive range.stop rest high

namespace Successive

variable {low middle high : Nat} {first second ranges : List Range}

theorem le (successive : Successive low ranges high) : low ≤ high := by
  induction ranges generalizing low with
  | nil => exact successive
  | cons range rest ih =>
    have tail := ih successive.2.2
    have head := successive.1
    have nonempty := successive.2.1
    omega

theorem widen (successive : Successive low ranges high) {low' high' : Nat} (left : low' ≤ low)
    (right : high ≤ high') : Successive low' ranges high' := by
  induction ranges generalizing low low' with
  | nil =>
    have inner : low ≤ high := successive
    change low' ≤ high'
    omega
  | cons range rest ih =>
    exact ⟨Nat.le_trans left successive.1, successive.2.1, ih successive.2.2 (Nat.le_refl _)⟩

theorem append (left : Successive low first middle) (right : Successive middle second high) :
    Successive low (first ++ second) high := by
  induction first generalizing low with
  | nil => exact right.widen left (Nat.le_refl _)
  | cons range rest ih => exact ⟨left.1, left.2.1, ih left.2.2⟩

theorem split (successive : Successive low (first ++ second) high) :
    ∃ middle, Successive low first middle ∧ Successive middle second high := by
  induction first generalizing low with
  | nil => exact ⟨low, Nat.le_refl low, successive⟩
  | cons range rest ih =>
    obtain ⟨middle, left, right⟩ := ih successive.2.2
    exact ⟨middle, ⟨successive.1, successive.2.1, left⟩, right⟩

theorem inside (successive : Successive low ranges high) {range : Range} (member : range ∈ ranges) :
    low ≤ range.start ∧ range.start < range.stop ∧ range.stop ≤ high := by
  induction ranges generalizing low with
  | nil => cases member
  | cons head rest ih =>
    have after := successive.2.2.le
    rcases List.mem_cons.mp member with rfl | member
    · exact ⟨successive.1, successive.2.1, after⟩
    · have tail := ih successive.2.2 member
      have head := successive.1
      have nonempty := successive.2.1
      omega

theorem pairwise (successive : Successive low ranges high) :
    ranges.Pairwise fun a b => a.stop ≤ b.start := by
  induction ranges generalizing low with
  | nil => exact .nil
  | cons head rest ih =>
    exact .cons (fun range member => (successive.2.2.inside member).1) (ih successive.2.2)

end Successive

def Segment.marks : Segment → List Range
  | .plain name => [name.range]
  | .applied name args => [name.range, args.range]

namespace Subtree

/-- What stands in a node, in the order of the text: its names and its children, inside its range,
and inside its brackets if it has some. -/
def Arranged : Subtree → Prop
  | unit tree => Successive 0 (tree.members.map Member.range) tree.size
  | importDecl range r => Successive range.start [r.range] range.stop
  | typeDecl range keyword name list supertypes members =>
    -- The members of a record's header stand before the supertypes, all others behind.
    ∃ header body, members = header ++ body ∧
      Successive range.start
        ([keyword.range, name.range] ++ list.toList.map TypeParams.range ++
          header.map Member.range ++ supertypes.map TypeRef.range ++ body.map Member.range)
        range.stop
  | methodDecl range list members =>
    Successive range.start (list.range :: members.map Member.range) range.stop
  | creation range type members list =>
    Successive range.start
      (list.toList.map TypeArgs.range ++ type.range :: members.map Member.range) range.stop
  | witness range list method => Successive range.start [list.range, method.range] range.stop
  | params ⟨range, list⟩ =>
    Successive (range.start + 1) (list.map TypeParam.range) (range.stop - 1)
  | param ⟨range, name, bounds⟩ =>
    Successive range.start (name.range :: bounds.map TypeRef.range) range.stop
  | ref (.mk range segments _) =>
    Successive range.start (segments.flatMap Segment.marks) range.stop
  | args (.mk range list) =>
    Successive (range.start + 1) (list.map TypeArg.range) (range.stop - 1)
  | wildcard range bound =>
    Successive (range.start + 1) (bound.toList.map TypeRef.range) range.stop
  | doc _ => True

end Subtree

def Solid (lexemes : List Lexeme) (index : Nat) : Prop :=
  ∃ lexeme, lexemes[index]? = some lexeme ∧ lexeme.kind.isTrivia = false

theorem Solid.lt {lexemes : List Lexeme} {index : Nat} (solid : Solid lexemes index) :
    index < lexemes.length := by
  obtain ⟨lexeme, found, -⟩ := solid
  exact (List.getElem?_eq_some_iff.mp found).1

def Name.Stands (lexemes : List Lexeme) (name : Name) : Prop :=
  lexemes[name.index]? = some ⟨.ident, name.text⟩

namespace Subtree

/-- Where a node begins and ends: the whole template with the first and the last token of all, a
documentation comment with itself, any other with tokens that carry meaning. -/
def Bounded (lexemes : List Lexeme) : Subtree → Prop
  | unit tree => tree.size = lexemes.length
  | doc index => ∃ lexeme, lexemes[index]? = some lexeme ∧ lexeme.kind = .docComment
  | part => part.range.start < part.range.stop ∧ Solid lexemes part.range.start ∧
      Solid lexemes (part.range.stop - 1)

structure Placed (lexemes : List Lexeme) (part : Subtree) : Prop where
  arranged : part.Arranged
  stands : ∀ name ∈ part.names, name.Stands lexemes
  bounded : part.Bounded lexemes

def Sound (lexemes : List Lexeme) (part : Subtree) : Prop := part.Everywhere (Placed lexemes)

end Subtree

end Specializer
