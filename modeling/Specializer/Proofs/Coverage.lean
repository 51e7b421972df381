import Specializer.Proofs.Confinement

set_option autoImplicit false

namespace Specializer

namespace Subtree

variable {lexemes : List Lexeme} {part first second : Subtree} {name other : Name}

def own : Subtree → List Name
  | typeDecl _ _ name _ _ _ => [name]
  | part => part.names

def slot? : Subtree → Option Slot
  | param declared => Slot.ofText? declared.name.text
  | ref r => r.slot?
  | _ => none

theorem own_names (own : name ∈ part.own) : name ∈ part.names := by
  cases part <;> first | exact own | exact List.mem_cons_of_mem _ own

theorem below_cases (below : part.Below first) :
    first = part ∨ ∃ child ∈ part.children, child.Below first := by
  rcases below.cases_head with rfl | ⟨child, member, rest⟩
  · exact .inl rfl
  · exact .inr ⟨child, member, rest⟩

def isType (part : Subtree) : Bool :=
  part.kind ∈ [.typeParams, .typeParam, .typeRef, .typeArgs, .wildcard]

theorem isType_child (type : part.isType = true) {child : Subtree} (member : child ∈ part.children) :
    child.isType = true := by
  cases part <;> simp only [isType, kind, List.mem_cons, List.not_mem_nil, reduceCtorEq, or_self,
    decide_false, Bool.false_eq_true] at type
  case params list | param declared | ref r | wildcard range bound =>
    obtain ⟨_, -, rfl⟩ := List.mem_map.mp member
    rfl
  case args list =>
    obtain ⟨arg, -, rfl⟩ := List.mem_map.mp member
    cases arg <;> rfl

theorem member_or_type (inCode : part.InCode) {child : Subtree} (step : child ∈ part.children) :
    (∃ member ∈ part.members, member.subtree = child) ∨ child.isType = true := by
  cases part <;> simp only [children, List.mem_append, List.mem_cons, List.mem_map, List.not_mem_nil,
    or_false] at step
  case unit => exact inCode.elim
  case importDecl | witness =>
    obtain rfl := step
    exact .inr rfl
  case typeDecl =>
    rcases step with (⟨_, -, rfl⟩ | ⟨_, -, rfl⟩) | own
    · exact .inr rfl
    · exact .inr rfl
    · exact .inl own
  case methodDecl =>
    rcases step with rfl | own
    · exact .inr rfl
    · exact .inl own
  case creation =>
    rcases step with (rfl | own) | ⟨_, -, rfl⟩
    · exact .inr rfl
    · exact .inl own
    · exact .inr rfl
  case params | param | ref | wildcard =>
    obtain ⟨_, -, rfl⟩ := step
    exact .inr rfl
  case args =>
    obtain ⟨arg, -, rfl⟩ := step
    cases arg <;> exact .inr rfl

theorem isType_below (type : part.isType = true) (below : part.Below first) :
    first.isType = true := by
  induction below with
  | refl => exact type
  | tail _ step ih => exact isType_child ih step

theorem below_range (inCode : part.InCode) (sound : part.Sound lexemes) (below : part.Below first) :
    part.range.start ≤ first.range.start ∧ first.range.stop ≤ part.range.stop := by
  induction below with
  | refl => exact ⟨Nat.le_refl _, Nat.le_refl _⟩
  | @tail middle lower above step ih =>
    have spread := contents_spread (Below.inCode above inCode) (sound.at_below above).here
    have inside := spread.2 _ (List.mem_append_right _ (List.mem_map_of_mem step))
    omega

theorem name_range (inCode : part.InCode) (sound : part.Sound lexemes) (below : part.Below first)
    (own : name ∈ first.names) : part.range.start ≤ name.index ∧ name.index < part.range.stop := by
  have outer := below_range inCode sound below
  have spread := contents_spread (below.inCode inCode) (sound.at_below below).here
  have inside := spread.2 _ (List.mem_append_left _ (List.mem_map_of_mem own))
  simp only [Name.range] at inside
  omega

-- Children that share a token are one child, since they stand apart.
theorem child_unique (inCode : part.InCode) (placed : part.Placed lexemes)
    (inFirst : first ∈ part.children) (inSecond : second ∈ part.children) {index : Nat}
    (left : first.range.start ≤ index ∧ index < first.range.stop)
    (right : second.range.start ≤ index ∧ index < second.range.stop) : first = second := by
  obtain ⟨spread, -⟩ := contents_spread inCode placed
  obtain ⟨-, children, -⟩ := List.pairwise_append.mp spread
  have symm : Std.Symm fun a b : Subtree => a.range.Apart b.range := ⟨fun _ _ => Range.Apart.symm⟩
  by_contra differ
  have beside := (List.pairwise_map.mp children).forall inFirst inSecond differ
  simp only [Range.Apart] at beside
  omega

theorem name_apart_child (inCode : part.InCode) (placed : part.Placed lexemes)
    (own : name ∈ part.names) (member : first ∈ part.children) :
    ¬ (first.range.start ≤ name.index ∧ name.index < first.range.stop) := by
  obtain ⟨spread, -⟩ := contents_spread inCode placed
  obtain ⟨-, -, across⟩ := List.pairwise_append.mp spread
  have beside := across _ (List.mem_map_of_mem own) _ (List.mem_map_of_mem member)
  simp only [Range.Apart, Name.range] at beside
  omega

theorem name_unique (inCode : part.InCode) (sound : part.Sound lexemes) (left : part.Below first)
    (right : part.Below second) (inFirst : name ∈ first.names) (inSecond : other ∈ second.names)
    (same : name.index = other.index) : first = second := by
  have everywhere := sound
  induction everywhere with
  | @intro part placed _ ih =>
    have within {child lower : Subtree} {inner : Name} (member : child ∈ part.children)
        (below : child.Below lower) (inside : inner ∈ lower.names) :
        child.range.start ≤ inner.index ∧ inner.index < child.range.stop :=
      name_range (inCode.children member) (sound.child member) below inside
    rcases below_cases left with rfl | ⟨child, member, below⟩ <;>
      rcases below_cases right with rfl | ⟨child', member', below'⟩
    · rfl
    · exact absurd (same ▸ within member' below' inSecond)
        (name_apart_child inCode placed inFirst member')
    · exact absurd (same ▸ within member below inFirst)
        (name_apart_child inCode placed inSecond member)
    · have equal : child = child' := child_unique inCode placed member member'
        (within member below inFirst) (same ▸ within member' below' inSecond)
      subst equal
      exact ih child member (inCode.children member) (sound.child member) below below'

theorem below_of_name (inCode : part.InCode) (sound : part.Sound lexemes) (left : part.Below first)
    (right : part.Below second) (own : name ∈ second.names)
    (inside : first.range.start ≤ name.index ∧ name.index < first.range.stop) :
    first.Below second := by
  have everywhere := sound
  induction everywhere with
  | @intro part placed _ ih =>
    rcases below_cases left with rfl | ⟨child, member, below⟩
    · exact right
    · have outer := below_range (inCode.children member) (sound.child member) below
      have around : child.range.start ≤ name.index ∧ name.index < child.range.stop := by omega
      rcases below_cases right with rfl | ⟨child', member', below'⟩
      · exact absurd around (name_apart_child inCode placed own member)
      · have equal : child = child' := child_unique inCode placed member member' around
          (name_range (inCode.children member') (sound.child member') below' own)
        subst equal
        exact ih child member (inCode.children member) (sound.child member) below below'

theorem list_wide (list : part.kind = .typeParams ∨ part.kind = .typeArgs) (arranged : part.Arranged) :
    part.range.start + 1 < part.range.stop := by
  have inner : part.range.start + 1 ≤ part.range.stop - 1 := by
    cases part <;> simp only [kind, reduceCtorEq, or_self] at list
    case params declared => exact Successive.le arranged
    case args given =>
      obtain ⟨range, entries⟩ := given
      exact Successive.le arranged
  omega

theorem below_unit {tree : Tree} (below : (unit tree).Below part) (inCode : part.InCode) :
    ∃ member ∈ tree.members, member.subtree.Below part := by
  rcases below_cases below with rfl | ⟨child, member, rest⟩
  · exact inCode.elim
  · rcases List.mem_append.mp member with found | found
    · obtain ⟨inner, there, rfl⟩ := List.mem_map.mp found
      exact ⟨inner, there, rest⟩
    · obtain ⟨index, -, rfl⟩ := List.mem_map.mp found
      rcases below_cases rest with rfl | ⟨_, none, -⟩
      · exact inCode.elim
      · cases none

theorem inCode_of_list (list : part.kind = .typeParams ∨ part.kind = .typeArgs) : part.InCode := by
  cases part <;> first | exact trivial | simp [kind] at list

theorem inCode_of_name (own : name ∈ part.names) : part.InCode := by
  cases part <;> first | exact trivial | cases own

section Unit

variable {tree : Tree} (sound : (unit tree).Sound lexemes)

include sound

theorem sound_member {member : Member} (found : member ∈ tree.members) :
    member.subtree.Sound lexemes :=
  sound.child (Subtree.member_child found)

theorem member_unique {inFirst inSecond : Member} (there : inFirst ∈ tree.members)
    (there' : inSecond ∈ tree.members) (left : inFirst.subtree.Below first)
    (right : inSecond.subtree.Below second) {index : Nat}
    (around : first.range.start ≤ index ∧ index < first.range.stop)
    (around' : second.range.start ≤ index ∧ index < second.range.stop) : inFirst = inSecond := by
  have within := below_range (inCode_member inFirst) (sound_member sound there) left
  have within' := below_range (inCode_member inSecond) (sound_member sound there') right
  have apart : tree.members.Pairwise fun a b => a.range.Apart b.range :=
    (members_ordered sound.here.arranged).imp .inl
  have symm : Std.Symm fun a b : Member => a.range.Apart b.range := ⟨fun _ _ => Range.Apart.symm⟩
  by_contra differ
  have beside := apart.forall there there' differ
  simp only [Range.Apart, Member.range_subtree] at beside within within'
  omega

theorem name_around (below : (unit tree).Below part) (own : name ∈ part.names) :
    part.range.start ≤ name.index ∧ name.index < part.range.stop :=
  name_range (inCode_of_name own) (sound.at_below below) .refl own

theorem name_unique_unit (left : (unit tree).Below first) (right : (unit tree).Below second)
    (inFirst : name ∈ first.names) (inSecond : other ∈ second.names)
    (same : name.index = other.index) : first = second := by
  obtain ⟨member, found, below⟩ := below_unit left (inCode_of_name inFirst)
  obtain ⟨member', found', below'⟩ := below_unit right (inCode_of_name inSecond)
  have equal : member = member' := member_unique sound found found' below below'
    (name_around sound left inFirst) (same ▸ name_around sound right inSecond)
  subst equal
  exact name_unique (inCode_member member) (sound_member sound found) below below' inFirst inSecond same

theorem below_of_name_unit (left : (unit tree).Below first) (inCode : first.InCode)
    (right : (unit tree).Below second) (own : name ∈ second.names)
    (inside : first.range.start ≤ name.index ∧ name.index < first.range.stop) :
    first.Below second := by
  obtain ⟨member, found, below⟩ := below_unit left inCode
  obtain ⟨member', found', below'⟩ := below_unit right (inCode_of_name own)
  have equal : member = member' := member_unique sound found found' below below' inside
    (name_around sound right own)
  subst equal
  exact below_of_name (inCode_member member) (sound_member sound found) below below' own inside

end Unit

theorem own_keyword (arranged : part.Arranged) (own : name ∈ part.own) : part.keyword? ≠ some name := by
  cases part <;> simp only [keyword?, ne_eq, reduceCtorEq, not_false_eq_true]
  case typeDecl range keyword declared list supertypes members =>
    obtain ⟨header, body, -, successive⟩ := arranged
    cases List.mem_singleton.mp own
    -- The keyword stands before the name.
    have order : keyword.index + 1 ≤ name.index := successive.2.2.1
    intro same
    cases Option.some.inj same
    omega

theorem own_slot {slot : Slot} (named : part.slot? = some slot) (own : name ∈ part.own) :
    Slot.ofText? name.text = some slot := by
  cases part <;> simp only [slot?, reduceCtorEq] at named
  case param declared =>
    cases List.mem_singleton.mp own
    exact named
  case ref r =>
    unfold TypeRef.slot? at named
    split at named
    next =>
      cases List.mem_singleton.mp own
      exact named
    next => cases named

end Subtree

namespace Setting

variable {setting : Setting} {part : Subtree} {edits : List Edit}

theorem not_retains (notParam : part.kind ≠ .typeParam) (other : part.slot? = none) :
    ¬ setting.Retains part := by
  cases part <;> simp only [Retains, not_false_eq_true]
  case param => exact absurd rfl notParam
  case ref r =>
    rintro ⟨slot, named, -⟩
    rw [Subtree.slot?, named] at other
    cases other

theorem retains_iff {slot : Slot} {value : SlotType} (named : part.slot? = some slot)
    (bound : setting.binding.get? slot = some value) :
    setting.Retains part ↔ value.isGeneric = true := by
  cases part <;> simp only [Subtree.slot?, reduceCtorEq] at named
  case param declared =>
    refine ⟨fun retains => retains slot value named bound, fun generic slot' value' same bound' => ?_⟩
    rw [named] at same
    cases same
    rw [bound] at bound'
    cases bound'
    exact generic
  case ref r => exact ref_retains named (by simp [Binding.get, bound])

theorem reduce_covers (range : Range) (entries : List (List Char)) {index : Nat}
    (inside : range.start ≤ index ∧ index < range.stop) :
    (setting.reduce range entries).start ≤ index ∧ index < (setting.reduce range entries).stop := by
  have rebuilds : setting.Rebuilds range (setting.reduce range entries) := reduce_rebuilds range entries
  have start := rebuilds.start
  rcases rebuilds.stop with stop | ⟨stop, -⟩ <;> omega

-- A name with placeholders that is not retained is replaced, or lies in a list that is.
theorem treats_covers (treats : setting.Treats part edits) (inCode : part.InCode)
    (sound : part.Sound (lexemesOf setting.tokens)) {lower : Subtree} (below : part.Below lower)
    {name : Name} (own : name ∈ lower.names) (has : hasPlaceholder name.text = true)
    (changes : ¬ setting.Retains lower) (other : lower.keyword? ≠ some name) :
    ∃ edit ∈ edits, edit.start ≤ (name.index : Int) ∧ (name.index : Int) < edit.stop := by
  induction treats with
  | @within part edits renamed inner names children respells treats all ih =>
    rcases Subtree.below_cases below with rfl | ⟨child, member, below⟩
    · rw [← names] at own
      obtain ⟨⟨name, made⟩, found, rfl⟩ := List.mem_map.mp own
      have replaced : setting.Respells lower name made := respells _ found
      cases replaced with
      | stays reason => simp_all
      | @changes text =>
        refine ⟨replace name text, ?_, Int.le_refl _, Int.lt_add_one_of_le (Int.le_refl _)⟩
        refine all.mem_iff.mpr (List.mem_append_left _ ?_)
        exact List.mem_flatMap.mpr ⟨_, found, List.mem_singleton_self _⟩
    · have child' := member
      rw [← children] at member
      obtain ⟨pair, found, rfl⟩ := List.mem_map.mp member
      obtain ⟨edit, there, covers⟩ := ih pair found (inCode.children child') (sound.child child') below
      refine ⟨edit, all.mem_iff.mpr (List.mem_append_right _ ?_), covers⟩
      exact List.mem_flatMap.mpr ⟨pair, found, there⟩
  -- A list that is rebuilt or goes covers all that stands in it.
  | rebuilt kept =>
    have inside := Subtree.name_range inCode sound below own
    exact ⟨_, List.mem_singleton_self _, reduce_covers _ _ inside⟩
  | removed =>
    have inside := Subtree.name_range inCode sound below own
    exact ⟨_, List.mem_singleton_self _, by simp only; omega⟩

theorem treats_single (treats : setting.Treats part edits) (inCode : part.InCode)
    (sound : part.Sound (lexemesOf setting.tokens)) {edit : Edit} (member : edit ∈ edits)
    (single : edit.stop = edit.start + 1) :
    ∃ lower, part.Below lower ∧ ¬ setting.Retains lower ∧ ∃ name ∈ lower.names,
      edit.start = name.index ∧ hasPlaceholder edit.text = false := by
  induction treats with
  | @within part edits renamed inner names children respells treats all ih =>
    rcases List.mem_append.mp (all.mem_iff.mp member) with ofName | ofChild
    · obtain ⟨⟨name, made⟩, found, present⟩ := List.mem_flatMap.mp ofName
      have replaced : setting.Respells part name made := respells _ found
      cases replaced with
      | stays => cases present
      | changes _ retained spelled =>
        cases List.mem_singleton.mp present
        exact ⟨part, .refl, retained, name, names ▸ List.mem_map_of_mem found, rfl, spelled.plain⟩
    · obtain ⟨pair, found, present⟩ := List.mem_flatMap.mp ofChild
      have child : pair.1 ∈ part.children := children ▸ List.mem_map_of_mem found
      obtain ⟨lower, below, rest⟩ := ih pair found (inCode.children child) (sound.child child) present
      exact ⟨lower, below.head child, rest⟩
  -- A list has two brackets.
  | @rebuilt part kept list =>
    cases List.mem_singleton.mp member
    have wide := Subtree.list_wide list sound.here.arranged
    have rebuilds : setting.Rebuilds part.range (setting.reduce part.range (kept.map Kept.text)) :=
      reduce_rebuilds _ _
    have start := rebuilds.start
    rcases rebuilds.stop with stop | ⟨stop, -⟩ <;> omega
  | @removed part list =>
    cases List.mem_singleton.mp member
    have wide := Subtree.list_wide (.inr list) sound.here.arranged
    simp only at single
    omega

theorem edits_parts {tree : Tree} (made : (setting.edits tree).result = .ok edits) :
    ∃ inCode inDocs,
      (setting.membersEdits (Scope.outermost setting.binding) tree.members).result = .ok inCode ∧
        setting.docEdits tree (Edit.sort inCode) = .ok inDocs ∧ edits.Perm (inCode ++ inDocs) := by
  simp only [Setting.edits, Traced.bind_ok, Traced.lift_ok, Traced.pure_ok] at made
  obtain ⟨inCode, visited, inDocs, filled, rfl⟩ := made
  refine ⟨inCode, inDocs, visited, filled, ?_⟩
  exact (Edit.sort_perm _).trans ((Edit.sort_perm inCode).append_right inDocs)

theorem membersEdits_treats {scope : Scope Slot} {members : List Member}
    (made : (setting.membersEdits scope members).result = .ok edits) :
    (∀ member ∈ members, ∃ inner, setting.Treats member.subtree inner ∧ ∀ edit ∈ inner, edit ∈ edits) ∧
      ∀ edit ∈ edits, ∃ member ∈ members, ∃ inner, setting.Treats member.subtree inner ∧ edit ∈ inner := by
  obtain ⟨renamed, inner, noNames, ofMembers, -, treats, all⟩ :=
    membersEdits_collects (.unit ⟨0, members, []⟩) (fun _ _ => memberEdits_treats) made
  cases List.map_eq_nil_iff.mp noNames
  constructor
  · intro member found
    have listed : member.subtree ∈ inner.map Prod.fst := ofMembers ▸ List.mem_map_of_mem found
    obtain ⟨pair, paired, same⟩ := List.mem_map.mp listed
    refine ⟨pair.2, same ▸ treats pair paired, fun edit there => all.mem_iff.mpr ?_⟩
    exact List.mem_flatMap.mpr ⟨pair, paired, there⟩
  · intro edit there
    obtain ⟨pair, paired, inside⟩ := List.mem_flatMap.mp (all.mem_iff.mp there)
    have listed : pair.1 ∈ members.map Member.subtree := ofMembers ▸ List.mem_map_of_mem paired
    obtain ⟨member, found, same⟩ := List.mem_map.mp listed
    exact ⟨member, found, pair.2, same ▸ treats pair paired, inside⟩

/-- A condition that every way to make an edit of the tree meets. A list may count on it for the edits
in the entries that are kept. -/
structure Sustains (setting : Setting) (tree : Tree) (condition : Edit → Prop) : Prop where
  name : ∀ {part : Subtree}, (Subtree.unit tree).Below part → ∀ {name : Name}, name ∈ part.names →
    ¬ setting.Retains part → ∀ {text : List Char}, Respelled name.text text →
      condition (replace name text)
  list : ∀ {part : Subtree}, (Subtree.unit tree).Below part →
    part.kind = .typeParams ∨ part.kind = .typeArgs → ∀ {kept : List Kept},
      (∀ entry ∈ kept, entry.part ∈ part.children ∧ setting.Treats entry.part entry.edits ∧
        (setting.render entry.part.range entry.edits).result = .ok entry.text ∧
        ∀ edit ∈ entry.edits, condition edit) →
      (∀ child ∈ part.children, setting.Retains child → child ∈ kept.map Kept.part) →
        condition (setting.reduce part.range (kept.map Kept.text))
  diamond : ∀ {part : Subtree}, (Subtree.unit tree).Below part → part.kind = .typeArgs →
    part.children = [] → condition ⟨part.range.start, part.range.stop, []⟩
  doc : ∀ {doc : Nat}, doc ∈ tree.docs → ∀ {edit : Edit}, setting.EditsDoc doc edit → condition edit

theorem Sustains.treats {tree : Tree} {condition : Edit → Prop}
    (sustains : setting.Sustains tree condition) (treats : setting.Treats part edits)
    (below : (Subtree.unit tree).Below part) : ∀ edit ∈ edits, condition edit := by
  induction treats with
  | @within part edits renamed inner names children respells treats all ih =>
    intro edit member
    rcases List.mem_append.mp (all.mem_iff.mp member) with ofName | ofChild
    · obtain ⟨⟨name, made⟩, found, present⟩ := List.mem_flatMap.mp ofName
      have own : name ∈ part.names := names ▸ List.mem_map_of_mem found
      have replaced : setting.Respells part name made := respells _ found
      cases replaced with
      | stays => cases present
      | changes _ other spelled =>
        cases List.mem_singleton.mp present
        exact sustains.name below own other spelled
    · obtain ⟨pair, found, present⟩ := List.mem_flatMap.mp ofChild
      have child : pair.1 ∈ part.children := children ▸ List.mem_map_of_mem found
      exact ih pair found (below.tail child) edit present
  | @rebuilt part kept list entries treats rendered others ih =>
    intro edit member
    cases List.mem_singleton.mp member
    refine sustains.list below list (fun entry among => ?_) others
    have child : entry.part ∈ part.children := entries.subset (List.mem_map_of_mem among)
    exact ⟨child, treats entry among, rendered entry among, ih entry among (below.tail child)⟩
  | @removed part list empty =>
    intro edit member
    cases List.mem_singleton.mp member
    exact sustains.diamond below list empty

theorem edits_sustain {tree : Tree} {condition : Edit → Prop}
    (docs : tree.docs = docComments setting.tokens)
    (made : (setting.edits tree).result = .ok edits) (sustains : setting.Sustains tree condition) :
    ∀ edit ∈ edits, condition edit := by
  obtain ⟨inCode, inDocs, visited, filled, all⟩ := edits_parts made
  intro edit member
  rcases List.mem_append.mp (all.mem_iff.mp member) with code | doc
  · obtain ⟨inMember, found, inner, treats, inside⟩ := (membersEdits_treats visited).2 edit code
    have child : inMember.subtree ∈ (Subtree.unit tree).children := Subtree.member_child found
    exact sustains.treats treats (.single child) edit inside
  · have increasing : tree.docs.Pairwise (· < ·) := docs ▸ indices_increasing _ _
    obtain ⟨doc, listed, -, changes⟩ := (docEdits_ok increasing filled).2 edit doc
    exact sustains.doc listed changes

section Whole

variable {tree : Tree} (sound : (Subtree.unit tree).Sound (lexemesOf setting.tokens))
  (made : (setting.edits tree).result = .ok edits)

include sound made

theorem edits_cover {name : Name} (below : (Subtree.unit tree).Below part)
    (own : name ∈ part.names) (has : hasPlaceholder name.text = true)
    (changes : ¬ setting.Retains part) (other : part.keyword? ≠ some name) :
    Edit.covered edits name.index = true := by
  obtain ⟨inCode, inDocs, visited, -, all⟩ := edits_parts made
  obtain ⟨member, found, within⟩ := Subtree.below_unit below (Subtree.inCode_of_name own)
  obtain ⟨inner, treats, present⟩ := (membersEdits_treats visited).1 member found
  have child : (member.subtree).Sound (lexemesOf setting.tokens) :=
    sound.child (Subtree.member_child found)
  obtain ⟨edit, there, start, stop⟩ :=
    treats_covers treats (Subtree.inCode_member member) child within own has changes other
  refine List.any_eq_true.mpr ⟨edit, all.mem_iff.mpr (List.mem_append_left _ (present edit there)), ?_⟩
  simp [start, stop]

theorem edits_single (docs : tree.docs = docComments setting.tokens) {edit : Edit} {index : Nat}
    {token : Token} (member : edit ∈ edits) (start : edit.start = index) (stop : edit.stop = index + 1)
    (there : setting.tokens[index]? = some token) (ident : token.kind = .ident) :
    hasPlaceholder edit.text = false ∧
      ∃ lower, (Subtree.unit tree).Below lower ∧ ¬ setting.Retains lower ∧
        ∃ name ∈ lower.names, name.index = index := by
  obtain ⟨inCode, inDocs, visited, filled, all⟩ := edits_parts made
  rcases List.mem_append.mp (all.mem_iff.mp member) with code | doc
  · obtain ⟨inMember, found, inner, treats, inside⟩ := (membersEdits_treats visited).2 edit code
    have child : inMember.subtree ∈ (Subtree.unit tree).children := Subtree.member_child found
    obtain ⟨lower, below, changes, name, own, same, plain⟩ := treats_single treats
      (Subtree.inCode_member inMember) (sound.child child) inside (by omega)
    exact ⟨plain, lower, below.head child, changes, name, own, by omega⟩
  -- Comments are no identifiers.
  · have increasing : tree.docs.Pairwise (· < ·) := docs ▸ indices_increasing _ _
    obtain ⟨doc, listed, -, edits⟩ := (docEdits_ok increasing filled).2 edit doc
    have same : doc = index := by
      have start' := edits.start
      omega
    rw [docs] at listed
    obtain ⟨comment, found, kind⟩ := (mem_indices _ _ _).mp listed
    rw [same, there] at found
    cases found
    simp [ident] at kind

end Whole

end Setting

/-- The edits of a template reach every name that has to change: all names with placeholders but
those of type parameters and of placeholders alone, which change if their slot is primitive. They
leave placeholders of generic slots alone, and put no placeholder in place of a name. -/
theorem edits_coverage {source : List Char} {tokens : List Token} {tree : Tree} {binding : Binding}
    {edits : List Edit} (parsed : parse source = .ok (tokens, tree))
    (made : (Setting.edits ⟨tokens, binding⟩ tree).result = .ok edits) :
    (∀ part, (Subtree.unit tree).Below part → part.kind ≠ .typeParam → part.slot? = none →
      ∀ name ∈ part.own, hasPlaceholder name.text = true → Edit.covered edits name.index = true) ∧
    (∀ part slot value, (Subtree.unit tree).Below part → part.slot? = some slot →
      binding.get? slot = some value → value.isPrimitive = true →
      ∀ name ∈ part.own, Edit.covered edits name.index = true) ∧
    (∀ part slot, (Subtree.unit tree).Below part → part.slot? = some slot →
      binding.get? slot = some .generic →
      ∀ name ∈ part.own, ∀ edit ∈ edits, ¬ (edit.start = name.index ∧ edit.stop = name.index + 1)) ∧
    ∀ edit ∈ edits, ∀ (index : Nat) (token : Token), edit.start = index → edit.stop = index + 1 →
      tokens[index]? = some token → token.kind = .ident → hasPlaceholder edit.text = false := by
  have sound := parse_sound parsed
  have docs := parseTokens_docs (parse_ok parsed).2
  refine ⟨?_, ?_, ?_, ?_⟩
  · intro part below notParam other name own has
    exact Setting.edits_cover sound made below (Subtree.own_names own) has
      (Setting.not_retains notParam other)
      (Subtree.own_keyword (sound.at_below below).here.arranged own)
  · intro part slot value below named bound primitive name own
    have has : hasPlaceholder name.text = true := hasPlaceholder_iff.mpr
      ⟨slot, Slot.ofText?_some (Subtree.own_slot named own) ▸ List.infix_refl _⟩
    refine Setting.edits_cover sound made below (Subtree.own_names own) has ?_
      (Subtree.own_keyword (sound.at_below below).here.arranged own)
    rw [Setting.retains_iff named bound]
    simpa [SlotType.isPrimitive] using primitive
  · rintro part slot below named generic name own edit member ⟨start, stop⟩
    obtain ⟨token, there, same⟩ :=
      lexemesOf_some ((sound.at_below below).here.stands name (Subtree.own_names own))
    obtain ⟨-, lower, below', changes, other, inLower, equal⟩ :=
      Setting.edits_single sound made docs member start stop there (congrArg Lexeme.kind same)
    -- The name that the edit replaces is of a node that does not keep it, hence of another one.
    have one : lower = part :=
      Subtree.name_unique_unit sound below' below inLower (Subtree.own_names own) equal
    exact changes (one ▸ (Setting.retains_iff named generic).mpr rfl)
  · intro edit member index token start stop there ident
    exact (Setting.edits_single sound made docs member start stop there ident).1

theorem edits_coverage_mixed :
    ∃ tokens tree edits,
      parse "class KTypeA<KType, VType> { VType[] x; KTypeB<KType> y; }".toList = .ok (tokens, tree) ∧
        (Setting.edits ⟨tokens, ⟨.int, some .generic⟩⟩ tree).result = .ok edits ∧ edits.length = 4 ∧
        (∀ part, (Subtree.unit tree).Below part → part.kind ≠ .typeParam → part.slot? = none →
          ∀ name ∈ part.own, hasPlaceholder name.text = true →
            Edit.covered edits name.index = true) := by
  obtain ⟨⟨tokens, tree⟩, parsed, passes⟩ := ok_of_any
    (show (parse "class KTypeA<KType, VType> { VType[] x; KTypeB<KType> y; }".toList).toOption.any
      (fun read => (Setting.edits ⟨read.1, ⟨.int, some .generic⟩⟩ read.2).result.toOption.any
        fun edits => edits.length == 4) = true by decide +kernel)
  obtain ⟨edits, made, count⟩ := ok_of_any passes
  exact ⟨tokens, tree, edits, parsed, made, eq_of_beq count, (edits_coverage parsed made).1⟩

end Specializer
