import Specializer.Proofs.Nodes

set_option autoImplicit false

namespace Specializer

def Edit.Covers (edit : Edit) (index : Nat) : Prop := edit.start ≤ index ∧ (index : Int) < edit.stop

namespace Subtree

variable {slots result : List Slot} {manner last next : Manner} {part child lower : Subtree}

/-- The way down to a subtree: what is declared outside of it, and in which manner it is visited. -/
inductive Way : List Slot → Manner → Subtree → List Slot → Manner → Subtree → Prop
  | here {slots : List Slot} {manner : Manner} {part : Subtree} : Way slots manner part slots manner part
  | down {slots result : List Slot} {manner next last : Manner} {part child lower : Subtree}
      (member : (next, child) ∈ part.parts manner)
      (rest : Way (part.within slots) next child result last lower) :
      Way slots manner part result last lower

theorem child_of_part (member : (next, child) ∈ part.parts manner) : child ∈ part.children :=
  parts_children manner part ▸ List.mem_map_of_mem (f := Prod.snd) member

namespace Way

theorem holds (way : Way slots manner part result last lower) : part.Below lower := by
  induction way with
  | here => exact .refl
  | down member _ ih => exact ih.head (child_of_part member)

theorem snoc (way : Way slots manner part result last lower)
    (member : (next, child) ∈ lower.parts last) :
    Way slots manner part (lower.within result) next child := by
  induction way with
  | here => exact .down member .here
  | down above _ ih => exact .down above (ih member)

theorem leads (way : Way slots manner part result last lower) :
    Leads slots part lower (lower.within result) := by
  induction way with
  | here => exact .here
  | down member _ ih => exact .down (child_of_part member) ih

end Way

theorem way_of_below (below : part.Below lower) (slots : List Slot) (manner : Manner) :
    ∃ result last, Way slots manner part result last lower := by
  induction below using Relation.ReflTransGen.head_induction_on generalizing slots manner with
  | refl => exact ⟨_, _, .here⟩
  | @head part child member _ ih =>
    rw [← parts_children manner part] at member
    obtain ⟨⟨next, child⟩, there, rfl⟩ := List.mem_map.mp member
    obtain ⟨result, last, rest⟩ := ih (part.within slots) next
    exact ⟨result, last, .down there rest⟩

theorem trims_parts (trims : part.trims manner = true) (member : (next, child) ∈ part.parts manner) :
    next = .alone ∧ part.within slots = slots ∧ (part.kind = .typeParams ∨ part.kind = .typeArgs) := by
  cases part with
  | params list =>
    obtain ⟨_, -, same⟩ := List.mem_map.mp member
    cases same
    exact ⟨rfl, if_pos rfl, .inl rfl⟩
  | args list =>
    obtain ⟨_, -, same⟩ := List.mem_map.mp member
    cases same
    cases manner with
    | foreign => cases trims
    | _ => exact ⟨rfl, if_pos rfl, .inr rfl⟩
  | _ => cases manner <;> cases trims

theorem bare_alone {r : TypeRef} {slot : Slot} (bare : r.slot? = some slot)
    (below : (ref r).Below lower) : lower = ref r := by
  have childless : (ref r).children = [] := by
    unfold TypeRef.slot? at bare
    split at bare
    next => rfl
    next => cases bare
  rcases below_cases below with same | ⟨child, member, -⟩
  next => exact same
  next =>
    rw [childless] at member
    cases member

/-- A node that is gone only if a type parameter around it is: no placeholder alone, and no wildcard. -/
def Lasting : Subtree → Prop
  | ref r => r.slot? = none
  | wildcard _ _ => False
  | _ => True

end Subtree

namespace Setting

variable {setting : Setting} {slots result : List Slot} {manner last : Manner}
  {root part lower : Subtree} {own edits more : List Edit}

inductive Arrives (setting : Setting) (root part : Subtree) (own : List Edit) : List Edit → Prop
  | inPlace {edits : List Edit} (all : ∀ edit ∈ own, edit ∈ edits)
      (only : ∀ edit ∈ edits, ∀ index, part.range.start ≤ index → index < part.range.stop →
        Solid (lexemesOf setting.tokens) index → edit.Covers index → edit ∈ own) :
      Arrives setting root part own edits
  | rebuilds {edits inner : List Edit} {list entry : Subtree} {texts : List (List Char)}
      {text : List Char} (below : root.Below list)
      (isList : list.kind = .typeParams ∨ list.kind = .typeArgs) (child : entry ∈ list.children)
      (around : entry.Below part) (member : setting.reduce list.range texts ∈ edits)
      (kept : text ∈ texts) (rendered : (setting.render entry.range inner).result = .ok text)
      (arrives : Arrives setting root part own inner) : Arrives setting root part own edits

namespace Arrives

theorem up {inner : Subtree} (arrives : setting.Arrives inner part own edits) (up : root.Below inner) :
    setting.Arrives root part own edits := by
  induction arrives with
  | inPlace all only => exact .inPlace all only
  | rebuilds below isList child around member kept rendered _ ih =>
    exact .rebuilds (up.trans below) isList child around member kept rendered ih

-- On to the edits of a node further out, if no others of them touch the tokens of the inner one.
theorem lift {inner : Subtree} (arrives : setting.Arrives inner part own edits) (up : root.Below inner)
    (range : inner.range.start ≤ part.range.start ∧ part.range.stop ≤ inner.range.stop)
    (all : ∀ edit ∈ edits, edit ∈ more)
    (only : ∀ edit ∈ more, ∀ index, inner.range.start ≤ index → index < inner.range.stop →
      Solid (lexemesOf setting.tokens) index → edit.Covers index → edit ∈ edits) :
    setting.Arrives root part own more := by
  cases arrives with
  | inPlace inside alone =>
    refine .inPlace (fun edit member => all edit (inside edit member)) ?_
    intro edit member index low high solid covers
    exact alone edit (only edit member index (by omega) (by omega) solid covers) index low high solid covers
  | rebuilds below isList child around member kept rendered arrives =>
    exact .rebuilds (up.trans below) isList child around (all _ member) kept rendered (arrives.up up)

theorem trans {inner : List Edit} (arrives : setting.Arrives root part own edits)
    (further : setting.Arrives part lower inner own) (below : root.Below part) (down : part.Below lower)
    (range : part.range.start ≤ lower.range.start ∧ lower.range.stop ≤ part.range.stop) :
    setting.Arrives root lower inner edits := by
  induction arrives with
  | inPlace all only => exact further.lift below range all only
  | rebuilds there isList child around member kept rendered _ ih =>
    exact .rebuilds there isList child (around.trans down) member kept rendered ih

theorem puts {name : Name} {new : List Char} (arrives : setting.Arrives root part own edits)
    (member : replace name new ∈ own) : setting.Puts root part name new edits := by
  induction arrives with
  | inPlace all only => exact .replaces (all _ member)
  | rebuilds below isList child around there kept rendered _ ih =>
    exact .rebuilds below isList child around there kept rendered ih

end Arrives

section Places

theorem replace_lies {name : Name} (stands : name.Stands (lexemesOf setting.tokens)) (text : List Char) :
    setting.Lies name.range (replace name text) := by
  refine ⟨Int.le_refl _, by simp only [replace]; omega, fun index same => ?_, .inl (Int.le_refl _)⟩
  cases Int.ofNat.inj same
  exact notBlank_of_solid ⟨_, stands, rfl⟩

theorem visit_lies (inCode : part.InCode) (sound : part.Sound (lexemesOf setting.tokens))
    (bound : setting.Bound slots) (made : (setting.visit slots manner part).result = .ok edits) :
    ∀ edit ∈ edits, setting.Lies part.range edit := by
  -- By the nodes: what a node takes over from a child lies in the range of the child.
  have everywhere := sound
  induction everywhere generalizing slots manner edits with
  | @intro part placed _ ih =>
    obtain ⟨nonempty, first, -⟩ := inCode.bounded placed.bounded
    obtain ⟨visited, inside⟩ := visit_cases inCode bound made
    intro edit member
    cases visited with
    | within assembles =>
      obtain ⟨own, inner, ofParts, named, visited, all⟩ := assembles
      obtain ⟨-, within⟩ := Subtree.contents_spread inCode placed
      rcases (all edit).mp member with here | ⟨pair, found, there⟩
      next =>
        obtain ⟨name, given, text, rfl⟩ := named edit here
        have range := within _ (List.mem_append_left _ (List.mem_map_of_mem given))
        exact (replace_lies (placed.stands name given) text).widen range.1 range.2
      next =>
        have among : (pair.1.1, pair.1.2) ∈ part.parts manner := ofParts ▸ List.mem_map_of_mem found
        have child := Subtree.child_of_part among
        have range := within _ (List.mem_append_right _ (List.mem_map_of_mem child))
        exact (ih pair.1.2 child (inCode.children child) (sound.child child) inside (visited pair found)
          edit there).widen range.1 range.2
    | rebuilt =>
      exact (rebuilds_confined nonempty first (reduce_rebuilds _ _)).lies edit member
    | removed =>
      exact (rebuilds_confined nonempty first ⟨rfl, .inl rfl⟩).lies edit member

theorem Lies.range {edit : Edit} {range : Range} {index : Nat} (lies : setting.Lies range edit)
    (solid : Solid (lexemesOf setting.tokens) index) (covers : edit.Covers index) :
    range.start ≤ index ∧ index < range.stop := by
  have low := lies.low
  obtain ⟨start, stop⟩ := covers
  rcases lies.high with inside | ⟨beyond, blank⟩
  next => omega
  next =>
    have elsewhere : index ≠ range.stop := by
      rintro rfl
      rw [notBlank_of_solid solid] at blank
      cases blank
    omega

theorem Assembles.only (inCode : part.InCode)
    (sound : part.Sound (lexemesOf setting.tokens)) (bound : setting.Bound slots)
    {inner : List ((Manner × Subtree) × List Edit)} (ofParts : inner.map Prod.fst = part.parts manner)
    (named : ∀ edit ∈ own, ∃ name ∈ part.names, ∃ text, edit = replace name text)
    (visited : ∀ pair ∈ inner, (setting.visit slots pair.1.1 pair.1.2).result = .ok pair.2)
    (all : ∀ edit, edit ∈ edits ↔ edit ∈ own ∨ ∃ pair ∈ inner, edit ∈ pair.2)
    {pair : (Manner × Subtree) × List Edit} (found : pair ∈ inner) :
    ∀ edit ∈ edits, ∀ index, pair.1.2.range.start ≤ index → index < pair.1.2.range.stop →
      Solid (lexemesOf setting.tokens) index → edit.Covers index → edit ∈ pair.2 := by
  have children : inner.map (fun pair => pair.1.2) = part.children := by
    rw [← Subtree.parts_children manner part, ← ofParts, List.map_map]
    rfl
  have member {pair : (Manner × Subtree) × List Edit} (found : pair ∈ inner) :
      pair.1.2 ∈ part.children := children ▸ List.mem_map_of_mem (f := fun pair => pair.1.2) found
  intro edit there index low high solid covers
  rcases (all edit).mp there with here | ⟨other, beside, inside⟩
  next =>
    obtain ⟨name, given, text, rfl⟩ := named edit here
    obtain ⟨start, stop⟩ := covers
    simp only [replace] at start stop
    have same : index = name.index := by omega
    exact absurd ⟨same ▸ low, same ▸ high⟩
      (Subtree.name_apart_child inCode sound.here given (member found))
  next =>
    have child := member beside
    have lies := visit_lies (inCode.children child) (sound.child child) bound (visited other beside) edit
      inside
    have range := lies.range solid covers
    -- Parts that share a token are one and the same, since all stand apart.
    obtain ⟨spread, -⟩ := Subtree.contents_spread inCode sound.here
    obtain ⟨-, apart, -⟩ := List.pairwise_append.mp spread
    rw [← children, List.map_map, List.pairwise_map] at apart
    have apart : inner.Pairwise fun a b => a.1.2.range.Apart b.1.2.range := apart
    have symm : Std.Symm fun a b : (Manner × Subtree) × List Edit =>
        a.1.2.range.Apart b.1.2.range := ⟨fun _ _ => Range.Apart.symm⟩
    by_cases same : pair = other
    next => exact same ▸ inside
    next =>
      have beside := apart.forall found beside same
      simp only [Range.Apart] at beside
      omega

theorem Assembles.settled (assembles : setting.Assembles slots part.names (part.parts manner) edits)
    (inCode : part.InCode) (sound : part.Sound (lexemesOf setting.tokens)) (bound : setting.Bound slots)
    {next : Manner} {child : Subtree} (member : (next, child) ∈ part.parts manner) :
    ∃ inner, (setting.visit slots next child).result = .ok inner ∧ (∀ edit ∈ inner, edit ∈ edits) ∧
      ∀ edit ∈ edits, ∀ index, child.range.start ≤ index → index < child.range.stop →
        Solid (lexemesOf setting.tokens) index → edit.Covers index → edit ∈ inner := by
  obtain ⟨names, inner, ofParts, named, visited, all⟩ := assembles
  rw [← ofParts] at member
  obtain ⟨pair, found, same⟩ := List.mem_map.mp member
  have only := Assembles.only inCode sound bound ofParts named visited all found
  have made := visited pair found
  rw [same] at only made
  exact ⟨pair.2, made, fun edit there => (all edit).mpr (.inr ⟨pair, found, there⟩), only⟩

end Places

section Ways

theorem drops_of_not_survivor {inScope : List SlotType} {position : Nat} {entries : List Subtree}
    {entry : Subtree} (member : entry ∈ entries)
    (gone : entry ∉ setting.binding.survivors inScope position entries) :
    ∃ position, setting.binding.drops inScope position entry = true := by
  induction entries generalizing position with
  | nil => cases member
  | cons first rest ih =>
    rw [Binding.survivors] at gone
    split at gone
    next drops =>
      rcases List.mem_cons.mp member with rfl | later
      next => exact ⟨position, drops⟩
      next => exact ih later gone
    next =>
      rw [List.mem_cons, not_or] at gone
      exact ih ((List.mem_cons.mp member).resolve_left gone.1) gone.2

-- A dropped entry with something lasting in it is a type parameter that does not stay.
theorem dropped_param {inScope : List SlotType} {position : Nat} {entry : Subtree}
    (drops : setting.binding.drops inScope position entry = true) (below : entry.Below lower)
    (lasting : lower.Lasting) : ∃ param, entry = .param param ∧ ¬ setting.Retains (.param param) := by
  -- A placeholder alone is nothing lasting, so it is not by dropping one that something lasting is
  -- lost.
  have bare {r : TypeRef} (primitive : (r.slot?.bind setting.binding.get?).any SlotType.isPrimitive = true)
      (below : (Subtree.ref r).Below lower) : False := by
    obtain ⟨slot, named⟩ : ∃ slot, r.slot? = some slot := by
      cases named : r.slot? with
      | none => simp [named] at primitive
      | some slot => exact ⟨slot, rfl⟩
    cases Subtree.bare_alone named below
    simp [Subtree.Lasting, named] at lasting
  cases entry with
  | param declared =>
    refine ⟨declared, rfl, fun retains => ?_⟩
    simp only [Binding.drops, Subtree.standsFor?] at drops
    cases named : Slot.ofText? declared.name.text with
    | none => simp [named] at drops
    | some slot =>
      cases bound : setting.binding.get? slot with
      | none => simp [named, bound] at drops
      | some value =>
        have generic := retains slot value named bound
        simp [named, bound, SlotType.isPrimitive, generic] at drops
  | ref r => exact (bare drops below).elim
  | wildcard range limit =>
    rcases Subtree.below_cases below with rfl | ⟨child, member, inside⟩
    next => exact lasting.elim
    next =>
      cases limit with
      | none => cases member
      | some r =>
        cases List.mem_singleton.mp member
        exact (bare drops inside).elim
  | _ => simp [Binding.drops, Subtree.standsFor?] at drops

theorem visit_arrives (way : Subtree.Way slots manner part result last lower) (inCode : part.InCode)
    (sound : part.Sound (lexemesOf setting.tokens)) (bound : setting.Bound slots)
    (lasting : lower.Lasting)
    (retained : ∀ param, part.Below (.param param) → (Subtree.param param).Below lower →
      setting.Retains (.param param))
    (made : (setting.visit slots manner part).result = .ok edits) :
    setting.Bound result ∧ ∃ own, (setting.visit result last lower).result = .ok own ∧
      setting.Arrives part lower own edits := by
  -- From the outside in: each step passes from a node to one of its parts.
  induction way generalizing edits with
  | here => exact ⟨bound, edits, made, .inPlace (fun _ => id) fun edit member _ _ _ _ _ => member⟩
  | @down slots result manner next last part child lower member rest ih =>
    have among := Subtree.child_of_part member
    have range := Subtree.below_range (inCode.children among) (sound.child among) rest.holds
    obtain ⟨visited, inside⟩ := visit_cases inCode bound made
    have further {inner : List Edit}
        (made : (setting.visit (part.within slots) next child).result = .ok inner) :=
      ih (inCode.children among) (sound.child among) inside lasting
        (fun param below => retained param (below.head among)) made
    cases visited with
    | within assembles =>
      obtain ⟨inner, visit, all, only⟩ := assembles.settled inCode sound inside member
      obtain ⟨known, own, ended, arrives⟩ := further visit
      exact ⟨known, own, ended, arrives.lift (.single among) range all only⟩
    | @rebuilt texts list fewer rendered =>
      obtain ⟨alone, same, isList⟩ := Subtree.trims_parts list member
      rw [same, alone] at further
      by_cases left : child ∈ setting.rest slots manner part
      next =>
        obtain ⟨text, kept, made⟩ := exists_of_forall₂ rendered.flip left
        rw [rendering, Traced.bind_ok] at made
        obtain ⟨inner, visited, made⟩ := made
        obtain ⟨known, own, ended, arrives⟩ := further visited
        refine ⟨known, own, ended, .rebuilds .refl isList among rest.holds (List.mem_singleton_self _) kept
          made (arrives.up (.single among))⟩
      next =>
        obtain ⟨position, drops⟩ := drops_of_not_survivor among left
        obtain ⟨param, rfl, goes⟩ := dropped_param drops rest.holds lasting
        exact absurd (retained param (.single among) rest.holds) goes
    | removed diamond =>
      rw [diamond] at among
      cases among

end Ways

section Whole

variable {tree : Tree} (docs : tree.docs = docComments setting.tokens)
  (sound : (Subtree.unit tree).Sound (lexemesOf setting.tokens))
  (made : (setting.edits tree).result = .ok edits)

include docs made in
theorem edits_code :
    ∃ found, (setting.membersEdits (setting.scopeOf []) tree.members).result = .ok found ∧
      (∀ edit ∈ found, edit ∈ edits) ∧ ∀ edit ∈ edits, ∀ index,
        Solid (lexemesOf setting.tokens) index → edit.Covers index → edit ∈ found := by
  obtain ⟨found, inDocs, visited, filled, all⟩ := edits_parts made
  have outermost : Scope.outermost setting.binding = setting.scopeOf [] :=
    congrArg Scope.mk Scope.outermost_follows.order
  refine ⟨found, outermost ▸ visited, fun edit member => all.mem_iff.mpr (List.mem_append_left _ member), ?_⟩
  rintro edit member index ⟨lexeme, there, meaning⟩ ⟨start, stop⟩
  refine (List.mem_append.mp (all.mem_iff.mp member)).resolve_right fun inDoc => ?_
  have increasing : tree.docs.Pairwise (· < ·) := docs ▸ indices_increasing _ _
  obtain ⟨doc, listed, -, changes⟩ := (docEdits_ok increasing filled).2 edit inDoc
  rw [docs] at listed
  obtain ⟨comment, known, kind⟩ := (mem_indices _ _ _).mp listed
  obtain ⟨token, found, rfl⟩ := lexemesOf_some there
  have same : index = doc := by
    have first := changes.start
    have last := changes.stop
    omega
  rw [← same, found] at known
  cases known
  rw [beq_iff_eq.mp kind] at meaning
  cases meaning

include docs sound made in
theorem edits_member {member : Member} (present : member ∈ tree.members) :
    ∃ own, (setting.visit [] .alone member.subtree).result = .ok own ∧ (∀ edit ∈ own, edit ∈ edits) ∧
      ∀ edit ∈ edits, ∀ index, member.subtree.range.start ≤ index → index < member.subtree.range.stop →
        Solid (lexemesOf setting.tokens) index → edit.Covers index → edit ∈ own := by
  have outside : setting.Bound [] := List.forall_mem_nil _
  obtain ⟨found, visited, all, only⟩ := edits_code docs made
  obtain ⟨names, inner, ofMembers, named, each, together⟩ :=
    @membersEdits_assembles _ _ [] _ _ visited
  have paired : (Manner.alone, member.subtree) ∈ inner.map Prod.fst :=
    ofMembers ▸ List.mem_map_of_mem present
  obtain ⟨pair, within, same⟩ := List.mem_map.mp paired
  have made := each pair within
  rw [same] at made
  refine ⟨pair.2, made, fun edit inside => ?_, fun edit inside index low high solid covers => ?_⟩
  next => exact all edit ((together edit).mpr (.inr ⟨pair, within, inside⟩))
  next =>
    rcases (together edit).mp (only edit inside index solid covers) with here | ⟨other, beside, holds⟩
    next =>
      obtain ⟨name, none, -⟩ := named edit here
      cases none
    next =>
      -- Another member has no edits on tokens of this one.
      have listed : other.1 ∈ inner.map Prod.fst := List.mem_map_of_mem beside
      rw [ofMembers] at listed
      obtain ⟨second, there, as⟩ := List.mem_map.mp listed
      have visited := each other beside
      rw [← as] at visited
      have lies := visit_lies (Subtree.inCode_member second) (Subtree.sound_member sound there) outside
        visited edit holds
      have one := Subtree.member_unique sound there present .refl .refl (lies.range solid covers) ⟨low, high⟩
      rw [one, made] at visited
      exact Except.ok.inj visited ▸ holds

include docs sound made in
theorem edits_arrive (way : Subtree.Way [] .alone (.unit tree) result last lower) (inCode : lower.InCode)
    (lasting : lower.Lasting)
    (retained : ∀ param, (Subtree.unit tree).Below (.param param) → (Subtree.param param).Below lower →
      setting.Retains (.param param)) :
    setting.Bound result ∧ ∃ own, (setting.visit result last lower).result = .ok own ∧
      setting.Arrives (.unit tree) lower own edits := by
  cases way with
  | here => exact inCode.elim
  | @down _ _ _ next _ _ child _ among rest =>
    have same : (Subtree.unit tree).within [] = [] := if_pos rfl
    rw [same] at rest
    obtain ⟨child, listed, same⟩ := List.mem_map.mp among
    cases same
    rcases List.mem_append.mp listed with there | there
    next =>
      obtain ⟨member, present, rfl⟩ := List.mem_map.mp there
      have step : (Subtree.unit tree).Below member.subtree := .single listed
      have inMember := Subtree.inCode_member member
      have soundMember := Subtree.sound_member sound present
      obtain ⟨inner, visited, all, only⟩ := edits_member docs sound made present
      obtain ⟨known, own, ended, arrives⟩ := visit_arrives rest inMember soundMember
        (List.forall_mem_nil _) lasting (fun param below => retained param (step.trans below)) visited
      exact ⟨known, own, ended,
        arrives.lift step (Subtree.below_range inMember soundMember rest.holds) all only⟩
    next =>
      -- A comment has nothing below it, and is no code itself.
      obtain ⟨index, -, rfl⟩ := List.mem_map.mp there
      cases rest with
      | here => exact inCode.elim
      | down none => cases none

end Whole

end Setting

end Specializer
