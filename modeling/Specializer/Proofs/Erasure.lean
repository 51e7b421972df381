import Specializer.Proofs.Arrivals

set_option autoImplicit false

namespace Specializer

namespace Subtree

variable {manner next : Manner} {part list child : Subtree}

/-- The lists of a node that may lose entries: its type parameters, the explicit arguments of a
constructor or a method, and the arguments of a template. -/
def trimmed : Subtree → List (Manner × Subtree)
  | typeDecl _ _ _ list _ _ => list.toList.map fun list => (.alone, params list)
  | methodDecl _ list _ => [(.alone, params list)]
  | creation _ _ _ list => list.toList.map fun list => (.alone, args list)
  | witness _ list _ => [(.alone, args list)]
  | ref r => r.segments.filterMap fun
    | .applied name list =>
      if hasPlaceholder name.text && !list.args.isEmpty then some (.template name.text, args list) else none
    | .plain _ => none
  | _ => []

theorem trimmed_template {r : TypeRef} {name : Name} {list : TypeArgs}
    (member : .applied name list ∈ r.segments) (has : hasPlaceholder name.text = true)
    (filled : list.args ≠ []) : (.template name.text, args list) ∈ (ref r).trimmed := by
  refine List.mem_filterMap.mpr ⟨_, member, ?_⟩
  simp [has, filled]

/-- A list that may lose entries. One that is empty in the text is not meant if a template has it. -/
structure Loses (manner : Manner) (list : Subtree) : Prop where
  trims : list.trims manner = true
  filled : ∀ name, manner = .template name → list.children ≠ []

theorem trimmed_loses (trimmed : (next, list) ∈ part.trimmed) (manner : Manner) :
    (next, list) ∈ part.parts manner ∧ list.Loses next := by
  -- Lists that a node may lack are found through their option.
  have listed {α : Type} {items : Option α} {as : α → Subtree}
      (among : (next, list) ∈ items.toList.map fun item => (.alone, as item)) :
      ∃ item, items = some item ∧ next = .alone ∧ list = as item := by
    obtain ⟨item, given, same⟩ := List.mem_map.mp among
    cases same
    exact ⟨item, Option.mem_toList.mp given, rfl, rfl⟩
  cases part with
  | typeDecl range keyword name given supertypes members =>
    obtain ⟨item, rfl, rfl, rfl⟩ := listed trimmed
    exact ⟨List.mem_map_of_mem (by simp [children]), rfl, by simp⟩
  | methodDecl range given members =>
    cases List.mem_singleton.mp trimmed
    exact ⟨List.mem_map_of_mem (by simp [children]), rfl, by simp⟩
  | creation range type members given =>
    obtain ⟨item, rfl, rfl, rfl⟩ := listed trimmed
    exact ⟨List.mem_map_of_mem (by simp [children]), rfl, by simp⟩
  | witness range given method =>
    cases List.mem_singleton.mp trimmed
    exact ⟨List.mem_map_of_mem (by simp [children]), rfl, by simp⟩
  | ref r =>
    obtain ⟨segment, among, same⟩ := List.mem_filterMap.mp trimmed
    cases segment with
    | plain name => cases same
    | applied name given =>
      simp only [Option.ite_none_right_eq_some, Bool.and_eq_true] at same
      obtain ⟨⟨has, filled⟩, same⟩ := same
      cases same
      refine ⟨List.mem_filterMap.mpr ⟨_, among, ?_⟩, rfl, fun _ _ => ?_⟩
      next => simp [Segment.part?, has]
      next => simpa [children] using filled
  | _ => cases trimmed

theorem way_of_trimmed {root : Subtree} (below : root.Below part) (trimmed : (next, list) ∈ part.trimmed) :
    ∃ slots, Way [] .alone root slots next list ∧ list.Loses next := by
  obtain ⟨outside, last, way⟩ := way_of_below below [] .alone
  obtain ⟨among, loses⟩ := trimmed_loses trimmed last
  exact ⟨_, way.snoc among, loses⟩

theorem trims_list (trims : list.trims manner = true) :
    (∃ given, list = params given) ∨ ∃ given, list = args given := by
  cases list with
  | params given => exact .inl ⟨given, rfl⟩
  | args given => exact .inr ⟨given, rfl⟩
  | _ => cases manner <;> cases trims

theorem trims_plain (trims : list.trims manner = true) :
    list.InCode ∧ list.Lasting ∧ list.names = [] ∧ ∀ slots, list.within slots = slots := by
  rcases trims_list trims with ⟨given, rfl⟩ | ⟨given, rfl⟩ <;>
    exact ⟨trivial, trivial, rfl, fun _ => if_pos rfl⟩

theorem entry_inside (trims : list.trims manner = true) (arranged : list.Arranged)
    (member : child ∈ list.children) :
    list.range.start < child.range.start ∧ child.range.stop < list.range.stop := by
  have inside {low high : Nat} {items : List Range} (successive : Successive (low + 1) items (high - 1))
      (listed : child.range ∈ items) : low < child.range.start ∧ child.range.stop < high := by
    have around := successive.inside listed
    have order := successive.le
    omega
  rcases trims_list trims with ⟨given, rfl⟩ | ⟨⟨range, given⟩, rfl⟩
  next =>
    obtain ⟨param, listed, rfl⟩ := List.mem_map.mp member
    exact inside arranged (List.mem_map_of_mem listed)
  next =>
    obtain ⟨arg, listed, rfl⟩ := List.mem_map.mp member
    exact inside arranged (List.mem_map.mpr ⟨arg, listed, arg.range_subtree.symm⟩)

end Subtree

namespace Setting

variable {setting : Setting} {slots : List Slot} {manner : Manner} {root list : Subtree}
  {own edits : List Edit}

def Enclosed (setting : Setting) (root part : Subtree) (edits : List Edit) : Prop :=
  ∃ list entry texts, root.Below list ∧ (list.kind = .typeParams ∨ list.kind = .typeArgs) ∧
    entry ∈ list.children ∧ entry.Below part ∧ setting.reduce list.range texts ∈ edits

/-- What is left of a list is what the edits leave of it. -/
structure Trimmed (setting : Setting) (root : Subtree) (slots : List Slot) (manner : Manner)
    (list : Subtree) (edits : List Edit) : Prop where
  whole : setting.rest slots manner list = list.children →
    setting.Enclosed root list edits ∨
      ∀ edit ∈ edits, ¬ edit.Covers list.range.start ∧ ¬ edit.Covers (list.range.stop - 1)
  fewer : setting.rest slots manner list ≠ list.children →
    ∃ (texts : List (List Char)) (stop : Int),
      List.Forall₂ (fun entry text => (setting.rendering slots entry).result = .ok text)
        (setting.rest slots manner list) texts ∧
      (stop = list.range.stop ∨
        texts = [] ∧ stop = list.range.stop + 1 ∧ setting.isBlankAt list.range.stop = true) ∧
      setting.Arrives root list
        [⟨list.range.start, stop,
          if texts = [] then [] else '<' :: List.intercalate [',', ' '] texts ++ ['>']⟩] edits

theorem reduce_eq (range : Range) (texts : List (List Char)) :
    ∃ stop : Int, (stop = range.stop ∨
        texts = [] ∧ stop = range.stop + 1 ∧ setting.isBlankAt range.stop = true) ∧
      setting.reduce range texts = ⟨range.start, stop,
        if texts = [] then [] else '<' :: List.intercalate [',', ' '] texts ++ ['>']⟩ := by
  by_cases none : texts = []
  next =>
    subst none
    refine ⟨_, ?_, rfl⟩
    split
    next spreads =>
      simp only [Bool.and_eq_true] at spreads
      exact .inr ⟨rfl, rfl, spreads.2⟩
    next => exact .inl rfl
  next => exact ⟨range.stop, .inl rfl, by simp [reduce, none]⟩

theorem entries_only (trims : list.trims manner = true) (sound : list.Sound (lexemesOf setting.tokens))
    (bound : setting.Bound (list.within slots))
    (assembles : setting.Assembles (list.within slots) list.names (list.parts manner) own) :
    ∀ edit ∈ own, ∀ index, Solid (lexemesOf setting.tokens) index → edit.Covers index →
      ∃ entry ∈ list.children, entry.range.start ≤ index ∧ index < entry.range.stop := by
  obtain ⟨names, inner, ofParts, named, visited, all⟩ := assembles
  obtain ⟨inCode, -, nameless, -⟩ := Subtree.trims_plain trims
  intro edit member index solid covers
  rcases (all edit).mp member with here | ⟨pair, found, there⟩
  next =>
    obtain ⟨name, given, -⟩ := named edit here
    rw [nameless] at given
    cases given
  next =>
    have part : (pair.1.1, pair.1.2) ∈ list.parts manner := ofParts ▸ List.mem_map_of_mem found
    have child := Subtree.child_of_part part
    have lies := visit_lies (inCode.children child) (sound.child child) bound (visited pair found) edit there
    exact ⟨pair.1.2, child, lies.range solid covers⟩

theorem brackets_free (trims : list.trims manner = true) (sound : list.Sound (lexemesOf setting.tokens))
    (bound : setting.Bound (list.within slots))
    (assembles : setting.Assembles (list.within slots) list.names (list.parts manner) own) :
    ∀ edit ∈ own, ∀ index, Solid (lexemesOf setting.tokens) index → edit.Covers index →
      list.range.start < index ∧ index + 1 < list.range.stop := by
  intro edit member index solid covers
  obtain ⟨entry, child, range⟩ := entries_only trims sound bound assembles edit member index solid covers
  have inside := Subtree.entry_inside trims sound.here.arranged child
  omega

theorem trimmed_of_visit (loses : list.Loses manner) (sound : list.Sound (lexemesOf setting.tokens))
    (bound : setting.Bound slots) (made : (setting.visit slots manner list).result = .ok own)
    (arrives : setting.Arrives root list own edits) :
    setting.Trimmed root slots manner list edits := by
  obtain ⟨inCode, -⟩ := Subtree.trims_plain loses.trims
  obtain ⟨nonempty, first, last⟩ := inCode.bounded sound.here.bounded
  obtain ⟨visited, inside⟩ := visit_cases inCode bound made
  -- A list that keeps all entries keeps its brackets; one that loses some is replaced as a whole.
  cases visited with
  | within assembles whole =>
    refine ⟨fun _ => ?_, fun fewer => absurd (whole loses.trims) fewer⟩
    cases arrives with
    | inPlace all only =>
      have free {edit : Edit} (member : edit ∈ edits) {index : Nat} (low : list.range.start ≤ index)
          (high : index < list.range.stop) (solid : Solid (lexemesOf setting.tokens) index)
          (covers : edit.Covers index) : list.range.start < index ∧ index + 1 < list.range.stop :=
        brackets_free loses.trims sound inside assembles edit
          (only edit member index low high solid covers) index solid covers
      refine .inr fun edit member => ⟨fun covers => ?_, fun covers => ?_⟩
      next =>
        have strict := free member (Nat.le_refl _) nonempty first covers
        omega
      next =>
        have strict := free member (by omega) (by omega) last covers
        omega
    | rebuilds below isList child around member =>
      exact .inl ⟨_, _, _, below, isList, child, around, member⟩
  | @rebuilt texts trims fewer rendered =>
    refine ⟨fun whole => absurd whole fewer, fun _ => ?_⟩
    obtain ⟨stop, ends, same⟩ := @reduce_eq setting list.range texts
    exact ⟨texts, stop, rendered, ends, same ▸ arrives⟩
  | removed diamond _ template => exact absurd diamond (loses.filled _ template)

variable {tree : Tree} (docs : tree.docs = docComments setting.tokens)
  (sound : (Subtree.unit tree).Sound (lexemesOf setting.tokens))
  (made : (setting.edits tree).result = .ok edits)

include docs sound made in
theorem edits_list (way : Subtree.Way [] .alone (.unit tree) slots manner list)
    (trims : list.trims manner = true)
    (visited : ∀ param, (Subtree.unit tree).Below (.param param) → (Subtree.param param).Below list →
      setting.Retains (.param param)) :
    Subtree.Leads [] (.unit tree) list slots ∧ setting.Bound slots ∧
      ∃ own, (setting.visit slots manner list).result = .ok own ∧ setting.Arrives (.unit tree) list own edits := by
  obtain ⟨inCode, lasting, -, same⟩ := Subtree.trims_plain trims
  have leads := way.leads
  rw [same] at leads
  exact ⟨leads, edits_arrive docs sound made way inCode lasting visited⟩

include docs sound made in
theorem edits_trim (way : Subtree.Way [] .alone (.unit tree) slots manner list) (loses : list.Loses manner)
    (visited : ∀ param, (Subtree.unit tree).Below (.param param) → (Subtree.param param).Below list →
      setting.Retains (.param param)) :
    Subtree.Leads [] (.unit tree) list slots ∧ setting.Trimmed (.unit tree) slots manner list edits := by
  obtain ⟨leads, bound, own, ended, arrives⟩ := edits_list docs sound made way loses.trims visited
  exact ⟨leads, trimmed_of_visit loses (sound.at_below way.holds) bound ended arrives⟩

end Setting

/-- A list in angle brackets loses the entries that stand for primitives and no others. If it loses none
its brackets stay, unless a list around it is rebuilt; else one edit puts the renderings of the entries
that are left in place of the list, or nothing if none is left. -/
theorem edits_erasure {source : List Char} {tokens : List Token} {tree : Tree} {binding : Binding}
    {edits : List Edit} (parsed : parse source = .ok (tokens, tree))
    (made : (Setting.edits ⟨tokens, binding⟩ tree).result = .ok edits) {part list : Subtree}
    {manner : Manner} (below : (Subtree.unit tree).Below part) (trimmed : (manner, list) ∈ part.trimmed)
    (visited : ∀ param, (Subtree.unit tree).Below (.param param) → (Subtree.param param).Below list →
      Setting.Retains ⟨tokens, binding⟩ (.param param)) :
    ∃ slots, Subtree.Leads [] (.unit tree) list slots ∧
      Setting.Trimmed ⟨tokens, binding⟩ (.unit tree) slots manner list edits := by
  have sound := parse_sound parsed
  have docs := parseTokens_docs (parse_ok parsed).2
  obtain ⟨slots, way, loses⟩ := Subtree.way_of_trimmed below trimmed
  exact ⟨slots, @Setting.edits_trim ⟨tokens, binding⟩ _ _ _ _ _ docs sound made way loses visited⟩

theorem Subtree.ref_paramless {r : TypeRef} {lower : Subtree} (below : (ref r).Below lower) :
    lower.kind = .typeRef ∨ lower.kind = .typeArgs ∨ lower.kind = .wildcard := by
  induction below with
  | refl => exact .inl rfl
  | @tail middle lower _ step ih =>
    cases middle with
    | ref r =>
      obtain ⟨list, -, rfl⟩ := List.mem_map.mp step
      exact .inr (.inl rfl)
    | wildcard range bound =>
      obtain ⟨r, -, rfl⟩ := List.mem_map.mp step
      exact .inl rfl
    | args list =>
      obtain ⟨arg, -, rfl⟩ := List.mem_map.mp step
      cases arg <;> simp [TypeArg.subtree, kind]
    | _ => simp [kind] at ih

theorem Subtree.params_outermost {param : TypeParam} {list : TypeParams} :
    ¬ (Subtree.param param).Below (.params list) := by
  intro below
  rcases below_cases below with same | ⟨child, step, inside⟩
  next => cases same
  next =>
    obtain ⟨bound, -, rfl⟩ := List.mem_map.mp step
    simpa [kind] using ref_paramless inside

theorem Subtree.field_free {tree : Tree} {lexemes : List Lexeme} (sound : (unit tree).Sound lexemes)
    {decl lower : Subtree} {field : TypeRef} {param : TypeParam} (top : decl ∈ (unit tree).children)
    (step : ref field ∈ decl.children) (inside : (ref field).Below lower)
    (below : (unit tree).Below (.param param)) : ¬ (Subtree.param param).Below lower := by
  intro around
  rcases List.mem_append.mp top with listed | listed
  next =>
    obtain ⟨member, found, rfl⟩ := List.mem_map.mp listed
    obtain ⟨other, there, within⟩ := below_unit below trivial
    have soundMember := sound_member sound found
    -- The first token of the lower end is in no other member, and there in no other child.
    have soundField := soundMember.child step
    obtain ⟨nonempty, -, -⟩ := (inside.inCode trivial).bounded (soundField.at_below inside).here.bounded
    have first : lower.range.start ≤ lower.range.start ∧ lower.range.start < lower.range.stop :=
      ⟨Nat.le_refl _, nonempty⟩
    have same := member_unique sound there found (within.trans around) (inside.head step) first first
    subst same
    rcases below_cases within with same | ⟨child, next, within⟩
    next => cases other <;> cases same
    next =>
      have ofField := below_range (by trivial) soundField inside
      have ofChild := below_range ((inCode_member other).children next) (soundMember.child next)
        (within.trans around)
      have one := child_unique (inCode_member other) soundMember.here next step
        ⟨ofChild.1, by omega⟩ ⟨ofField.1, by omega⟩
      subst one
      simpa [kind] using ref_paramless within
  next =>
    obtain ⟨index, -, rfl⟩ := List.mem_map.mp listed
    cases step

theorem edits_erasure_nested :
    ∃ tokens tree edits part list,
      parse "class A { KTypeVTypeMap<KTypeSet<KType>, ?> x; }".toList = .ok (tokens, tree) ∧
        (Setting.edits ⟨tokens, ⟨.generic, some .long⟩⟩ tree).result = .ok edits ∧
        (Subtree.unit tree).Below part ∧
        (.template "KTypeVTypeMap".toList, list) ∈ part.trimmed ∧
        (∀ param, (Subtree.unit tree).Below (.param param) → (Subtree.param param).Below list →
          Setting.Retains ⟨tokens, ⟨.generic, some .long⟩⟩ (.param param)) ∧
        ⟨list.range.start, list.range.stop, "<ObjectSet<KType>>".toList⟩ ∈ edits ∧
        ∃ slots, Subtree.Leads [] (.unit tree) list slots ∧
          Setting.Trimmed ⟨tokens, ⟨.generic, some .long⟩⟩ (.unit tree) slots
            (.template "KTypeVTypeMap".toList) list edits := by
  obtain ⟨⟨tokens, tree⟩, parsed, passes⟩ := ok_of_any
    (show (parse "class A { KTypeVTypeMap<KTypeSet<KType>, ?> x; }".toList).toOption.any
      (fun read => (Setting.edits ⟨read.1, ⟨.generic, some .long⟩⟩ read.2).result.toOption.any
        fun edits => (Subtree.unit read.2).children.any fun decl => decl.children.any fun part =>
          part.kind == .typeRef && part.trimmed.any fun entry =>
            entry.1 == .template "KTypeVTypeMap".toList && edits.contains
              ⟨entry.2.range.start, entry.2.range.stop, "<ObjectSet<KType>>".toList⟩) = true
      by decide +kernel)
  obtain ⟨edits, made, found⟩ := ok_of_any passes
  simp only [List.any_eq_true, Bool.and_eq_true, beq_iff_eq, List.contains_iff_mem] at found
  obtain ⟨decl, top, part, step, isRef, ⟨manner, list⟩, trimmed, rfl, replaced⟩ := found
  obtain ⟨field, rfl⟩ : ∃ field, part = .ref field := by
    cases part <;> first | cases isRef; done | exact ⟨_, rfl⟩
  obtain ⟨among, -⟩ := Subtree.trimmed_loses trimmed .alone
  have visited (param : TypeParam) (above : (Subtree.unit tree).Below (.param param))
      (around : (Subtree.param param).Below list) :
      Setting.Retains ⟨tokens, ⟨.generic, some .long⟩⟩ (.param param) :=
    absurd around (Subtree.field_free (parse_sound parsed) top step
      (.single (Subtree.child_of_part among)) above)
  have below : (Subtree.unit tree).Below (.ref field) := .head top (.single step)
  obtain ⟨slots, leads, left⟩ := edits_erasure parsed made below trimmed visited
  exact ⟨tokens, tree, edits, _, list, parsed, made, below, trimmed, visited, replaced, slots, leads, left⟩

end Specializer
