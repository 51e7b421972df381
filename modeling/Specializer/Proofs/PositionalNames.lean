import Specializer.Proofs.Innermost
import Specializer.Proofs.Origin
import Specializer.Proofs.Positions

set_option autoImplicit false

namespace Specializer

/-- The name of a segment that stands alone or before a diamond. -/
def Segment.open? : Segment → Option Name
  | .plain name | .applied name (.mk _ []) => some name
  | .applied _ (.mk _ (_ :: _)) => none

/-- The names of a node that take the values in scope by position. -/
def Subtree.positional : Subtree → List Name
  | typeDecl _ _ name _ _ _ => [name]
  | ref r => if r.slot? = none then r.segments.filterMap Segment.open? else []
  | _ => []

namespace Subtree

variable {part lower : Subtree} {name : Name}

theorem positional_names (own : name ∈ part.positional) : name ∈ part.names := by
  cases part <;> simp only [positional, List.not_mem_nil] at own
  case typeDecl => exact List.mem_cons_of_mem _ own
  case ref r =>
    split at own
    next =>
      obtain ⟨segment, member, found⟩ := List.mem_filterMap.mp own
      refine List.mem_map.mpr ⟨segment, member, ?_⟩
      unfold Segment.open? at found
      split at found <;> first | exact Option.some.inj found | cases found
    next => cases own

theorem bare_silent {ref : TypeRef} {slot : Slot} (bare : ref.slot? = some slot)
    (below : (Subtree.ref ref).Below lower) : lower.positional = [] := by
  have childless : (Subtree.ref ref).children = [] := by
    unfold TypeRef.slot? at bare
    split at bare
    next => rfl
    next => cases bare
  rcases below_cases below with rfl | ⟨child, member, -⟩
  · simp [positional, bare]
  · rw [childless] at member
    cases member

end Subtree

namespace Setting

variable {setting : Setting} {scope : Scope Slot} {slots : List Slot} {root part lower : Subtree}
  {name : Name} {new : List Char} {edits more : List Edit} {entries others : Entries}

/-- The edits put a text in place of a name: one of them does, or one rebuilds a list around the name
and has the text in that of an entry. -/
inductive Puts (setting : Setting) (root part : Subtree) (name : Name) (new : List Char) :
    List Edit → Prop
  | replaces {edits : List Edit} (member : replace name new ∈ edits) :
      Puts setting root part name new edits
  | rebuilds {edits inner : List Edit} {list entry : Subtree} {texts : List (List Char)}
      {text : List Char} (below : root.Below list)
      (isList : list.kind = .typeParams ∨ list.kind = .typeArgs) (child : entry ∈ list.children)
      (around : entry.Below part) (member : setting.reduce list.range texts ∈ edits)
      (kept : text ∈ texts) (rendered : (setting.render entry.range inner).result = .ok text)
      (puts : Puts setting root part name new inner) : Puts setting root part name new edits

theorem Puts.mono {higher : Subtree} (puts : setting.Puts root part name new edits)
    (up : higher.Below root) (all : ∀ edit ∈ edits, edit ∈ more) :
    setting.Puts higher part name new more := by
  induction puts generalizing more with
  | replaces member => exact .replaces (all _ member)
  | rebuilds below isList child around member kept rendered _ ih =>
    exact .rebuilds (up.trans below) isList child around (all _ member) kept rendered
      (ih fun _ => id)

section Types

/-- In a type, each positional name is put as the slots say. -/
def Spells (setting : Setting) (slots : List Slot) (part : Subtree) (edits : List Edit) : Prop :=
  ∀ lower, part.Below lower → ∀ name ∈ lower.positional, hasPlaceholder name.text = true →
    ∃ new, setting.binding.Positioned slots name.text new ∧ setting.Puts part lower name new edits

theorem Spells.mono (spells : setting.Spells slots part edits) (all : ∀ edit ∈ edits, edit ∈ more) :
    setting.Spells slots part more := by
  intro lower below name own has
  obtain ⟨new, positioned, puts⟩ := spells lower below name own has
  exact ⟨new, positioned, puts.mono .refl all⟩

theorem Spells.node (own : ∀ name ∈ part.positional, hasPlaceholder name.text = true →
      ∃ new, setting.binding.Positioned slots name.text new ∧ replace name new ∈ edits)
    (children : ∀ child ∈ part.children, setting.Spells slots child edits) :
    setting.Spells slots part edits := by
  intro lower below name there has
  rcases Subtree.below_cases below with rfl | ⟨child, member, inside⟩
  · obtain ⟨new, positioned, replaced⟩ := own name there has
    exact ⟨new, positioned, .replaces replaced⟩
  · obtain ⟨new, positioned, puts⟩ := children child member lower inside name there has
    exact ⟨new, positioned, puts.mono (.single member) fun _ => id⟩

theorem Spells.silent (silent : ∀ lower, part.Below lower → lower.positional = []) :
    setting.Spells slots part edits := by
  intro lower below name own
  rw [silent lower below] at own
  cases own

/-- An entry of a list: its positional names are put both in place and in the text that is kept. -/
def Shows (setting : Setting) (slots : List Slot) (part : Subtree) (entries : Entries) : Prop :=
  ∀ lower, part.Below lower → ∀ name ∈ lower.positional, hasPlaceholder name.text = true →
    ∃ new, setting.binding.Positioned slots name.text new ∧
      setting.Puts part lower name new entries.edits ∧
      ∃ text ∈ entries.kept, ∃ inner, (setting.render part.range inner).result = .ok text ∧
        setting.Puts part lower name new inner

theorem Shows.mono (shows' : setting.Shows slots part entries) (within : entries.Within others) :
    setting.Shows slots part others := by
  intro lower below name own has
  obtain ⟨new, positioned, puts, text, kept, inner, rendered⟩ := shows' lower below name own has
  exact ⟨new, positioned, puts.mono .refl within.edits, text, within.kept text kept, inner, rendered⟩

theorem Shows.keep {values : List (Option SlotType)} {derived : Bool} {text : List Char}
    (spells : setting.Spells slots part edits)
    (rendered : (setting.render part.range edits).result = .ok text) :
    setting.Shows slots part (.keep values derived text edits) := by
  intro lower below name own has
  obtain ⟨new, positioned, puts⟩ := spells lower below name own has
  exact ⟨new, positioned, puts, text, List.mem_singleton_self _, edits, rendered, puts⟩

theorem Shows.silent (silent : ∀ lower, part.Below lower → lower.positional = []) :
    setting.Shows slots part entries := by
  intro lower below name own
  rw [silent lower below] at own
  cases own

theorem Shows.listed {list : Subtree} (isList : list.kind = .typeParams ∨ list.kind = .typeArgs)
    (child : part ∈ list.children) (shows' : setting.Shows slots part entries)
    (below : part.Below lower) (own : name ∈ lower.positional)
    (has : hasPlaceholder name.text = true) :
    ∃ new, setting.binding.Positioned slots name.text new ∧
      setting.Puts list lower name new (setting.listEdits list.range entries) := by
  obtain ⟨new, positioned, puts, text, kept, inner, rendered, inText⟩ :=
    shows' lower below name own has
  refine ⟨new, positioned, ?_⟩
  unfold listEdits
  split
  next =>
    exact .rebuilds .refl isList child below (List.mem_singleton_self _) kept rendered
      (inText.mono (.single child) fun _ => id)
  next => exact puts.mono (.single child) fun _ => id

theorem Shows.args {range : Range} {args : List TypeArg}
    (each : ∀ arg ∈ args, setting.Shows slots arg.subtree entries) :
    setting.Spells slots (.args (.mk range args)) (setting.listEdits range entries) := by
  intro lower below name own has
  rcases Subtree.below_cases below with rfl | ⟨child, member, inside⟩
  · cases own
  · obtain ⟨arg, found, rfl⟩ := List.mem_map.mp member
    exact (each arg found).listed (.inr rfl) member inside own has

structure SpellsSegment (setting : Setting) (slots : List Slot) (segment : Segment)
    (edits : List Edit) : Prop where
  name : ∀ name, segment.open? = some name → hasPlaceholder name.text = true →
    ∃ new, setting.binding.Positioned slots name.text new ∧ replace name new ∈ edits
  args : ∀ list, segment.args? = some list → setting.Spells slots (.args list) edits

theorem SpellsSegment.mono {segment : Segment} (spells : setting.SpellsSegment slots segment edits)
    (all : ∀ edit ∈ edits, edit ∈ more) : setting.SpellsSegment slots segment more := by
  constructor
  · intro name isOpen has
    obtain ⟨new, positioned, replaced⟩ := spells.name name isOpen has
    exact ⟨new, positioned, all _ replaced⟩
  · intro list given
    exact (spells.args list given).mono all

theorem SpellsSegment.applied {name : Name} {range : Range} {args : List TypeArg}
    (diamond : args = [] → hasPlaceholder name.text = true →
      ∃ new, setting.binding.Positioned slots name.text new ∧ replace name new ∈ edits)
    (spells : setting.Spells slots (.args (.mk range args)) edits) :
    setting.SpellsSegment slots (.applied name (.mk range args)) edits := by
  constructor
  · intro other isOpen
    cases args with
    | nil =>
      cases isOpen
      exact diamond rfl
    | cons arg rest => cases isOpen
  · intro list given
    cases given
    exact spells

theorem bareValue_silent {ref : TypeRef} {value : SlotType}
    (bare : (setting.bareValue ref).result = .ok (some value))
    (below : (Subtree.ref ref).Below lower) : lower.positional = [] := by
  obtain ⟨slot, found, -⟩ := bareValue_some bare
  exact Subtree.bare_silent (bareSlot_ok found) below

theorem foreignEntry_spells {owner : List Char} {arg : TypeArg}
    (inner : ∀ ref ∈ arg.ref?, ∀ {found}, (setting.refEdits (some owner) scope ref).result = .ok found →
      setting.Spells slots (.ref ref) found.edits)
    (made : (setting.foreignEntry owner scope arg).result = .ok edits) :
    setting.Spells slots arg.subtree edits := by
  cases arg with
  | unbounded range => exact .node (List.forall_mem_nil _) (List.forall_mem_nil _)
  | exact ref =>
    simp only [foreignEntry, TypeArg.ref?, Traced.bind_ok, Traced.pure_ok] at made
    obtain ⟨found, visited, rfl⟩ := made
    exact inner ref rfl visited
  | bounded range kind ref =>
    simp only [foreignEntry, TypeArg.ref?, Traced.bind_ok, Traced.pure_ok] at made
    obtain ⟨found, visited, rfl⟩ := made
    refine .node (List.forall_mem_nil _) fun child inside => ?_
    cases List.mem_singleton.mp inside
    exact inner ref rfl visited

theorem argEntry_shows {inScope : Option (List SlotType)} {position : Nat} {arg : TypeArg}
    (inner : ∀ ref ∈ arg.ref?, ∀ {found}, (setting.refEdits none scope ref).result = .ok found →
      setting.Spells slots (.ref ref) found.edits)
    (made : (setting.argEntry inScope scope position arg).result = .ok entries) :
    setting.Shows slots arg.subtree entries := by
  cases arg with
  | unbounded range =>
    refine .silent fun lower below => ?_
    rcases Subtree.below_cases below with rfl | ⟨child, member, -⟩
    · rfl
    · cases member
  | exact ref =>
    rw [argEntry_exact] at made
    rcases refEntry_ok made with ⟨value, isBare, -⟩ | ⟨found, text, -, visited, rendered, rfl⟩
    · exact .silent fun lower => bareValue_silent isBare
    · exact .keep (inner ref rfl visited) rendered
  | bounded range kind ref =>
    have only (child : Subtree) (member : child ∈ (TypeArg.bounded range kind ref).subtree.children) :
        child = .ref ref := List.mem_singleton.mp member
    rw [argEntry_bounded] at made
    rcases refEntry_ok made with ⟨value, isBare, -⟩ | ⟨found, text, -, visited, rendered, rfl⟩
    · refine .silent fun lower below => ?_
      rcases Subtree.below_cases below with rfl | ⟨child, member, inside⟩
      · rfl
      · exact bareValue_silent isBare (only child member ▸ inside)
    · refine .keep (.node (List.forall_mem_nil _) fun child member => ?_) rendered
      rw [only child member]
      exact inner ref rfl visited

theorem segmentEdits_spells (follows : scope.Follows setting.binding slots) {segment : Segment}
    {found : RefEdits}
    (inner : ∀ ref ∈ segment.refs, ∀ {owner found},
      (setting.refEdits owner scope ref).result = .ok found → setting.Spells slots (.ref ref) found.edits)
    (made : (setting.segmentEdits scope segment).result = .ok found) :
    setting.SpellsSegment slots segment found.edits := by
  cases segment with
  | plain name =>
    refine ⟨fun other isOpen has => ?_, fun list given => by cases given⟩
    cases isOpen
    rw [segmentEdits, if_neg fun zero => by simp [segmentCount_eq_zero.mp zero] at has] at made
    simp only [Traced.bind_ok, Traced.pure_ok] at made
    obtain ⟨values, bound, edits, renamed, rfl⟩ := made
    exact rename_positioned follows bound renamed has
  | applied name args =>
    cases args with
    | mk range args =>
      have inside : ∀ arg ∈ args, ∀ ref ∈ arg.ref?, ∀ {owner found},
          (setting.refEdits owner scope ref).result = .ok found →
            setting.Spells slots (.ref ref) found.edits :=
        fun arg member ref has => inner ref (List.mem_filterMap.mpr ⟨arg, member, has⟩)
      rcases segmentEdits_applied made with
        ⟨plain, edits, foreign, rfl⟩ | ⟨-, inScope, values, list, new, bound, renamed, rfl, source⟩
      · refine .applied (fun _ has => by simp [plain] at has) ?_
        refine .node (List.forall_mem_nil _) fun child member => ?_
        obtain ⟨arg, given, rfl⟩ := List.mem_map.mp member
        obtain ⟨own, visited, all⟩ := foreignEdits_each foreign given
        exact (foreignEntry_spells (fun ref has => inside arg given ref has) visited).mono all
      · rcases source with ⟨rfl, rfl, -⟩ | ⟨nonempty, entries, ofArgs, source⟩
        · refine .applied (fun _ has => ?_)
            (.node (List.forall_mem_nil _) (List.forall_mem_nil _))
          obtain ⟨spelled, positioned, replaced⟩ := rename_positioned follows bound renamed has
          exact ⟨spelled, positioned, List.mem_append_right _ replaced⟩
        · refine .applied (fun diamond => absurd diamond nonempty) ?_
          have each (arg : TypeArg) (given : arg ∈ args) : setting.Shows slots arg.subtree entries := by
            obtain ⟨_, own, visited, within⟩ := argEdits_each ofArgs given
            exact (argEntry_shows (fun ref has => inside arg given ref has) visited).mono within
          rcases source with ⟨-, -, rfl⟩ | ⟨unknown, -, rfl⟩
          · exact (Shows.args each).mono fun _ => List.mem_append_left _
          -- If no argument tells a value, none was dropped, so the list is edited in place.
          · have lists := argEdits_lists (fun _ _ _ _ => refEdits_treats) ofArgs
            have inPlace : setting.listEdits range entries = entries.edits := by
              simp [listEdits, lists.whole unknown]
            exact (inPlace ▸ Shows.args each).mono fun _ => List.mem_append_left _

theorem refEdits_spells {owner : Option (List Char)} (follows : scope.Follows setting.binding slots)
    (ref : TypeRef) {found : RefEdits} (made : (setting.refEdits owner scope ref).result = .ok found) :
    setting.Spells slots (.ref ref) found.edits := by
  induction ref using TypeRef.induction generalizing owner found with
  | mk range segments dims inner =>
    rw [refEdits, Traced.bind_ok] at made
    obtain ⟨bare, isBare, made⟩ := made
    cases bare with
    | some slot => exact .silent fun lower => Subtree.bare_silent (bareSlot_ok isBare)
    | none =>
      have spells (segment : Segment) (member : segment ∈ segments) :
          setting.SpellsSegment slots segment found.edits := by
        obtain ⟨own, visited, all⟩ := segmentsEdits_each made member
        exact (segmentEdits_spells follows (fun ref has => inner segment member ref has) visited).mono all
      refine .node ?_ ?_
      · intro name own
        rw [Subtree.positional, if_pos (bareSlot_ok isBare)] at own
        obtain ⟨segment, member, isOpen⟩ := List.mem_filterMap.mp own
        exact (spells segment member).name name isOpen
      · intro child member
        obtain ⟨list, given, rfl⟩ := List.mem_map.mp member
        obtain ⟨segment, found, same⟩ := List.mem_filterMap.mp given
        exact (spells segment found).args list same

theorem refsEdits_spells (follows : scope.Follows setting.binding slots) {refs : List TypeRef}
    (made : (setting.refsEdits scope refs).result = .ok edits) :
    ∀ ref ∈ refs, setting.Spells slots (.ref ref) edits := by
  intro ref member
  obtain ⟨inner, visited, all⟩ := refsEdits_each made member
  exact (refEdits_spells follows ref visited).mono all

theorem explicitArgs_spells (follows : scope.Follows setting.binding slots) {args : TypeArgs}
    {explicit : List SlotType × List Edit}
    (made : (setting.explicitArgs scope args).result = .ok explicit) :
    setting.Spells slots (.args args) explicit.2 := by
  cases args with
  | mk range args =>
    rw [explicitArgs] at made
    simp only [Traced.bind_ok, Traced.pure_ok] at made
    obtain ⟨entries, ofArgs, rfl⟩ := made
    refine Shows.args fun arg given => ?_
    obtain ⟨_, own, visited, within⟩ := argEdits_each ofArgs given
    exact (argEntry_shows (fun ref _ _ made => refEdits_spells follows ref made) visited).mono within

end Types

section Declarations

def Lost (setting : Setting) (root part : Subtree) (edits : List Edit) : Prop :=
  ∃ list param texts, root.Below (.params list) ∧ param ∈ list.params ∧
    (Subtree.param param).Below part ∧ ¬ setting.Retains (.param param) ∧
    setting.reduce list.range texts ∈ edits

def Maps (setting : Setting) (slots : List Slot) (part : Subtree) (edits : List Edit) : Prop :=
  ∀ lower result, Subtree.Leads slots part lower result → ∀ name ∈ lower.positional,
    hasPlaceholder name.text = true →
      (∃ new, setting.binding.Positioned result name.text new ∧
        setting.Puts part lower name new edits) ∨ setting.Lost part lower edits

theorem Lost.mono {higher : Subtree} (lost : setting.Lost root part edits) (up : higher.Below root)
    (all : ∀ edit ∈ edits, edit ∈ more) : setting.Lost higher part more := by
  obtain ⟨list, param, texts, below, listed, around, goes, member⟩ := lost
  exact ⟨list, param, texts, up.trans below, listed, around, goes, all _ member⟩

theorem Maps.mono (maps : setting.Maps slots part edits) (all : ∀ edit ∈ edits, edit ∈ more) :
    setting.Maps slots part more := by
  intro lower result leads name own has
  rcases maps lower result leads name own has with ⟨new, positioned, puts⟩ | lost
  · exact .inl ⟨new, positioned, puts.mono .refl all⟩
  · exact .inr (lost.mono .refl all)

theorem Maps.node (own : ∀ name ∈ part.positional, hasPlaceholder name.text = true →
      ∃ new, setting.binding.Positioned (part.within slots) name.text new ∧ replace name new ∈ edits)
    (children : ∀ child ∈ part.children, setting.Maps (part.within slots) child edits) :
    setting.Maps slots part edits := by
  intro lower result leads name there has
  cases leads with
  | here =>
    obtain ⟨new, positioned, replaced⟩ := own name there has
    exact .inl ⟨new, positioned, .replaces replaced⟩
  | down member rest =>
    rcases children _ member lower result rest name there has with ⟨new, positioned, puts⟩ | lost
    · exact .inl ⟨new, positioned, puts.mono (.single member) fun _ => id⟩
    · exact .inr (lost.mono (.single member) fun _ => id)

theorem Spells.maps (spells : setting.Spells slots part edits) (type : part.isType = true) :
    setting.Maps slots part edits := by
  intro lower result leads name own has
  cases leads.type type
  exact .inl (spells lower (Subtree.leads_below leads) name own has)

theorem paramEntry_bound {param : TypeParam} {slot : Slot}
    (made : (setting.paramEntry scope param).result = .ok entries)
    (named : Slot.ofText? param.name.text = some slot) :
    (setting.binding.get? slot).isSome = true := by
  rw [paramEntry_some named, Traced.bind_ok] at made
  obtain ⟨value, bound, -⟩ := made
  rw [get?_of_get (Traced.lift_ok.mp bound)]
  rfl

theorem paramEntries_shows (follows : scope.Follows setting.binding slots) {params : List TypeParam}
    (made : (setting.paramEntries scope params).result = .ok entries) :
    ∀ param ∈ params, setting.Shows slots (.param param) entries ∨
      entries.dropped = true ∧ ¬ setting.Retains (.param param) := by
  intro param member
  obtain ⟨own, visited, within⟩ := paramEntries_each made member
  rcases paramEntry_ok visited with ⟨slot, value, named, bound, primitive, rfl⟩ |
    ⟨-, edits, text, ofBounds, rendered, rfl⟩
  · refine .inr ⟨within.dropped rfl, fun retains => ?_⟩
    have generic := retains slot value named (get?_of_get bound)
    simp [SlotType.isPrimitive, generic] at primitive
  · refine .inl (Shows.mono (.keep ?_ rendered) within)
    refine .node (List.forall_mem_nil _) fun child inside => ?_
    obtain ⟨ref, found, rfl⟩ := List.mem_map.mp inside
    exact refsEdits_spells follows ofBounds ref found

theorem paramsEdits_maps (follows : scope.Follows setting.binding slots) {params : TypeParams}
    (made : (setting.paramsEdits scope params).result = .ok edits) :
    setting.Maps slots (.params params) edits := by
  rw [paramsEdits] at made
  simp only [Traced.bind_ok, Traced.pure_ok] at made
  obtain ⟨entries, ofParams, rfl⟩ := made
  intro lower result leads name own has
  cases leads.type rfl
  rcases Subtree.below_cases (Subtree.leads_below leads) with rfl | ⟨child, member, inside⟩
  · cases own
  · obtain ⟨param, found, rfl⟩ := List.mem_map.mp member
    rcases paramEntries_shows follows ofParams param found with shown | ⟨dropped, goes⟩
    · exact .inl (shown.listed (.inl rfl) member inside own has)
    · refine .inr ⟨params, param, entries.kept, .refl, found, inside, goes, ?_⟩
      simp [listEdits, dropped]

theorem paramsEdits_bound {params : TypeParams}
    (made : (setting.paramsEdits scope params).result = .ok edits) :
    ∀ slot ∈ params.declared, (setting.binding.get? slot).isSome = true := by
  rw [paramsEdits] at made
  simp only [Traced.bind_ok] at made
  obtain ⟨entries, ofParams, -⟩ := made
  intro slot member
  obtain ⟨param, found, named⟩ := List.mem_filterMap.mp member
  obtain ⟨own, visited, -⟩ := paramEntries_each ofParams found
  exact paramEntry_bound visited named

theorem declared_inside {params : Option TypeParams} {values : List SlotType}
    (made : (scope.inside params).values setting.binding = .ok values) :
    ∀ slot ∈ (params.map TypeParams.declared).getD [],
      (setting.binding.get? slot).isSome = true := by
  intro slot member
  refine Scope.order_bound made slot ?_
  have some : ((params.map TypeParams.declared).getD []).isEmpty = false := by
    cases own : (params.map TypeParams.declared).getD [] with
    | nil => rw [own] at member; cases member
    | cons => rfl
  simp only [Scope.inside, Scope.nested, some]
  exact List.mem_append_left _ member

theorem membersEdits_maps {members : List Member}
    (each : ∀ member ∈ members, ∀ {edits}, (setting.memberEdits scope member).result = .ok edits →
      setting.Maps slots member.subtree edits)
    (made : (setting.membersEdits scope members).result = .ok edits) :
    ∀ member ∈ members, setting.Maps slots member.subtree edits := by
  intro member found
  obtain ⟨inner, visited, all⟩ := membersEdits_each made found
  exact (each member found visited).mono all

theorem memberEdits_maps (follows : scope.Follows setting.binding slots) (member : Member)
    (made : (setting.memberEdits scope member).result = .ok edits) :
    setting.Maps slots member.subtree edits := by
  induction member using Member.induction generalizing slots scope edits with
  | typeUse ref =>
    rw [memberEdits] at made
    simp only [Traced.bind_ok, Traced.pure_ok] at made
    obtain ⟨found, visited, rfl⟩ := made
    exact (refEdits_spells follows ref visited).maps rfl
  | importDecl range ref isStatic onDemand =>
    rw [memberEdits] at made
    simp only [Traced.bind_ok, Traced.pure_ok] at made
    obtain ⟨found, visited, rfl⟩ := made
    refine .node (List.forall_mem_nil _) fun child inside => ?_
    cases List.mem_singleton.mp inside
    exact (refEdits_spells follows ref visited).maps rfl
  | typeDecl range keyword name params supertypes members inner =>
    rw [memberEdits] at made
    simp only [Traced.bind_ok, Traced.pure_ok] at made
    obtain ⟨values, bound, ofName, renamed, ofParams, listed, ofSupers, above, ofBody, inside, rfl⟩ :=
      made
    -- The name of a declaration is in its own scope, as its parameters and members are.
    have follows := follows.inside (declared_inside bound)
    have body := membersEdits_maps (fun member given => inner member given follows) inside
    refine .node ?_ ?_
    · intro other own has
      cases List.mem_singleton.mp own
      obtain ⟨new, positioned, replaced⟩ := rename_positioned follows bound renamed has
      exact ⟨new, positioned, by simp [replaced]⟩
    · intro child found
      rcases List.mem_append.mp found with found | found
      · rcases List.mem_append.mp found with found | found
        · obtain ⟨list, given, rfl⟩ := List.mem_map.mp found
          cases Option.mem_toList.mp given
          exact (paramsEdits_maps follows listed).mono fun edit there => by simp [there]
        · obtain ⟨ref, given, rfl⟩ := List.mem_map.mp found
          exact ((refsEdits_spells follows above ref given).maps rfl).mono
            fun edit there => by simp [there]
      · obtain ⟨member, given, rfl⟩ := List.mem_map.mp found
        exact (body member given).mono fun edit there => by simp [there]
  | methodDecl range params members inner =>
    rw [memberEdits] at made
    simp only [Traced.bind_ok, Traced.pure_ok] at made
    obtain ⟨ofParams, listed, ofBody, inside, rfl⟩ := made
    have follows : (scope.inside (some params)).Follows setting.binding _ :=
      follows.inside (paramsEdits_bound listed)
    have body := membersEdits_maps (fun member given => inner member given follows) inside
    refine .node (List.forall_mem_nil _) fun child found => ?_
    rcases List.mem_cons.mp found with rfl | found
    · exact (paramsEdits_maps follows listed).mono fun edit there => by simp [there]
    · obtain ⟨member, given, rfl⟩ := List.mem_map.mp found
      exact (body member given).mono fun edit there => by simp [there]
  | creation range type members constructorArgs inner =>
    obtain ⟨ofArgs, found, ofBody, rfl, visited, inside, given⟩ := creation_ok made
    have ofType := (refEdits_spells follows type visited).maps rfl
    have body := membersEdits_maps (fun member given => inner member given follows) inside
    refine .node (List.forall_mem_nil _) fun child there => ?_
    rcases List.mem_append.mp there with there | there
    · rcases List.mem_cons.mp there with rfl | there
      · exact ofType.mono fun edit there => by simp [there]
      · obtain ⟨member, listed, rfl⟩ := List.mem_map.mp there
        exact (body member listed).mono fun edit there => by simp [there]
    · obtain ⟨list, named, rfl⟩ := List.mem_map.mp there
      rcases given with ⟨rfl, -⟩ | ⟨args, explicit, rfl, listed, rfl⟩
      · cases named
      · cases List.mem_singleton.mp named
        exact ((explicitArgs_spells follows listed).maps rfl).mono fun edit there => by simp [there]
  | witness range args method =>
    rw [memberEdits] at made
    simp only [Traced.bind_ok, Traced.pure_ok] at made
    obtain ⟨explicit, listed, values, -, ofName, -, rfl⟩ := made
    refine .node (List.forall_mem_nil _) fun child there => ?_
    cases List.mem_singleton.mp there
    exact ((explicitArgs_spells follows listed).maps rfl).mono fun edit there => by simp [there]

end Declarations

/-- A list around the token with the number is rebuilt or goes. -/
def Erased (setting : Setting) (tree : Tree) (edits : List Edit) (index : Nat) : Prop :=
  ∃ list edit, (Subtree.unit tree).Below list ∧ (list.kind = .typeParams ∨ list.kind = .typeArgs) ∧
    list.range.start ≤ index ∧ index < list.range.stop ∧ edit ∈ edits ∧
    setting.Rebuilds list.range edit

section Whole

variable {tree : Tree} (sound : (Subtree.unit tree).Sound (lexemesOf setting.tokens))

include sound in
theorem spared_of_single {index : Nat} (single : ∀ edit ∈ edits, edit.start ≤ (index : Int) →
      (index : Int) < edit.stop → edit.stop = edit.start + 1) :
    ¬ setting.Erased tree edits index := by
  rintro ⟨list, edit, below, isList, low, high, member, rebuilds⟩
  have wide := Subtree.list_wide isList (sound.at_below below).here.arranged
  have start := rebuilds.start
  rcases rebuilds.stop with stop | ⟨stop, -⟩
  all_goals
    have one := single edit member (by omega) (by omega)
    omega

variable (own : name ∈ part.positional)

include sound own

theorem erased_of_reduce {list : Subtree} (there : (Subtree.unit tree).Below list)
    (isList : list.kind = .typeParams ∨ list.kind = .typeArgs) (around : list.Below part)
    {texts : List (List Char)} (member : setting.reduce list.range texts ∈ edits) :
    setting.Erased tree edits name.index := by
  have inside := Subtree.name_range (Subtree.inCode_of_list isList) (sound.at_below there) around
    (Subtree.positional_names own)
  exact ⟨list, _, there, isList, inside.1, inside.2, member, reduce_rebuilds _ _⟩

theorem replaced_of_puts (spared : ¬ setting.Erased tree edits name.index)
    (puts : setting.Puts (Subtree.unit tree) part name new edits) : replace name new ∈ edits := by
  cases puts with
  | replaces member => exact member
  | rebuilds there isList child around member =>
    exact absurd (erased_of_reduce sound own there isList (around.head child) member) spared

end Whole

end Setting

/-- A positional name is respelled with the values of the slots that the innermost declaration around
it declares, in their order, and then of the other slots, if no list around it is rebuilt. If one is, the
list has the new spelling in its text, unless the name stands in a type parameter that goes. -/
theorem edits_positional {source : List Char} {tokens : List Token} {tree : Tree} {binding : Binding}
    {edits : List Edit} (parsed : parse source = .ok (tokens, tree))
    (made : (Setting.edits ⟨tokens, binding⟩ tree).result = .ok edits) {part : Subtree}
    (below : (Subtree.unit tree).Below part) {name : Name} (own : name ∈ part.positional)
    (has : hasPlaceholder name.text = true) :
    ∃ slots, (Subtree.unit tree).Innermost part slots ∧
      (¬ Setting.Erased ⟨tokens, binding⟩ tree edits name.index →
        ∃ new, binding.Positioned slots name.text new ∧
          ⟨name.index, name.index + 1, new⟩ ∈ edits) ∧
      ((∀ param, (Subtree.unit tree).Below (.param param) → (Subtree.param param).Below part →
          Setting.Retains ⟨tokens, binding⟩ (.param param)) →
        ∃ new, binding.Positioned slots name.text new ∧
          Setting.Puts ⟨tokens, binding⟩ (.unit tree) part name new edits) := by
  have sound := parse_sound parsed
  have named := Subtree.positional_names own
  obtain ⟨inCode, inDocs, visited, -, all⟩ := Setting.edits_parts made
  obtain ⟨member, found, within⟩ := Subtree.below_unit below (Subtree.inCode_of_name named)
  have child : member.subtree ∈ (Subtree.unit tree).children := Subtree.member_child found
  obtain ⟨slots, leads⟩ := Subtree.leads_of_below within []
  have maps := Setting.membersEdits_maps (fun member _ => Setting.memberEdits_maps Scope.outermost_follows member) visited
    member found
  have present (edit : Edit) (there : edit ∈ inCode) : edit ∈ edits :=
    all.mem_iff.mpr (List.mem_append_left _ there)
  have alone := Subtree.alone_of_name (Subtree.inCode_of_name named) (sound.at_below below) named
  refine ⟨slots, Subtree.unit_innermost sound found leads alone, ?_⟩
  -- The name has its edit, or it is lost in a parameter that goes.
  rcases maps part slots leads name own has with ⟨new, positioned, puts⟩ | lost
  · have puts := puts.mono (.single child) present
    exact ⟨fun spared => ⟨new, positioned, Setting.replaced_of_puts sound own spared puts⟩,
      fun _ => ⟨new, positioned, puts⟩⟩
  · obtain ⟨list, param, texts, there, listed, around, goes, member⟩ :=
      lost.mono (.single child) present
    have step : Subtree.param param ∈ (Subtree.params list).children := List.mem_map_of_mem listed
    constructor
    · intro spared
      exact absurd (Setting.erased_of_reduce sound own there (.inl rfl) (around.head step) member)
        spared
    · intro stays
      exact absurd (stays param (there.tail step) around) goes

theorem edits_positional_nested :
    ∃ tokens tree edits part name,
      parse "class A<VType, KType> { <KType> KTypeVTypeB m(); }".toList = .ok (tokens, tree) ∧
        (Setting.edits ⟨tokens, ⟨.int, some .generic⟩⟩ tree).result = .ok edits ∧
        (Subtree.unit tree).Below part ∧ name ∈ part.positional ∧
        hasPlaceholder name.text = true ∧
        ¬ Setting.Erased ⟨tokens, ⟨.int, some .generic⟩⟩ tree edits name.index ∧
        ⟨name.index, name.index + 1, "IntObjectB".toList⟩ ∈ edits ∧
        ∃ slots, (Subtree.unit tree).Innermost part slots ∧
          ∃ new, Binding.Positioned ⟨.int, some .generic⟩ slots name.text new ∧
            ⟨name.index, name.index + 1, new⟩ ∈ edits := by
  obtain ⟨⟨tokens, tree⟩, parsed, passes⟩ := ok_of_any
    (show (parse "class A<VType, KType> { <KType> KTypeVTypeB m(); }".toList).toOption.any
      (fun read => (Setting.edits ⟨read.1, ⟨.int, some .generic⟩⟩ read.2).result.toOption.any
        fun edits => (Subtree.unit read.2).children.any fun decl => decl.children.any fun method =>
          method.children.any fun part => part.positional.any fun name =>
            hasPlaceholder name.text &&
              edits.contains ⟨name.index, name.index + 1, "IntObjectB".toList⟩ &&
              edits.all fun edit => decide (edit.start ≤ name.index → name.index < edit.stop →
                edit.stop = edit.start + 1)) = true by decide +kernel)
  obtain ⟨edits, made, found⟩ := ok_of_any passes
  simp only [List.any_eq_true, Bool.and_eq_true, List.contains_iff_mem, List.all_eq_true,
    decide_eq_true_eq] at found
  obtain ⟨decl, isDecl, method, isMethod, part, isType, name, own, ⟨has, replaced⟩, single⟩ := found
  have below : (Subtree.unit tree).Below part := .head isDecl (.head isMethod (.single isType))
  have spared : ¬ Setting.Erased ⟨tokens, ⟨.int, some .generic⟩⟩ tree edits name.index :=
    Setting.spared_of_single (parse_sound parsed) single
  obtain ⟨slots, innermost, positioned, -⟩ := edits_positional parsed made below own has
  exact ⟨tokens, tree, edits, part, name, parsed, made, below, own, has, spared, replaced, slots,
    innermost, positioned spared⟩

end Specializer
