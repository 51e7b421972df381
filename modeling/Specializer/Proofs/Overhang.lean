import Specializer.Proofs.Confinement

set_option autoImplicit false

namespace Specializer

def Edit.passes (stop : Nat) (edits : List Edit) : Bool :=
  edits.any fun edit => decide ((stop : Int) < edit.stop)

theorem Edit.passes_append (stop : Nat) (first second : List Edit) :
    passes stop (first ++ second) = (passes stop first || passes stop second) := List.any_append

theorem Edit.passes_false {stop : Nat} {edits : List Edit}
    (short : ∀ edit ∈ edits, edit.stop ≤ (stop : Int)) : passes stop edits = false := by
  refine List.any_eq_false.mpr fun edit member => ?_
  have bound := short edit member
  simp only [decide_eq_true_eq]
  omega

namespace Setting

section Conditions

variable (setting : Setting)

def inScope (scope : Scope Slot) : List SlotType :=
  (scope.values setting.binding).toOption.getD []

def isPrimitive (slot : Slot) : Bool := (setting.binding.get? slot).any SlotType.isPrimitive

/-- Whether an argument of a template goes: a placeholder of a primitive, alone or as a bound, or a
wildcard in the position of a primitive. -/
def drops (values : List SlotType) (position : Nat) : TypeArg → Bool
  | .unbounded _ => values[position]?.any SlotType.isPrimitive
  | .exact ref | .bounded _ _ ref => ref.slot?.any setting.isPrimitive

def vanishes (values : List SlotType) : Nat → List TypeArg → Bool
  | _, [] => true
  | position, arg :: rest => setting.drops values position arg && vanishes values (position + 1) rest

def isSpaced (range : Range) : Bool :=
  0 < range.start && setting.isBlankAt (range.start - 1) && setting.isBlankAt range.stop

/-- Whether the arguments of a name are a list that goes, between blanks, and ends at the place given. -/
def segmentOverhangs (scope : Scope Slot) (stop : Nat) : Segment → Bool
  | .plain _ => false
  | .applied name (.mk range args) =>
    hasPlaceholder name.text && !args.isEmpty && (range.stop == stop && setting.isSpaced range &&
      setting.vanishes (setting.inScope scope) 0 args)

/-- Whether an edit of the reference reaches behind the place given, at which an entry ends. -/
def overhangs (scope : Scope Slot) (stop : Nat) (ref : TypeRef) : Bool :=
  ref.segments.getLast?.any (setting.segmentOverhangs scope stop)

end Conditions

variable {setting : Setting} {scope : Scope Slot}

theorem isPrimitive_of_get {slot : Slot} {value : SlotType}
    (bound : setting.binding.get slot = .ok value) :
    setting.isPrimitive slot = value.isPrimitive := by
  rw [isPrimitive, get?_of_get bound, Option.any_some]

theorem bareValue_ok {ref : TypeRef} {bare : Option SlotType}
    (made : (setting.bareValue ref).result = .ok bare) :
    ref.slot?.any setting.isPrimitive = bare.any SlotType.isPrimitive := by
  rw [bareValue, Traced.bind_ok] at made
  obtain ⟨slot, found, made⟩ := made
  rw [bareSlot_ok found]
  cases slot with
  | none =>
    cases made
    rfl
  | some slot =>
    simp only [Traced.bind_ok, Traced.lift_ok, Traced.pure_ok] at made
    obtain ⟨value, bound, rfl⟩ := made
    exact isPrimitive_of_get bound

theorem refEntry_drops {range : Range} {derived : RefEdits → Bool} {ref : TypeRef}
    {entries : Entries} (made : (setting.refEntry scope range derived ref).result = .ok entries) :
    (ref.slot?.any setting.isPrimitive = true ∧ ∃ value, entries = .drop value) ∨
      (ref.slot?.any setting.isPrimitive = false ∧
        ∃ known derived text edits, entries = .keep known derived text edits) := by
  rcases refEntry_ok made with ⟨value, isBare, entry⟩ | ⟨inner, text, notBare, -, -, rfl⟩
  · rw [bareValue_ok isBare, Option.any_some]
    rcases entry with ⟨primitive, rfl⟩ | ⟨other, text, -, rfl⟩
    · exact .inl ⟨primitive, value, rfl⟩
    · exact .inr ⟨other, _, _, _, _, rfl⟩
  · rw [bareValue_ok notBare]
    exact .inr ⟨rfl, _, _, _, _, rfl⟩

theorem argEntry_drops {values : List SlotType} {position : Nat} {arg : TypeArg} {entries : Entries}
    (made : (setting.argEntry (some values) scope position arg).result = .ok entries) :
    (setting.drops values position arg = true ∧ ∃ value, entries = .drop value) ∨
      (setting.drops values position arg = false ∧
        ∃ known derived text edits, entries = .keep known derived text edits) := by
  cases arg with
  | unbounded range =>
    rcases argEntry_unbounded_ok made with ⟨_, value, same, there, primitive, rfl⟩ | ⟨other, _, _, _, -, rfl⟩
    · cases same
      exact .inl ⟨by simpa [drops, there] using primitive, value, rfl⟩
    · refine .inr ⟨?_, _, _, _, _, rfl⟩
      cases there : values[position]? with
      | none => simp [drops, there]
      | some value => simpa [drops, there] using other values value rfl there
  | exact ref =>
    rw [argEntry_exact] at made
    exact refEntry_drops made
  | bounded range kind ref =>
    rw [argEntry_bounded] at made
    exact refEntry_drops made

theorem argEdits_vanishes {values : List SlotType} {position : Nat} {args : List TypeArg}
    {entries : Entries}
    (made : (setting.argEdits (some values) scope position args).result = .ok entries) :
    entries.kept.isEmpty = setting.vanishes values position args ∧
      (args ≠ [] → entries.kept.isEmpty = true → entries.dropped = true ∧ entries.derived = true) := by
  induction args generalizing position entries with
  | nil =>
    rw [argEdits, Traced.pure_ok] at made
    subst made
    exact ⟨rfl, fun nonempty => (nonempty rfl).elim⟩
  | cons arg rest ih =>
    rw [argEdits] at made
    simp only [Traced.bind_ok, Traced.pure_ok] at made
    obtain ⟨first, ofFirst, more, ofRest, rfl⟩ := made
    -- One entry that is kept is enough to keep the list.
    rcases argEntry_drops ofFirst with ⟨drop, value, rfl⟩ | ⟨keep, _, _, _, _, rfl⟩
    · have tail : more.kept.isEmpty = setting.vanishes values (position + 1) rest := (ih ofRest).1
      exact ⟨by simpa [Entries.append, Entries.drop, vanishes, drop] using tail, fun _ _ => ⟨rfl, rfl⟩⟩
    · exact ⟨by simp [Entries.append, Entries.keep, vanishes, keep],
        fun _ none => by simp [Entries.append, Entries.keep] at none⟩

theorem listEdits_passes {values : List SlotType} {args : List TypeArg} {entries : Entries}
    {range : Range} {stop : Nat} (nonempty : args ≠ [])
    (made : (setting.argEdits (some values) scope 0 args).result = .ok entries)
    (short : ∀ edit ∈ entries.edits, edit.stop ≤ (range.stop : Int)) (bound : range.stop ≤ stop) :
    Edit.passes stop (setting.listEdits range entries) =
      (range.stop == stop && setting.isSpaced range && setting.vanishes values 0 args) := by
  obtain ⟨kept, dropped⟩ := argEdits_vanishes made
  rw [← kept, listEdits]
  by_cases drop : entries.dropped = true
  · rw [if_pos drop, Edit.passes, List.any_cons, List.any_nil, Bool.or_false]
    have beyond : decide ((stop : Int) < range.stop + 1) = (range.stop == stop) := by
      rw [Bool.eq_iff_iff, decide_eq_true_eq, beq_iff_eq]
      omega
    have within : ¬ (stop : Int) < range.stop := by omega
    cases none : entries.kept.isEmpty with
    | false => simp [reduce, none, within]
    | true =>
      cases spaced : setting.isSpaced range with
      | false =>
        rw [isSpaced] at spaced
        simp [reduce, none, spaced, within]
      | true =>
        rw [isSpaced] at spaced
        simpa [reduce, none, spaced] using beyond
  -- Nothing was dropped, so something is kept, and the edits are those of the entries.
  · rw [if_neg drop]
    have some : entries.kept.isEmpty = false := by
      by_contra none
      exact drop (dropped nonempty (eq_true_of_ne_false none)).1
    rw [some, Bool.and_false]
    exact Edit.passes_false fun edit member => by
      have inside := short edit member
      omega

theorem renames_passes {name : Name} {edits : List Edit} {stop : Nat} (renames : name.Renames edits)
    (bound : name.index < stop) : Edit.passes stop edits = false := by
  rcases renames with rfl | ⟨text, rfl, -⟩
  · rfl
  · refine Edit.passes_false fun edit member => ?_
    cases List.mem_singleton.mp member
    simp only [replace]
    omega

theorem args_short {range : Range} {args : List TypeArg} {edits : List Edit}
    (sound : (Subtree.args (.mk range args)).Sound (lexemesOf setting.tokens))
    (gathers : setting.Gathers [] (args.map TypeArg.subtree) edits) :
    ∀ edit ∈ edits, edit.stop ≤ (range.stop : Int) := by
  have row : Successive (range.start + 1) (args.map TypeArg.range) (range.stop - 1) :=
    sound.here.arranged
  have confined : setting.Confined ⟨range.start + 1, range.stop - 1⟩ edits := by
    refine gathers_confined gathers ?_ ?_ fun part member => sound.child member
    · simpa [Function.comp_def] using row
    · intro part member
      obtain ⟨arg, -, rfl⟩ := List.mem_map.mp member
      exact Subtree.inCode_arg arg
  intro edit member
  have wide := row.le
  -- An edit may take the blank in front of the closing bracket, but not the bracket.
  rcases (confined.lies edit member).high with inside | ⟨beyond, -⟩
  · simp only at inside
    omega
  · simp only at beyond
    omega

theorem segmentEdits_passes {segment : Segment} {found : RefEdits} {low high stop : Nat}
    (made : (setting.segmentEdits scope segment).result = .ok found)
    (row : Successive low segment.marks high) (bound : high ≤ stop)
    (sound : ∀ list ∈ segment.args?, (Subtree.args list).Sound (lexemesOf setting.tokens)) :
    Edit.passes stop found.edits = setting.segmentOverhangs scope stop segment := by
  cases segment with
  | plain name =>
    have inside : name.index < high := (row.inside List.mem_cons_self).2.2
    rw [segmentEdits] at made
    split at made
    next =>
      rw [Traced.pure_ok] at made
      subst made
      rfl
    next =>
      simp only [Traced.bind_ok, Traced.pure_ok] at made
      obtain ⟨values, -, edits, renamed, rfl⟩ := made
      exact renames_passes (rename_renames renamed) (Nat.lt_of_lt_of_le inside bound)
  | applied name list =>
    obtain ⟨range, args⟩ := list
    have inside : name.index < high := (row.inside List.mem_cons_self).2.2
    have ends : range.stop ≤ high := (row.inside (List.mem_cons_of_mem _ List.mem_cons_self)).2.2
    have below : (Subtree.args (.mk range args)).Sound (lexemesOf setting.tokens) := sound _ rfl
    have short {edits : List Edit} (gathers : setting.Gathers [] (args.map TypeArg.subtree) edits) :
        Edit.passes stop edits = false :=
      Edit.passes_false fun edit member => by
        have close := args_short below gathers edit member
        omega
    have renamed {edits : List Edit} {values : List SlotType}
        (made : (setting.rename scope name values).result = .ok edits) :
        Edit.passes stop edits = false :=
      renames_passes (rename_renames made) (Nat.lt_of_lt_of_le inside bound)
    -- Only a list that is rebuilt can reach further than the segment does.
    rcases segmentEdits_applied made with
      ⟨plain, edits, foreign, rfl⟩ | ⟨has, values, _, list, new, bound', rename, rfl, source⟩
    · have collects : setting.Collects (.args (.mk range args)) [] _ edits :=
        foreignEdits_collects _ (fun _ _ _ _ => refEdits_treats) foreign
      rw [short collects.gathers, segmentOverhangs, plain]
      rfl
    · have known : setting.inScope scope = values := by simp [inScope, bound', Except.toOption]
      rw [Edit.passes_append, renamed rename, Bool.or_false, segmentOverhangs, has, known]
      rcases source with ⟨rfl, -, rfl⟩ | ⟨nonempty, entries, ofArgs, cause⟩
      · simp only [List.isEmpty_nil, Bool.not_true, Bool.and_false, Bool.false_and]
        refine Edit.passes_false fun edit member => ?_
        split at member
        next =>
          cases List.mem_singleton.mp member
          simp only
          omega
        next => cases member
      · have some : args.isEmpty = false := by simpa using nonempty
        rw [some]
        rcases cause with ⟨-, -, rfl⟩ | ⟨unknown, -, rfl⟩
        · exact listEdits_passes nonempty ofArgs (args_short below (argEdits_lists (fun _ _ _ _ => refEdits_treats) ofArgs).gathers)
            (Nat.le_trans ends bound)
        -- Had all arguments gone, they would have told their values.
        · obtain ⟨kept, dropped⟩ := argEdits_vanishes ofArgs
          have remains : setting.vanishes values 0 args = false := by
            by_contra gone
            have none := (dropped nonempty (kept.trans (eq_true_of_ne_false gone))).2
            rw [unknown] at none
            cases none
          rw [short (argEdits_lists (fun _ _ _ _ => refEdits_treats) ofArgs).gathers, remains, Bool.and_false, Bool.and_false]

theorem segmentsEdits_passes {segments : List Segment} {found : RefEdits} {low high stop : Nat}
    (made : (setting.segmentsEdits scope segments).result = .ok found)
    (row : Successive low (segments.flatMap Segment.marks) high) (bound : high ≤ stop)
    (sound : ∀ list ∈ segments.filterMap Segment.args?,
      (Subtree.args list).Sound (lexemesOf setting.tokens)) :
    Edit.passes stop found.edits =
      segments.getLast?.any (setting.segmentOverhangs scope stop) := by
  induction segments generalizing found low with
  | nil =>
    rw [segmentsEdits, Traced.pure_ok] at made
    subst made
    rfl
  | cons segment rest ih =>
    rw [segmentsEdits] at made
    simp only [Traced.bind_ok, Traced.pure_ok] at made
    obtain ⟨first, ofFirst, more, ofRest, rfl⟩ := made
    obtain ⟨middle, front, behind⟩ := Successive.split row
    have own : ∀ list ∈ segment.args?, (Subtree.args list).Sound (lexemesOf setting.tokens) :=
      fun list there => sound list (List.mem_filterMap.mpr ⟨segment, List.mem_cons_self, there⟩)
    have tail := ih ofRest behind fun list there => by
      obtain ⟨other, member, same⟩ := List.mem_filterMap.mp there
      exact sound list (List.mem_filterMap.mpr ⟨other, List.mem_cons_of_mem _ member, same⟩)
    have reach := segmentEdits_passes ofFirst front (Nat.le_trans behind.le bound) own
    rw [Edit.passes_append, tail, reach]
    cases rest with
    | nil => simp
    | cons next rest =>
      have mark : next.name.range ∈ (next :: rest).flatMap Segment.marks := by
        cases next <;> simp [Segment.marks, Segment.name]
      have later := behind.inside mark
      -- A segment with another one behind it ends too early to overhang.
      have none : setting.segmentOverhangs scope stop segment = false := by
        cases segment with
        | plain name => rfl
        | applied name list =>
          obtain ⟨range, args⟩ := list
          have ends : range.stop ≤ middle :=
            (front.inside (List.mem_cons_of_mem _ List.mem_cons_self)).2.2
          have other : (range.stop == stop) = false := beq_eq_false_iff_ne.mpr (by omega)
          simp [segmentOverhangs, other]
      simp [none]

theorem refEdits_passes {owner : Option (List Char)} {ref : TypeRef} {found : RefEdits} {stop : Nat}
    (made : (setting.refEdits owner scope ref).result = .ok found)
    (sound : (Subtree.ref ref).Sound (lexemesOf setting.tokens)) (bound : ref.range.stop ≤ stop) :
    Edit.passes stop found.edits = setting.overhangs scope stop ref := by
  obtain ⟨range, segments, dims⟩ := ref
  have row : Successive range.start (segments.flatMap Segment.marks) range.stop :=
    sound.here.arranged
  rw [refEdits, Traced.bind_ok] at made
  obtain ⟨bare, isBare, made⟩ := made
  cases bare with
  | none =>
    exact segmentsEdits_passes made row bound fun list there =>
      sound.child (List.mem_map_of_mem there)
  | some slot =>
    obtain ⟨_, name, _, same, named⟩ := bareSlot_some isBare
    cases same
    simp only [Traced.bind_ok, Traced.pure_ok] at made
    obtain ⟨value, got, edits, edited, rfl⟩ := made
    have inside : name.index < range.stop := (row.inside List.mem_cons_self).2.2
    have renames := (bareEdit_respells named got edited).renames
    exact renames_passes renames (Nat.lt_of_lt_of_le inside bound)

theorem refsEdits_passes {refs : List TypeRef} {edits : List Edit} {stop : Nat}
    (made : (setting.refsEdits scope refs).result = .ok edits)
    (sound : ∀ ref ∈ refs, (Subtree.ref ref).Sound (lexemesOf setting.tokens))
    (bound : ∀ ref ∈ refs, ref.range.stop ≤ stop) :
    Edit.passes stop edits = refs.any (setting.overhangs scope stop) := by
  induction refs generalizing edits with
  | nil =>
    rw [refsEdits, Traced.pure_ok] at made
    subst made
    rfl
  | cons ref rest ih =>
    rw [refsEdits] at made
    simp only [Traced.bind_ok, Traced.pure_ok] at made
    obtain ⟨first, ofFirst, more, ofRest, rfl⟩ := made
    rw [Edit.passes_append, List.any_cons,
      refEdits_passes ofFirst (sound ref List.mem_cons_self) (bound ref List.mem_cons_self),
      ih ofRest (fun ref member => sound ref (List.mem_cons_of_mem _ member))
        fun ref member => bound ref (List.mem_cons_of_mem _ member)]

theorem arg_ref {lexemes : List Lexeme} {arg : TypeArg} {ref : TypeRef} (has : arg.ref? = some ref)
    (sound : arg.subtree.Sound lexemes) :
    (Subtree.ref ref).Sound lexemes ∧ arg.range.start ≤ ref.range.start ∧
      ref.range.stop ≤ arg.range.stop := by
  cases arg with
  | unbounded range => cases has
  | exact inner =>
    cases has
    exact ⟨sound, Nat.le_refl _, Nat.le_refl _⟩
  | bounded range kind inner =>
    cases has
    have row : Successive (range.start + 1) [ref.range] range.stop := sound.here.arranged
    have inside := row.inside List.mem_cons_self
    exact ⟨sound.child List.mem_cons_self, Nat.le_of_succ_le inside.1, inside.2.2⟩

theorem bounds_confined {param : TypeParam} {edits : List Edit}
    (made : (setting.refsEdits scope param.bounds).result = .ok edits)
    (sound : (Subtree.param param).Sound (lexemesOf setting.tokens)) :
    setting.Confined param.range edits ∧
      Edit.passes param.range.stop edits =
        param.bounds.any (setting.overhangs scope param.range.stop) := by
  have row : Successive param.range.start (param.name.range :: param.bounds.map TypeRef.range)
      param.range.stop := sound.here.arranged
  constructor
  · refine gathers_confined (refsEdits_collects (.param param) made).gathers ?_ ?_ fun part member => sound.child member
    · have bounds := row.2.2.widen (Nat.le_trans row.1 (Nat.le_of_lt row.2.1)) (Nat.le_refl _)
      simpa [Function.comp_def] using bounds
    · intro part member
      obtain ⟨ref, -, rfl⟩ := List.mem_map.mp member
      trivial
  · refine refsEdits_passes made (fun ref member => sound.child (List.mem_map_of_mem member)) ?_
    intro ref member
    exact (row.inside (List.mem_cons_of_mem _ (List.mem_map_of_mem member))).2.2

end Setting

end Specializer
