import Mathlib.Data.List.Perm.Subperm
import Specializer.Proofs.Adjoined
import Specializer.Proofs.Positions
import Specializer.Proofs.Scoping
import Specializer.Proofs.Strays

set_option autoImplicit false

namespace Specializer

section Mentions

def Mentioned (tokens : List Token) (slot : Slot) : Prop :=
  ∃ token ∈ tokens, (token.kind = .ident ∨ token.kind = .docComment) ∧ slot ∈ segments token.text

variable {tokens : List Token} {name : Name} {slot : Slot}

theorem Name.Stands.mentions (stands : name.Stands (lexemesOf tokens))
    (named : Slot.ofText? name.text = some slot) : Mentioned tokens slot := by
  obtain ⟨token, there, same⟩ := lexemesOf_some stands
  have text : token.text = name.text := congrArg Lexeme.text same
  refine ⟨token, List.mem_of_getElem? there, .inl (congrArg Lexeme.kind same), ?_⟩
  rw [text, mem_segments_iff, Slot.ofText?_some named]

end Mentions

section Places

/-- The span begins with a token and ends with the same or a later one. -/
def Located (tokens : List Token) (span : Option Span) : Prop :=
  ∃ (i j : Nat) (first last : Token), i ≤ j ∧ tokens[i]? = some first ∧ tokens[j]? = some last ∧
    span = some (Span.between first.start last.stop)

variable {tokens : List Token}

theorem located_range {start stop : Nat} (nonempty : start < stop) (inside : stop ≤ tokens.length) :
    Located tokens (spanOf tokens start stop) := by
  have first := List.getElem?_eq_getElem (Nat.lt_of_lt_of_le nonempty inside)
  have last := List.getElem?_eq_getElem (show stop - 1 < tokens.length by omega)
  refine ⟨start, stop - 1, _, _, by omega, first, last, ?_⟩
  simp only [spanOf, if_pos nonempty, first, last]
  rfl

/-- A subtree of a tree with what is known of its place: it lies on tokens, arguments follow their
names, and it is below the root. -/
structure Anchor (tokens : List Token) (root part : Subtree) : Prop where
  placed : part.Placed (lexemesOf tokens)
  joined : part.Joined tokens
  below : root.Below part

abbrev Anchored (tokens : List Token) (root : Subtree) : Subtree → Prop :=
  Subtree.Everywhere (Anchor tokens root)

variable {root part : Subtree}

theorem Anchor.located (anchor : Anchor tokens root part) (inCode : part.InCode) :
    Located tokens (spanOf tokens part.range.start part.range.stop) := by
  obtain ⟨nonempty, -, last⟩ := inCode.bounded anchor.placed.bounded
  have inside := last.lt
  rw [lexemesOf, List.length_map] at inside
  exact located_range nonempty (by omega)

theorem anchored_of_sound (sound : root.Sound (lexemesOf tokens))
    (joined : root.Everywhere (Subtree.Joined tokens)) : Anchored tokens root root := by
  have every {part : Subtree} (sound : part.Sound (lexemesOf tokens))
      (joined : part.Everywhere (Subtree.Joined tokens)) (below : root.Below part) :
      Anchored tokens root part := by
    induction sound with
    | intro here lower ih =>
      exact .intro ⟨here, joined.here, below⟩ fun child member =>
        ih child member (joined.child member) (below.tail member)
  exact every sound joined .refl

end Places

namespace Binding

def slots (binding : Binding) : Nat := (Scope.outermost binding).order.length

end Binding

structure Scope.Suits (scope : Scope Slot) (setting : Setting) : Prop where
  bound : ∀ slot, (setting.binding.get? slot).isSome = true → slot ∈ scope.order
  named : ∀ slot ∈ scope.order, setting.binding.get? slot = none → Mentioned setting.tokens slot

namespace Scope.Suits

variable {scope : Scope Slot} {setting : Setting}

theorem outermost (setting : Setting) : (Scope.outermost setting.binding).Suits setting := by
  refine ⟨fun slot => Binding.mem_outermost.mpr, fun slot member missing => ?_⟩
  have bound := Binding.mem_outermost.mp member
  rw [missing] at bound
  cases bound

theorem inside (suits : scope.Suits setting) {params : Option TypeParams}
    (named : ∀ slot ∈ (params.map TypeParams.declared).getD [], Mentioned setting.tokens slot) :
    (scope.inside params).Suits setting := by
  unfold Scope.inside Scope.nested
  generalize (params.map TypeParams.declared).getD [] = declared at named
  split
  · exact suits
  · constructor
    · intro slot bound
      have outside := suits.bound slot bound
      by_cases own : slot ∈ declared
      · exact List.mem_append_left _ own
      · refine List.mem_append_right _ (List.mem_filter.mpr ⟨by cases slot <;> decide, ?_⟩)
        simp [outside, own]
    · intro slot member missing
      rcases List.mem_append.mp member with own | other
      · exact named slot own
      · have outside := (List.mem_filter.mp other).2
        simp only [Bool.and_eq_true, List.contains_eq_mem, decide_eq_true_eq] at outside
        exact suits.named slot outside.1 missing

theorem enough (suits : scope.Suits setting) {values : List SlotType}
    (made : scope.values setting.binding = .ok values) : setting.binding.slots ≤ values.length := by
  have distinct : (Scope.outermost setting.binding).order.Nodup := by
    cases bound : setting.binding.value <;> simp [Scope.outermost, bound]
  have listed : (Scope.outermost setting.binding).order ⊆ scope.order := fun slot member =>
    suits.bound slot (Binding.mem_outermost.mp member)
  have same := congrArg List.length (Scope.values_bound made)
  rw [List.length_map, List.length_map] at same
  rw [Binding.slots, ← same]
  exact (List.subperm_of_subset distinct listed).length_le

end Scope.Suits

/-- An identifier that is a placeholder and nothing else, with type arguments behind it: between the
two there are only blanks and comments. -/
def Applied (tokens : List Token) (root : Subtree) (name : List Char) : Prop :=
  ∃ (index : Nat) (list : TypeArgs), isPlaceholder name = true ∧
    (lexemesOf tokens)[index]? = some ⟨.ident, name⟩ ∧ root.Below (.args list) ∧
    index < list.range.start ∧
    (∃ token, tokens[list.range.start]? = some token ∧ token.kind = .lt) ∧
    ∀ between token, index < between → between < list.range.start →
      tokens[between]? = some token → token.isTrivia = true

theorem substituteInOrder_generic (text : List Char) :
    ∃ new, substituteInOrder text (List.replicate (segmentCount text) .generic) = some new := by
  rw [← Option.isSome_iff_exists, substituteInOrder_isSome, List.length_replicate]
  exact decide_eq_true (Nat.le_refl _)

namespace Setting

variable (setting : Setting) (root : Subtree)

def Noted : Notice → Prop
  | .foreignArguments name erased span => Located setting.tokens span ∧
      substituteInOrder name (List.replicate (segmentCount name) .generic) = some erased
  | .primitiveArgument _ _ _ span => Located setting.tokens span

def Founded : Fault → Prop
  | .surplusSegments name count _ span => Located setting.tokens span ∧
      (∃ token ∈ setting.tokens, token.kind = .ident ∧ token.text = name) ∧
      count = segmentCount name ∧ setting.binding.slots < count
  | .placeholderArguments name span => Located setting.tokens span ∧ Applied setting.tokens root name
  | .missingValue slot => setting.binding.get? slot = none ∧ Mentioned setting.tokens slot
  | .overlap _ _ | .strayEdit _ _ _ => True
  | _ => False

abbrev Grounded {α : Type} (run : Traced α) : Prop :=
  run.Meets setting.Noted (setting.Founded root) fun _ => True

variable {setting root} {α β : Type}

section Steps

variable {scope : Scope Slot}

theorem misses_founded {slots : List Slot} {fault : Fault} (misses : Misses setting.binding slots fault)
    (named : ∀ slot ∈ slots, setting.binding.get? slot = none → Mentioned setting.tokens slot) :
    setting.Founded root fault := by
  obtain ⟨slot, member, missing, rfl⟩ := misses
  exact ⟨missing, named slot member missing⟩

theorem get_grounded {slot : Slot} (named : Mentioned setting.tokens slot) :
    setting.Grounded root (Traced.lift (setting.binding.get slot)) := by
  refine .lift (fun fault failed => misses_founded (get_misses (List.mem_singleton_self slot) failed) ?_)
    fun _ _ => trivial
  intro other member _
  rw [List.mem_singleton.mp member]
  exact named

theorem values_grounded (suits : scope.Suits setting) :
    setting.Grounded root (setting.values scope) :=
  .lift (fun _ failed => misses_founded (values_fault failed) suits.named) fun _ _ => trivial

theorem validateAfter_founded {start stop : Int} {previous : Option Edit} {edits : List Edit}
    {fault : Fault} (failed : Edit.validateAfter start stop previous edits = .error fault) :
    setting.Founded root fault := by
  induction edits generalizing previous with
  | nil => cases failed
  | cons edit rest ih =>
    rw [Edit.validateAfter.eq_def] at failed
    dsimp only at failed
    split at failed
    next =>
      cases failed
      trivial
    next =>
      split at failed
      next =>
        split at failed
        next =>
          cases failed
          trivial
        next => exact ih failed
      next => exact ih failed

theorem render_founded {texts : List (List Char)} {edits : List Edit} {start stop : Int} {fault : Fault}
    (failed : Edit.render texts edits start stop = .error fault) : setting.Founded root fault := by
  rw [Edit.render, bind_eq_error] at failed
  rcases failed with failed | ⟨_, -, none⟩
  · exact validateAfter_founded failed
  · cases none

theorem keepEntry_grounded (range : Range) (values : List (Option SlotType)) (derived : Bool)
    (edits : List Edit) : setting.Grounded root (setting.keepEntry range values derived edits) := by
  have rendered : setting.Grounded root (setting.render range edits) :=
    .lift (fun _ => render_founded) fun _ _ => trivial
  exact rendered.mapAny

variable {part : Subtree} {name : Name} {values : List SlotType}

theorem Stands.located (stands : name.Stands (lexemesOf setting.tokens)) :
    Located setting.tokens (setting.span ⟨name.index, name.index + 1⟩) := by
  obtain ⟨token, there, -⟩ := lexemesOf_some stands
  have inside := (List.getElem?_eq_some_iff.mp there).1
  exact located_range (Nat.lt_succ_self _) inside

theorem rename_grounded (stands : name.Stands (lexemesOf setting.tokens))
    (enough : setting.binding.slots ≤ values.length) :
    setting.Grounded root (setting.rename scope name values) := by
  unfold rename
  split
  next none =>
    have short := substituteInOrder_isSome name.text values
    rw [none, Option.isSome_none, eq_comm, decide_eq_false_iff_not] at short
    obtain ⟨token, there, same⟩ := lexemesOf_some stands
    refine .fail ⟨Stands.located stands, ⟨token, List.mem_of_getElem? there, ?_⟩, rfl, by omega⟩
    exact ⟨congrArg Lexeme.kind same, congrArg Lexeme.text same⟩
  next => exact .pure trivial

theorem rename_spelled {new : List Char} (made : substituteInOrder name.text values = some new) :
    setting.Grounded root (setting.rename scope name values) := by
  unfold rename
  rw [made]
  exact .pure trivial

theorem bareSlot_grounded {ref : TypeRef} (anchor : Anchor setting.tokens root (.ref ref)) :
    setting.Grounded root (setting.bareSlot ref) := by
  have located := anchor.located trivial
  unfold bareSlot
  split
  next => exact .pure trivial
  next range name list dims =>
    split
    next slot named =>
      have stands := anchor.placed.stands name List.mem_cons_self
      obtain ⟨after, opens, between⟩ := anchor.joined (.applied name list) List.mem_cons_self list rfl
      have below : root.Below (.args list) := anchor.below.tail List.mem_cons_self
      refine .fail ⟨located, name.index, list, ?_, stands, below, after, opens, between⟩
      rw [isPlaceholder, named]
      rfl
    next => exact .pure trivial
  next => exact .pure trivial

theorem bareSlot_mentioned {ref : TypeRef} {slot : Slot} (anchor : Anchor setting.tokens root (.ref ref))
    (bare : (setting.bareSlot ref).result = .ok (some slot)) : Mentioned setting.tokens slot := by
  obtain ⟨own, name, dims, rfl, named⟩ := bareSlot_some bare
  exact (anchor.placed.stands name List.mem_cons_self).mentions named

theorem bareValue_grounded {ref : TypeRef} (anchor : Anchor setting.tokens root (.ref ref)) :
    setting.Grounded root (setting.bareValue ref) := by
  refine (bareSlot_grounded anchor).bind fun bare found _ => ?_
  cases bare with
  | none => exact .pure trivial
  | some slot => exact (get_grounded (bareSlot_mentioned anchor found)).mapAny

theorem bareEdit_grounded {ref : TypeRef} (anchor : Anchor setting.tokens root (.ref ref))
    (owner : Option (List Char)) (slot : Slot) (value : SlotType) :
    setting.Grounded root (setting.bareEdit owner ref slot value) := by
  have located := anchor.located trivial
  unfold bareEdit
  split
  next => exact .pure trivial
  next =>
    split
    next => exact .pure trivial
    next =>
      split
      next owner =>
        split
        next =>
          have noted : setting.Grounded root
              (Traced.notice (.primitiveArgument slot value owner (setting.span ref.range))) :=
            .notice located trivial
          exact noted.mapAny
        next => exact .pure trivial
      next => exact .pure trivial

theorem refEntry_grounded {ref : TypeRef} (anchor : Anchor setting.tokens root (.ref ref))
    (range : Range) (derived : RefEdits → Bool)
    (visits : setting.Grounded root (setting.refEdits none scope ref)) :
    setting.Grounded root (setting.refEntry scope range derived ref) := by
  refine (bareValue_grounded anchor).bind fun bare _ _ => ?_
  cases bare with
  | some value =>
    dsimp only
    split
    next => exact .pure trivial
    next => exact keepEntry_grounded range _ _ _
  | none => exact visits.bind fun inner _ _ => keepEntry_grounded range _ _ _

end Steps

section References

variable {scope : Scope Slot}

theorem foreignEdits_grounded {owner : List Char} {args : List TypeArg}
    (inner : ∀ arg ∈ args, ∀ ref ∈ arg.ref?, setting.Grounded root (setting.refEdits (some owner) scope ref)) :
    setting.Grounded root (setting.foreignEdits owner scope args) := by
  have each : ∀ arg ∈ args, setting.Grounded root (setting.foreignEntry owner scope arg) := by
    intro arg member
    have here := inner arg member
    cases arg with
    | unbounded range => exact .pure trivial
    | exact ref | bounded range kind ref => exact (here ref rfl).mapAny
  rw [foreignEdits_eq]
  exact Traced.Meets.mapAny (.mapM each)

theorem argEntry_grounded {inScope : Option (List SlotType)} {position : Nat} {arg : TypeArg}
    (anchored : Anchored setting.tokens root arg.subtree)
    (inner : ∀ ref ∈ arg.ref?, setting.Grounded root (setting.refEdits none scope ref)) :
    setting.Grounded root (setting.argEntry inScope scope position arg) := by
  cases arg with
  | unbounded range =>
    rcases setting.argEntry_unbounded inScope position range with ⟨_, _, -, -, -, same⟩ | ⟨-, _, _, -, same⟩
    · rw [same]
      exact .pure trivial
    · rw [same]
      exact keepEntry_grounded range _ _ _
  | exact ref =>
    rw [argEntry_exact]
    exact refEntry_grounded anchored.here ref.range _ (inner ref rfl)
  | bounded range kind ref =>
    rw [argEntry_bounded]
    exact refEntry_grounded (anchored.bound rfl).here range _ (inner ref rfl)

theorem argEdits_grounded {inScope : Option (List SlotType)} {position : Nat} {args : List TypeArg}
    (each : ∀ arg ∈ args, ∀ position, setting.Grounded root (setting.argEntry inScope scope position arg)) :
    setting.Grounded root (setting.argEdits inScope scope position args) := by
  induction args generalizing position with
  | nil =>
    rw [argEdits]
    exact .pure trivial
  | cons arg rest ih =>
    rw [argEdits]
    refine (each arg List.mem_cons_self position).bind fun first _ _ => ?_
    exact (ih fun arg member => each arg (List.mem_cons_of_mem _ member)).mapAny

theorem segmentEdits_grounded (suits : scope.Suits setting) {segment : Segment}
    (stands : segment.name.Stands (lexemesOf setting.tokens))
    (anchored : ∀ list ∈ segment.args?, Anchored setting.tokens root (.args list))
    (inner : ∀ ref ∈ segment.refs, ∀ owner, setting.Grounded root (setting.refEdits owner scope ref)) :
    setting.Grounded root (setting.segmentEdits scope segment) := by
  cases segment with
  | plain name =>
    rw [segmentEdits]
    split
    next => exact .pure trivial
    next =>
      refine (values_grounded suits).bind fun values made _ => ?_
      exact (rename_grounded stands (suits.enough made)).mapAny
  | applied name list =>
    cases list with
    | mk range list =>
      have listed := anchored _ rfl
      have among : ∀ arg ∈ list, ∀ ref ∈ arg.ref?, ref ∈ (Segment.applied name (.mk range list)).refs :=
        fun arg member ref has => List.mem_filterMap.mpr ⟨arg, member, has⟩
      rw [segmentEdits]
      split
      next =>
        have visits : setting.Grounded root (setting.foreignEdits name.text scope list) :=
          foreignEdits_grounded fun arg member ref has => inner ref (among arg member ref has) _
        exact visits.mapAny
      next =>
        refine (values_grounded suits).bind fun inScope made _ => ?_
        have enough := suits.enough made
        dsimp only
        split
        next => exact (rename_grounded stands enough).mapAny
        next =>
          have visits : setting.Grounded root (setting.argEdits (some inScope) scope 0 list) :=
            argEdits_grounded fun arg member _ => argEntry_grounded
              (listed.child (List.mem_map_of_mem member)) fun ref has => inner ref (among arg member ref has) _
          refine visits.bind fun found _ _ => ?_
          split
          next =>
            -- Values of the arguments come in place of the first of the scope, or add to them.
            have more : setting.binding.slots ≤ (found.resolve inScope).length := by
              simp only [Entries.resolve, List.length_append, List.length_map, List.length_drop]
              omega
            exact (rename_grounded stands more).mapAny
          next =>
            obtain ⟨erased, made⟩ := substituteInOrder_generic name.text
            have noted : setting.Noted (.foreignArguments name.text
                ((substituteInOrder name.text
                  (List.replicate (segmentCount name.text) .generic)).getD []) (setting.span range)) := by
              rw [made]
              exact ⟨listed.here.located trivial, made⟩
            exact Traced.Meets.bind (.notice noted trivial) fun _ _ (_ : True) => (rename_spelled made).mapAny

theorem segmentsEdits_grounded {segments : List Segment}
    (each : ∀ segment ∈ segments, setting.Grounded root (setting.segmentEdits scope segment)) :
    setting.Grounded root (setting.segmentsEdits scope segments) := by
  rw [segmentsEdits_eq]
  exact Traced.Meets.mapAny (.mapM each)

theorem refEdits_grounded (suits : scope.Suits setting) {owner : Option (List Char)} {ref : TypeRef}
    (anchored : Anchored setting.tokens root (.ref ref)) :
    setting.Grounded root (setting.refEdits owner scope ref) := by
  induction ref using TypeRef.induction generalizing owner with
  | mk range segments dims inner =>
    rw [refEdits]
    refine (bareSlot_grounded anchored.here).bind fun bare found _ => ?_
    cases bare with
    | some slot =>
      refine (get_grounded (bareSlot_mentioned anchored.here found)).bind fun value _ _ => ?_
      exact (bareEdit_grounded anchored.here owner slot value).mapAny
    | none =>
      refine segmentsEdits_grounded fun segment member => segmentEdits_grounded suits ?_ ?_ ?_
      · exact anchored.here.placed.stands _ (List.mem_map_of_mem member)
      · intro list given
        exact anchored.child (List.mem_map_of_mem (List.mem_filterMap.mpr ⟨segment, member, given⟩))
      · exact fun ref among _ => inner segment member ref among (anchored.inner member among)

end References

section Lists

variable {scope : Scope Slot}

theorem refsEdits_grounded (suits : scope.Suits setting) {refs : List TypeRef}
    (anchored : ∀ ref ∈ refs, Anchored setting.tokens root (.ref ref)) :
    setting.Grounded root (setting.refsEdits scope refs) := by
  rw [refsEdits_eq]
  exact Traced.Meets.mapAny (.mapM fun ref member => refEdits_grounded suits (anchored ref member))

theorem explicitArgs_grounded (suits : scope.Suits setting) {args : TypeArgs}
    (anchored : Anchored setting.tokens root (.args args)) :
    setting.Grounded root (setting.explicitArgs scope args) := by
  have entries : ∀ arg ∈ args.args, Anchored setting.tokens root arg.subtree := fun arg member =>
    anchored.child (List.mem_map_of_mem member)
  have visits : setting.Grounded root (setting.argEdits none scope 0 args.args) :=
    argEdits_grounded fun arg member _ => argEntry_grounded (entries arg member) fun ref has =>
      refEdits_grounded suits ((entries arg member).bound has)
  exact visits.mapAny

theorem paramEntry_grounded (suits : scope.Suits setting) {param : TypeParam}
    (anchored : Anchored setting.tokens root (.param param)) :
    setting.Grounded root (setting.paramEntry scope param) := by
  have stays : setting.Grounded root (setting.paramKept scope param) := by
    refine (refsEdits_grounded suits fun ref member => ?_).bind fun edits _ _ => ?_
    · exact anchored.child (List.mem_map_of_mem member)
    · exact keepEntry_grounded param.range _ _ edits
  cases named : Slot.ofText? param.name.text with
  | none =>
    rw [paramEntry_none named]
    exact stays
  | some slot =>
    have stands := anchored.here.placed.stands param.name List.mem_cons_self
    rw [paramEntry_some named]
    refine (get_grounded (stands.mentions named)).bind fun value _ _ => ?_
    split
    next => exact .pure trivial
    next => exact stays

theorem paramsEdits_grounded (suits : scope.Suits setting) {params : TypeParams}
    (anchored : Anchored setting.tokens root (.params params)) :
    setting.Grounded root (setting.paramsEdits scope params) := by
  have entries : setting.Grounded root (setting.paramEntries scope params.params) := by
    rw [paramEntries_eq]
    exact Traced.Meets.mapAny (.mapM fun param member =>
      paramEntry_grounded suits (anchored.child (List.mem_map_of_mem member)))
  exact entries.mapAny

theorem optionalParams_grounded (suits : scope.Suits setting) (params : Option TypeParams)
    (anchored : ∀ list ∈ params, Anchored setting.tokens root (.params list)) :
    setting.Grounded root (setting.optionalParams scope params) := by
  cases params with
  | none => exact .pure trivial
  | some list => exact paramsEdits_grounded suits (anchored list rfl)

theorem optionalArgs_grounded (suits : scope.Suits setting) (explicit : Option TypeArgs)
    (anchored : ∀ list ∈ explicit, Anchored setting.tokens root (.args list)) :
    setting.Grounded root (setting.optionalArgs scope explicit) := by
  cases explicit with
  | none => exact .pure trivial
  | some list => exact (explicitArgs_grounded suits (anchored list rfl)).mapAny

theorem suits_inside :
    Scope.Inherits (Anchor setting.tokens root) fun scope => scope.Suits setting := by
  intro scope suits params anchored
  refine suits.inside fun slot member => ?_
  cases params with
  | none => cases member
  | some list =>
    obtain ⟨param, found, named⟩ := List.mem_filterMap.mp member
    have below : Anchored setting.tokens root (.param param) :=
      (anchored list rfl).child (List.mem_map_of_mem found)
    exact (below.here.placed.stands param.name List.mem_cons_self).mentions named

end Lists

theorem membersEdits_grounded {scope : Scope Slot} {members : List Member}
    (each : ∀ member ∈ members, setting.Grounded root (setting.memberEdits scope member)) :
    setting.Grounded root (setting.membersEdits scope members) := by
  rw [membersEdits_eq]
  exact Traced.Meets.mapAny (.mapM each)

theorem memberEdits_grounded {scope : Scope Slot} (suits : scope.Suits setting) {member : Member}
    (anchored : Anchored setting.tokens root member.subtree) :
    setting.Grounded root (setting.memberEdits scope member) := by
  induction member using Member.induction generalizing scope with
  | typeUse ref =>
    rw [memberEdits]
    exact (refEdits_grounded suits anchored).mapAny
  | importDecl range ref _ _ =>
    rw [memberEdits]
    exact (refEdits_grounded suits (anchored.child List.mem_cons_self)).mapAny
  | typeDecl range keyword name params supertypes members inner =>
    have listed : ∀ list ∈ params, Anchored setting.tokens root (.params list) := fun list given =>
      anchored.child (Subtree.params_child given)
    have within := suits_inside suits listed
    have stands := anchored.here.placed.stands name (List.mem_cons_of_mem _ List.mem_cons_self)
    have types := refsEdits_grounded within fun ref found => anchored.child (Subtree.super_child found)
    have body := membersEdits_grounded fun member found =>
      inner member found within (anchored.child (Subtree.member_child found))
    rw [memberEdits]
    refine (values_grounded within).bind fun values made _ => ?_
    refine (rename_grounded stands (within.enough made)).bind fun _ _ _ => ?_
    refine (optionalParams_grounded within params listed).bind fun _ _ _ => ?_
    exact types.bind fun _ _ _ => body.mapAny
  | methodDecl range params members inner =>
    have listed : Anchored setting.tokens root (.params params) := anchored.child List.mem_cons_self
    have within : (scope.inside (some params)).Suits setting := suits_inside suits fun list given =>
      Option.some.inj given ▸ listed
    have body := membersEdits_grounded fun member found =>
      inner member found within (anchored.child (Subtree.member_child found))
    rw [memberEdits]
    exact (paramsEdits_grounded within listed).bind fun _ _ _ => body.mapAny
  | creation range type members constructorArgs inner =>
    have ofArgs := optionalArgs_grounded suits constructorArgs fun list given =>
      anchored.child (Subtree.args_child given)
    have made : Anchored setting.tokens root (.ref type) :=
      anchored.child (List.mem_append_left _ List.mem_cons_self)
    have body := membersEdits_grounded fun member found =>
      inner member found suits (anchored.child (Subtree.member_child found))
    rw [memberEdits_creation]
    exact ofArgs.bind fun _ _ _ => (refEdits_grounded suits made).bind fun _ _ _ => body.mapAny
  | witness range args method =>
    have stands := anchored.here.placed.stands method List.mem_cons_self
    rw [memberEdits]
    refine (explicitArgs_grounded suits (anchored.child List.mem_cons_self)).bind fun found _ _ => ?_
    refine (values_grounded suits).bind fun inScope made _ => ?_
    have enough := suits.enough made
    have more : setting.binding.slots ≤ (found.1 ++ inScope.drop found.1.length).length := by
      simp only [List.length_append, List.length_drop]
      omega
    exact (rename_grounded stands more).mapAny

theorem docEdits_founded {tree : Tree} (anchored : Anchored setting.tokens (.unit tree) (.unit tree))
    {edits : List Edit} {fault : Fault} (failed : setting.docEdits tree edits = .error fault) :
    setting.Founded (.unit tree) fault := by
  have outermost := Scope.Suits.outermost setting
  have scopes := declScopesOf_all suits_inside outermost tree.members fun member found =>
    anchored.child (Subtree.member_child found)
  obtain ⟨doc, member, ofScope | ofText⟩ := docEdits_fault failed
  · have suits := DocScope.find_all (fun scope => scope.Suits setting) outermost scopes setting.tokens doc
    exact misses_founded ofScope suits.named
  · refine misses_founded ofText fun slot named _ => ?_
    obtain ⟨lexeme, there, kind⟩ := (anchored.child (Subtree.doc_child member)).here.placed.bounded
    obtain ⟨token, standing, rfl⟩ := lexemesOf_some there
    refine ⟨token, List.mem_of_getElem? standing, .inr kind, ?_⟩
    rw [docText, standing] at named
    exact named

theorem edits_grounded {tree : Tree} (anchored : Anchored setting.tokens (.unit tree) (.unit tree)) :
    setting.Grounded (.unit tree) (setting.edits tree) := by
  have inCode : setting.Grounded (.unit tree)
      (setting.membersEdits (Scope.outermost setting.binding) tree.members) :=
    membersEdits_grounded fun member found =>
      memberEdits_grounded (.outermost setting) (anchored.child (Subtree.member_child found))
  refine inCode.bind fun found _ _ => ?_
  have inDocs : setting.Grounded (.unit tree) (Traced.lift (setting.docEdits tree (Edit.sort found))) :=
    .lift (fun _ => docEdits_founded anchored) fun _ _ => trivial
  exact inDocs.mapAny

end Setting

theorem parse_anchored {source : List Char} {tokens : List Token} {tree : Tree}
    (parsed : parse source = .ok (tokens, tree)) : Anchored tokens (.unit tree) (.unit tree) :=
  anchored_of_sound (parse_sound parsed) (parseTokens_joined (parse_ok parsed).2)

end Specializer
