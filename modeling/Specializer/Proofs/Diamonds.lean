import Specializer.Proofs.Applications

set_option autoImplicit false

namespace Specializer

def TypeArg.Spells : TypeArg → Slot → Prop
  | .exact ref, slot => ref.slot? = some slot ∧ ref.dims = 0
  | _, _ => False

def Binding.kept (binding : Binding) (slots : List Slot) : List (List Char) :=
  (slots.filter fun slot => (binding.get? slot).any SlotType.isGeneric).map fun slot => slot.name.toList

theorem Binding.known_cons {binding : Binding} {slot : Slot} {slots : List Slot} {values : List SlotType}
    (known : (slot :: slots).map binding.get? = values.map some) :
    ∃ value rest, values = value :: rest ∧ binding.get? slot = some value ∧
      slots.map binding.get? = rest.map some := by
  cases values with
  | nil => simp at known
  | cons value rest =>
    obtain ⟨bound, others⟩ := List.cons.inj known
    exact ⟨value, rest, rfl, bound, others⟩

theorem Scope.values_of_bound {scope : Scope Slot} {binding : Binding} {values : List SlotType}
    (known : scope.order.map binding.get? = values.map some) : scope.values binding = .ok values := by
  have bound : ∀ slot ∈ scope.order, (binding.get? slot).isSome = true := by
    intro slot member
    have found : binding.get? slot ∈ values.map some := known ▸ List.mem_map_of_mem member
    obtain ⟨value, -, same⟩ := List.mem_map.mp found
    rw [← same, Option.isSome_some]
  obtain ⟨others, made⟩ := @Setting.values_known ⟨[], binding⟩ scope bound
  have same := known.symm.trans (values_bound made)
  rw [List.map_injective_iff.mpr (fun _ _ => Option.some.inj) same]
  exact made

theorem Binding.kept_cons {binding : Binding} {slot : Slot} {value : SlotType} (slots : List Slot)
    (bound : binding.get? slot = some value) :
    binding.kept (slot :: slots) =
      if value.isPrimitive then binding.kept slots else slot.name.toList :: binding.kept slots := by
  rw [kept, List.filter_cons, bound, Option.any_some, SlotType.isPrimitive]
  cases value.isGeneric <;> rfl

theorem Binding.kept_eq_nil {binding : Binding} {slots : List Slot} {values : List SlotType}
    (known : slots.map binding.get? = values.map some) :
    binding.kept slots = [] ↔ values.all SlotType.isPrimitive = true := by
  induction slots generalizing values with
  | nil =>
    cases List.map_eq_nil_iff.mp known.symm
    exact ⟨fun _ => rfl, fun _ => rfl⟩
  | cons slot slots ih =>
    obtain ⟨value, values, rfl, bound, others⟩ := known_cons known
    rw [kept_cons slots bound, List.all_cons, Bool.and_eq_true, ← ih others]
    cases value.isPrimitive <;> simp

def Entries.spelled (binding : Binding) (slots : List Slot) (values : List SlotType) : Entries :=
  ⟨values.map some, binding.kept slots, [], values.any SlotType.isPrimitive, !values.isEmpty⟩

theorem Entries.resolve_spelled (binding : Binding) (slots : List Slot) (values : List SlotType) (count : Nat) :
    (spelled binding slots (values.take count)).resolve values = values := by
  have told : ((values.take count).map some).map (fun value => value.getD .generic) = values.take count := by
    rw [List.map_map]
    exact List.map_id _
  have others : values.drop (values.take count).length = values.drop count := by
    rw [List.length_take]
    rcases Nat.le_total count values.length with short | long
    next => rw [Nat.min_eq_left short]
    next => rw [Nat.min_eq_right long, List.drop_length, List.drop_eq_nil_of_le long]
  rw [resolve, spelled, told, List.length_map, others, List.take_append_drop]

namespace Setting

variable {setting : Setting} {slots : List Slot} {values : List SlotType} {place : Range}
  {edits : List Edit} {scope : Scope Slot}

structure Settled (setting : Setting) (range : Range) (own edits : List Edit) : Prop where
  all : ∀ edit ∈ own, edit ∈ edits
  only : ∀ edit ∈ edits, ∀ index, range.start ≤ index → index < range.stop →
    Solid (lexemesOf setting.tokens) index → edit.Covers index → edit ∈ own

/-- The reference to a type comes to the given edits and values, without a notice, and where it is the type
of an object creation the edits of the template have these edits there. -/
structure Becomes (setting : Setting) (tree : Tree) (scope : Scope Slot) (type : TypeRef)
    (found : RefEdits) : Prop where
  visited : ∀ owner, setting.refEdits owner scope type = ⟨[], .ok found⟩
  created : ∀ slots manner range members args edits,
    Subtree.Way [] .alone (.unit tree) slots manner (.creation range type members args) →
      setting.scopeOf slots = scope → (setting.edits tree).result = .ok edits →
        setting.Settled type.range found.edits edits

/-- The edits of a list that holds the placeholders of slots: it goes if all values are primitive, is
reduced to the others if some are, and else stays as it is. -/
inductive Reduces (setting : Setting) (place : Range) (slots : List Slot) (values : List SlotType) :
    List Edit → Prop
  | gone {stop : Int} (all : values.all SlotType.isPrimitive = true)
      (ends : stop = place.stop ∨ stop = place.stop + 1 ∧ setting.isBlankAt place.stop = true) :
      Reduces setting place slots values [⟨place.start, stop, []⟩]
  | fewer (some : values.any SlotType.isPrimitive = true) (other : ¬ values.all SlotType.isPrimitive = true) :
      Reduces setting place slots values
        [⟨place.start, place.stop, '<' :: List.intercalate [',', ' '] (setting.binding.kept slots) ++ ['>']⟩]
  | whole (none : values.any SlotType.isPrimitive = false) : Reduces setting place slots values []

theorem argEntry_spelled {given : Option (List SlotType)} {position : Nat} {arg : TypeArg} {slot : Slot}
    {value : SlotType} (written : arg.subtree.AllWritten (lexemesOf setting.tokens))
    (sound : arg.subtree.Sound (lexemesOf setting.tokens)) (spells : arg.Spells slot)
    (bound : setting.binding.get? slot = some value) :
    setting.argEntry given scope position arg = ⟨[], .ok
      (if value.isPrimitive then .drop value else .keep [some value] true slot.name.toList [])⟩ := by
  cases arg with
  | unbounded range | bounded range kind ref => exact spells.elim
  | exact ref =>
    obtain ⟨bare, dimless⟩ := spells
    by_cases primitive : value.isPrimitive = true
    next =>
      rw [if_pos primitive]
      exact argEntry_primitive bare bound primitive
    next =>
      obtain ⟨name, same, named⟩ := TypeRef.Written.bare written.here bare dimless
      have stands : name.Stands (lexemesOf setting.tokens) := by
        refine sound.here.stands name ?_
        rw [TypeArg.subtree, Subtree.names, same]
        exact List.mem_cons_self
      rw [if_neg primitive, same, argEntry_generic named bound (Bool.eq_false_iff.mpr primitive) stands,
        Slot.ofText?_some named]

theorem argEdits_spelled {given : Option (List SlotType)} {position : Nat} {args : List TypeArg}
    (written : ∀ arg ∈ args, arg.subtree.AllWritten (lexemesOf setting.tokens))
    (sound : ∀ arg ∈ args, arg.subtree.Sound (lexemesOf setting.tokens))
    (spells : List.Forall₂ TypeArg.Spells args slots)
    (known : slots.map setting.binding.get? = values.map some) :
    setting.argEdits given scope position args = ⟨[], .ok (.spelled setting.binding slots values)⟩ := by
  induction spells generalizing position values with
  | nil =>
    cases List.map_eq_nil_iff.mp known.symm
    exact argEdits.eq_1 ..
  | @cons arg slot args slots here _ ih =>
    obtain ⟨value, values, rfl, bound, others⟩ := Binding.known_cons known
    have entry := @argEntry_spelled _ scope given position _ _ _ (written arg List.mem_cons_self)
      (sound arg List.mem_cons_self) here bound
    rw [argEdits, Traced.bind_silent entry, Traced.bind_silent (ih (fun arg member =>
      written arg (List.mem_cons_of_mem _ member)) (fun arg member => sound arg (List.mem_cons_of_mem _ member))
      others), Entries.spelled, Entries.spelled, Binding.kept_cons slots bound, List.any_cons]
    cases value.isPrimitive <;> rfl

theorem listEdits_spelled (known : slots.map setting.binding.get? = values.map some) :
    setting.Reduces place slots values (setting.listEdits place (.spelled setting.binding slots values)) := by
  rw [listEdits, Entries.spelled]
  by_cases some : values.any SlotType.isPrimitive = true
  next =>
    obtain ⟨stop, ends, same⟩ := @reduce_eq setting place (setting.binding.kept slots)
    rw [if_pos some, same]
    by_cases all : values.all SlotType.isPrimitive = true
    next =>
      rw [if_pos ((Binding.kept_eq_nil known).mpr all)]
      exact .gone all (ends.imp_right And.right)
    next =>
      have left : setting.binding.kept slots ≠ [] := mt (Binding.kept_eq_nil known).mp all
      rw [if_neg left, ends.resolve_right fun more => left more.1]
      exact .fewer some all
  next =>
    rw [if_neg some]
    exact .whole (Bool.eq_false_iff.mpr some)

theorem refEdits_spelled {type : TypeRef} {name : Name} {args : List TypeArg} {new : List Char}
    (known : scope.order.map setting.binding.get? = values.map some)
    (written : (Subtree.ref type).AllWritten (lexemesOf setting.tokens))
    (sound : (Subtree.ref type).Sound (lexemesOf setting.tokens))
    (shape : type.segments = [.applied name (.mk place args)]) (other : Slot.ofText? name.text = none)
    (templated : 1 ≤ segmentCount name.text) (enough : segmentCount name.text ≤ scope.order.length)
    (filled : substituteInOrder name.text values = some new)
    (spells : List.Forall₂ TypeArg.Spells args (scope.order.take (segmentCount name.text))) :
    ∃ list, setting.Reduces place (scope.order.take (segmentCount name.text))
        (values.take (segmentCount name.text)) list ∧
      ∀ owner, setting.refEdits owner scope type =
        ⟨[], .ok ⟨list ++ [replace name new], some (values.take (segmentCount name.text))⟩⟩ := by
  obtain ⟨range, segments, dims⟩ := type
  cases shape
  have count := spells.length_eq
  rw [List.length_take] at count
  have nonempty : args ≠ [] := List.ne_nil_of_length_pos (by omega)
  have taken : (scope.order.take (segmentCount name.text)).map setting.binding.get? =
      (values.take (segmentCount name.text)).map some := by
    rw [List.map_take, known, List.map_take]
  have listed : setting.argEdits (some values) scope 0 args = _ := argEdits_spelled
    (fun arg member => (written.child List.mem_cons_self).child (List.mem_map_of_mem member))
    (fun arg member => (sound.child List.mem_cons_self).child (List.mem_map_of_mem member)) spells taken
  -- At least one placeholder is written out, so the list tells values at all.
  have told : values.take (segmentCount name.text) ≠ [] := by
    intro none
    rw [none] at taken
    have short := congrArg List.length taken
    simp only [List.length_map, List.length_take, List.length_nil] at short
    omega
  have derived : (Entries.spelled setting.binding (scope.order.take (segmentCount name.text))
      (values.take (segmentCount name.text))).derived = true := by
    simpa [Entries.spelled] using told
  have whole := Entries.resolve_spelled setting.binding (scope.order.take (segmentCount name.text)) values
    (segmentCount name.text)
  have made := @segmentEdits_explicit _ _ _ place _ _ _ _ (hasPlaceholder_of_count templated)
    (Scope.values_of_bound known) nonempty listed derived (by rw [whole, filled])
  rw [whole] at made
  exact ⟨_, listEdits_spelled taken, fun owner => refEdits_single other made⟩

section Creations

variable {tree : Tree} (docs : tree.docs = docComments setting.tokens)
  (sound : (Subtree.unit tree).Sound (lexemesOf setting.tokens))
  (made : (setting.edits tree).result = .ok edits)

include docs sound made in
-- No list is around an object creation that could be rebuilt, so the edits of its type are those of the
-- template.
theorem edits_created {manner : Manner} {range : Range} {members : List Member} {args : Option TypeArgs}
    {type : TypeRef}
    (way : Subtree.Way [] .alone (.unit tree) slots manner (.creation range type members args)) :
    ∃ found, (setting.refEdits none (setting.scopeOf slots) type).result = .ok found ∧
      setting.Settled type.range found.edits edits := by
  -- What can be rebuilt is a part of a type, and no part of a type holds a creation.
  have outside {part : Subtree} (isType : part.isType = true)
      (around : part.Below (.creation range type members args)) : False := by
    have type := Subtree.isType_below isType around
    cases type
  have within := sound.at_below way.holds
  have child : Subtree.ref type ∈ (Subtree.creation range type members args).children := by
    simp [Subtree.children]
  have inside := Subtree.below_range (by trivial) within (.single child)
  obtain ⟨bound, own, ended, arrives⟩ := edits_arrive docs sound made way trivial trivial fun param _ around =>
    (outside rfl around).elim
  cases arrives with
  | @rebuilds _ _ list _ _ _ below isList entry around =>
    have listed : list.isType = true := by
      rcases isList with same | same <;> simp [Subtree.isType, same]
    exact (outside (Subtree.isType_child listed entry) around).elim
  | inPlace all only =>
    obtain ⟨visited, known⟩ := visit_cases (by trivial) bound ended
    cases visited with
    | rebuilt trims => cases manner <;> cases trims
    | removed _ isList => cases isList
    | within assembles =>
      have part : (Manner.alone, Subtree.ref type) ∈
          (Subtree.creation range type members args).parts manner := List.mem_map_of_mem child
      obtain ⟨inner, visit, among, mine⟩ := assembles.settled (by trivial) within known part
      have nothing : (Subtree.creation range type members args).within slots = slots := if_pos rfl
      rw [nothing, Setting.visit, Traced.bind_ok] at visit
      obtain ⟨found, ofType, same⟩ := visit
      cases Traced.pure_ok.mp same
      refine ⟨found, ofType, fun edit member => all edit (among edit member), ?_⟩
      intro edit member index low high solid covers
      have low' : range.start ≤ index := Nat.le_trans inside.1 low
      have high' : index < range.stop := Nat.lt_of_lt_of_le high inside.2
      exact mine edit (only edit member index low' high' solid covers) index low high solid covers

end Creations

theorem becomes_of_silent {source : List Char} {tokens : List Token} {tree : Tree} {binding : Binding}
    {type : TypeRef} {found : RefEdits} (parsed : parse source = .ok (tokens, tree))
    (visited : ∀ owner, Setting.refEdits ⟨tokens, binding⟩ owner scope type = ⟨[], .ok found⟩) :
    Becomes ⟨tokens, binding⟩ tree scope type found := by
  refine ⟨visited, fun slots manner range members args edits way same made => ?_⟩
  obtain ⟨other, ofType, settled⟩ := @edits_created ⟨tokens, binding⟩ _ _ _
    (parseTokens_docs (parse_ok parsed).2) (parse_sound parsed) made _ _ _ _ _ way
  rw [same, visited none] at ofType
  cases ofType
  exact settled

end Setting

theorem Subtree.way_created {tree : Tree} {decl : Subtree} {range : Range} {type : TypeRef}
    {members : List Member} {args : Option TypeArgs} (top : decl ∈ (unit tree).children)
    (isDecl : decl.parts .alone = decl.children.map fun child => (.alone, child))
    (child : creation range type members args ∈ decl.children) :
    Way [] .alone (unit tree) (decl.within []) .alone (creation range type members args) ∧
      (unit tree).Below (ref type) := by
  have way : Way [] .alone (unit tree) (decl.within []) .alone (creation range type members args) :=
    .down (List.mem_map_of_mem top) (.down (isDecl ▸ List.mem_map_of_mem child) .here)
  exact ⟨way, way.holds.tail (by simp [children])⟩

/-- A diamond agrees with the placeholders in scope written out. -/
theorem diamond_agrees {binding : Binding} {order : List Slot} {values : List SlotType} {text : List Char}
    (known : order.map binding.get? = values.map some) (other : Slot.ofText? text = none)
    (templated : 1 ≤ segmentCount text) (enough : segmentCount text ≤ order.length) :
    ∃ new, Woven text (values.take (segmentCount text)) new ∧
      ∀ source tokens tree type name place args, parse source = .ok (tokens, tree) →
        (Subtree.unit tree).Below (.ref type) → type.segments = [.applied name (.mk place args)] →
          name.text = text → ∀ scope : Scope Slot, scope.order = order →
            (args = [] → Setting.Becomes ⟨tokens, binding⟩ tree scope type
              ⟨(if (values.take (segmentCount text)).all SlotType.isPrimitive then
                  [⟨place.start, place.stop, []⟩] else []) ++ [Setting.replace name new],
                some (values.take (segmentCount text))⟩) ∧
            (List.Forall₂ TypeArg.Spells args (order.take (segmentCount text)) →
              ∃ list, Setting.Reduces ⟨tokens, binding⟩ place (order.take (segmentCount text))
                  (values.take (segmentCount text)) list ∧
                Setting.Becomes ⟨tokens, binding⟩ tree scope type
                  ⟨list ++ [Setting.replace name new], some (values.take (segmentCount text))⟩) := by
  have length : order.length = values.length := by
    have same := congrArg List.length known
    rwa [List.length_map, List.length_map] at same
  obtain ⟨new, filled, woven⟩ := @substituteInOrder_some text values (length ▸ enough)
  refine ⟨new, woven, ?_⟩
  rintro source tokens tree type name place args parsed below shape rfl scope rfl
  constructor
  next =>
    rintro rfl
    obtain ⟨range, segments, dims⟩ := type
    cases shape
    exact Setting.becomes_of_silent parsed fun owner => Setting.refEdits_single other
      (@Setting.segmentEdits_diamond ⟨tokens, binding⟩ _ _ _ _ _ (hasPlaceholder_of_count templated)
        (Scope.values_of_bound known) filled)
  next =>
    intro spells
    obtain ⟨list, reduces, visited⟩ := @Setting.refEdits_spelled ⟨tokens, binding⟩ _ _ _ _ _ _ _ known
      ((parseTokens_written (parse_ok parsed).2).at_below below) ((parse_sound parsed).at_below below) shape
      other templated enough filled spells
    exact ⟨list, reduces, Setting.becomes_of_silent parsed visited⟩

def Subtree.diamondAndSpelled (decl one two : Subtree) : Bool :=
  match decl, one, two with
  | .typeDecl _ _ _ none _ _, .creation _ (.mk _ [.applied name (.mk _ [])] _) _ _,
      .creation _ (.mk _ [.applied name' (.mk _ [.exact first, .exact second])] _) _ _ =>
    name.text == "KTypeVTypeMap".toList && name'.text == "KTypeVTypeMap".toList && first.slot? == some .key &&
      first.dims == 0 && second.slot? == some .value && second.dims == 0
  | _, _, _ => false

theorem diamond_agrees_int :
    ∃ tokens tree edits new, ∃ (one two : TypeRef) (name name' : Name) (place place' : Range) (list : List Edit)
        (args : List TypeArg),
      parse "class A { X x = new KTypeVTypeMap<>(); X y = new KTypeVTypeMap<KType, VType>(); }".toList =
          .ok (tokens, tree) ∧
        (Setting.edits ⟨tokens, ⟨.int, some .generic⟩⟩ tree).result = .ok edits ∧
        one.segments = [.applied name (.mk place [])] ∧ two.segments = [.applied name' (.mk place' args)] ∧
        Woven "KTypeVTypeMap".toList [.int, .generic] new ∧
        Setting.Reduces ⟨tokens, ⟨.int, some .generic⟩⟩ place' [.key, .value] [.int, .generic] list ∧
        Setting.Settled ⟨tokens, ⟨.int, some .generic⟩⟩ one.range [Setting.replace name new] edits ∧
        Setting.Settled ⟨tokens, ⟨.int, some .generic⟩⟩ two.range (list ++ [Setting.replace name' new])
          edits := by
  obtain ⟨⟨tokens, tree⟩, parsed, passes⟩ := ok_of_any
    (show (parse
        "class A { X x = new KTypeVTypeMap<>(); X y = new KTypeVTypeMap<KType, VType>(); }".toList).toOption.any
      (fun read => (Setting.edits ⟨read.1, ⟨.int, some .generic⟩⟩ read.2).result.toOption.any
        fun _ => (Subtree.unit read.2).children.any fun decl => decl.children.any fun one =>
          decl.children.any fun two => decl.diamondAndSpelled one two) = true
      by decide +kernel)
  obtain ⟨edits, made, found⟩ := ok_of_any passes
  simp only [List.any_eq_true] at found
  obtain ⟨decl, top, one, first, two, second, shapes⟩ := found
  unfold Subtree.diamondAndSpelled at shapes
  split at shapes
  case h_2 => cases shapes
  case h_1 range keyword owner supertypes members _ whole name place dims _ _ _ _ name' place' key value _ _
      _ =>
    simp only [Bool.and_eq_true, beq_iff_eq] at shapes
    obtain ⟨⟨⟨⟨⟨named, named'⟩, keyed⟩, dimless⟩, valued⟩, dimless'⟩ := shapes
    have one := Subtree.way_created top rfl first
    have two := Subtree.way_created top rfl second
    have count : segmentCount "KTypeVTypeMap".toList = 2 := by decide +kernel
    obtain ⟨new, woven, each⟩ := @diamond_agrees ⟨.int, some .generic⟩ [.key, .value] [.int, .generic]
      "KTypeVTypeMap".toList rfl (by decide +kernel) (by decide +kernel) (by decide +kernel)
    rw [count] at woven each
    obtain ⟨diamond, -⟩ := each _ _ _ _ _ _ _ parsed one.2 rfl named ⟨[.key, .value]⟩ rfl
    obtain ⟨-, spelled⟩ := each _ _ _ _ _ _ _ parsed two.2 rfl named' ⟨[.key, .value]⟩ rfl
    obtain ⟨list, reduces, becomes⟩ := spelled (.cons ⟨keyed, dimless⟩ (.cons ⟨valued, dimless'⟩ .nil))
    exact ⟨tokens, tree, edits, new, _, _, name, name', place, place', list, _, parsed, made, rfl, rfl, woven,
      reduces, (diamond rfl).created _ _ _ _ _ _ one.1 rfl made, becomes.created _ _ _ _ _ _ two.1 rfl made⟩

end Specializer
