import Specializer.Proofs.ArgumentValues

set_option autoImplicit false

namespace Specializer

namespace Binding

variable {binding : Binding} {inScope : List SlotType}

/-- The values of the placeholders among some arguments, without gaps, continued by those in scope. -/
def packed (binding : Binding) (inScope : List SlotType) (args : List TypeArg) : List SlotType :=
  let given := args.filterMap fun arg => binding.told? arg.subtree
  (given ++ inScope.drop given.length).take args.length

theorem mapIdx_told {args : List TypeArg} {value : Nat → TypeArg → SlotType}
    (same : ∀ place, ∀ arg ∈ args, binding.told? arg.subtree = some (value place arg)) :
    args.mapIdx value = args.filterMap fun arg => binding.told? arg.subtree := by
  induction args generalizing value with
  | nil => rfl
  | cons arg rest ih =>
    rw [List.mapIdx_cons, List.filterMap_cons, same 0 arg List.mem_cons_self,
      ih fun place arg member => same (place + 1) arg (List.mem_cons_of_mem _ member)]

theorem packed_eq_valuesOf {first rest : List TypeArg}
    (told : ∀ arg ∈ first, (binding.told? arg.subtree).isSome = true)
    (untold : ∀ arg ∈ rest, binding.told? arg.subtree = none)
    (enough : (binding.packed inScope (first ++ rest)).length = (first ++ rest).length) :
    binding.packed inScope (first ++ rest) = binding.valuesOf inScope (first ++ rest) := by
  have ofFirst : first.mapIdx (binding.valueAt inScope) =
      first.filterMap fun arg => binding.told? arg.subtree := by
    refine mapIdx_told fun place arg member => ?_
    obtain ⟨value, known⟩ := Option.isSome_iff_exists.mp (told arg member)
    rw [valueAt, known, Option.getD_some]
  have ofRest : (rest.filterMap fun arg => binding.told? arg.subtree) = [] := by
    simpa [List.filterMap_eq_nil_iff] using untold
  have count : (first.filterMap fun arg => binding.told? arg.subtree).length = first.length := by
    rw [← ofFirst, List.length_mapIdx]
  -- All values told come from the front, so what is left to fill is filled from the scope behind
  -- it.
  have shape : binding.packed inScope (first ++ rest) =
      (first.filterMap fun arg => binding.told? arg.subtree) ++
        (inScope.drop first.length).take rest.length := by
    simp only [packed, List.filterMap_append, ofRest, List.append_nil, count, List.length_append]
    rw [List.take_append, count, Nat.add_sub_cancel_left, List.take_of_length_le (by omega)]
  rw [shape, List.length_append, List.length_append, count, List.length_take, List.length_drop] at enough
  rw [shape, valuesOf, List.mapIdx_append, ofFirst]
  refine congrArg _ (List.ext_getElem? fun place => ?_)
  rw [List.getElem?_mapIdx, List.getElem?_take]
  split
  next inside =>
    have known : place + first.length < inScope.length := by omega
    rw [List.getElem?_drop, List.getElem?_eq_getElem inside, Option.map_some, valueAt,
      untold _ (List.getElem_mem inside), Option.getD_none, Nat.add_comm first.length,
      List.getElem?_eq_getElem known, Option.getD_some]
  next outside => rw [List.getElem?_eq_none (by omega), Option.map_none]

end Binding

theorem Setting.template_packed {setting : Setting} {edits : List Edit} {tree : Tree}
    (docs : tree.docs = docComments setting.tokens)
    (sound : (Subtree.unit tree).Sound (lexemesOf setting.tokens))
    (made : (setting.edits tree).result = .ok edits) {part : Subtree} {name : Name} {list : TypeArgs}
    (below : (Subtree.unit tree).Below part) (applied : (name, list) ∈ part.applied)
    (has : hasPlaceholder name.text = true) (count : segmentCount name.text = list.args.length)
    (each : ∀ arg ∈ list.args, arg.isPlaceholder = true ∨ arg.subtree.width = 0)
    (one : ∃ arg ∈ list.args, arg.isPlaceholder = true)
    (visited : ∀ param, (Subtree.unit tree).Below (.param param) →
      (Subtree.param param).Below part → setting.Retains (.param param)) :
    ∃ slots new, Subtree.Leads [] (.unit tree) part slots ∧
      substituteInOrder name.text (setting.binding.packed (setting.binding.inScope slots) list.args) =
        some new ∧
      setting.Puts (.unit tree) part name new edits ∧
      ∀ arg ∈ list.args, arg.isPlaceholder = true → (setting.binding.told? arg.subtree).isSome = true := by
  have filled : list.args ≠ [] := by
    obtain ⟨arg, member, -⟩ := one
    exact List.ne_nil_of_mem member
  obtain ⟨slots, entries, leads, ofArgs, -, named⟩ :=
    edits_template docs sound made below applied has filled visited
  obtain ⟨values, derived⟩ := argEdits_given each ofArgs
  obtain ⟨new, substituted, put⟩ := named (derived one)
  have packs : (entries.resolve (setting.binding.inScope slots)).take list.args.length =
      setting.binding.packed (setting.binding.inScope slots) list.args := by
    simp [Entries.resolve, values, Binding.packed, Function.comp_def]
  rw [← substituteInOrder_take, count, packs] at substituted
  exact ⟨slots, new, leads, substituted, put, argEdits_bound ofArgs⟩

/-- A template whose arguments are placeholders or types without any takes the values of its placeholders
one after the other and not by their places. So each placeholder has its own place in the new name
exactly if both come to the same, as they do if the placeholders come first. -/
theorem edits_packed {source : List Char} {tokens : List Token} {tree : Tree} {binding : Binding}
    {edits : List Edit} (parsed : parse source = .ok (tokens, tree))
    (made : (Setting.edits ⟨tokens, binding⟩ tree).result = .ok edits)
    {part : Subtree} {name : Name} {list : TypeArgs} (below : (Subtree.unit tree).Below part)
    (applied : (name, list) ∈ part.applied) (number : list.args.length = segmentCount name.text)
    (each : ∀ arg ∈ list.args, arg.isPlaceholder = true ∨ arg.isPlain = true)
    (one : ∃ arg ∈ list.args, arg.isPlaceholder = true)
    (visited : ∀ param, (Subtree.unit tree).Below (.param param) →
      (Subtree.param param).Below part → Setting.Retains ⟨tokens, binding⟩ (.param param)) :
    ∃ slots new byPlace, Subtree.Leads [] (.unit tree) part slots ∧
      Woven name.text (binding.packed (binding.inScope slots) list.args) new ∧
      Setting.Puts ⟨tokens, binding⟩ (.unit tree) part name new edits ∧
      Woven name.text (binding.valuesOf (binding.inScope slots) list.args) byPlace ∧
      (new = byPlace ↔ binding.packed (binding.inScope slots) list.args =
        binding.valuesOf (binding.inScope slots) list.args) ∧
      ((∃ first rest, list.args = first ++ rest ∧ (∀ arg ∈ first, arg.isPlaceholder = true) ∧
        ∀ arg ∈ rest, arg.isPlaceholder = false) → new = byPlace) := by
  have sound := parse_sound parsed
  have docs := parseTokens_docs (parse_ok parsed).2
  have has : hasPlaceholder name.text = true := by
    obtain ⟨arg, member, -⟩ := one
    exact segmentCount_pos.mp (number ▸ List.length_pos_of_mem member)
  -- A type without placeholders stands for no value, and so later placeholders move up.
  have kinds (arg : TypeArg) (member : arg ∈ list.args) :
      arg.isPlaceholder = true ∨ arg.subtree.width = 0 := by
    refine (each arg member).elim .inl fun plain => ?_
    by_cases placeholder : arg.isPlaceholder = true
    next => exact .inl placeholder
    next => exact .inr (TypeArg.width_plain (Bool.not_eq_true _ ▸ placeholder) plain)
  obtain ⟨slots, new, leads, substituted, put, bound⟩ :=
    @Setting.template_packed ⟨tokens, binding⟩ _ _ docs sound made _ _ _ below applied has number.symm kinds
      one visited
  dsimp only at substituted bound
  have length : (binding.packed (binding.inScope slots) list.args).length = segmentCount name.text := by
    have enough := substituteInOrder_isSome name.text (binding.packed (binding.inScope slots) list.args)
    rw [substituted, Option.isSome_some, eq_comm, decide_eq_true_iff] at enough
    have short : (binding.packed (binding.inScope slots) list.args).length ≤ list.args.length :=
      List.length_take_le _ _
    omega
  have places : (binding.valuesOf (binding.inScope slots) list.args).length = segmentCount name.text :=
    List.length_mapIdx.trans number
  obtain ⟨byPlace, placed⟩ := Option.isSome_iff_exists.mp
    ((substituteInOrder_isSome name.text _).trans (decide_eq_true places.ge))
  have agree := substituteInOrder_eq_iff substituted placed
  rw [List.take_of_length_le length.le, List.take_of_length_le places.le] at agree
  refine ⟨slots, new, byPlace, leads, woven_of_substitute substituted length, put,
    woven_of_substitute placed places, agree, ?_⟩
  rintro ⟨first, rest, split, placeholders, others⟩
  rw [split] at agree bound length number
  refine agree.mpr (Binding.packed_eq_valuesOf (fun arg member => ?_) (fun arg member => ?_) ?_)
  next => exact bound arg (List.mem_append_left _ member) (placeholders arg member)
  next =>
    have none : arg.subtree.standsFor? = none := by
      simpa [TypeArg.isPlaceholder] using others arg member
    rw [Binding.told?, none, Option.bind_none]
  next => rw [length, number]

theorem edits_packed_foreign :
    ∃ tokens tree edits part name list,
      parse "class A { KTypeVTypeMap<String, VType> x; }".toList = .ok (tokens, tree) ∧
        (Setting.edits ⟨tokens, ⟨.generic, some .long⟩⟩ tree).result = .ok edits ∧
        (Subtree.unit tree).Below part ∧ (name, list) ∈ part.applied ∧
        list.args.length = segmentCount name.text ∧
        (∀ arg ∈ list.args, arg.isPlaceholder = true ∨ arg.isPlain = true) ∧
        (∃ arg ∈ list.args, arg.isPlaceholder = true) ∧
        (∀ param, (Subtree.unit tree).Below (.param param) → (Subtree.param param).Below part →
          Setting.Retains ⟨tokens, ⟨.generic, some .long⟩⟩ (.param param)) ∧
        ⟨name.index, name.index + 1, "LongLongMap".toList⟩ ∈ edits ∧
        ∃ slots new byPlace, Subtree.Leads [] (.unit tree) part slots ∧
          Woven name.text
            (Binding.packed ⟨.generic, some .long⟩ (Binding.inScope ⟨.generic, some .long⟩ slots) list.args)
            new ∧
          Setting.Puts ⟨tokens, ⟨.generic, some .long⟩⟩ (.unit tree) part name new edits ∧
          Woven name.text
            (Binding.valuesOf ⟨.generic, some .long⟩ (Binding.inScope ⟨.generic, some .long⟩ slots) list.args)
            byPlace ∧
          (new = byPlace ↔
            Binding.packed ⟨.generic, some .long⟩ (Binding.inScope ⟨.generic, some .long⟩ slots) list.args =
              Binding.valuesOf ⟨.generic, some .long⟩ (Binding.inScope ⟨.generic, some .long⟩ slots)
                list.args) ∧
          ((∃ first rest, list.args = first ++ rest ∧ (∀ arg ∈ first, arg.isPlaceholder = true) ∧
            ∀ arg ∈ rest, arg.isPlaceholder = false) → new = byPlace) := by
  obtain ⟨⟨tokens, tree⟩, parsed, passes⟩ := ok_of_any
    (show (parse "class A { KTypeVTypeMap<String, VType> x; }".toList).toOption.any
      (fun read => (Setting.edits ⟨read.1, ⟨.generic, some .long⟩⟩ read.2).result.toOption.any
        fun edits => (Subtree.unit read.2).children.any fun decl => decl.children.any fun part =>
          part.applied.any fun use => use.2.args.length == segmentCount use.1.text &&
            use.2.args.all (fun arg => arg.isPlaceholder || arg.isPlain) &&
            use.2.args.any TypeArg.isPlaceholder &&
            edits.contains ⟨use.1.index, use.1.index + 1, "LongLongMap".toList⟩) = true
      by decide +kernel)
  obtain ⟨edits, made, found⟩ := ok_of_any passes
  simp only [List.any_eq_true, Bool.and_eq_true, Bool.or_eq_true, List.all_eq_true, beq_iff_eq,
    List.contains_iff_mem] at found
  obtain ⟨decl, top, part, step, ⟨name, list⟩, applied, ⟨⟨number, each⟩, one⟩, replaced⟩ := found
  obtain ⟨field, rfl, -⟩ := Subtree.applied_ref applied
  have visited (param : TypeParam) (above : (Subtree.unit tree).Below (.param param))
      (around : (Subtree.param param).Below (.ref field)) :
      Setting.Retains ⟨tokens, ⟨.generic, some .long⟩⟩ (.param param) :=
    absurd around (Subtree.field_free (parse_sound parsed) top step .refl above)
  have below : (Subtree.unit tree).Below (.ref field) := .head top (.single step)
  exact ⟨tokens, tree, edits, _, name, list, parsed, made, below, applied, number, each, one, visited,
    replaced, edits_packed parsed made below applied number each one visited⟩

end Specializer
