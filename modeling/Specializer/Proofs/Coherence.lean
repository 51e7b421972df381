import Specializer.Proofs.ArgumentValues

set_option autoImplicit false

namespace Specializer

namespace Setting

/-- A name with a list in angle brackets behind it comes out with the values: its new spelling has them in
order, and as many entries are left of the list as there are object types in the spelling. -/
structure Carries (setting : Setting) (root part : Subtree) (name : Name) (slots : List Slot)
    (manner : Manner) (list : Subtree) (values : List SlotType) (new : List Char) (edits : List Edit) :
    Prop where
  spelled : Woven name.text values new
  put : setting.Puts root part name new edits
  left : setting.Trimmed root slots manner list edits
  arity : (setting.rest slots manner list).length = (values.map SlotType.capitalized).count "Object"

end Setting

namespace Binding

variable {binding : Binding} {slots : List Slot}

theorem get?_values (bound : ∀ slot ∈ slots, (binding.get? slot).isSome = true) :
    slots.map binding.get? = (slots.filterMap binding.get?).map some := by
  induction slots with
  | nil => rfl
  | cons slot rest ih =>
    obtain ⟨value, known⟩ := Option.isSome_iff_exists.mp (bound slot List.mem_cons_self)
    have later := ih fun slot member => bound slot (List.mem_cons_of_mem _ member)
    rw [List.map_cons, List.filterMap_cons, known, later]
    rfl

theorem inScope_take (slots : List Slot) :
    (binding.inScope slots).take (slots.filterMap binding.get?).length = slots.filterMap binding.get? := by
  rw [inScope, order, List.filterMap_append, List.take_left]

end Binding

theorem TypeParams.declared_told {params : TypeParams} {binding : Binding}
    (placeholders : ∀ param ∈ params.params, isPlaceholder param.name.text = true) :
    (params.params.map fun param => binding.told? (.param param)) = params.declared.map binding.get? := by
  rw [TypeParams.declared]
  generalize params.params = list at placeholders
  induction list with
  | nil => rfl
  | cons param rest ih =>
    obtain ⟨slot, named⟩ := Option.isSome_iff_exists.mp (placeholders param List.mem_cons_self)
    have told : binding.told? (.param param) = binding.get? slot := by
      rw [Binding.told?, Subtree.standsFor?, named, Option.bind_some]
    have later := ih fun param member => placeholders param (List.mem_cons_of_mem _ member)
    rw [List.map_cons, List.filterMap_cons, named, told, later]
    rfl

namespace Setting

variable {setting : Setting} {edits : List Edit} {tree : Tree}
  (docs : tree.docs = docComments setting.tokens)
  (sound : (Subtree.unit tree).Sound (lexemesOf setting.tokens))
  (made : (setting.edits tree).result = .ok edits)

include docs sound made

theorem declaration_carries {decl : Subtree} {name : Name} {params : TypeParams}
    (below : (Subtree.unit tree).Below decl) (declares : decl.declaration? = some (name, params))
    (nonempty : params.params ≠ [])
    (placeholders : ∀ param ∈ params.params, isPlaceholder param.name.text = true)
    (has : hasPlaceholder name.text = true) (count : segmentCount name.text = params.params.length) :
    ∃ slots values new, Subtree.Leads [] (.unit tree) decl slots ∧
      (params.params.map fun param => setting.binding.told? (.param param)) = values.map some ∧
      substituteInOrder name.text values = some new ∧
      setting.Carries (.unit tree) decl name slots .alone (.params params) values new edits := by
  obtain ⟨slots, new, leads, bound, governs, substituted, put, left⟩ :=
    edits_declaration docs sound made below declares has
  have told := @TypeParams.declared_told _ setting.binding placeholders
  have number : params.declared.length = params.params.length := by
    simpa using (congrArg List.length told).symm
  -- With a placeholder declared, the scope of the declaration begins with its own slots.
  have governs : slots = params.declared := governs fun none => by
    rw [none] at number
    exact nonempty (List.eq_nil_of_length_eq_zero number.symm)
  subst governs
  rw [Binding.get?_values bound] at told
  have length : (params.declared.filterMap setting.binding.get?).length = segmentCount name.text := by
    simpa [count] using (congrArg List.length told).symm
  rw [← substituteInOrder_take, ← length, Binding.inScope_take] at substituted
  exact ⟨_, _, new, leads, told, substituted, woven_of_substitute substituted length, put, left,
    survivors_params told⟩

theorem template_carries {part : Subtree} {name : Name} {list : TypeArgs}
    (below : (Subtree.unit tree).Below part) (applied : (name, list) ∈ part.applied)
    (has : hasPlaceholder name.text = true) (count : segmentCount name.text = list.args.length)
    (filled : list.args ≠ [])
    (each : ∀ arg ∈ list.args, arg.isPlaceholder = true ∨ arg.isUnbounded = true)
    (visited : ∀ param, (Subtree.unit tree).Below (.param param) →
      (Subtree.param param).Below part → setting.Retains (.param param)) :
    ∃ slots new, Subtree.Leads [] (.unit tree) part slots ∧
      substituteInOrder name.text (setting.binding.valuesOf (setting.binding.inScope slots) list.args) =
        some new ∧
      setting.Carries (.unit tree) part name slots (.template name.text) (.args list)
        (setting.binding.valuesOf (setting.binding.inScope slots) list.args) new edits := by
  obtain ⟨slots, entries, leads, ofArgs, left, named⟩ :=
    edits_template docs sound made below applied has filled visited
  obtain ⟨aligned, derived⟩ := argEdits_aligned each ofArgs
  obtain ⟨new, substituted, put⟩ := named (derived filled)
  -- The same values tell the new name and which entries are left.
  have arity := @survivors_args (setting.binding.inScope slots) 0 setting.binding list.args
    fun arg member => (each arg member).imp_left (argEdits_bound ofArgs arg member)
  simp only [Nat.zero_add] at aligned arity
  have length : (setting.binding.valuesOf (setting.binding.inScope slots) list.args).length =
      segmentCount name.text := by
    rw [count]
    exact List.length_mapIdx
  rw [← substituteInOrder_take, Entries.resolve, aligned, ← length] at substituted
  have substituted : substituteInOrder name.text
      (setting.binding.valuesOf (setting.binding.inScope slots) list.args) = some new := by
    rwa [Binding.valuesOf, List.take_left] at substituted
  exact ⟨slots, new, leads, substituted, woven_of_substitute substituted length, put, left, arity⟩

end Setting

/-- Take a declaration whose type parameters are all placeholders, as many as its name has, and a
reference to its name with as many arguments, each of which is a placeholder or a wildcard. Both names
come out with the values in order, and of both lists as many entries are left as there are object types
in the new name; so names and arities are the same if the values are. -/
theorem edits_coherent {source : List Char} {tokens : List Token} {tree : Tree} {binding : Binding}
    {edits : List Edit} (parsed : parse source = .ok (tokens, tree))
    (made : (Setting.edits ⟨tokens, binding⟩ tree).result = .ok edits)
    {decl : Subtree} {name : Name} {params : TypeParams} (above : (Subtree.unit tree).Below decl)
    (declares : decl.declaration? = some (name, params)) (nonempty : params.params ≠ [])
    (placeholders : ∀ param ∈ params.params, isPlaceholder param.name.text = true)
    (count : segmentCount name.text = params.params.length)
    {part : Subtree} {refName : Name} {list : TypeArgs} (below : (Subtree.unit tree).Below part)
    (applied : (refName, list) ∈ part.applied) (same : refName.text = name.text)
    (number : list.args.length = params.params.length)
    (each : ∀ arg ∈ list.args, arg.isPlaceholder = true ∨ arg.isUnbounded = true)
    (visited : ∀ param, (Subtree.unit tree).Below (.param param) →
      (Subtree.param param).Below part → Setting.Retains ⟨tokens, binding⟩ (.param param)) :
    ∃ slots inner declared new newDeclared,
      Subtree.Leads [] (.unit tree) part slots ∧ Subtree.Leads [] (.unit tree) decl inner ∧
      (params.params.map fun param => binding.told? (.param param)) = declared.map some ∧
      Setting.Carries ⟨tokens, binding⟩ (.unit tree) part refName slots (.template refName.text)
        (.args list) (binding.valuesOf (binding.inScope slots) list.args) new edits ∧
      Setting.Carries ⟨tokens, binding⟩ (.unit tree) decl name inner .alone (.params params) declared
        newDeclared edits ∧
      (binding.valuesOf (binding.inScope slots) list.args = declared → new = newDeclared ∧
        (Setting.rest ⟨tokens, binding⟩ slots (.template refName.text) (.args list)).length =
          (Setting.rest ⟨tokens, binding⟩ inner .alone (.params params)).length) := by
  have sound := parse_sound parsed
  have docs := parseTokens_docs (parse_ok parsed).2
  have positive : 0 < params.params.length := List.length_pos_iff.mpr nonempty
  have has : hasPlaceholder name.text = true := segmentCount_pos.mp (count ▸ positive)
  have filled : list.args ≠ [] := List.length_pos_iff.mp (number ▸ positive)
  obtain ⟨inner, declared, newDeclared, leadsDecl, told, spelled, carries⟩ :=
    @Setting.declaration_carries ⟨tokens, binding⟩ _ _ docs sound made _ _ _ above declares nonempty
      placeholders has count
  obtain ⟨slots, new, leads, spelledRef, carriesRef⟩ :=
    @Setting.template_carries ⟨tokens, binding⟩ _ _ docs sound made _ _ _ below applied (same ▸ has)
      (by rw [same, count, number]) filled each visited
  dsimp only at told spelledRef carriesRef
  -- Each name takes the values of its own list. That the values are the same is needed only from
  -- here on.
  refine ⟨slots, inner, declared, new, newDeclared, leads, leadsDecl, told, carriesRef, carries, ?_⟩
  intro equal
  rw [same, equal, spelled] at spelledRef
  refine ⟨(Option.some.inj spelledRef).symm, ?_⟩
  rw [carriesRef.arity, carries.arity, equal]

theorem edits_coherent_wildcard :
    ∃ tokens tree edits decl name params part refName list,
      parse "class KTypeVTypeMap<KType, VType> { KTypeVTypeMap<?, VType> next; }".toList =
          .ok (tokens, tree) ∧
        (Setting.edits ⟨tokens, ⟨.int, some .generic⟩⟩ tree).result = .ok edits ∧
        (Subtree.unit tree).Below decl ∧ decl.declaration? = some (name, params) ∧
        params.params ≠ [] ∧ (∀ param ∈ params.params, isPlaceholder param.name.text = true) ∧
        segmentCount name.text = params.params.length ∧
        (Subtree.unit tree).Below part ∧ (refName, list) ∈ part.applied ∧
        refName.text = name.text ∧ list.args.length = params.params.length ∧
        (∀ arg ∈ list.args, arg.isPlaceholder = true ∨ arg.isUnbounded = true) ∧
        (∃ arg ∈ list.args, arg.isUnbounded = true) ∧
        (∀ param, (Subtree.unit tree).Below (.param param) → (Subtree.param param).Below part →
          Setting.Retains ⟨tokens, ⟨.int, some .generic⟩⟩ (.param param)) ∧
        ⟨name.index, name.index + 1, "IntObjectMap".toList⟩ ∈ edits ∧
        ⟨refName.index, refName.index + 1, "IntObjectMap".toList⟩ ∈ edits ∧
        ∃ slots inner declared new newDeclared,
          Subtree.Leads [] (.unit tree) part slots ∧ Subtree.Leads [] (.unit tree) decl inner ∧
          (params.params.map fun param => Binding.told? ⟨.int, some .generic⟩ (.param param)) =
            declared.map some ∧
          Setting.Carries ⟨tokens, ⟨.int, some .generic⟩⟩ (.unit tree) part refName slots
            (.template refName.text) (.args list)
            (Binding.valuesOf ⟨.int, some .generic⟩ (Binding.inScope ⟨.int, some .generic⟩ slots) list.args)
            new edits ∧
          Setting.Carries ⟨tokens, ⟨.int, some .generic⟩⟩ (.unit tree) decl name inner .alone
            (.params params) declared newDeclared edits ∧
          (Binding.valuesOf ⟨.int, some .generic⟩ (Binding.inScope ⟨.int, some .generic⟩ slots) list.args =
            declared → new = newDeclared ∧
              (Setting.rest ⟨tokens, ⟨.int, some .generic⟩⟩ slots (.template refName.text)
                  (.args list)).length =
                (Setting.rest ⟨tokens, ⟨.int, some .generic⟩⟩ inner .alone (.params params)).length) := by
  -- The hypotheses are computed for this template; the conclusions are those of the general
  -- statement.
  obtain ⟨⟨tokens, tree⟩, parsed, passes⟩ := ok_of_any
    (show (parse "class KTypeVTypeMap<KType, VType> { KTypeVTypeMap<?, VType> next; }".toList).toOption.any
      (fun read => (Setting.edits ⟨read.1, ⟨.int, some .generic⟩⟩ read.2).result.toOption.any
        fun edits => (Subtree.unit read.2).children.any fun decl => decl.declaration?.any fun head =>
          !head.2.params.isEmpty && head.2.params.all (fun param => isPlaceholder param.name.text) &&
            segmentCount head.1.text == head.2.params.length &&
            edits.contains ⟨head.1.index, head.1.index + 1, "IntObjectMap".toList⟩ &&
            decl.children.any fun part => part.applied.any fun use => use.1.text == head.1.text &&
              use.2.args.length == head.2.params.length &&
              use.2.args.all (fun arg => arg.isPlaceholder || arg.isUnbounded) &&
              use.2.args.any TypeArg.isUnbounded &&
              edits.contains ⟨use.1.index, use.1.index + 1, "IntObjectMap".toList⟩) = true
      by decide +kernel)
  obtain ⟨edits, made, found⟩ := ok_of_any passes
  simp only [List.any_eq_true, Option.any_eq_true, Bool.and_eq_true, Bool.or_eq_true, Bool.not_eq_true',
    List.isEmpty_eq_false_iff, List.all_eq_true, beq_iff_eq, List.contains_iff_mem] at found
  obtain ⟨decl, top, ⟨name, params⟩, declares, ⟨⟨⟨nonempty, placeholders⟩, count⟩, declared⟩, part, step,
    ⟨refName, list⟩, applied, ⟨⟨⟨same, number⟩, each⟩, wild⟩, referred⟩ := found
  obtain ⟨field, rfl, -⟩ := Subtree.applied_ref applied
  have visited (param : TypeParam) (above : (Subtree.unit tree).Below (.param param))
      (around : (Subtree.param param).Below (.ref field)) :
      Setting.Retains ⟨tokens, ⟨.int, some .generic⟩⟩ (.param param) :=
    absurd around (Subtree.field_free (parse_sound parsed) top step .refl above)
  have above : (Subtree.unit tree).Below decl := .single top
  exact ⟨tokens, tree, edits, decl, name, params, _, refName, list, parsed, made, above, declares, nonempty,
    placeholders, count, above.tail step, applied, same, number, each, wild, visited, declared, referred,
    edits_coherent parsed made above declares nonempty placeholders count (above.tail step) applied same
      number each visited⟩

end Specializer
