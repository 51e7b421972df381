import Specializer.Proofs.Decoding
import Specializer.Proofs.Failures
import Specializer.Proofs.Renaming
import Specializer.Proofs.TypeName

set_option autoImplicit false

namespace Specializer

namespace Path

theorem splitOn_avoids (separator : Char) (text : List Char) :
    ∀ part ∈ splitOn separator text, separator ∉ part := by
  induction text with
  | nil => simp [splitOn]
  | cons c rest ih =>
    rw [splitOn]
    split
    next same => simpa using ih
    next other =>
      split
      next => simpa using Ne.symm other
      next first more cut =>
        rw [cut] at ih
        simp only [List.mem_cons, forall_eq_or_imp, not_or] at ih ⊢
        exact ⟨⟨Ne.symm other, ih.1⟩, ih.2⟩

theorem splitOn_plain {separator : Char} {text : List Char} (plain : separator ∉ text) :
    splitOn separator text = [text] := by
  induction text with
  | nil => rfl
  | cons c rest ih =>
    simp only [List.mem_cons, not_or] at plain
    rw [splitOn, if_neg (Ne.symm plain.1), ih plain.2]

theorem parse_plain {text : List Char} (plain : '/' ∉ text) :
    parse text = ⟨[], [text].filter isPart⟩ := by
  have relative : rootOf text = [] := by
    cases text with
    | nil => rfl
    | cons c rest =>
      simp only [List.mem_cons, not_or] at plain
      simp [rootOf, Ne.symm plain.1]
  rw [parse, relative, splitOn_plain plain]

theorem splitName_append (name : List Char) : (splitName name).1 ++ (splitName name).2 = name := by
  rw [splitName]
  split <;> simp

theorem name_mem {c : Char} {path : Path} (member : c ∈ path.name) :
    ∃ part ∈ path.parts, c ∈ part := by
  rw [name] at member
  cases last : path.parts.getLast? with
  | none => simp [last] at member
  | some part =>
    rw [last] at member
    exact ⟨part, List.mem_of_getLast? last, member⟩

theorem stem_mem {c : Char} {path : Path} (member : c ∈ path.stem) : c ∈ path.name := by
  rw [← splitName_append path.name]
  exact List.mem_append_left _ member

theorem suffix_mem {c : Char} {path : Path} (member : c ∈ path.suffix) : c ∈ path.name := by
  rw [← splitName_append path.name]
  exact List.mem_append_right _ member

theorem parse_name (text : List Char) : '/' ∉ (parse text).name := by
  intro member
  obtain ⟨part, inside, slash⟩ := name_mem member
  exact splitOn_avoids '/' text part (List.mem_filter.mp inside).1 slash

theorem join_plain {base : Path} {text other : List Char} (plain : '/' ∉ text)
    (plainToo : '/' ∉ other) (part : isPart text = true) (partToo : isPart other = true) :
    base.join (parse text) = base.join (parse other) ↔ text = other := by
  simp [parse_plain plain, parse_plain plainToo, join, part, partToo]

end Path

namespace Template

variable {source : List Char} {filename : String} {template : Template} {binding : Binding}

def slots (template : Template) : List Slot :=
  if template.slotCount < 2 then [.key] else [.key, .value]

def declared (template : Template) : List Slot :=
  ((template.primaryType.bind TopType.params).map TypeParams.declared).getD []

def order (template : Template) : List Slot :=
  template.declared ++ template.slots.filter fun slot => !template.declared.contains slot

def baseName (template : Template) (path : Path) : List Char :=
  (template.primaryType.map fun type => type.name.text).getD path.stem

/-- How many values the name takes. -/
def places (template : Template) (path : Path) : Nat := segmentCount (template.baseName path)

theorem outermost_order (fits : template.Fits binding) :
    (Scope.outermost binding).order = template.slots := by
  rw [Scope.outermost, slots]
  rw [Fits] at fits
  by_cases two : 2 ≤ template.slotCount
  next => simp [fits.mpr two, Nat.not_lt.mpr two]
  next =>
    have free : binding.value.isSome = false := Bool.eq_false_iff.mpr (mt fits.mp two)
    simp [free, Nat.lt_of_not_le two]

theorem mem_slots (fits : template.Fits binding) {slot : Slot} :
    slot ∈ template.slots ↔ (binding.get? slot).isSome = true := by
  rw [← outermost_order fits, Binding.mem_outermost]

theorem declared_mentioned (read : Template.read source filename = .ok template) {slot : Slot}
    (member : slot ∈ template.declared) : Mentioned template.tokens slot := by
  cases primary : template.primaryType with
  | none => simp [declared, primary] at member
  | some type =>
    obtain ⟨range, keyword, supertypes, members, inTree⟩ := primaryType_declared primary
    cases list : type.params with
    | none => simp [declared, primary, list] at member
    | some params =>
      simp only [declared, primary, list, Option.bind_some, Option.map_some, Option.getD_some] at member
      rw [list] at inTree
      obtain ⟨param, found, named⟩ := List.mem_filterMap.mp member
      have whole : Anchored template.tokens (.unit template.tree) (.unit template.tree) :=
        parse_anchored (read_ok read).2
      have type : Anchored template.tokens (.unit template.tree)
          (.typeDecl range keyword type.name (some params) supertypes members) :=
        whole.child (@Subtree.member_child (.unit _) _ inTree)
      have list : Anchored template.tokens (.unit template.tree) (.params params) :=
        type.child (Subtree.params_child rfl)
      have own : Anchored template.tokens (.unit template.tree) (.param param) :=
        list.child (List.mem_map_of_mem found)
      exact (own.here.placed.stands param.name List.mem_cons_self).mentions named

theorem declared_slots (read : Template.read source filename = .ok template) {slot : Slot}
    (member : slot ∈ template.declared) : slot ∈ template.slots := by
  rw [slots]
  rcases slotCount_mentioned template with ⟨-, two⟩ | ⟨free, one⟩
  next => cases slot <;> simp [two]
  next =>
    cases slot with
    | key => simp [one]
    | value => exact absurd (declared_mentioned read member) free

def nameScope (template : Template) (binding : Binding) : Scope Slot :=
  (Scope.outermost binding).inside (template.primaryType.bind TopType.params)

theorem nameScope_order (read : Template.read source filename = .ok template)
    (fits : template.Fits binding) : (template.nameScope binding).order = template.order := by
  have bound : ∀ slot ∈ template.declared, (binding.get? slot).isSome = true := by
    intro slot member
    exact (mem_slots fits).mp (declared_slots read member)
  have follows := Scope.outermost_follows.inside bound
  rw [nameScope, follows.order, Binding.order, outermost_order fits, order]
  rw [declared]
  split
  next none => rw [none]
  next => rfl

theorem order_bound (read : Template.read source filename = .ok template)
    (fits : template.Fits binding) : ∀ slot ∈ template.order, (binding.get? slot).isSome = true := by
  intro slot member
  rw [← mem_slots fits]
  rcases List.mem_append.mp member with own | other
  next => exact declared_slots read own
  next => exact (List.mem_filter.mp other).1

theorem nameScope_values (read : Template.read source filename = .ok template)
    (fits : template.Fits binding) :
    ∃ values, (template.nameScope binding).values binding = .ok values ∧
      template.order.map binding.get? = values.map some := by
  cases made : (template.nameScope binding).values binding with
  | ok values => exact ⟨values, rfl, nameScope_order read fits ▸ Scope.values_bound made⟩
  | error fault =>
    obtain ⟨slot, member, missing⟩ := mapM_eq_error made
    have bound := order_bound read fits slot (nameScope_order read fits ▸ member)
    rw [Binding.get] at missing
    split at missing
    next => cases missing
    next none => simp [none] at bound

def outputName (template : Template) (path : Path) (values : List SlotType) : List Char :=
  (substituteInOrder (template.baseName path) values).getD (template.baseName path)

theorem nameIn_ok {scope : Scope Slot} {values : List SlotType}
    (made : scope.values binding = .ok values) (name : List Char) :
    nameIn scope binding name = .ok ((substituteInOrder name values).getD name) := by
  rw [nameIn, made]
  rfl

theorem outputPath_named (read : Template.read source filename = .ok template)
    (fits : template.Fits binding) (path sourceRoot outputRoot : Path) :
    ∃ values, template.order.map binding.get? = values.map some ∧
      outputPath template binding path sourceRoot outputRoot =
        .ok ((outputRoot.join ((path.parent.relativeTo? sourceRoot).getD .here)).join
          (Path.parse (template.outputName path values ++ path.suffix))) := by
  obtain ⟨values, made, bound⟩ := nameScope_values read fits
  rw [nameScope] at made
  refine ⟨values, bound, ?_⟩
  rw [outputPath, typeName, Binding.check_ok.mpr fits, outputName, baseName]
  cases primary : template.primaryType with
  | none =>
    rw [primary] at made
    have named : nameIn (Scope.outermost binding) binding path.stem = _ := nameIn_ok made path.stem
    simp only [Option.isSome_none, Bool.false_eq_true, if_false, named]
    rfl
  | some type =>
    rw [primary] at made
    have named := nameIn_ok made type.name.text
    simp only [Option.bind_some] at named
    simp only [Option.isSome_some, if_true, named]
    rfl

theorem baseName_mem (read : Template.read source filename = .ok template) (path : Path) :
    ∀ c ∈ template.baseName path, isIdentPart c = true ∨ c ∈ path.name := by
  intro c member
  rw [baseName] at member
  cases primary : template.primaryType with
  | none =>
    rw [primary] at member
    exact .inr (Path.stem_mem member)
  | some type =>
    rw [primary] at member
    obtain ⟨range, keyword, supertypes, members, inTree⟩ := primaryType_declared primary
    have whole := parse_anchored (read_ok read).2
    have declared := whole.child (Subtree.member_child inTree)
    have stands : type.name.Stands (lexemesOf template.tokens) :=
      declared.here.placed.stands type.name (List.mem_cons_of_mem _ List.mem_cons_self)
    obtain ⟨token, there, same⟩ := lexemesOf_some stands
    have word : IsWord type.name.text := by
      apply Lexer.Whole.word
      rw [← same]
      exact tokenize_whole (parse_ok (read_ok read).2).1 (List.mem_of_getElem? there)
    exact .inl (word.letters.2 c member)

theorem outputName_mem (read : Template.read source filename = .ok template) (path : Path)
    (values : List SlotType) :
    ∀ c ∈ template.outputName path values, isIdentPart c = true ∨ c ∈ path.name := by
  have base := baseName_mem read path
  cases made : substituteInOrder (template.baseName path) values with
  | none => simpa [outputName, made] using base
  | some new =>
    have filled : Filled (pieces (template.baseName path)) new := fillInOrder_filled made
    have types : ∀ type : SlotType, ∀ c ∈ type.capitalized.toList,
        (isIdentPart c || path.name.contains c) = true := by
      intro type c member
      simp [DocText.capitalized_ident type c member]
    have passes := filled.all types (by simpa using base)
    simpa [outputName, made] using passes

theorem outputName_plain (read : Template.read source filename = .ok template) (text : List Char)
    (values : List SlotType) :
    '/' ∉ template.outputName (Path.parse text) values ++ (Path.parse text).suffix := by
  intro slash
  have apart := Path.parse_name text
  rcases List.mem_append.mp slash with own | rest
  next =>
    rcases outputName_mem read _ values '/' own with word | inName
    next => exact absurd word (by decide)
    next => exact apart inName
  next => exact apart (Path.suffix_mem rest)

theorem outputName_part {path : Path} {values : List SlotType} {new : List Char}
    (named : 0 < template.places path)
    (made : substituteInOrder (template.baseName path) values = some new) (suffix : List Char) :
    Path.isPart (new ++ suffix) = true := by
  have long : 2 * template.places path ≤ new.length := (fillInOrder_filled made).length
  have two : 2 ≤ (new ++ suffix).length := by
    rw [List.length_append]
    omega
  simp only [Path.isPart, Bool.and_eq_true, Bool.not_eq_true', List.isEmpty_eq_false_iff, bne_iff_ne]
  constructor
  next =>
    intro empty
    simp [empty] at two
  next =>
    intro dot
    simp [dot] at two

theorem outputName_filled {path : Path} {values : List SlotType}
    (enough : template.places path ≤ values.length) :
    ∃ new, substituteInOrder (template.baseName path) values = some new ∧
      template.outputName path values = new := by
  have isSome := substituteInOrder_isSome (template.baseName path) values
  rw [← places, decide_eq_true enough] at isSome
  obtain ⟨new, made⟩ := Option.isSome_iff_exists.mp isSome
  exact ⟨new, made, by rw [outputName, made, Option.getD_some]⟩

theorem join_outputName_iff (read : Template.read source filename = .ok template) (base : Path)
    {text : List Char} {first second : List SlotType}
    (enough : template.places (Path.parse text) ≤ first.length)
    (enoughToo : template.places (Path.parse text) ≤ second.length) :
    base.join (Path.parse (template.outputName (Path.parse text) first ++ (Path.parse text).suffix)) =
        base.join
          (Path.parse (template.outputName (Path.parse text) second ++ (Path.parse text).suffix)) ↔
      first.take (template.places (Path.parse text)) =
        second.take (template.places (Path.parse text)) := by
  obtain ⟨new, made, named⟩ := outputName_filled enough
  obtain ⟨other, madeToo, namedToo⟩ := outputName_filled enoughToo
  have names : new = other ↔ first.take (template.places (Path.parse text)) =
      second.take (template.places (Path.parse text)) := substituteInOrder_eq_iff made madeToo
  have plain := outputName_plain read text first
  have plainToo := outputName_plain read text second
  rw [named] at plain ⊢
  rw [namedToo] at plainToo ⊢
  by_cases some : 0 < template.places (Path.parse text)
  next =>
    rw [Path.join_plain plain plainToo (outputName_part some made _) (outputName_part some madeToo _),
      List.append_cancel_right_eq, names]
  next =>
    -- A name without places is the same under all bindings, whether or not it is a part of a path.
    have zero : template.places (Path.parse text) = 0 := by omega
    rw [zero] at names ⊢
    simp [names.mpr rfl]

theorem outputName_short {path : Path} {values : List SlotType}
    (short : values.length < template.places path) :
    template.outputName path values = template.baseName path := by
  have isSome := substituteInOrder_isSome (template.baseName path) values
  rw [← places, decide_eq_false (Nat.not_le.mpr short), Option.isSome_eq_false_iff, Option.isNone_iff_eq_none]
    at isSome
  rw [outputName, isSome, Option.getD_none]

theorem order_perm (read : Template.read source filename = .ok template)
    (distinct : template.declared.Nodup) : template.order.Perm template.slots := by
  have slotsDistinct : template.slots.Nodup := by
    rw [slots]
    split <;> decide
  have orderDistinct : template.order.Nodup := by
    rw [order, List.nodup_append]
    refine ⟨distinct, slotsDistinct.filter _, ?_⟩
    intro own member other behind same
    simp [← same, member] at behind
  rw [List.perm_ext_iff_of_nodup orderDistinct slotsDistinct]
  intro slot
  rw [order, List.mem_append, List.mem_filter]
  by_cases own : slot ∈ template.declared
  next => simp [own, declared_slots read own]
  next => simp [own]

theorem slots_length (template : Template) : template.slots.length = template.slotCount := by
  rw [slots]
  rcases slotCount_mentioned template with ⟨-, two⟩ | ⟨-, one⟩
  next => simp [two]
  next => simp [one]

theorem Fits.eq_of_slots {first second : Binding} (fits : template.Fits first)
    (fitsToo : template.Fits second)
    (same : ∀ slot ∈ template.slots, first.get? slot = second.get? slot) : first = second := by
  have each : ∀ slot, first.get? slot = second.get? slot := by
    intro slot
    by_cases member : slot ∈ template.slots
    next => exact same slot member
    next =>
      have unbound := mt (mem_slots fits).mpr member
      have unboundToo := mt (mem_slots fitsToo).mpr member
      rw [Option.not_isSome_iff_eq_none] at unbound unboundToo
      rw [unbound, unboundToo]
  have key : first.key = second.key := Option.some.inj (each .key)
  have value : first.value = second.value := each .value
  cases first
  cases second
  rw [Binding.mk.injEq]
  exact ⟨key, value⟩

/-- Which bindings share an output. The name of the output takes the first slots in the order of the
primary type. If there are as many as it takes, two bindings share an output exactly if they agree on
these; if there are fewer, all bindings share one. So no two do if the name takes as many as there are
slots and the type declares no slot twice. -/
theorem outputPath_shared (read : Template.read source filename = .ok template) (text : List Char)
    (sourceRoot outputRoot : Path) {first second : Binding} (fits : template.Fits first)
    (fitsToo : template.Fits second) :
    ∃ out other, outputPath template first (Path.parse text) sourceRoot outputRoot = .ok out ∧
      outputPath template second (Path.parse text) sourceRoot outputRoot = .ok other ∧
      (template.places (Path.parse text) ≤ template.order.length →
        (out = other ↔
          (template.order.take (template.places (Path.parse text))).map first.get? =
            (template.order.take (template.places (Path.parse text))).map second.get?)) ∧
      (template.order.length < template.places (Path.parse text) → out = other) ∧
      (template.places (Path.parse text) = template.slotCount → template.declared.Nodup →
        first ≠ second → out ≠ other) := by
  obtain ⟨values, bound, named⟩ := outputPath_named read fits (Path.parse text) sourceRoot outputRoot
  obtain ⟨others, boundToo, namedToo⟩ :=
    outputPath_named read fitsToo (Path.parse text) sourceRoot outputRoot
  have length : template.order.length = values.length := by simpa using congrArg List.length bound
  have lengthToo : template.order.length = others.length := by
    simpa using congrArg List.length boundToo
  refine ⟨_, _, named, namedToo, ?_⟩
  -- Both outputs lie in one directory, so they are the same if their names are.
  have agree (enough : template.places (Path.parse text) ≤ template.order.length) :=
    join_outputName_iff read (outputRoot.join (((Path.parse text).parent.relativeTo?
      sourceRoot).getD .here)) (length ▸ enough) (lengthToo ▸ enough)
  have taken (count : Nat) : values.take count = others.take count ↔
      (template.order.take count).map first.get? = (template.order.take count).map second.get? := by
    rw [List.map_take, List.map_take, bound, boundToo, ← List.map_take, ← List.map_take]
    exact (List.map_inj_right fun _ _ => Option.some.inj).symm
  constructor
  next =>
    intro enough
    rw [agree enough, taken]
  constructor
  next =>
    intro short
    rw [outputName_short (length ▸ short), outputName_short (lengthToo ▸ short)]
  next =>
    intro one distinct different
    -- The type declares every slot of the template once, so agreeing on its order is agreeing on
    -- all.
    have perm := order_perm read distinct
    have whole : template.places (Path.parse text) = template.order.length := by
      rw [one, ← slots_length, perm.length_eq]
    rw [ne_eq, agree (Nat.le_of_eq whole), taken, whole, List.take_length, List.map_inj_left]
    intro same
    apply different
    exact fits.eq_of_slots fitsToo fun slot member => same slot (perm.mem_iff.mpr member)

-- The name takes one of two slots, and the first is the one declared first.
theorem outputPath_shared_swapped :
    ∃ template, Template.read "class KTypeSet<VType, KType> { }".toList "A.java" = .ok template ∧
      template.Fits ⟨.int, some .long⟩ ∧ template.Fits ⟨.byte, some .long⟩ ∧
      template.Fits ⟨.int, some .byte⟩ ∧
      ∃ out other, outputPath template ⟨.int, some .long⟩ (.ofString "src/A.java") .here .here = .ok out ∧
        outputPath template ⟨.byte, some .long⟩ (.ofString "src/A.java") .here .here = .ok out ∧
        outputPath template ⟨.int, some .byte⟩ (.ofString "src/A.java") .here .here = .ok other ∧
        out ≠ other := by
  obtain ⟨template, read, passes⟩ := ok_of_any
    (show (Template.read "class KTypeSet<VType, KType> { }".toList "A.java").toOption.any
      (fun template => decide (template.slotCount = 2) && decide (template.order = [.value, .key]) &&
        decide (template.places (.ofString "src/A.java") = 1)) = true by decide +kernel)
  simp only [Bool.and_eq_true, decide_eq_true_eq] at passes
  obtain ⟨⟨two, order⟩, one⟩ := passes
  have fits (key value : SlotType) : template.Fits ⟨key, some value⟩ := by simp [Fits, two]
  obtain ⟨out, same, made, madeToo, shared, -⟩ := outputPath_shared read "src/A.java".toList .here .here
    (fits .int .long) (fits .byte .long)
  obtain ⟨again, other, remade, madeOther, apart, -⟩ := outputPath_shared read "src/A.java".toList
    .here .here (fits .int .long) (fits .int .byte)
  rw [made] at remade
  cases remade
  have enough : template.places (.ofString "src/A.java") ≤ template.order.length := by
    rw [one, order]
    decide
  have agree := shared enough
  have disagree := apart enough
  rw [← Path.ofString, one, order] at agree disagree
  refine ⟨template, read, fits _ _, fits _ _, fits _ _, out, other, made, ?_, madeOther, ?_⟩
  next =>
    rw [agree.mpr (by decide)]
    exact madeToo
  next => exact mt disagree.mp (by decide)

end Template

end Specializer
