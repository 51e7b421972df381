import Mathlib.Data.List.Flatten
import Mathlib.Data.List.Infix
import Mathlib.Data.List.Nodup
import Specializer.CommandLine.Run
import Specializer.Proofs.Decoding
import Specializer.Proofs.Searches

set_option autoImplicit false

namespace Specializer

section Cutting

variable {p : Char → Bool} {front word behind : List Char}

theorem stripBy_splits (p : Char → Bool) (text : List Char) :
    ∃ front behind, text = front ++ stripBy p text ++ behind ∧ (∀ c ∈ front, p c = true) ∧
      ∀ c ∈ behind, p c = true := by
  have left := List.takeWhile_append_dropWhile (p := p) (l := text)
  have right := List.takeWhile_append_dropWhile (p := p) (l := (text.dropWhile p).reverse)
  have cut := congrArg List.reverse right
  rw [List.reverse_append, List.reverse_reverse] at cut
  refine ⟨text.takeWhile p, ((text.dropWhile p).reverse.takeWhile p).reverse, ?_, ?_, ?_⟩
  · rw [stripBy, List.append_assoc, cut, left]
  · exact fun c member => List.mem_takeWhile_imp member
  · exact fun c member => List.mem_takeWhile_imp (List.mem_reverse.mp member)

theorem dropWhile_front (blank : ∀ c ∈ front, p c = true) {c : Char} (solid : p c = false)
    (rest : List Char) : (front ++ c :: rest).dropWhile p = c :: rest := by
  rw [List.dropWhile_append_of_pos blank, List.dropWhile_cons_of_neg (by simp [solid])]

theorem stripBy_solid (before : ∀ c ∈ front, p c = true) (after : ∀ c ∈ behind, p c = true)
    (solid : ∀ c ∈ word, p c = false) (present : word ≠ []) :
    stripBy p (front ++ word ++ behind) = word := by
  obtain ⟨first, rest, rfl⟩ := List.exists_cons_of_ne_nil present
  have left : (front ++ (first :: rest) ++ behind).dropWhile p = first :: rest ++ behind := by
    rw [List.append_assoc, List.cons_append, dropWhile_front before (solid first List.mem_cons_self)]
  obtain ⟨last, tail, back⟩ := List.exists_cons_of_ne_nil (List.reverse_ne_nil_iff.mpr present)
  have ends : p last = false := solid last (List.mem_reverse.mp (back ▸ List.mem_cons_self))
  rw [stripBy, left, List.reverse_append, back,
    dropWhile_front (fun c member => after c (List.mem_reverse.mp member)) ends, ← back,
    List.reverse_reverse]

theorem splitOn_eq (separator : Char) (text : List Char) :
    splitOn separator text = text.splitOn separator := by
  induction text with
  | nil => rfl
  | cons c rest ih =>
    rw [splitOn, ih]
    simp only [List.splitOn, List.splitOnP_cons_eq_if_modifyHead, beq_iff_eq]
    split
    next => rfl
    next =>
      cases cut : rest.splitOnP (· == separator) with
      | nil => exact absurd cut (List.splitOnP_ne_nil _ _)
      | cons first more => rfl

end Cutting

section Order

variable {α : Type} [BEq α] [LawfulBEq α]

theorem eraseDups_order (items : List α) :
    items.eraseDups.Pairwise fun a b => ∃ front, front <+: items ∧ a ∈ front ∧ b ∉ front := by
  -- On the length: the rest is cleared of the first element before it is gone through.
  induction size : items.length using Nat.strongRecOn generalizing items with
  | _ size ih =>
    subst size
    cases items with
    | nil => exact .nil
    | cons first rest =>
      have others := ih _ (Nat.lt_succ_of_le (List.length_filter_le _ _))
        (rest.filter fun other => !other == first) rfl
      rw [List.eraseDups_cons, List.pairwise_cons]
      constructor
      next =>
        intro other member
        have kept := (List.mem_filter.mp (List.mem_eraseDups.mp member)).2
        refine ⟨[first], List.cons_prefix_cons.mpr ⟨rfl, List.nil_prefix⟩, List.mem_singleton_self _, ?_⟩
        simpa using kept
      next =>
        refine others.imp_of_mem ?_
        rintro a b - last ⟨front, starts, inside, outside⟩
        obtain ⟨whole, begins, rfl⟩ := List.prefix_filter_iff.mp starts
        have kept := (List.mem_filter.mp (List.mem_eraseDups.mp last)).2
        refine ⟨first :: whole, List.cons_prefix_cons.mpr ⟨rfl, begins⟩, ?_, ?_⟩
        · exact List.mem_cons_of_mem _ (List.mem_filter.mp inside).1
        · rw [List.mem_cons, not_or]
          exact ⟨by simpa using kept, fun there => outside (List.mem_filter.mpr ⟨there, kept⟩)⟩

theorem eraseDups_nodup (items : List α) : items.eraseDups.Nodup := by
  refine (eraseDups_order items).imp ?_
  rintro a _ ⟨front, -, inside, outside⟩ rfl
  exact outside inside

end Order

namespace SlotType

def names (type : SlotType) : List String :=
  type.name :: if type.isGeneric then ["object"] else []

def AsksFor (text : List Char) (type : SlotType) : Prop :=
  ∃ front word behind, text = front ++ word ++ behind ∧ (∀ c ∈ front, isBlank c = true) ∧
    (∀ c ∈ behind, isBlank c = true) ∧ String.ofList (word.map Char.toLower) ∈ type.names

theorem toLower_blank {c : Char} (blank : isBlank c = true) : c.toLower = c := by
  refine dif_neg fun capital => ?_
  have low : 65 ≤ c.toNat := capital.1
  have high : c.toNat ≤ 90 := capital.2
  simp only [isBlank, Bool.or_eq_true, Bool.and_eq_true, decide_eq_true_eq, beq_iff_eq] at blank
  omega

theorem names_solid {type : SlotType} {name : String} (member : name ∈ type.names) :
    name.toList ≠ [] ∧ ∀ c ∈ name.toList, isBlank c = false := by
  have each : (SlotType.all.all fun type => type.names.all fun name =>
      !name.toList.isEmpty && name.toList.all fun c => !isBlank c) = true := by decide
  simpa using List.all_eq_true.mp (List.all_eq_true.mp each type type.mem_all) name member

theorem mem_names {key : String} {type : SlotType} :
    key ∈ type.names ↔
      (if key == "object" then some generic else all.find? fun type => type.name == key) =
        some type := by
  constructor
  next =>
    have each : (SlotType.all.all fun type => type.names.all fun key =>
        (if key == "object" then some generic else all.find? fun type => type.name == key) ==
          some type) = true := by decide
    intro named
    exact eq_of_beq (List.all_eq_true.mp (List.all_eq_true.mp each type type.mem_all) key named)
  next =>
    intro found
    split at found
    next object =>
      cases found
      rw [eq_of_beq object]
      decide
    next =>
      have same := List.find?_some found
      rw [← eq_of_beq same]
      exact List.mem_cons_self

theorem ofName?_eq_some {text : List Char} {type : SlotType} :
    ofName? (String.ofList text) = some type ↔ AsksFor text type := by
  rw [ofName?, String.toList_ofList, ← mem_names]
  constructor
  next =>
    intro named
    obtain ⟨front, behind, cut, before, after⟩ := stripBy_splits isBlank text
    exact ⟨front, _, behind, cut, before, after, named⟩
  next =>
    rintro ⟨front, word, behind, rfl, before, after, named⟩
    obtain ⟨present, letters⟩ := names_solid named
    rw [String.toList_ofList] at present letters
    have solid : ∀ c ∈ word, isBlank c = false := by
      intro c member
      have letter := letters _ (List.mem_map_of_mem member)
      by_contra blank
      rw [toLower_blank (eq_true_of_ne_false blank)] at letter
      exact blank letter
    rwa [strip, stripBy_solid before after solid fun none => present (by rw [none]; rfl)]

theorem parse_eq_ok {text : List Char} {type : SlotType} :
    parse (String.ofList text) = .ok type ↔ AsksFor text type := by
  rw [← ofName?_eq_some, parse]
  cases ofName? (String.ofList text) <;> simp

theorem parse_eq_error {text : List Char} {fault : Fault} :
    parse (String.ofList text) = .error fault ↔
      (∀ type, ¬ AsksFor text type) ∧ fault = .unknownType (String.ofList text) := by
  simp only [← ofName?_eq_some, parse]
  cases ofName? (String.ofList text) <;> simp [eq_comm]

theorem AsksFor.unique {text : List Char} {first second : SlotType} (one : AsksFor text first)
    (other : AsksFor text second) : first = second := by
  rw [← parse_eq_ok] at one other
  rw [one] at other
  exact Except.ok.inj other

/-- The types that texts ask for, each once, in the order in which they are first asked for. -/
structure Listed (texts : List (List Char)) (types : List SlotType) : Prop where
  known : ∀ text ∈ texts, ∃ type, AsksFor text type
  distinct : types.Nodup
  asked : ∀ type, type ∈ types ↔ ∃ text ∈ texts, AsksFor text type
  ordered : types.Pairwise fun first second => ∃ front, front <+: texts ∧
    (∃ text ∈ front, AsksFor text first) ∧ ∀ text ∈ front, ¬ AsksFor text second

/-- The first of the texts that asks for no type. -/
def FirstUnknown (texts : List (List Char)) (text : List Char) : Prop :=
  ∃ before after, texts = before ++ text :: after ∧
    (∀ other ∈ before, ∃ type, AsksFor other type) ∧ ∀ type, ¬ AsksFor text type

theorem listed_map {texts : List (List Char)} {typeOf : List Char → SlotType}
    (asks : ∀ text ∈ texts, AsksFor text (typeOf text)) : Listed texts (distinct (texts.map typeOf)) where
  known text member := ⟨_, asks text member⟩
  distinct := eraseDups_nodup _
  asked type := by
    rw [distinct, List.mem_eraseDups, List.mem_map]
    refine exists_congr fun text => and_congr_right fun member => ?_
    exact ⟨fun same => same ▸ asks text member, (asks text member).unique⟩
  ordered := by
    refine (eraseDups_order (texts.map typeOf)).imp ?_
    rintro first second ⟨_, starts, inside, outside⟩
    obtain ⟨front, begins, rfl⟩ := List.prefix_map_iff.mp starts
    obtain ⟨text, member, rfl⟩ := List.mem_map.mp inside
    refine ⟨front, begins, ⟨text, member, asks text (begins.subset member)⟩, ?_⟩
    intro other there asked
    exact outside (List.mem_map.mpr ⟨other, there, (asks other (begins.subset there)).unique asked⟩)

theorem parseAll_map (texts : List (List Char)) :
    parseAll (texts.map String.ofList) =
      distinct <$> texts.mapM fun text => parse (String.ofList text) := by
  rw [parseAll, List.mapM_map, Function.comp_def]

theorem parseAll_cases (texts : List (List Char)) :
    (∃ types, Listed texts types ∧ parseAll (texts.map String.ofList) = .ok types) ∨
      ∃ text, FirstUnknown texts text ∧
        parseAll (texts.map String.ofList) = .error (.unknownType (String.ofList text)) := by
  rw [parseAll_map]
  cases read : texts.mapM fun text => parse (String.ofList text) with
  | error fault =>
    obtain ⟨before, text, after, cut, known, failed⟩ := mapM_error_iff.mp read
    obtain ⟨unknown, rfl⟩ := parse_eq_error.mp failed
    refine .inr ⟨text, ⟨before, after, cut, fun other member => ?_, unknown⟩, rfl⟩
    obtain ⟨type, parsed⟩ := known other member
    exact ⟨type, parse_eq_ok.mp parsed⟩
  | ok found =>
    obtain ⟨typeOf, asks⟩ : ∃ typeOf : List Char → SlotType, ∀ text ∈ texts, AsksFor text (typeOf text) := by
      refine ⟨fun text => (ofName? (String.ofList text)).getD .generic, fun text member => ?_⟩
      obtain ⟨type, -, parsed⟩ := exists_of_forall₂ (mapM_eq_ok read).flip member
      have asks := parse_eq_ok.mp parsed
      dsimp only
      rwa [ofName?_eq_some.mpr asks]
    have each : (texts.mapM fun text => parse (String.ofList text)) = .ok (texts.map typeOf) :=
      mapM_ok fun text member => parse_eq_ok.mpr (asks text member)
    rw [read] at each
    cases each
    exact .inl ⟨_, listed_map asks, rfl⟩

end SlotType

section Bindings

variable {slotCount : Nat} {keyTypes valueTypes : List SlotType}

theorem mem_bindings {binding : Binding} :
    binding ∈ bindings slotCount keyTypes valueTypes ↔ binding.key ∈ keyTypes ∧
      if slotCount < 2 then binding.value = none else ∃ type ∈ valueTypes, binding.value = some type := by
  obtain ⟨key, value⟩ := binding
  rw [bindings]
  split
  next => simp [eq_comm]
  next => simp [eq_comm]

theorem bindings_nodup (keys : keyTypes.Nodup) (values : valueTypes.Nodup) :
    (bindings slotCount keyTypes valueTypes).Nodup := by
  rw [bindings]
  split
  next => exact keys.map fun first second same => congrArg Binding.key same
  next =>
    refine List.nodup_flatMap.mpr ⟨fun key _ => ?_, keys.imp fun differ => ?_⟩
    · exact values.map fun first second same => Option.some.inj (congrArg Binding.value same)
    · refine List.disjoint_left.mpr fun binding first second => ?_
      obtain ⟨_, -, rfl⟩ := List.mem_map.mp first
      obtain ⟨_, -, same⟩ := List.mem_map.mp second
      exact differ (congrArg Binding.key same).symm

end Bindings

theorem mapM_mapError {α β ε ε' : Type} {f : α → Except ε β} {g : ε → ε'} (items : List α) :
    (items.mapM fun item => (f item).mapError g) = (items.mapM f).mapError g := by
  induction items with
  | nil => rfl
  | cons item rest ih =>
    rw [List.mapM_cons, List.mapM_cons, ih]
    cases f item with
    | error fault => rfl
    | ok value => cases rest.mapM f <;> rfl

theorem Manifest.typesOf_texts {path : Path} {entries : Table} {key : String} {texts : List (List Char)}
    (present : texts ≠ []) (given : entries.find? key = some (.list (texts.map .text))) :
    typesOf path entries key =
      (SlotType.parseAll (texts.map String.ofList)).mapError fun fault =>
        .rejected (.badManifest path.description fault.message) := by
  have single (text : List Char) : typeOf path (.text text) =
      (SlotType.parse (String.ofList text)).mapError fun fault =>
        .rejected (.badManifest path.description fault.message) := if_pos rfl
  have each : (texts.map Datum.text).mapM (typeOf path) =
      (texts.mapM fun text => SlotType.parse (String.ofList text)).mapError fun fault =>
        .rejected (.badManifest path.description fault.message) := by
    simp only [List.mapM_map, Function.comp_def, single, mapM_mapError]
  obtain ⟨text, more, rfl⟩ := List.exists_cons_of_ne_nil present
  rw [List.map_cons] at given each
  rw [typesOf, given]
  dsimp only
  rw [each, SlotType.parseAll_map]
  cases (text :: more).mapM fun text => SlotType.parse (String.ofList text) <;> rfl

/-- Texts that commas can join and part again: there are some, none is blank, and none has a comma. -/
structure Joinable (texts : List (List Char)) : Prop where
  present : texts ≠ []
  visible : ∀ text ∈ texts, ∃ c ∈ text, isBlank c = false
  plain : ∀ text ∈ texts, ',' ∉ text

theorem CommandLine.typeList_joined {texts : List (List Char)} (joinable : Joinable texts) :
    typeList (some (List.intercalate [','] texts)) = SlotType.parseAll (texts.map String.ofList) := by
  have apart : splitOn ',' (List.intercalate [','] texts) = texts := by
    rw [splitOn_eq, List.splitOn_intercalate ',' joinable.plain joinable.present]
  have kept : texts.filter (fun text => !(strip text).isEmpty) = texts := by
    refine List.filter_eq_self.mpr fun text member => ?_
    obtain ⟨c, inside, visible⟩ := joinable.visible text member
    obtain ⟨front, behind, cut, before, after⟩ := stripBy_splits isBlank text
    cases word : stripBy isBlank text with
    | nil =>
      rw [cut, word, List.append_nil, List.mem_append] at inside
      have blank := inside.elim (before c) (after c)
      rw [visible] at blank
      cases blank
    | cons first rest => rw [strip, word]; rfl
  rw [typeList, apart, kept]

theorem unknownType_message (name : String) :
    (Fault.unknownType name).message = "unknown type '" ++ name ++ "' (expected one of: " ++
      String.intercalate ", " (SlotType.all.map SlotType.name) ++ ")" := by
  simp [Fault.message, Fault.code, Fault.span, located, Code.fill, Code.entry, Fault.args, Part.fill,
    String.join, Argument.plain, List.lookup_cons]

/-- Texts as a list in a manifest and the same texts joined by commas on the command line. Both give the types
that the texts ask for, each once and in the order in which they are first asked for, or both fail and name the
first text that asks for none. Under the types of two such lists each pair of them is bound once. -/
theorem typeLists_agree {texts : List (List Char)} (joinable : Joinable texts) :
    (∀ (path : Path) (entries : Table) (key : String),
      entries.find? key = some (.list (texts.map .text)) →
      (∃ types, SlotType.Listed texts types ∧ Manifest.typesOf path entries key = .ok types ∧
        CommandLine.typeList (some (List.intercalate [','] texts)) = .ok types) ∨
      ∃ text, SlotType.FirstUnknown texts text ∧
        Manifest.typesOf path entries key = .error (.rejected (.badManifest path.description
          ("unknown type '" ++ String.ofList text ++ "' (expected one of: " ++
            String.intercalate ", " (SlotType.all.map SlotType.name) ++ ")"))) ∧
        CommandLine.typeList (some (List.intercalate [','] texts)) =
          .error (.unknownType (String.ofList text))) ∧
    ∀ (others : List (List Char)) (keyTypes valueTypes : List SlotType) (slotCount : Nat),
      SlotType.Listed texts keyTypes → SlotType.Listed others valueTypes →
      (bindings slotCount keyTypes valueTypes).Nodup ∧
      ∀ binding, binding ∈ bindings slotCount keyTypes valueTypes ↔ binding.key ∈ keyTypes ∧
        if slotCount < 2 then binding.value = none
        else ∃ type ∈ valueTypes, binding.value = some type := by
  constructor
  next =>
    intro path entries key given
    rw [Manifest.typesOf_texts joinable.present given, CommandLine.typeList_joined joinable]
    rcases SlotType.parseAll_cases texts with ⟨types, listed, read⟩ | ⟨text, unknown, failed⟩
    next =>
      rw [read]
      exact .inl ⟨types, listed, rfl, rfl⟩
    next =>
      rw [failed]
      refine .inr ⟨text, unknown, ?_, rfl⟩
      rw [← unknownType_message]
      rfl
  next =>
    intro others keyTypes valueTypes slotCount keys values
    exact ⟨bindings_nodup keys.distinct values.distinct, fun binding => mem_bindings⟩

-- Two types under four names, some of them in capitals or between blanks, and a list with unknown ones.
theorem typeLists_agree_aliases :
    ∃ texts wrong entries, texts = [" INT".toList, "object".toList, "Generic\t".toList, "int".toList] ∧
      wrong = ["int".toList, "Integer ".toList, "String".toList] ∧
      entries = [("ktypes".toList, .list (texts.map .text))] ∧
      Joinable texts ∧ Joinable wrong ∧
      SlotType.Listed texts [.int, .generic] ∧
      Manifest.typesOf (.ofString "a.toml") entries "ktypes" = .ok [.int, .generic] ∧
      CommandLine.typeList (some " INT,object,Generic\t,int".toList) = .ok [.int, .generic] ∧
      (bindings 2 [.int, .generic] [.int, .generic]).Nodup ∧
      SlotType.FirstUnknown wrong "Integer ".toList ∧
      CommandLine.typeList (some "int,Integer ,String".toList) = .error (.unknownType "Integer ") := by
  have visible {texts : List (List Char)} (solid : (texts.all fun text => text.any fun c => !isBlank c) = true) :
      ∀ text ∈ texts, ∃ c ∈ text, isBlank c = false := by
    simpa using solid
  have joinable : Joinable [" INT".toList, "object".toList, "Generic\t".toList, "int".toList] :=
    ⟨by decide, visible (by decide), by decide⟩
  have other : Joinable ["int".toList, "Integer ".toList, "String".toList] :=
    ⟨by decide, visible (by decide), by decide⟩
  refine ⟨_, _, _, rfl, rfl, rfl, joinable, other, ?_⟩
  have line : CommandLine.typeList (some " INT,object,Generic\t,int".toList) = .ok [.int, .generic] := by
    decide +kernel
  have wrong : CommandLine.typeList (some "int,Integer ,String".toList) =
      .error (.unknownType "Integer ") := by decide +kernel
  obtain ⟨agree, cross⟩ := typeLists_agree joinable
  obtain ⟨fails, -⟩ := typeLists_agree other
  rcases agree (.ofString "a.toml") [("ktypes".toList, _)] "ktypes" rfl with
    ⟨types, listed, manifest, read⟩ | ⟨_, -, -, failed⟩
  next =>
    cases line.symm.trans read
    rcases fails (.ofString "a.toml") [("vtypes".toList, _)] "vtypes" rfl with
      ⟨_, -, -, read⟩ | ⟨text, unknown, -, failed⟩
    next => cases wrong.symm.trans read
    next =>
      have name : String.ofList text = "Integer " :=
        Fault.unknownType.inj (Except.error.inj (failed.symm.trans wrong))
      have same : text = "Integer ".toList := by rw [← name, String.toList_ofList]
      exact ⟨listed, manifest, line, (cross _ _ _ 2 listed listed).1, same ▸ unknown, wrong⟩
  next => cases line.symm.trans failed

end Specializer
