import Specializer.Proofs.ArgumentReading
import Specializer.Proofs.Capture
import Specializer.Proofs.Unseen

set_option autoImplicit false

namespace Specializer

namespace Grammar

open Read

variable {lexemes : List Lexeme} {place : Nat} {α : Type}

/-- Here a type is asked for, and what follows is a name that is not all there is to the type. -/
structure Asks (lexemes : List Lexeme) (place : Nat) : Prop where
  word : ∃ lexeme, lexemes[place]? = some lexeme ∧ lexeme.spells "instanceof" = true
  named : ∃ lexeme, lexemes[place + 1]? = some lexeme ∧ lexeme.isName = true
  goesOn : ∃ lexeme, lexemes[place + 2]? = some lexeme ∧ lexeme.isName = false
  unstated : ¬ LiesIn Statement lexemes place
  unmarked : ¬ LiesIn Annotation lexemes place

def Chained (lexemes : List Lexeme) (place : Nat) (members : List Member) : Prop :=
  ∃ skip found next, chain skip ⟨place, lexemes.drop place⟩ = .done found next ∧
    ∀ ref ∈ found, ∃ member ∈ members, member.subtree.Below (.ref ref)

namespace Chained

variable {members others : List Member}

theorem lift (chained : Chained lexemes place members)
    (sub : ∀ member ∈ members, ∃ other ∈ others, other.subtree.Below member.subtree) :
    Chained lexemes place others := by
  obtain ⟨skip, found, next, done, listed⟩ := chained
  refine ⟨skip, found, next, done, fun ref member => ?_⟩
  obtain ⟨one, among, below⟩ := listed ref member
  obtain ⟨other, present, above⟩ := sub one among
  exact ⟨other, present, above.trans below⟩

theorem mono (chained : Chained lexemes place members) (sub : members ⊆ others) : Chained lexemes place others :=
  chained.lift fun member among => ⟨member, sub among, .refl⟩

theorem own {member : Member} (chained : Chained lexemes place members)
    (sub : members ⊆ member.subtree.members) : Chained lexemes place [member] :=
  chained.lift fun _ among =>
    ⟨member, List.mem_singleton_self _, .single (Subtree.member_child (sub among))⟩

end Chained

def Meets (lexemes : List Lexeme) (place start : Nat) (members : List Member) (stop : Nat) : Prop :=
  start ≤ place → place < stop → Chained lexemes (place + 1) members

def ItemMeets (lexemes : List Lexeme) (place start : Nat) (item : Item) (stop : Nat) : Prop :=
  start ≤ place → place < stop →
    Chained lexemes (place + 1) item.1 ∨ stop = place + 1 ∧ item.2 ≠ none

def Spots (lexemes : List Lexeme) (place : Nat) (pre : Cursor → Bool) (read : Read α)
    (members : α → List Member) : Prop :=
  ∀ cursor value next, cursor.On lexemes → pre cursor = true → read cursor = .done value next →
    next.On lexemes ∧ Meets lexemes place cursor.position (members value) next.position

def SpotsItem (lexemes : List Lexeme) (place : Nat) (pre : Cursor → Bool) (read : Read Item) : Prop :=
  ∀ cursor item next, cursor.On lexemes → pre cursor = true → read cursor = .done item next →
    next.On lexemes ∧ ItemMeets lexemes place cursor.position item next.position

section Steps

variable {cursor next : Cursor} {name : Name} (asks : Asks lexemes place)

theorem Between.mark {kind : Kind} (taken : Read.take cursor = .done name next)
    (seen : cursor.seesKind kind 0 = true) (other : kind ≠ .ident) : Between Quiet cursor next := by
  obtain ⟨lexeme, left, position⟩ := take_done taken
  rw [Cursor.seesKind, sees_here left, beq_iff_eq] at seen
  exact ⟨[lexeme], left, position, .plain (by simp [Lexeme.spells, seen, other]) .nil⟩

include asks

theorem Asks.past (on : cursor.On lexemes) (between : Between Quiet cursor next) :
    next.On lexemes ∧ (cursor.position ≤ place → next.position ≤ place) := by
  obtain ⟨word, found, spelled⟩ := asks.word
  exact ⟨between.on on, between.quiet on found spelled asks.unmarked⟩

theorem Asks.quiet {members : List Member} (on : cursor.On lexemes) (between : Between Quiet cursor next) :
    next.On lexemes ∧ Meets lexemes place cursor.position members next.position := by
  obtain ⟨onNext, past⟩ := asks.past on between
  exact ⟨onNext, fun low high => absurd (past low) (Nat.not_le.mpr high)⟩

theorem Meets.behind {middle : Cursor} {members : List Member} {stop : Nat} (on : cursor.On lexemes)
    (between : Between Quiet cursor middle)
    (meets : Meets lexemes place middle.position members stop) :
    Meets lexemes place cursor.position members stop :=
  fun low high => meets ((asks.past on between).2 low) high

omit asks

theorem Meets.append {start middle stop : Nat} {first second : List Member}
    (one : Meets lexemes place start first middle) (two : Meets lexemes place middle second stop) :
    Meets lexemes place start (first ++ second) stop := by
  intro low high
  rcases Nat.lt_or_ge place middle with before | behind
  · exact (one low before).mono (List.subset_append_left _ _)
  · exact (two behind high).mono (List.subset_append_right _ _)

theorem Meets.item {after : Option Before} {start stop : Nat} {members : List Member}
    (meets : Meets lexemes place start members stop) : ItemMeets lexemes place start (members, after) stop :=
  fun low high => .inl (meets low high)

theorem Spots.item {pre : Cursor → Bool} {read : Read α} {members : α → List Member} {after : Option Before}
    {value : α} (spots : Spots lexemes place pre read members) (on : cursor.On lexemes) (seen : pre cursor = true)
    (done : read cursor = .done value next) :
    next.On lexemes ∧ ItemMeets lexemes place cursor.position (members value, after) next.position := by
  obtain ⟨onNext, meets⟩ := spots _ _ _ on seen done
  exact ⟨onNext, meets.item⟩

theorem passed_meets {after : Before} (on : cursor.On lexemes) (taken : take cursor = .done name next) :
    next.On lexemes ∧ ItemMeets lexemes place cursor.position ([], some after) next.position := by
  obtain ⟨onNext, -, position, -⟩ := on.take taken
  refine ⟨onNext, fun low high => .inr ⟨?_, Option.some_ne_none _⟩⟩
  omega

include asks

theorem taken_meets {kind : Kind} {after : Option Before} (on : cursor.On lexemes)
    (seen : cursor.seesKind kind 0 = true) (other : kind ≠ .ident) (taken : take cursor = .done name next) :
    next.On lexemes ∧ ItemMeets lexemes place cursor.position ([], after) next.position := by
  obtain ⟨onNext, meets⟩ := asks.quiet on (.mark taken seen other)
  exact ⟨onNext, meets.item⟩

theorem witness_meets {skip : Read Unit} (skips : Calm Quiet (fun cursor => cursor.seesKind .atSign 0) skip)
    {use : Member} {after : Before} (on : cursor.On lexemes) (dotted : cursor.seesKind .dot 0 = true)
    (angled : cursor.seesKind .lt 1 = true) (done : witness skip cursor = .done use next) :
    next.On lexemes ∧ ItemMeets lexemes place cursor.position ([use], some after) next.position := by
  simp only [witness, bind_done, strict_done, takeKind, branch_done, fail_done, and_false, or_false,
    pure_done] at done
  obtain ⟨dot, opened, first, args, middle, read, method, final, ⟨-, last⟩, -, rfl⟩ := done
  rw [Cursor.seesKind, ← sees_take first] at angled
  have before : Between Quiet cursor middle :=
    (Between.mark first dotted (by decide)).trans ((types_calm skips _).args false _ _ _ angled read)
  obtain ⟨onMiddle, past⟩ := asks.past on before
  obtain ⟨onNext, -, position, -⟩ := onMiddle.take last
  refine ⟨onNext, fun low high => .inr ⟨?_, Option.some_ne_none _⟩⟩
  have short := past low
  omega

theorem enclosed_meets {scan : Extent → Before → Read (List Member)}
    (scans : ∀ extent before, Ensures lexemes (scan extent before) (Meets lexemes place))
    {opener : Kind} (other : opener ≠ .ident) (closer : Kind) :
    Spots lexemes place (fun cursor => cursor.seesKind opener 0) (enclosed scan closer) id := by
  intro cursor members next on seen done
  simp only [enclosed, bind_done] at done
  obtain ⟨name, opened, taken, read⟩ := done
  have before : Between Quiet cursor opened := .mark taken seen other
  obtain ⟨onNext, meets⟩ := scans _ _ _ _ _ (before.on on) read
  exact ⟨onNext, meets.behind asks on before⟩

theorem enclosedIf_meets {scan : Extent → Before → Read (List Member)}
    (scans : ∀ extent before, Ensures lexemes (scan extent before) (Meets lexemes place))
    {opener : Kind} (other : opener ≠ .ident) (closer : Kind) :
    Spots lexemes place anywhere (enclosedIf scan opener closer) id := by
  intro cursor members next on _ done
  simp only [enclosedIf, branch_done, pure_done] at done
  rcases done with ⟨seen, read⟩ | ⟨-, -, rfl⟩
  · exact enclosed_meets asks scans other closer _ _ _ on seen read
  · exact asks.quiet on (.refl _)

end Steps

structure MembersMeet (lexemes : List Lexeme) (place n : Nat) : Prop where
  scan : ∀ extent before, Ensures lexemes (scan n extent before) (Meets lexemes place)
  item : ∀ extent before, Ensures lexemes (item n extent before) (ItemMeets lexemes place)
  word : ∀ extent before cursor lexeme rest item next, cursor.On lexemes → cursor.rest = lexeme :: rest →
    lexeme.kind = .ident → wordItem n extent before lexeme cursor = .done item next →
    next.On lexemes ∧ ItemMeets lexemes place cursor.position item next.position
  generic : SpotsItem lexemes place (fun cursor => cursor.seesKind .lt 0) (genericMember n)
  annotation : Spots lexemes place (fun cursor => cursor.seesKind .atSign 0) (annotationUse n) id
  decl : Spots lexemes place declares (typeDecl n) fun member => [member]
  creation : Spots lexemes place (fun cursor => cursor.seesWord "new" 0) (creation n) id

theorem isName_not_spells {lexeme : Lexeme} (named : lexeme.isName = true) {word : String}
    (spelled : lexeme.spells word = true) : keywords.contains word.toList = false := by
  simp only [Lexeme.isName, Bool.and_eq_true, Bool.not_eq_true'] at named
  simp only [Lexeme.spells, Bool.and_eq_true, beq_iff_eq] at spelled
  rw [← spelled.2]
  exact named.2

-- A name that goes on is none of the words that are told apart, and opens no declaration.
theorem word_chained (asks : Asks lexemes place) {n : Nat} {extent : Extent} {before : Before}
    {cursor next : Cursor} {name : Lexeme} {found : Item} (on : cursor.On lexemes)
    (here : cursor.position = place + 1) (named : name.isName = true)
    (done : wordItem n extent before name cursor = .done found next) :
    Chained lexemes (place + 1) found.1 := by
  cases n with
  | zero => simp [wordItem, stuck_done] at done
  | succ n =>
    cases word_done done with
    | imports _ spells => exact absurd (isName_not_spells named spells) (by decide)
    | package _ spells => exact absurd (isName_not_spells named spells) (by decide)
    | creates spells => exact absurd (isName_not_spells named spells) (by decide)
    | declares _ seen =>
      obtain ⟨other, follows, unnamed⟩ := asks.goesOn
      have second : cursor.rest[1]? = some other := by
        rw [on.rest, List.getElem?_drop, here, follows]
      simp [Cursor.seesDeclaration, Cursor.opensTypeDecl, Cursor.sees, second, unnamed] at seen
    | keyword _ word =>
      simp only [Lexeme.isName, Lexeme.isKeyword, Bool.and_eq_true, Bool.not_eq_true'] at named word
      rw [named.2] at word
      cases word.2
    | @uses ref _ read =>
      have stands : cursor = ⟨place + 1, lexemes.drop (place + 1)⟩ := by
        rw [← here, ← on.rest]
      rw [stands] at read
      exact ⟨_, ref, _, read, fun one member =>
        ⟨.typeUse one, List.mem_map_of_mem (Option.mem_toList.mpr member), .refl⟩⟩

theorem item_chained (asks : Asks lexemes place) {n : Nat} {extent : Extent} {before : Before}
    {cursor next : Cursor} {found : Item} (on : cursor.On lexemes) (here : cursor.position = place + 1)
    (done : item n extent before cursor = .done found next) : Chained lexemes (place + 1) found.1 := by
  cases n with
  | zero => simp [item, stuck_done] at done
  | succ n =>
    obtain ⟨lexeme, rest, left, read⟩ := item_done done
    obtain ⟨name, there, named⟩ := asks.named
    have same := on.lexeme left
    rw [here, there, Option.some.injEq] at same
    subst same
    have ident := ident_of_isName named
    cases read with
    | closes closer => simp [ident, Kind.isCloser] at closer
    | encloses pair => simp [ident, Kind.closer?] at pair
    | semicolon kind | declared kind | annotated kind | witness kind | generic kind =>
      simp [ident] at kind
    | passed _ _ noWord => exact absurd ident noWord
    | word _ read => exact word_chained asks on here named read

theorem scan_chained (asks : Asks lexemes place) {n : Nat} {extent : Extent} {before : Before}
    {cursor next : Cursor} {found : List Member} (on : cursor.On lexemes) (here : cursor.position = place + 1)
    (done : scan n extent before cursor = .done found next) : Chained lexemes (place + 1) found := by
  cases n with
  | zero => simp [scan, stuck_done] at done
  | succ n =>
    rcases scan_done done with ⟨empty, -⟩ | last | ⟨first, after, middle, rest, read, -, rfl⟩
    · obtain ⟨name, there, -⟩ := asks.named
      have inside := (List.getElem?_eq_some_iff.mp there).1
      have whole := on.rest
      rw [empty, here] at whole
      have past := List.drop_eq_nil_iff.mp whole.symm
      omega
    · exact item_chained asks on here last
    · exact (item_chained asks on here read).mono (List.subset_append_left _ _)

namespace MembersMeet

variable {n : Nat} (meet : MembersMeet lexemes place n) (asks : Asks lexemes place)

include meet asks

theorem scan_step (extent : Extent) (before : Before) :
    Ensures lexemes (Grammar.scan (n + 1) extent before) (Meets lexemes place) := by
  intro cursor members next on done
  rcases scan_done done with ⟨-, -, rfl, rfl⟩ | last | ⟨first, after, middle, rest, read, scanned, rfl⟩
  · exact asks.quiet on (.refl _)
  · obtain ⟨onNext, here⟩ := meet.item extent before _ _ _ on last
    refine ⟨onNext, fun low high => ?_⟩
    rcases here low high with chained | ⟨-, goesOn⟩
    · exact chained
    · exact absurd rfl goesOn
  · obtain ⟨onMiddle, here⟩ := meet.item extent before _ _ _ on read
    obtain ⟨onNext, later⟩ := meet.scan extent after _ _ _ onMiddle scanned
    refine ⟨onNext, fun low high => ?_⟩
    rcases Nat.lt_or_ge place middle.position with inside | behind
    · rcases here low inside with chained | ⟨word, -⟩
      · exact chained.mono (List.subset_append_left _ _)
      -- The item was the word itself.
      · exact (scan_chained asks onMiddle word scanned).mono (List.subset_append_right _ _)
    · exact (later behind high).mono (List.subset_append_right _ _)

theorem annotation_step : Spots lexemes place (fun cursor => cursor.seesKind .atSign 0)
    (annotationUse (n + 1)) id := by
  intro cursor members next on seen done
  simp only [annotationUse, bind_done] at done
  obtain ⟨_, marked, mark, _, named, name, _, behind, more, read⟩ := done
  have before : Between Quiet cursor behind :=
    ((Between.mark mark seen (by decide)).trans (Calm.takeName _ _ _ (by rfl) name)).trans
      (Calm.withSteps (fun k => qualifiers_calm k) _ _ _ (by rfl) more)
  obtain ⟨onNext, meets⟩ := enclosedIf_meets asks meet.scan (by decide) .rpar _ _ _ (before.on on) rfl read
  exact ⟨onNext, meets.behind asks on before⟩

theorem generic_step : SpotsItem lexemes place (fun cursor => cursor.seesKind .lt 0) (genericMember (n + 1)) := by
  intro cursor item next on seen done
  rcases generic_done done with ⟨params, middle, members, listed, scanned, rfl⟩ | ⟨name, taken, rfl⟩
  · have before : Between Quiet cursor middle := typeParams_calm (annotationUse_quiet n) _ _ _ seen listed
    obtain ⟨onNext, meets⟩ := meet.scan .member .boundary _ _ _ (before.on on) scanned
    refine ⟨onNext, Meets.item fun low high => ?_⟩
    exact (meets.behind asks on before low high).own (List.Subset.refl _)
  · exact passed_meets on taken

theorem decl_step : Spots lexemes place declares (typeDecl (n + 1)) fun member => [member] := by
  intro cursor member next on seen done
  have skips := annotationUse_quiet n
  obtain @⟨opened, worded, named, listed, headed, clauses, keyword, name, params, header, body,
    supertypes, mark, word, declares, lists, heads, extends_, opens, encloses⟩ := decl_done done
  have ofParams : Between Quiet named listed := by
    rcases lists with ⟨list, angled, -, read⟩ | ⟨-, rfl⟩
    · exact typeParams_calm skips _ _ _ angled read
    · exact .refl _
  have before : Between Quiet cursor listed :=
    ((declWord_between seen mark word).trans (Calm.takeName _ _ _ (by rfl) declares)).trans ofParams
  have ofSupers : Between Quiet headed clauses :=
    Calm.withSteps (fun k => supertypeClauses_calm skips k) _ _ _ (by rfl) extends_
  obtain ⟨onHeaded, inHeader⟩ :=
    enclosedIf_meets asks meet.scan (by decide) .rpar _ _ _ (before.on on) rfl heads
  obtain ⟨onNext, inBody⟩ :=
    enclosed_meets asks meet.scan (by decide) .rbrace _ _ _ (ofSupers.on onHeaded) opens encloses
  refine ⟨onNext, fun low high => ?_⟩
  have all := (inHeader.append (inBody.behind asks onHeaded ofSupers)).behind asks on before
  exact (all low high).own (List.Subset.refl _)

theorem creation_step : Spots lexemes place (fun cursor => cursor.seesWord "new" 0) (Grammar.creation (n + 1)) id := by
  intro cursor members next on seen done
  have skips := annotationUse_quiet n
  obtain ⟨keyword, worded, constructorArgs, behind, taken, explicit, created⟩ := creation_done done
  have ofArgs : Between Quiet worded behind := by
    rcases explicit with ⟨args, angled, -, read⟩ | ⟨-, rfl⟩
    · exact (types_calm skips _).args false _ _ _ angled read
    · exact .refl _
  have before : Between Quiet cursor behind :=
    (Between.take taken (sees_mono seen (isCalm_of_spells (by decide)))).trans ofArgs
  have typed {type : TypeRef} {after : Cursor}
      (read : withSteps (typeRef (annotationUse n).ignore true false) behind = .done type after) :
      Between Quiet cursor after :=
    before.trans ((types_calm skips _).ref true false _ _ _ rfl read)
  cases created with
  | nothing => exact asks.quiet on before
  | array primitive second =>
    exact asks.quiet on (before.trans (.take second (sees_mono primitive isCalm_of_isPrimitive)))
  | plain read => exact asks.quiet on (typed read)
  | called read opens calls encloses =>
    have ofType := typed read
    obtain ⟨onClosed, inArgs⟩ :=
      enclosed_meets asks meet.scan (by decide) .rpar _ _ _ (ofType.on on) opens calls
    obtain ⟨onNext, inBlock⟩ :=
      enclosedIf_meets asks meet.scan (by decide) .rbrace _ _ _ onClosed rfl encloses
    refine ⟨onNext, fun low high => ?_⟩
    exact ((inArgs.append inBlock).behind asks on ofType low high).own (List.Subset.refl _)

theorem word_step {extent : Extent} {before : Before} {cursor next : Cursor} {lexeme : Lexeme}
    {rest : List Lexeme} {item : Item} (on : cursor.On lexemes) (left : cursor.rest = lexeme :: rest)
    (ident : lexeme.kind = .ident) (done : wordItem (n + 1) extent before lexeme cursor = .done item next) :
    next.On lexemes ∧ ItemMeets lexemes place cursor.position item next.position := by
  cases word_done done with
  | imports top spells read =>
    obtain ⟨onNext, meets⟩ :=
      asks.quiet on (importDecl_calm _ _ _ ((sees_here left _).trans spells) read)
    exact ⟨onNext, meets.item⟩
  | package top spells read =>
    have states := (throughSemicolon_states read left spells).statement
    exact ⟨states.on on, fun low high => absurd (states.within on low high) asks.unstated⟩
  | declares undotted seen read =>
    simp only [Cursor.seesDeclaration, Bool.and_eq_true] at seen
    exact meet.decl.item on (Bool.or_eq_true_iff.mpr (.inr seen.1)) read
  | creates spells read => exact meet.creation.item on ((sees_here left _).trans spells) read
  | keyword inner word taken => exact passed_meets on taken
  | uses word read =>
    have name : cursor.sees Lexeme.isName 0 = true := by
      simpa [sees_here left, Lexeme.isName, Lexeme.isKeyword, ident] using word
    obtain ⟨onNext, meets⟩ := asks.quiet on (chain_calm (annotationUse_quiet n) _ _ _ name read)
    exact ⟨onNext, meets.item⟩

theorem item_step (extent : Extent) (before : Before) :
    Ensures lexemes (Grammar.item (n + 1) extent before) (ItemMeets lexemes place) := by
  intro cursor found next on done
  obtain ⟨lexeme, rest, left, read⟩ := item_done done
  have here {kind : Kind} (same : lexeme.kind = kind) : cursor.seesKind kind 0 = true := by
    simp [Cursor.seesKind, sees_here left, same]
  cases read with
  | closes closer awaited taken =>
    exact taken_meets asks on (here rfl) (fun ident => by simp [ident, Kind.isCloser] at closer) taken
  | encloses pair read last =>
    have other : lexeme.kind ≠ .ident := fun ident => by simp [ident, Kind.closer?] at pair
    exact (enclosed_meets asks meet.scan other _).item on (here rfl) read
  | semicolon kind taken => exact taken_meets asks on (here kind) (by decide) taken
  | declared kind word read => exact meet.decl.item on (by simp [declares, word, here kind]) read
  | annotated kind read => exact meet.annotation.item on (here kind) read
  | word kind read => exact meet.word _ _ _ _ _ _ _ on left kind read
  | witness kind angled read => exact witness_meets asks (annotationUse_quiet n) on (here kind) angled read
  | generic kind fresh read => exact meet.generic _ _ _ on (here kind) read
  | passed opens closes noWord taken => exact passed_meets on taken

end MembersMeet

theorem members_meet (asks : Asks lexemes place) (n : Nat) : MembersMeet lexemes place n := by
  induction n with
  | zero =>
    refine ⟨fun _ _ => .stuck _, fun _ _ => .stuck _, ?_, ?_, ?_, ?_, ?_⟩
    next => exact fun _ _ _ _ _ _ _ _ _ _ done => absurd done (by simp [wordItem, stuck_done])
    next => exact fun _ _ _ _ _ done => absurd done (by simp [genericMember, stuck_done])
    next => exact fun _ _ _ _ _ done => absurd done (by simp [annotationUse, stuck_done])
    next => exact fun _ _ _ _ _ done => absurd done (by simp [typeDecl, stuck_done])
    next => exact fun _ _ _ _ _ done => absurd done (by simp [creation, stuck_done])
  | succ n ih =>
    exact
      { scan := ih.scan_step asks
        item := ih.item_step asks
        word := fun _ _ _ _ _ _ _ => ih.word_step asks
        generic := ih.generic_step asks
        annotation := ih.annotation_step asks
        decl := ih.decl_step asks
        creation := ih.creation_step asks }

theorem members_chained (asks : Asks lexemes place) {found : List Member} {next : Cursor}
    (done : members lexemes = .done found next) : Chained lexemes (place + 1) found := by
  obtain ⟨on, meets⟩ := (members_meet asks _).scan .template .boundary _ _ _ .begin done
  have rest := on.rest
  rw [scan_template done] at rest
  have reached : lexemes.length ≤ next.position := List.drop_eq_nil_iff.mp rest.symm
  obtain ⟨word, there, -⟩ := asks.word
  have inside := (List.getElem?_eq_some_iff.mp there).1
  exact meets (Nat.zero_le _) (Nat.lt_of_lt_of_le inside reached)

end Grammar

def Carried (tree : Tree) (segments : List Segment) : Prop :=
  ∃ ref more, (Subtree.unit tree).Below (.ref ref) ∧ ref.segments = segments ++ more

theorem parseTokens_chained {tokens : List Token} {tree : Tree} (parsed : parseTokens tokens = .ok tree)
    {place : Nat} (asks : Grammar.Asks (significantLexemes tokens) place) :
    ∃ skip found next, Grammar.chain skip ⟨place + 1, (significantLexemes tokens).drop (place + 1)⟩ =
        .done found next ∧
      ∀ ref ∈ found, (Subtree.unit tree).Below (.ref (ref.relocate (placeIn tokens))) := by
  -- The members are read with places among the tokens that carry meaning, and then moved.
  obtain ⟨members, next, outcome, rfl⟩ := parseTokens_ok parsed
  obtain ⟨skip, found, next, done, listed⟩ := Grammar.members_chained asks outcome
  refine ⟨skip, found, next, done, fun ref member => ?_⟩
  obtain ⟨one, among, below⟩ := listed ref member
  have moved := @Subtree.below_relocate (placeIn tokens) _ _ below
  rw [← Subtree.relocate_member] at moved
  refine .head (List.mem_append_left _ (List.mem_map_of_mem ?_)) moved
  rw [relocateMembers_eq]
  exact List.mem_map_of_mem among

theorem Grammar.GenericName.asks {lexemes text rest : List Lexeme} {place : Nat} {word : Lexeme}
    {segments : List Segment} (name : GenericName (place + 1) text segments) (found : lexemes[place]? = some word)
    (spelled : word.spells "instanceof" = true) (behind : lexemes.drop (place + 1) = text ++ rest)
    (unstated : ¬ LiesIn Statement lexemes place) (unmarked : ¬ LiesIn Annotation lexemes place) :
    Asks lexemes place := by
  have ahead (index : Nat) : lexemes[place + 1 + index]? = (text ++ rest)[index]? := by
    rw [← behind, List.getElem?_drop]
  refine ⟨⟨word, found, spelled⟩, ?_, ?_, unstated, unmarked⟩
  next =>
    rw [← Nat.add_zero (place + 1), ahead]
    cases name with
    | last named | dotted named => exact ⟨_, rfl, named⟩
  next =>
    rw [ahead 1]
    cases name with
    | last _ given =>
      obtain ⟨opener, more, rfl, opens⟩ := given.args_first
      exact ⟨opener, rfl, by simp [Lexeme.isName, opens]⟩
    | @dotted _ _ dot _ _ _ dots => exact ⟨dot, rfl, by simp [Lexeme.isName, dots]⟩

-- A name that is carried alone is not carried with arguments: it stands in one reference only.
theorem not_carried {lexemes : List Lexeme} {tree : Tree} (sound : (Subtree.unit tree).Sound lexemes)
    {move : Nat → Nat} {ref : TypeRef} (below : (Subtree.unit tree).Below (.ref ref)) {segments : List Segment}
    (bare : ref.segments = segments.map fun segment => segment.bare.relocate move)
    (applied : ∃ last list, Segment.applied last list ∈ segments) :
    ¬ Carried tree (segments.map (Segment.relocate move)) := by
  rintro ⟨other, more, above, same⟩
  obtain ⟨last, list, member⟩ := applied
  have given : (Segment.applied last list).relocate move ∈ other.segments := by
    rw [same]
    exact List.mem_append_left _ (List.mem_map_of_mem member)
  have alone : (Segment.applied last list).bare.relocate move ∈ ref.segments := by
    rw [bare]
    exact List.mem_map_of_mem member
  have equal := Subtree.name_unique_unit sound above below (List.mem_map_of_mem given)
    (List.mem_map_of_mem alone) rfl
  cases equal
  rw [bare] at given
  obtain ⟨segment, -, differs⟩ := List.mem_map.mp given
  cases differs

/-- Behind `instanceof`, outside of package statements and annotations, a reference carries the type with its
arguments if nothing follows, or something that can follow a type. If anything else follows, the tree has the
name alone, as far as it has a placeholder in it, and no reference with the arguments. -/
theorem type_test_carried {source : List Char} {tokens : List Token} {tree : Tree}
    (parsed : parse source = .ok (tokens, tree)) {place : Nat} {word : Lexeme} {text rest : List Lexeme}
    {segments : List Segment} (found : (significantLexemes tokens)[place]? = some word)
    (spelled : word.spells "instanceof" = true)
    (behind : (significantLexemes tokens).drop (place + 1) = text ++ rest)
    (name : Grammar.GenericName (place + 1) text segments)
    (unstated : ¬ LiesIn Statement (significantLexemes tokens) place)
    (unmarked : ¬ LiesIn Annotation (significantLexemes tokens) place) :
    ((∀ next ∈ rest.head?, next.kind.followsType = true) →
        Carried tree (segments.map (Segment.relocate (placeIn tokens)))) ∧
      ∀ next ∈ rest.head?, next.kind.followsType = false →
        (∃ segment ∈ segments, hasPlaceholder segment.name.text = true) →
          Carried tree (segments.map fun segment => segment.bare.relocate (placeIn tokens)) ∧
            ¬ Carried tree (segments.map (Segment.relocate (placeIn tokens))) := by
  obtain ⟨skip, ref, last, done, listed⟩ :=
    parseTokens_chained (parse_ok parsed).2 (name.asks found spelled behind unstated unmarked)
  rw [behind] at done
  obtain ⟨kept, lost⟩ := name.chain done
  refine ⟨fun follows => ?_, fun next head unlike has => ?_⟩
  next =>
    have ends : Grammar.Cursor.followsType ⟨place + 1 + text.length, rest⟩ = true := by
      cases rest with
      | nil => rfl
      | cons next rest => exact follows next rfl
    obtain ⟨more, stop, rfl⟩ := kept ends
    refine ⟨_, more.map (Segment.relocate (placeIn tokens)), listed _ rfl, ?_⟩
    rw [Subtree.relocate_segments, TypeRef.segments, List.map_append]
  next =>
    have goesOn : Grammar.Cursor.followsType ⟨place + 1 + text.length, rest⟩ = false := by
      cases rest with
      | nil => cases head
      | cons first rest =>
        cases head
        exact unlike
    obtain ⟨stop, rfl⟩ := lost goesOn has
    have below := listed _ rfl
    -- The name is left without its arguments, and no other reference can begin at the same place.
    have bare : ((TypeRef.mk ⟨place + 1, stop⟩ (segments.map Segment.bare) 0).relocate
        (placeIn tokens)).segments = segments.map fun segment => segment.bare.relocate (placeIn tokens) := by
      rw [Subtree.relocate_segments, TypeRef.segments, List.map_map]
      rfl
    exact ⟨⟨_, [], below, by rw [bare, List.append_nil]⟩,
      not_carried (parse_sound parsed) below bare name.applied⟩

-- In front of `||` the arguments are lost.
theorem type_test_carried_or :
    ∃ tokens tree, parse "class A { boolean b = o instanceof KTypeFoo<KType> || c; }".toList = .ok (tokens, tree) ∧
      Carried tree [.plain ⟨16, "KTypeFoo".toList⟩] ∧
      ¬ Carried tree [.applied ⟨16, "KTypeFoo".toList⟩
        (.mk ⟨17, 20⟩ [.exact (.mk ⟨18, 19⟩ [.plain ⟨18, "KType".toList⟩] 0)])] := by
  obtain ⟨⟨tokens, tree⟩, parsed, passes⟩ := ok_of_any
    (show (parse "class A { boolean b = o instanceof KTypeFoo<KType> || c; }".toList).toOption.any
      (fun read : List Token × Tree => decide ((∀ lexeme ∈ significantLexemes read.1, lexeme.spells "package" = false ∧
          lexeme.kind ≠ .atSign) ∧
        (significantLexemes read.1)[7]? = some ⟨.ident, "instanceof".toList⟩ ∧
        (significantLexemes read.1).drop 8 = [⟨.ident, "KTypeFoo".toList⟩, ⟨.lt, ['<']⟩,
          ⟨.ident, "KType".toList⟩, ⟨.gt, ['>']⟩] ++ [⟨.op, ['|']⟩, ⟨.op, ['|']⟩, ⟨.ident, ['c']⟩, ⟨.semi, [';']⟩,
          ⟨.rbrace, ['\x7d']⟩] ∧
        significant read.1 = [0, 2, 4, 6, 8, 10, 12, 14, 16, 17, 18, 19, 21, 22, 24, 25, 27])) = true by
      decide +kernel)
  simp only [decide_eq_true_eq] at passes
  obtain ⟨seen, found, behind, places⟩ := passes
  have unstated : ¬ LiesIn Statement (significantLexemes tokens) 7 := by
    intro lies
    obtain ⟨lexeme, member, spelled⟩ := lies.exists_mem fun _ => Statement.mem
    rw [(seen lexeme member).1] at spelled
    cases spelled
  have unmarked : ¬ LiesIn Annotation (significantLexemes tokens) 7 := by
    intro lies
    obtain ⟨lexeme, member, sign⟩ := lies.exists_mem fun _ => Annotation.mem
    exact (seen lexeme member).2 sign
  have name : Grammar.GenericName 8 [⟨.ident, "KTypeFoo".toList⟩, ⟨.lt, ['<']⟩, ⟨.ident, "KType".toList⟩,
      ⟨.gt, ['>']⟩] [.applied ⟨8, "KTypeFoo".toList⟩ (.mk ⟨9, 12⟩ [.exact (.mk ⟨10, 11⟩
        [.plain ⟨10, "KType".toList⟩] 0)])] := by
    refine .last (by decide) (.args rfl ?_)
    refine @Grammar.Denotes.final _ [_] _ _ (.exact ?_) rfl
    exact @Grammar.Denotes.ref _ _ _ [] [] _ (by decide) (.last .plain) .undimmed
  obtain ⟨-, lost⟩ := type_test_carried parsed found (by decide) behind name unstated unmarked
  obtain ⟨alone, without⟩ := lost _ rfl rfl ⟨_, List.mem_singleton_self _, by decide⟩
  refine ⟨tokens, tree, parsed, ?_, ?_⟩
  next => simpa [Segment.bare, Segment.relocate, Segment.name, Name.relocate, placeIn, places] using alone
  next =>
    simpa [Segment.relocate, Name.relocate, placeIn, places, TypeArgs.relocate, relocateArgs, TypeRef.relocate,
      relocateSegments, Range.relocate] using without

end Specializer
