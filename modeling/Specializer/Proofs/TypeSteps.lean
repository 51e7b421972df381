import Specializer.Grammar.Types
import Specializer.Proofs.Reading

set_option autoImplicit false

namespace Specializer.Grammar

open Read

def Failure.Within (lexemes : List Lexeme) : Failure → Prop
  | .expected _ place => ∀ index, place = some index → index < lexemes.length
  | .unbalanced place => place < lexemes.length

def Outcome.Ends {α : Type} (lexemes : List Lexeme) (floor : Nat) : Outcome α → Prop
  | .done _ next => next.On lexemes ∧ floor ≤ next.position
  | .miss _ missed => missed.On lexemes
  | .fail failure => failure.Within lexemes
  | .stuck => False

variable {α β : Type} {lexemes : List Lexeme} {cursor : Cursor} {floor : Nat}

namespace Cursor.On

theorem inside (on : cursor.On lexemes) {test : Lexeme → Bool} {ahead : Nat}
    (seen : cursor.sees test ahead = true) : cursor.position + ahead < lexemes.length := by
  obtain ⟨lexeme, found, -⟩ := on.sees seen
  exact (List.getElem?_eq_some_iff.mp found).1

theorem isEmpty_iff (on : cursor.On lexemes) :
    cursor.rest.isEmpty = true ↔ lexemes.length ≤ cursor.position := by
  rw [on.rest, List.isEmpty_iff, List.drop_eq_nil_iff]

theorem steps_eq (on : cursor.On lexemes) :
    cursor.steps + 4 * cursor.position = 4 * lexemes.length + 4 := by
  have bound := on.bound
  rw [Cursor.steps, on.rest, List.length_drop]
  omega

theorem failure_within (on : cursor.On lexemes) (what : Expected) :
    (cursor.failure what).Within lexemes := by
  intro index place
  split at place
  next => cases place
  next left =>
    cases place
    exact Nat.lt_of_not_le fun past => left (on.isEmpty_iff.mpr past)

end Cursor.On

namespace Outcome.Ends

theorem mono {outcome : Outcome α} {low : Nat} (ends : outcome.Ends lexemes floor)
    (le : low ≤ floor) : outcome.Ends lexemes low := by
  cases outcome with
  | done => exact ⟨ends.1, Nat.le_trans le ends.2⟩
  | miss | fail | stuck => exact ends

theorem done {outcome : Outcome α} (ends : outcome.Ends lexemes floor) {value : α} {next : Cursor}
    (same : outcome = .done value next) : next.On lexemes ∧ floor ≤ next.position := by
  subst same
  exact ends

theorem pure (value : α) (on : cursor.On lexemes) (le : floor ≤ cursor.position) :
    ((Pure.pure value : Read α) cursor).Ends lexemes floor := ⟨on, le⟩

theorem bind {first : Read α} {next : α → Read β} {low : Nat}
    (begins : (first cursor).Ends lexemes low)
    (goesOn : ∀ value behind, first cursor = .done value behind → behind.On lexemes →
      low ≤ behind.position → (next value behind).Ends lexemes floor) :
    ((first >>= next) cursor).Ends lexemes floor := by
  change (first.andThen next cursor).Ends lexemes floor
  rw [andThen]
  cases outcome : first cursor with
  | done value behind =>
    rw [outcome] at begins
    exact goesOn value behind outcome begins.1 begins.2
  | miss | fail | stuck =>
    rw [outcome] at begins
    exact begins

theorem map {read : Read α} {make : α → β} (ends : (read cursor).Ends lexemes floor) :
    ((read >>= fun value => Pure.pure (make value)) cursor).Ends lexemes floor :=
  ends.bind fun _ _ _ on le => pure _ on le

theorem branch {test : Cursor → Bool} {yes no : Read α}
    (passes : test cursor = true → (yes cursor).Ends lexemes floor)
    (fails : test cursor = false → (no cursor).Ends lexemes floor) :
    (Read.branch test yes no cursor).Ends lexemes floor := by
  rw [Read.branch]
  split
  next seen => exact passes seen
  next unseen => exact fails (by simpa using unseen)

theorem take (on : cursor.On lexemes) (inside : cursor.position < lexemes.length) :
    (Read.take cursor).Ends lexemes (cursor.position + 1) := by
  cases taken : Read.take cursor with
  | done name next =>
    obtain ⟨onNext, -, position, -⟩ := on.take taken
    exact ⟨onNext, Nat.le_of_eq position.symm⟩
  | miss | fail =>
    rw [Read.take] at taken
    split at taken <;> cases taken
  | stuck =>
    rw [Read.take] at taken
    split at taken
    next => cases taken
    next empty => exact Nat.not_le_of_lt inside (on.isEmpty_iff.mp (by rw [empty]; rfl))

theorem takeThen {next : Name → Read β} (on : cursor.On lexemes)
    (inside : cursor.position < lexemes.length)
    (goesOn : ∀ name behind, name.index = cursor.position → behind.On lexemes →
      behind.position = cursor.position + 1 → (next name behind).Ends lexemes floor) :
    ((Read.take >>= next) cursor).Ends lexemes floor := by
  refine (take on inside).bind fun name behind taken _ _ => ?_
  obtain ⟨onBehind, index, position, -⟩ := on.take taken
  exact goesOn name behind index onBehind position

theorem indexThen {next : Nat → Read β}
    (goesOn : (next cursor.position cursor).Ends lexemes floor) :
    ((Read.index >>= next) cursor).Ends lexemes floor := goesOn

theorem pastThen {next : Nat → Read β}
    (goesOn : (next cursor.position cursor).Ends lexemes floor) :
    ((Read.past >>= next) cursor).Ends lexemes floor := goesOn

theorem fail (what : Expected) (on : cursor.On lexemes) :
    ((Read.fail what : Read α) cursor).Ends lexemes floor := on.failure_within what

theorem miss (what : Expected) (on : cursor.On lexemes) :
    ((Read.miss what : Read α) cursor).Ends lexemes floor := on

theorem strict {read : Read α} (ends : (read cursor).Ends lexemes floor) :
    (Read.strict read cursor).Ends lexemes floor := by
  rw [Read.strict]
  cases outcome : read cursor with
  | miss what missed =>
    rw [outcome] at ends
    exact Cursor.On.failure_within ends what
  | done | fail | stuck =>
    rw [outcome] at ends
    exact ends

theorem whole {read : Read α} (what : Expected) (on : cursor.On lexemes)
    (ends : (read cursor).Ends lexemes floor) : (Read.whole what read cursor).Ends lexemes floor := by
  rw [Read.whole]
  cases outcome : read cursor with
  | miss => exact on
  | done | fail | stuck =>
    rw [outcome] at ends
    exact ends

theorem part {read : Read α} (what : Expected) (ends : (read cursor).Ends lexemes floor) :
    (Read.part what read cursor).Ends lexemes floor := by
  rw [Read.part]
  cases outcome : read cursor <;>
  · rw [outcome] at ends
    exact ends

theorem optional {read : Read α} (on : cursor.On lexemes) (le : floor ≤ cursor.position)
    (ends : (read cursor).Ends lexemes floor) : (Read.optional read cursor).Ends lexemes floor := by
  rw [Read.optional]
  cases outcome : read cursor with
  | miss => exact ⟨on, le⟩
  | done | fail | stuck =>
    rw [outcome] at ends
    exact ends

theorem ignore {read : Read α} (ends : (read cursor).Ends lexemes floor) :
    (read.ignore cursor).Ends lexemes floor := ends.map

theorem takeKind (kind : Kind) (what : Expected) (on : cursor.On lexemes) :
    (Read.takeKind kind what cursor).Ends lexemes (cursor.position + 1) :=
  branch (fun seen => take on (on.inside seen)) fun _ => fail what on

theorem takeName (what : Expected) (on : cursor.On lexemes) :
    (Read.takeName what cursor).Ends lexemes (cursor.position + 1) :=
  branch (fun seen => take on (on.inside seen)) fun _ => fail what on

end Outcome.Ends

section Types

def Skips (lexemes : List Lexeme) (base : Nat) (skip : Read Unit) : Prop :=
  ∀ cursor : Cursor, cursor.On lexemes → base ≤ cursor.position →
    cursor.seesKind .atSign 0 = true → (skip cursor).Ends lexemes (cursor.position + 1)

theorem separated_ends {closer : Kind} {what : Expected} {item : α} {more : Read (List α)}
    (on : cursor.On lexemes) (le : floor ≤ cursor.position + 1)
    (later : ∀ behind : Cursor, behind.On lexemes → behind.position = cursor.position + 1 →
      (more behind).Ends lexemes floor) :
    (separated closer what item more cursor).Ends lexemes floor := by
  refine .branch (fun comma => ?_) fun _ => .branch (fun close => ?_) fun _ => .miss what on
  · refine .takeThen on (on.inside comma) fun _ behind _ onBehind position => ?_
    exact (later behind onBehind position).map
  · refine .takeThen on (on.inside close) fun _ behind _ onBehind position => ?_
    exact .pure _ onBehind (by omega)

theorem qualified_ends {segment : Segment} {more : Read (List Segment)} (on : cursor.On lexemes)
    (le : floor ≤ cursor.position)
    (later : ∀ behind : Cursor, behind.On lexemes → behind.position = cursor.position + 1 →
      behind.position < lexemes.length → (more behind).Ends lexemes floor) :
    (qualified segment more cursor).Ends lexemes floor := by
  refine .branch (fun seen => ?_) fun _ => .pure _ on le
  simp only [Cursor.seesDotName, Bool.and_eq_true] at seen
  have name := on.inside seen.2
  refine .takeThen on (on.inside seen.1) fun _ behind _ onBehind position => ?_
  exact (later behind onBehind position (by omega)).map

theorem appliedOr_ends {name : Name} {args : Read TypeArgs} (on : cursor.On lexemes)
    (le : floor ≤ cursor.position)
    (applied : cursor.position < lexemes.length → (args cursor).Ends lexemes floor) :
    (appliedOr name args cursor).Ends lexemes floor := by
  refine .branch (fun seen => ?_) fun _ => .pure _ on le
  exact (applied (on.inside seen)).map

theorem dimensions_ends {n : Nat} (on : cursor.On lexemes)
    (steps : lexemes.length < n + cursor.position) :
    (dimensions n cursor).Ends lexemes cursor.position := by
  induction n generalizing cursor with
  | zero =>
    have bound := on.bound
    omega
  | succ n ih =>
    refine .branch (fun seen => ?_) fun _ => .pure 0 on (Nat.le_refl _)
    simp only [Bool.and_eq_true] at seen
    have closer := on.inside seen.2
    refine .takeThen on (on.inside seen.1) fun _ opened _ onOpened atOpened => ?_
    refine .takeThen onOpened (by omega) fun _ closed _ onClosed atClosed => ?_
    exact (ih onClosed (by omega)).map.mono (by omega)

variable {skip : Read Unit} {base : Nat}

theorem annotations_end {test : Cursor → Bool} {read : Nat → Read Unit}
    (passes : PassesAnnotations skip test read) (skips : Skips lexemes base skip) {n : Nat}
    (on : cursor.On lexemes) (low : base ≤ cursor.position) (steps : lexemes.length < n + cursor.position) :
    (read n cursor).Ends lexemes cursor.position := by
  induction n generalizing cursor with
  | zero =>
    have bound := on.bound
    omega
  | succ n ih =>
    rw [passes.succ]
    refine .branch (fun seen => ?_) fun _ => .pure () on (Nat.le_refl _)
    simp only [Bool.and_eq_true] at seen
    refine (skips cursor on low seen.1).bind fun _ behind _ onBehind gained => ?_
    exact (ih onBehind (by omega) (by omega)).mono (by omega)

/-- The reader comes to an end, behind a lexeme more, wherever `need` lexemes are left and its steps are
four for each of them and `slack` above. -/
def Suffices (lexemes : List Lexeme) (base need slack n : Nat) (read : Read α) : Prop :=
  ∀ cursor : Cursor, cursor.On lexemes → base ≤ cursor.position →
    cursor.position + need ≤ lexemes.length → 4 * lexemes.length + slack ≤ n + 4 * cursor.position →
    (read cursor).Ends lexemes (cursor.position + 1)

theorem Suffices.stuck {need slack : Nat} {read : Read α} (covered : 0 < need + slack) :
    Suffices lexemes base need slack 0 read := by
  -- Without steps there would have to be more lexemes before the cursor than there are.
  intro cursor on _ left steps
  have bound := on.bound
  omega

structure TypesEnd (lexemes : List Lexeme) (base : Nat) (skip : Read Unit) (n : Nat) : Prop where
  segments : ∀ diamond, Suffices lexemes base 1 1 n (typeSegments skip diamond n)
  ref : ∀ diamond dims, Suffices lexemes base 0 2 n (typeRef skip diamond dims n)
  args : ∀ diamond, Suffices lexemes base 1 1 n (typeArgs skip diamond n)
  list : Suffices lexemes base 0 4 n (typeArgList skip n)
  arg : Suffices lexemes base 0 3 n (typeArg skip n)
  bound : ∀ start kind, Suffices lexemes base 1 0 n (boundedArg skip start kind n)

namespace TypesEnd

variable {n : Nat}

theorem segments_step (ends : TypesEnd lexemes base skip n) (diamond : Bool) :
    Suffices lexemes base 1 1 (n + 1) (typeSegments skip diamond (n + 1)) := by
  intro cursor on low left steps
  rw [typeSegments]
  refine .takeThen on left fun name named _ onNamed atNamed => ?_
  have applied : (appliedOr name (typeArgs skip diamond n) named).Ends lexemes named.position :=
    appliedOr_ends onNamed (Nat.le_refl _) fun inside =>
      (ends.args diamond named onNamed (by omega) inside (by omega)).mono (Nat.le_succ _)
  refine applied.bind fun segment behind _ onBehind le => ?_
  refine qualified_ends onBehind (by omega) fun next onNext atNext inside => ?_
  exact (ends.segments diamond next onNext (by omega) inside (by omega)).mono (by omega)

theorem ref_step (ends : TypesEnd lexemes base skip n) (skips : Skips lexemes base skip)
    (diamond dims : Bool) : Suffices lexemes base 0 2 (n + 1) (typeRef skip diamond dims (n + 1)) := by
  intro cursor on low _ steps
  rw [typeRef]
  have bound := on.bound
  refine (annotations_end (typeAnnotations_passes skip) skips on low (by omega)).bind fun _ passed _ onPassed le => ?_
  refine .branch (fun seen => .indexThen ?_) fun _ => .miss _ onPassed
  refine (ends.segments diamond passed onPassed (by omega) (onPassed.inside seen) (by omega)).bind
    fun segments behind _ onBehind gained => ?_
  have closed {counting : Read Nat} (counted : (counting behind).Ends lexemes behind.position) :
      (do
        let count ← counting
        let stop ← past
        pure (TypeRef.mk ⟨passed.position, stop⟩ segments count) : Read TypeRef) behind
        |>.Ends lexemes (cursor.position + 1) := by
    refine counted.bind fun count next _ onNext le => .pastThen ?_
    exact .pure _ onNext (by omega)
  cases dims with
  | true => exact closed (dimensions_ends onBehind (by omega))
  | false => exact closed (.pure 0 onBehind (Nat.le_refl _))

theorem args_step (ends : TypesEnd lexemes base skip n) (diamond : Bool) :
    Suffices lexemes base 1 1 (n + 1) (typeArgs skip diamond (n + 1)) := by
  intro cursor on low left steps
  rw [typeArgs]
  refine .whole _ on (.takeThen on left fun opener opened _ onOpened atOpened => ?_)
  have listed : (branch (·.seesKind .gt 0)
      (if diamond then (do let _ ← take; pure []) else miss .typeArguments)
      (typeArgList skip n) opened).Ends lexemes (opened.position + 1) := by
    refine .branch (fun seen => ?_) fun _ => ?_
    · cases diamond with
      | true =>
        refine .takeThen onOpened (onOpened.inside seen) fun _ closed _ onClosed atClosed => ?_
        exact .pure _ onClosed (Nat.le_of_eq atClosed.symm)
      | false => exact .miss _ onOpened
    · exact ends.list opened onOpened (by omega) onOpened.bound (by omega)
  refine listed.bind fun args next _ onNext le => .pastThen ?_
  exact .pure _ onNext (by omega)

theorem list_step (ends : TypesEnd lexemes base skip n) :
    Suffices lexemes base 0 4 (n + 1) (typeArgList skip (n + 1)) := by
  intro cursor on low left steps
  rw [typeArgList]
  refine (ends.arg cursor on low left (by omega)).bind fun arg behind _ onBehind gained => ?_
  refine separated_ends onBehind (by omega) fun next onNext atNext => ?_
  exact (ends.list next onNext (by omega) onNext.bound (by omega)).mono (by omega)

theorem arg_step (ends : TypesEnd lexemes base skip n) :
    Suffices lexemes base 0 3 (n + 1) (typeArg skip (n + 1)) := by
  intro cursor on low left steps
  rw [typeArg]
  refine .branch (fun seen => ?_) fun _ => ?_
  · refine .takeThen on (on.inside seen) fun mark marked _ onMarked atMarked => ?_
    have bounded (kind : BoundKind) {test : Lexeme → Bool} (seen : marked.sees test 0 = true) :
        (boundedArg skip mark.index kind n marked).Ends lexemes (cursor.position + 1) :=
      (ends.bound _ kind marked onMarked (by omega) (onMarked.inside seen) (by omega)).mono (by omega)
    refine .branch (bounded .upper) fun _ => .branch (bounded .lower) fun _ => .pastThen ?_
    exact .pure _ onMarked (Nat.le_of_eq atMarked.symm)
  · exact (ends.ref false true cursor on low left (by omega)).map

theorem bound_step (ends : TypesEnd lexemes base skip n) (start : Nat) (kind : BoundKind) :
    Suffices lexemes base 1 0 (n + 1) (boundedArg skip start kind (n + 1)) := by
  intro cursor on low left steps
  rw [boundedArg]
  refine .takeThen on left fun _ behind _ onBehind atBehind => ?_
  refine (ends.ref false true behind onBehind (by omega) onBehind.bound (by omega)).bind
    fun ref next _ onNext le => .pastThen ?_
  exact .pure _ onNext (by omega)

end TypesEnd

theorem types_end (skips : Skips lexemes base skip) (n : Nat) : TypesEnd lexemes base skip n := by
  -- The readers call each other with one step less, so one induction serves them all.
  induction n with
  | zero =>
    exact ⟨fun _ => .stuck (by decide), fun _ _ => .stuck (by decide), fun _ => .stuck (by decide),
      .stuck (by decide), .stuck (by decide), fun _ _ => .stuck (by decide)⟩
  | succ n ih =>
    exact ⟨ih.segments_step, ih.ref_step skips, ih.args_step, ih.list_step, ih.arg_step, ih.bound_step⟩

theorem Suffices.withSteps {read : Nat → Read α} {need slack : Nat}
    (each : ∀ n, Suffices lexemes base need slack n (read n)) (enough : slack ≤ 4)
    (on : cursor.On lexemes) (low : base ≤ cursor.position)
    (left : cursor.position + need ≤ lexemes.length) :
    (withSteps read cursor).Ends lexemes (cursor.position + 1) := by
  have steps := on.steps_eq
  exact each cursor.steps cursor on low left (by omega)

end Types

section Lists

variable {skip : Read Unit} {base : Nat}

theorem typeRef_ends (skips : Skips lexemes base skip) (diamond dims : Bool) (on : cursor.On lexemes)
    (low : base ≤ cursor.position) :
    (withSteps (typeRef skip diamond dims) cursor).Ends lexemes (cursor.position + 1) :=
  Suffices.withSteps (fun n => (types_end skips n).ref diamond dims) (by decide) on low on.bound

theorem typeArgs_ends (skips : Skips lexemes base skip) (diamond : Bool) (on : cursor.On lexemes)
    (low : base ≤ cursor.position) (inside : cursor.position < lexemes.length) :
    (withSteps (typeArgs skip diamond) cursor).Ends lexemes (cursor.position + 1) :=
  Suffices.withSteps (fun n => (types_end skips n).args diamond) (by decide) on low inside

theorem withSteps_ends {read : Nat → Read α} (on : cursor.On lexemes)
    (each : ∀ n, lexemes.length < n + cursor.position → (read n cursor).Ends lexemes floor) :
    (withSteps read cursor).Ends lexemes floor := by
  have steps := on.steps_eq
  have bound := on.bound
  exact each cursor.steps (by omega)

theorem typeList_ends (skips : Skips lexemes base skip) (separator : Kind) {n : Nat}
    (on : cursor.On lexemes) (low : base ≤ cursor.position)
    (steps : lexemes.length < n + cursor.position) :
    (typeList skip separator n cursor).Ends lexemes (cursor.position + 1) := by
  induction n generalizing cursor with
  | zero =>
    have bound := on.bound
    omega
  | succ n ih =>
    refine (typeRef_ends skips false true on low).bind fun ref behind _ onBehind gained => ?_
    refine .branch (fun seen => ?_) fun _ => .pure _ onBehind gained
    refine .takeThen onBehind (onBehind.inside seen) fun _ next _ onNext atNext => ?_
    exact (ih onNext (by omega) (by omega)).map.mono (by omega)

theorem typeParam_ends (skips : Skips lexemes base skip) (on : cursor.On lexemes)
    (low : base ≤ cursor.position) : (typeParam skip cursor).Ends lexemes (cursor.position + 1) := by
  rw [typeParam]
  have annotations := withSteps_ends on fun n =>
    annotations_end (parameterAnnotations_passes skip) skips on low
  refine annotations.bind fun _ passed _ onPassed le => ?_
  refine .branch (fun seen => .indexThen ?_) fun _ => .miss _ onPassed
  refine .takeThen onPassed (onPassed.inside seen) fun name named _ onNamed atNamed => ?_
  have bounds : (branch (·.seesWord "extends" 0)
      (do let _ ← take; withSteps (typeList skip .amp)) (pure []) named).Ends lexemes
        named.position := by
    refine .branch (fun seen => ?_) fun _ => .pure _ onNamed (Nat.le_refl _)
    refine .takeThen onNamed (onNamed.inside seen) fun _ behind _ onBehind atBehind => ?_
    exact withSteps_ends onBehind fun n steps =>
      (typeList_ends skips .amp onBehind (by omega) steps).mono (by omega)
  refine bounds.bind fun refs next _ onNext le => .pastThen ?_
  exact .pure _ onNext (by omega)

theorem typeParamList_ends (skips : Skips lexemes base skip) {n : Nat} (on : cursor.On lexemes)
    (low : base ≤ cursor.position) (steps : lexemes.length < n + cursor.position) :
    (typeParamList skip n cursor).Ends lexemes (cursor.position + 1) := by
  induction n generalizing cursor with
  | zero =>
    have bound := on.bound
    omega
  | succ n ih =>
    refine (typeParam_ends skips on low).bind fun param behind _ onBehind gained => ?_
    refine separated_ends onBehind (by omega) fun next onNext atNext => ?_
    exact (ih onNext (by omega) (by omega)).mono (by omega)

theorem typeParams_ends (skips : Skips lexemes base skip) (on : cursor.On lexemes)
    (low : base ≤ cursor.position + 1) (inside : cursor.position < lexemes.length) :
    (typeParams skip cursor).Ends lexemes (cursor.position + 1) := by
  rw [typeParams]
  refine .part _ (.takeThen on inside fun opener opened _ onOpened atOpened => ?_)
  have list := withSteps_ends onOpened fun n => typeParamList_ends skips onOpened (by omega)
  refine list.bind fun params next _ onNext le => .pastThen ?_
  exact .pure _ onNext (by omega)

end Lists

section Expressions

variable {skip : Read Unit} {base : Nat}

theorem chainSegment_ends (skips : Skips lexemes base skip) {name : Name} (on : cursor.On lexemes)
    (low : base ≤ cursor.position) :
    (chainSegment skip name cursor).Ends lexemes cursor.position := by
  have tried : (appliedOr name (expressionArgs skip) cursor).Ends lexemes cursor.position := by
    refine appliedOr_ends on (Nat.le_refl _) fun inside => .whole _ on ?_
    refine (typeArgs_ends skips false on low inside).bind fun args behind _ onBehind gained => ?_
    exact .branch (fun _ => .pure _ onBehind (by omega)) fun _ => .miss _ onBehind
  exact (Outcome.Ends.optional on (Nat.le_refl _) tried).map

theorem chainSegments_ends (skips : Skips lexemes base skip) {n : Nat} (on : cursor.On lexemes)
    (low : base ≤ cursor.position) (inside : cursor.position < lexemes.length)
    (steps : lexemes.length < n + cursor.position) :
    (chainSegments skip n cursor).Ends lexemes (cursor.position + 1) := by
  induction n generalizing cursor with
  | zero => omega
  | succ n ih =>
    rw [chainSegments]
    refine .takeThen on inside fun name named _ onNamed atNamed => ?_
    refine (chainSegment_ends skips onNamed (by omega)).bind fun segment behind _ onBehind le => ?_
    refine qualified_ends onBehind (by omega) fun next onNext atNext inside => ?_
    exact (ih onNext (by omega) inside (by omega)).mono (by omega)

theorem chain_ends (skips : Skips lexemes base skip) (on : cursor.On lexemes)
    (low : base ≤ cursor.position) (inside : cursor.position < lexemes.length) :
    (chain skip cursor).Ends lexemes (cursor.position + 1) := by
  refine .indexThen ?_
  have segments := withSteps_ends on fun n => chainSegments_ends skips on low inside
  refine segments.bind fun _ next _ onNext le => .pastThen ?_
  exact .pure _ onNext le

theorem witness_ends (skips : Skips lexemes base skip) (on : cursor.On lexemes)
    (low : base ≤ cursor.position) (inside : cursor.position + 1 < lexemes.length) :
    (witness skip cursor).Ends lexemes (cursor.position + 1) := by
  rw [witness]
  refine .takeThen on (by omega) fun _ dotted _ onDotted atDotted => ?_
  have args := (typeArgs_ends skips false onDotted (by omega) (by omega)).strict
  refine args.bind fun args behind _ onBehind gained => ?_
  exact (Outcome.Ends.takeKind .ident .methodName onBehind).map.mono (by omega)

end Expressions

end Specializer.Grammar
