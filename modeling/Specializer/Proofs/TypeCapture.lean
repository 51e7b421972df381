import Specializer.Proofs.Recorded
import Specializer.Proofs.TypeLayout

set_option autoImplicit false

namespace Specializer.Grammar

open Read

variable {lexemes : List Lexeme}

def Marked (lexemes : List Lexeme) (name : Name) : Prop :=
  name.Stands lexemes ∧ hasPlaceholder name.text = true

def PlainAt (lexemes : List Lexeme) (index : Nat) : Prop :=
  ∀ name, name.index = index → ¬ Marked lexemes name

def Caught (lexemes : List Lexeme) (start : Nat) (names : List Name) (stop : Nat) : Prop :=
  ∀ name, start ≤ name.index → name.index < stop → Marked lexemes name → name ∈ names

namespace Caught

variable {start middle stop : Nat} {names more : List Name}

theorem none (place : Nat) : Caught lexemes place [] place := by
  intro name low high
  omega

theorem one {cursor next : Cursor} {name : Name} (on : cursor.On lexemes)
    (taken : take cursor = .done name next) :
    Caught lexemes cursor.position [name] next.position := by
  obtain ⟨-, index, position, lexeme, found, text⟩ := on.take taken
  intro other low high marked
  have there : other.index = cursor.position := by omega
  have stands : lexemes[other.index]? = some ⟨.ident, other.text⟩ := marked.1
  rw [there, found] at stands
  cases stands
  have same : other = name := by cases other; cases name; simp_all
  exact List.mem_singleton.mpr same

theorem append (first : Caught lexemes start names middle)
    (second : Caught lexemes middle more stop) : Caught lexemes start (names ++ more) stop := by
  intro name low high marked
  rcases Nat.lt_or_ge name.index middle with before | behind
  · exact List.mem_append_left _ (first name low before marked)
  · exact List.mem_append_right _ (second name behind high marked)

theorem mono (caught : Caught lexemes start names stop)
    (sub : ∀ name ∈ names, Marked lexemes name → name ∈ more) : Caught lexemes start more stop :=
  fun name low high marked => sub name (caught name low high marked) marked

theorem behind (caught : Caught lexemes start names middle) (plain : PlainAt lexemes middle)
    (next : stop = middle + 1) : Caught lexemes start names stop := by
  intro name low high marked
  rcases Nat.lt_or_ge name.index middle with inside | past
  · exact caught name low inside marked
  · exact absurd marked (plain name (by omega))

theorem before (caught : Caught lexemes (start + 1) names stop) (plain : PlainAt lexemes start) :
    Caught lexemes start names stop := by
  intro name low high marked
  rcases Nat.lt_or_eq_of_le low with behind | same
  · exact caught name behind high marked
  · exact absurd marked (plain name same.symm)

end Caught

theorem Cursor.On.plain {cursor : Cursor} (on : cursor.On lexemes) {test : Lexeme → Bool}
    {ahead : Nat} (seen : cursor.sees test ahead = true)
    (plain : ∀ lexeme, test lexeme = true → lexeme.kind = .ident → hasPlaceholder lexeme.text = false) :
    PlainAt lexemes (cursor.position + ahead) := by
  rintro name place ⟨stands, has⟩
  obtain ⟨lexeme, found, passes⟩ := on.sees seen
  rw [Name.Stands, place, found] at stands
  cases stands
  rw [plain _ passes rfl] at has
  cases has

theorem Cursor.On.plainKind {cursor : Cursor} (on : cursor.On lexemes) {kind : Kind} {ahead : Nat}
    (seen : cursor.seesKind kind ahead = true) (other : kind ≠ .ident) :
    PlainAt lexemes (cursor.position + ahead) := by
  refine on.plain seen fun lexeme passes ident => ?_
  exact absurd ((eq_of_beq passes).symm.trans ident) other

theorem plain_of_words {words : List (List Char)}
    (plain : words.all (fun word => !hasPlaceholder word) = true) {text : List Char}
    (member : words.contains text = true) : hasPlaceholder text = false := by
  have word := List.all_eq_true.mp plain text (List.contains_iff_mem.mp member)
  simpa using word

theorem Cursor.On.plainWord {cursor : Cursor} (on : cursor.On lexemes) {word : String}
    (seen : cursor.seesWord word 0 = true) (plain : hasPlaceholder word.toList = false) :
    PlainAt lexemes cursor.position := by
  refine on.plain seen fun lexeme passes _ => ?_
  simp only [Lexeme.spells, Bool.and_eq_true, beq_iff_eq] at passes
  rw [passes.2, plain]

/-- The reader records all that is marked between where it starts and where it is done. -/
abbrev Catches {α : Type} (lexemes : List Lexeme) (read : Read α) (record : α → List Name) : Prop :=
  Ensures lexemes read fun start value stop => Caught lexemes start (record value) stop

abbrev CatchesBehind {α : Type} (lexemes : List Lexeme) (read : Read α) (record : α → List Name) :
    Prop :=
  Ensures lexemes read fun start value stop => Caught lexemes (start + 1) (record value) stop

def Unannotated (lexemes : List Lexeme) : Prop := ∀ lexeme ∈ lexemes, lexeme.kind ≠ .atSign

theorem Unannotated.sees (unannotated : Unannotated lexemes) {cursor : Cursor}
    (on : cursor.On lexemes) : cursor.seesKind .atSign 0 = false := by
  by_contra seen
  obtain ⟨lexeme, found, passes⟩ := on.sees (eq_true_of_ne_false seen)
  exact unannotated lexeme (List.mem_of_getElem? found) (eq_of_beq passes)

section Types

variable {skip : Read Unit}

theorem separated_catches {α : Type} {record : α → List Name} {closer : Kind} {what : Expected}
    {item : α} {more : Read (List α)} (closes : closer ≠ .ident)
    (later : Catches lexemes more fun items => items.flatMap record) {start : Nat}
    {cursor next : Cursor} {items : List α} (on : cursor.On lexemes)
    (first : Caught lexemes start (record item) cursor.position)
    (done : separated closer what item more cursor = .done items next) :
    next.On lexemes ∧ Caught lexemes start (items.flatMap record) next.position := by
  simp only [separated, branch_done, bind_done, pure_done, miss_done, and_false, or_false] at done
  rcases done with ⟨seen, _, middle, comma, rest, final, read, rfl, rfl⟩ |
    ⟨-, seen, _, middle, close, rfl, rfl⟩
  · obtain ⟨onMiddle, -, position, -⟩ := on.take comma
    obtain ⟨onNext, caught⟩ := later middle rest _ onMiddle read
    exact ⟨onNext, (first.behind (on.plainKind seen (by decide)) position).append caught⟩
  · obtain ⟨onNext, -, position, -⟩ := on.take close
    refine ⟨onNext, ?_⟩
    simpa using first.behind (on.plainKind seen closes) position

theorem segmentsRecorded_cons (segment : Segment) (rest : List Segment) :
    segmentsRecorded (segment :: rest) = segmentsRecorded [segment] ++ segmentsRecorded rest := by
  cases segment <;> simp [segmentsRecorded]

theorem appliedOr_catches {name : Name} {args : Read TypeArgs} {start : Nat} {cursor next : Cursor}
    {segment : Segment} (reads : CatchesBehind lexemes args TypeArgs.recorded)
    (on : cursor.On lexemes) (first : Caught lexemes start [name] cursor.position)
    (done : appliedOr name args cursor = .done segment next) :
    next.On lexemes ∧ Caught lexemes start (segmentsRecorded [segment]) next.position := by
  simp only [appliedOr, branch_done, bind_done, pure_done] at done
  rcases done with ⟨seen, found, middle, read, rfl, rfl⟩ | ⟨-, rfl, rfl⟩
  · obtain ⟨onNext, caught⟩ := reads _ _ _ on read
    refine ⟨onNext, ?_⟩
    simpa [segmentsRecorded] using first.append (caught.before (on.plainKind seen (by decide)))
  · exact ⟨on, by simpa [segmentsRecorded] using first⟩

theorem qualified_catches {segment : Segment} {more : Read (List Segment)} {start : Nat}
    {cursor next : Cursor} {segments : List Segment}
    (reads : Catches lexemes more segmentsRecorded) (on : cursor.On lexemes)
    (first : Caught lexemes start (segmentsRecorded [segment]) cursor.position)
    (done : qualified segment more cursor = .done segments next) :
    next.On lexemes ∧ Caught lexemes start (segmentsRecorded segments) next.position := by
  simp only [qualified, branch_done, bind_done, pure_done] at done
  rcases done with ⟨seen, _, middle, dot, rest, final, read, rfl, rfl⟩ | ⟨-, rfl, rfl⟩
  · simp only [Cursor.seesDotName, Bool.and_eq_true] at seen
    obtain ⟨onMiddle, -, position, -⟩ := on.take dot
    obtain ⟨onNext, caught⟩ := reads _ _ _ onMiddle read
    refine ⟨onNext, ?_⟩
    rw [segmentsRecorded_cons]
    exact (first.behind (on.plainKind seen.1 (by decide)) position).append caught
  · exact ⟨on, first⟩

theorem dimensions_catches (n : Nat) : Catches lexemes (dimensions n) fun _ => [] := by
  induction n with
  | zero => exact .stuck _
  | succ n ih =>
    intro cursor count next on done
    simp only [dimensions, branch_done, bind_done, pure_done, Bool.and_eq_true] at done
    rcases done with ⟨seen, _, opened, first, _, closed, second, _, _, more, -, rfl⟩ | ⟨-, -, rfl⟩
    · obtain ⟨onOpened, -, afterOpened, -⟩ := on.take first
      obtain ⟨onClosed, -, afterClosed, -⟩ := onOpened.take second
      obtain ⟨onNext, caught⟩ := ih _ _ _ onClosed more
      rw [afterClosed, afterOpened] at caught
      exact ⟨onNext, (caught.before (on.plainKind seen.2 (by decide))).before (on.plainKind seen.1 (by decide))⟩
    · exact ⟨on, .none _⟩

theorem annotations_none {test : Cursor → Bool} {read : Nat → Read Unit}
    (passes : PassesAnnotations skip test read) (unannotated : Unannotated lexemes) {n : Nat}
    {cursor next : Cursor} (on : cursor.On lexemes) (done : read n cursor = .done () next) :
    next = cursor := by
  cases n with
  | zero => simp only [passes.zero, stuck_done] at done
  | succ n =>
    simp only [passes.succ, branch_done, unannotated.sees on, Bool.false_and, Bool.false_eq_true,
      false_and, false_or, pure_done] at done
    exact done.2.2

structure TypesCatch (lexemes : List Lexeme) (skip : Read Unit) (n : Nat) : Prop where
  segments : ∀ diamond, Catches lexemes (typeSegments skip diamond n) segmentsRecorded
  ref : ∀ diamond dims, Catches lexemes (typeRef skip diamond dims n) TypeRef.recorded
  args : ∀ diamond, CatchesBehind lexemes (typeArgs skip diamond n) TypeArgs.recorded
  list : Catches lexemes (typeArgList skip n) fun args => args.flatMap TypeArg.recorded
  arg : Catches lexemes (typeArg skip n) TypeArg.recorded
  bound : ∀ start kind, CatchesBehind lexemes (boundedArg skip start kind n) TypeArg.recorded

namespace TypesCatch

variable {n : Nat} (caught : TypesCatch lexemes skip n)

include caught

theorem segments_step (diamond : Bool) :
    Catches lexemes (typeSegments skip diamond (n + 1)) segmentsRecorded := by
  intro cursor segments next on done
  simp only [typeSegments, bind_done] at done
  obtain ⟨name, named, taken, segment, applied, read, rest⟩ := done
  obtain ⟨onNamed, -⟩ := on.take taken
  obtain ⟨onApplied, first⟩ :=
    appliedOr_catches (caught.args diamond) onNamed (.one on taken) read
  exact qualified_catches (caught.segments diamond) onApplied first rest

theorem ref_step (unannotated : Unannotated lexemes) (diamond dims : Bool) :
    Catches lexemes (typeRef skip diamond dims (n + 1)) TypeRef.recorded := by
  intro cursor ref next on done
  rw [typeRef, bind_done] at done
  obtain ⟨_, _, skipped, done⟩ := done
  obtain rfl := annotations_none (typeAnnotations_passes skip) unannotated on skipped
  rw [branch_done, miss_done, and_false, or_false, bind_done] at done
  obtain ⟨-, _, _, start, done⟩ := done
  obtain ⟨rfl, rfl⟩ := (index_done _ _ _).mp start
  obtain ⟨segments, behind, read, done⟩ := (bind_done _ _ _ _ _).mp done
  obtain ⟨onBehind, first⟩ := caught.segments diamond _ _ _ on read
  cases dims with
  | true =>
    simp only [if_true, bind_done, past_done, pure_done] at done
    obtain ⟨count, last, counted, _, _, ⟨rfl, rfl⟩, rfl, rfl⟩ := done
    obtain ⟨onNext, more⟩ := dimensions_catches n _ _ _ onBehind counted
    exact ⟨onNext, by simpa [TypeRef.recorded] using first.append more⟩
  | false =>
    simp only [Bool.false_eq_true, if_false, bind_done, past_done, pure_done] at done
    obtain ⟨_, _, ⟨-, rfl⟩, _, _, ⟨rfl, rfl⟩, rfl, rfl⟩ := done
    exact ⟨onBehind, by simpa [TypeRef.recorded] using first⟩

theorem args_step (diamond : Bool) :
    CatchesBehind lexemes (typeArgs skip diamond (n + 1)) TypeArgs.recorded := by
  intro cursor args next on done
  simp only [typeArgs, whole_done, bind_done, branch_done, past_done, pure_done] at done
  obtain ⟨opener, opened, open_, list, final, choice, _, _, ⟨rfl, rfl⟩, rfl, rfl⟩ := done
  obtain ⟨onOpened, -, position, -⟩ := on.take open_
  rcases choice with ⟨seen, empty⟩ | ⟨-, read⟩
  · cases diamond with
    | false => exact absurd empty (by simp [miss_done])
    | true =>
      simp only [if_true, bind_done, pure_done] at empty
      obtain ⟨_, closed, close, rfl, rfl⟩ := empty
      obtain ⟨onNext, -, after, -⟩ := onOpened.take close
      have empty : Caught lexemes opened.position [] next.position :=
        (Caught.none _).behind (onOpened.plainKind seen (by decide)) after
      exact ⟨onNext, by simpa [TypeArgs.recorded_eq, TypeArgs.args, position] using empty⟩
  · obtain ⟨onNext, here⟩ := caught.list _ _ _ onOpened read
    exact ⟨onNext, by simpa [TypeArgs.recorded_eq, TypeArgs.args, position] using here⟩

theorem list_step :
    Catches lexemes (typeArgList skip (n + 1)) fun args => args.flatMap TypeArg.recorded := by
  intro cursor args next on done
  simp only [typeArgList, bind_done] at done
  obtain ⟨first, middle, read, rest⟩ := done
  obtain ⟨onMiddle, here⟩ := caught.arg _ _ _ on read
  exact separated_catches (by decide) caught.list onMiddle here rest

theorem bound_step (start : Nat) (kind : BoundKind) :
    CatchesBehind lexemes (boundedArg skip start kind (n + 1)) TypeArg.recorded := by
  intro cursor arg next on done
  simp only [boundedArg, bind_done, past_done, pure_done] at done
  obtain ⟨_, word, taken, ref, final, read, _, _, ⟨rfl, rfl⟩, rfl, rfl⟩ := done
  obtain ⟨onWord, -, position, -⟩ := on.take taken
  obtain ⟨onNext, here⟩ := caught.ref false true _ _ _ onWord read
  rw [position] at here
  exact ⟨onNext, here⟩

theorem arg_step : Catches lexemes (typeArg skip (n + 1)) TypeArg.recorded := by
  intro cursor arg next on done
  simp only [typeArg, branch_done, bind_done, past_done, pure_done] at done
  rcases done with ⟨seen, mark, marked, taken, choice⟩ | ⟨-, found, final, read, rfl, rfl⟩
  · obtain ⟨onMarked, -, position, -⟩ := on.take taken
    have bounded {kind : BoundKind} {word : String} (plain : hasPlaceholder word.toList = false)
        (sees : marked.seesWord word 0 = true)
        (read : boundedArg skip mark.index kind n marked = .done arg next) :
        next.On lexemes ∧ Caught lexemes cursor.position arg.recorded next.position := by
      obtain ⟨onNext, here⟩ := caught.bound _ _ _ _ _ onMarked read
      refine ⟨onNext, Caught.before ?_ (on.plainKind seen (by decide))⟩
      rw [← position]
      exact here.before (onMarked.plainWord sees plain)
    rcases choice with ⟨sees, read⟩ | ⟨-, ⟨sees, read⟩ | ⟨-, _, _, ⟨rfl, rfl⟩, rfl, rfl⟩⟩
    · exact bounded (by decide) sees read
    · exact bounded (by decide) sees read
    · exact ⟨onMarked, (Caught.none _).behind (on.plainKind seen (by decide)) position⟩
  · exact caught.ref false true _ _ _ on read

end TypesCatch

theorem types_catch (unannotated : Unannotated lexemes) (n : Nat) : TypesCatch lexemes skip n := by
  induction n with
  | zero =>
    exact ⟨fun _ => .stuck _, fun _ _ => .stuck _, fun _ => .stuck _, .stuck _, .stuck _,
      fun _ _ => .stuck _⟩
  | succ n ih =>
    exact
      { segments := ih.segments_step
        ref := ih.ref_step unannotated
        args := ih.args_step
        list := ih.list_step
        arg := ih.arg_step
        bound := ih.bound_step }

theorem typeList_catches (unannotated : Unannotated lexemes) {separator : Kind}
    (separates : separator ≠ .ident) (n : Nat) :
    Catches lexemes (typeList skip separator n) fun refs => refs.flatMap TypeRef.recorded := by
  induction n with
  | zero => exact .stuck _
  | succ n ih =>
    intro cursor refs next on done
    simp only [typeList, bind_done, branch_done, pure_done] at done
    obtain ⟨ref, middle, read, choice⟩ := done
    obtain ⟨onMiddle, first⟩ :=
      withSteps_ensures (fun n => (types_catch unannotated n).ref false true) _ _ _ on read
    rcases choice with ⟨seen, _, comma, taken, more, final, rest, rfl, rfl⟩ | ⟨-, rfl, rfl⟩
    · obtain ⟨onComma, -, position, -⟩ := onMiddle.take taken
      obtain ⟨onNext, later⟩ := ih _ _ _ onComma rest
      exact ⟨onNext, (first.behind (onMiddle.plainKind seen separates) position).append later⟩
    · exact ⟨onMiddle, by simpa using first⟩

theorem typeParam_catches (unannotated : Unannotated lexemes) :
    Catches lexemes (typeParam skip) TypeParam.recorded := by
  intro cursor param next on done
  simp only [typeParam, bind_done, branch_done, miss_done, and_false, or_false, index_done, past_done,
    pure_done] at done
  obtain ⟨_, _, skipped, -, _, passed, ⟨rfl, rfl⟩, name, named, taken, bounds, final, choice, _, _,
    ⟨rfl, rfl⟩, rfl, rfl⟩ := done
  obtain rfl := annotations_none (parameterAnnotations_passes skip) unannotated on skipped
  obtain ⟨onNamed, -⟩ := on.take taken
  have first : Caught lexemes passed.position [name] named.position := .one on taken
  rcases choice with ⟨sees, _, word, extends_, read⟩ | ⟨-, rfl, rfl⟩
  · obtain ⟨onWord, -, after, -⟩ := onNamed.take extends_
    obtain ⟨onNext, later⟩ :=
      withSteps_ensures (typeList_catches unannotated (by decide)) _ _ _ onWord read
    exact ⟨onNext, (first.behind (onNamed.plainWord sees (by decide)) after).append later⟩
  · exact ⟨onNamed, first⟩

theorem typeParamList_catches (unannotated : Unannotated lexemes) (n : Nat) :
    Catches lexemes (typeParamList skip n) fun params => params.flatMap TypeParam.recorded := by
  induction n with
  | zero => exact .stuck _
  | succ n ih =>
    intro cursor params next on done
    simp only [typeParamList, bind_done] at done
    obtain ⟨param, middle, read, rest⟩ := done
    obtain ⟨onMiddle, first⟩ := typeParam_catches unannotated _ _ _ on read
    exact separated_catches (by decide) ih onMiddle first rest

theorem typeParams_catches (unannotated : Unannotated lexemes) :
    CatchesBehind lexemes (typeParams skip) TypeParams.recorded := by
  intro cursor params next on done
  simp only [typeParams, part_done, bind_done, past_done, pure_done] at done
  obtain ⟨opener, opened, taken, list, final, read, _, _, ⟨rfl, rfl⟩, rfl, rfl⟩ := done
  obtain ⟨onOpened, -, position, -⟩ := on.take taken
  obtain ⟨onNext, caught⟩ :=
    withSteps_ensures (typeParamList_catches unannotated) _ _ _ onOpened read
  rw [position] at caught
  exact ⟨onNext, caught⟩

end Types

section Expressions

variable {skip : Read Unit}

theorem expressionArgs_catches (unannotated : Unannotated lexemes) :
    CatchesBehind lexemes (expressionArgs skip) TypeArgs.recorded := by
  intro cursor args next on done
  simp only [expressionArgs, whole_done, bind_done, branch_done, pure_done, miss_done, and_false,
    or_false] at done
  obtain ⟨found, middle, read, -, rfl, rfl⟩ := done
  exact withSteps_ensures (fun n => (types_catch unannotated n).args false) _ _ _ on read

theorem chainSegments_catches (unannotated : Unannotated lexemes) (n : Nat) :
    Catches lexemes (chainSegments skip n) segmentsRecorded := by
  induction n with
  | zero => exact .stuck _
  | succ n ih =>
    intro cursor segments next on done
    simp only [chainSegments, chainSegment, bind_done, pure_done] at done
    obtain ⟨name, named, taken, segment, applied, ⟨found, middle, tried, rfl, rfl⟩, rest⟩ := done
    obtain ⟨onNamed, -⟩ := on.take taken
    have first : Caught lexemes cursor.position [name] named.position := .one on taken
    rcases optional_done _ _ _ _ tried with ⟨segment, rfl, read⟩ | ⟨rfl, rfl⟩
    · obtain ⟨onApplied, here⟩ :=
        appliedOr_catches (expressionArgs_catches unannotated) onNamed first read
      exact qualified_catches ih onApplied here rest
    -- What looked like arguments is none, and will be read again.
    · exact qualified_catches ih onNamed (by simpa [segmentsRecorded] using first) rest

theorem segmentsRecorded_irrelevant {segments : List Segment}
    (irrelevant : segments.any Segment.isRelevant = false) :
    ∀ name ∈ segmentsRecorded segments, hasPlaceholder name.text = false := by
  induction segments with
  | nil => simp [segmentsRecorded]
  | cons segment rest ih =>
    simp only [List.any_cons, Bool.or_eq_false_iff] at irrelevant
    cases segment with
    | plain name => simpa [segmentsRecorded, Segment.isRelevant] using ⟨irrelevant.1, ih irrelevant.2⟩
    | applied name args => simp [Segment.isRelevant] at irrelevant

theorem chain_catches (unannotated : Unannotated lexemes) :
    Catches lexemes (chain skip) fun found => found.toList.flatMap TypeRef.recorded := by
  intro cursor found next on done
  simp only [chain, bind_done, index_done, past_done, pure_done] at done
  obtain ⟨_, _, ⟨rfl, rfl⟩, segments, final, read, _, _, ⟨rfl, rfl⟩, rfl, rfl⟩ := done
  obtain ⟨onNext, caught⟩ :=
    withSteps_ensures (chainSegments_catches unannotated) _ _ _ on read
  refine ⟨onNext, ?_⟩
  split
  next => simpa [TypeRef.recorded] using caught
  next irrelevant =>
    refine caught.mono fun name member marked => ?_
    have plain := segmentsRecorded_irrelevant (Bool.eq_false_iff.mpr irrelevant) name member
    rw [marked.2] at plain
    cases plain

theorem witness_catches (unannotated : Unannotated lexemes) {cursor next : Cursor} {member : Member}
    (on : cursor.On lexemes) (angled : cursor.seesKind .lt 1 = true)
    (done : witness skip cursor = .done member next) :
    next.On lexemes ∧ Caught lexemes (cursor.position + 1) member.recorded next.position := by
  simp only [witness, takeKind, bind_done, branch_done, strict_done, fail_done, and_false, or_false,
    pure_done] at done
  obtain ⟨_, dotted, dot, args, behind, read, method, final, ⟨-, taken⟩, rfl, rfl⟩ := done
  obtain ⟨onDotted, -, position, -⟩ := on.take dot
  obtain ⟨onBehind, inner⟩ :=
    withSteps_ensures (fun n => (types_catch unannotated n).args false) _ _ _ onDotted read
  obtain ⟨onNext, -⟩ := onBehind.take taken
  rw [position] at inner
  have all := (inner.before (on.plainKind angled (by decide))).append (.one onBehind taken)
  refine ⟨onNext, all.mono fun name member _ => ?_⟩
  rw [Member.recorded]
  simpa [or_comm] using member

end Expressions

end Specializer.Grammar
