import Specializer.Proofs.TypeLayout

set_option autoImplicit false

namespace Specializer

def KindAt (lexemes : List Lexeme) (kind : Kind) (index : Nat) : Prop :=
  ∃ lexeme, lexemes[index]? = some lexeme ∧ lexeme.kind = kind

theorem KindAt.lt {lexemes : List Lexeme} {kind : Kind} {index : Nat} (there : KindAt lexemes kind index) :
    index < lexemes.length := by
  obtain ⟨lexeme, found, -⟩ := there
  exact (List.getElem?_eq_some_iff.mp found).1

theorem KindAt.unique {lexemes : List Lexeme} {kind other : Kind} {index : Nat}
    (there : KindAt lexemes kind index) (also : KindAt lexemes other index) : kind = other := by
  obtain ⟨lexeme, found, rfl⟩ := there
  obtain ⟨second, same, rfl⟩ := also
  rw [found] at same
  cases same
  rfl

structure After (lexemes : List Lexeme) (place index : Nat) : Prop where
  behind : place < index
  solid : Solid lexemes index
  first : ∀ between, place < between → between < index → ¬ Solid lexemes between

theorem After.unique {lexemes : List Lexeme} {place index other : Nat} (after : After lexemes place index)
    (also : After lexemes place other) : index = other := by
  rcases Nat.lt_trichotomy index other with less | same | more
  next => exact absurd after.solid (also.first index after.behind less)
  next => exact same
  next => exact absurd also.solid (after.first other also.behind more)

structure Cell (lexemes : List Lexeme) (left : Nat) (entry : Range) (right : Nat) : Prop where
  before : After lexemes left entry.start ∨
    ∃ mark, After lexemes left mark ∧ KindAt lexemes .atSign mark ∧ mark < entry.start
  nonempty : entry.start < entry.stop
  behind : After lexemes (entry.stop - 1) right

theorem Cell.order {lexemes : List Lexeme} {left right : Nat} {entry : Range}
    (cell : Cell lexemes left entry right) : left < entry.start ∧ entry.stop ≤ right := by
  have nonempty := cell.nonempty
  have behind := cell.behind.behind
  refine ⟨?_, by omega⟩
  rcases cell.before with start | ⟨mark, after, -, later⟩
  next => exact start.behind
  next => exact Nat.lt_trans after.behind later

/-- Entries from the separator in front of the first one through the closing bracket. -/
inductive Fenced (lexemes : List Lexeme) : Nat → List Range → Nat → Prop
  | last {left right : Nat} {entry : Range} (cell : Cell lexemes left entry right)
      (closes : KindAt lexemes .gt right) : Fenced lexemes left [entry] right
  | more {left comma right : Nat} {entry : Range} {rest : List Range} (cell : Cell lexemes left entry comma)
      (separates : KindAt lexemes .comma comma) (fenced : Fenced lexemes comma rest right) :
      Fenced lexemes left (entry :: rest) right

namespace Fenced

variable {lexemes : List Lexeme} {left right : Nat} {entries : List Range}

theorem closed (fenced : Fenced lexemes left entries right) : KindAt lexemes .gt right := by
  induction fenced with
  | last _ closes => exact closes
  | more _ _ _ ih => exact ih

theorem order (fenced : Fenced lexemes left entries right) : left < right := by
  induction fenced with
  | last cell _ =>
    have nonempty := cell.nonempty
    have inside := cell.order
    omega
  | more cell _ _ ih =>
    have nonempty := cell.nonempty
    have inside := cell.order
    omega

theorem first {entry : Range} {rest : List Range} (fenced : Fenced lexemes left (entry :: rest) right) :
    ∃ place, Cell lexemes left entry place ∧
      (rest = [] ∧ place = right ∧ KindAt lexemes .gt place ∨ KindAt lexemes .comma place) := by
  cases fenced with
  | last cell closes => exact ⟨right, cell, .inl ⟨rfl, rfl, closes⟩⟩
  | more cell separates _ => exact ⟨_, cell, .inr separates⟩

end Fenced

def Segment.last : Segment → Nat
  | .plain name => name.index
  | .applied _ list => list.range.stop - 1

structure TypeRef.Written (lexemes : List Lexeme) (ref : TypeRef) : Prop where
  begins : ∃ first rest, ref.segments = first :: rest ∧ first.name.index = ref.range.start ∧
    (rest = [] ∧ ref.dims = 0 ∧ ref.range.stop = first.last + 1 ∨
      ∃ next, After lexemes first.last next ∧ next < ref.range.stop ∧
        (KindAt lexemes .dot next ∧ rest ≠ [] ∨ KindAt lexemes .lsqb next ∧ ref.dims ≠ 0))
  opens : ∀ segment ∈ ref.segments, ∀ list, segment.args? = some list →
    After lexemes segment.name.index list.range.start

structure TypeArgs.Written (lexemes : List Lexeme) (list : TypeArgs) : Prop where
  opens : KindAt lexemes .lt list.range.start
  entries : (list.args = [] ∧ After lexemes list.range.start (list.range.stop - 1)) ∨
    Fenced lexemes list.range.start (list.args.map TypeArg.range) (list.range.stop - 1)
  closes : KindAt lexemes .gt (list.range.stop - 1)

structure TypeParams.Written (lexemes : List Lexeme) (list : TypeParams) : Prop where
  opens : KindAt lexemes .lt list.range.start
  entries : Fenced lexemes list.range.start (list.params.map TypeParam.range) (list.range.stop - 1)

namespace Subtree

def Written (lexemes : List Lexeme) : Subtree → Prop
  | ref r => r.Written lexemes
  | args list => list.Written lexemes
  | params list => list.Written lexemes
  | wildcard range _ => KindAt lexemes .qmark range.start
  | _ => True

abbrev AllWritten (lexemes : List Lexeme) : Subtree → Prop := Everywhere (Written lexemes)

end Subtree

namespace Grammar

open Read

section Places

variable {lexemes : List Lexeme} {cursor : Cursor}

theorem Cursor.On.kindAt (on : cursor.On lexemes) {kind : Kind} (seen : cursor.seesKind kind 0 = true) :
    KindAt lexemes kind cursor.position := by
  obtain ⟨lexeme, found, same⟩ := on.sees seen
  exact ⟨lexeme, found, by simpa using same⟩

theorem IdentAt.ne {index other : Nat} {kind : Kind} (ident : IdentAt lexemes index)
    (there : KindAt lexemes kind other) (differs : kind ≠ .ident) : index ≠ other := by
  rintro rfl
  exact differs (there.unique ident)

theorem Meaningful.after (meaningful : Meaningful lexemes) {place : Nat}
    (inside : place + 1 < lexemes.length) : After lexemes place (place + 1) :=
  ⟨Nat.lt_succ_self _, meaningful.solid inside, fun between above below _ => by omega⟩

end Places

section Entries

variable {α : Type} {lexemes : List Lexeme} {place : α → Range} {good : α → Prop}

abbrev Annotated (lexemes : List Lexeme) (start stop : Nat) : Prop :=
  stop = start ∨ KindAt lexemes .atSign start ∧ start ≤ stop

structure Entered (lexemes : List Lexeme) (place : α → Range) (good : α → Prop) (start : Nat) (value : α)
    (stop : Nat) : Prop where
  before : (place value).start = start ∨ KindAt lexemes .atSign start ∧ start < (place value).start
  nonempty : (place value).start < (place value).stop
  ends : (place value).stop = stop
  good : good value

theorem Entered.cell (meaningful : Meaningful lexemes) {left right : Nat} {value : α}
    (entered : Entered lexemes place good (left + 1) value right) (inside : right < lexemes.length) :
    Cell lexemes left (place value) right := by
  have nonempty := entered.nonempty
  have ends := entered.ends
  refine ⟨?_, nonempty, ?_⟩
  next =>
    rcases entered.before with start | ⟨mark, later⟩
    next =>
      rw [start]
      exact .inl (meaningful.after (by omega))
    next => exact .inr ⟨left + 1, meaningful.after mark.lt, mark, later⟩
  next =>
    have last : (place value).stop - 1 + 1 = right := by omega
    exact last ▸ meaningful.after (last ▸ inside)

def FencedList (lexemes : List Lexeme) (place : α → Range) (good : α → Prop) (start : Nat)
    (items : List α) (stop : Nat) : Prop :=
  (∃ right, stop = right + 1 ∧
    ∀ left, start = left + 1 → Fenced lexemes left (items.map place) right) ∧ ∀ item ∈ items, good item

theorem separated_fenced (meaningful : Meaningful lexemes) {what : Expected} {item : α}
    {more : Read (List α)} {start : Nat} {cursor next : Cursor} {items : List α}
    (later : Ensures lexemes more (FencedList lexemes place good)) (on : cursor.On lexemes)
    (first : Entered lexemes place good start item cursor.position)
    (done : separated .gt what item more cursor = .done items next) :
    next.On lexemes ∧ FencedList lexemes place good start items next.position := by
  simp only [separated, branch_done, bind_done, pure_done, miss_done, and_false, or_false] at done
  rcases done with ⟨seen, _, middle, comma, rest, final, read, rfl, rfl⟩ | ⟨-, seen, _, middle, close, rfl, rfl⟩
  next =>
    have separates := on.kindAt seen
    obtain ⟨onMiddle, -, position, -⟩ := on.take comma
    obtain ⟨onNext, ⟨right, stop, fenced⟩, goodRest⟩ := later _ _ _ onMiddle read
    refine ⟨onNext, ⟨right, stop, fun left behind => ?_⟩, ?_⟩
    next =>
      subst behind
      exact .more (first.cell meaningful separates.lt) separates (fenced _ position)
    next => simpa using ⟨first.good, goodRest⟩
  next =>
    have closes := on.kindAt seen
    obtain ⟨onNext, -, position, -⟩ := on.take close
    refine ⟨onNext, ⟨cursor.position, position, fun left behind => ?_⟩, ?_⟩
    next =>
      subst behind
      exact .last (first.cell meaningful closes.lt) closes
    next => simpa using first.good

theorem annotations_at {skip : Read Unit} {test : Cursor → Bool} {read : Nat → Read Unit}
    (passes : PassesAnnotations skip test read) (skips : Forward lexemes skip) (n : Nat) :
    Ensures lexemes (read n) fun start _ stop => Annotated lexemes start stop := by
  intro cursor _ next on done
  obtain ⟨onNext, forward⟩ := annotations_forward passes skips n _ _ _ on done
  refine ⟨onNext, ?_⟩
  cases n with
  | zero => simp only [passes.zero, stuck_done] at done
  | succ n =>
    simp only [passes.succ, branch_done, pure_done, Bool.and_eq_true] at done
    rcases done with ⟨seen, -⟩ | ⟨-, -, rfl⟩
    next => exact .inr ⟨on.kindAt seen.1, forward⟩
    next => exact .inl rfl

-- A name behind annotations does not stand where these begin.
theorem Annotated.before {start index : Nat} (annotated : Annotated lexemes start index)
    (ident : IdentAt lexemes index) :
    index = start ∨ KindAt lexemes .atSign start ∧ start < index := by
  rcases annotated with rfl | ⟨mark, forward⟩
  next => exact .inl rfl
  next =>
    have apart := ident.ne mark (by decide)
    exact .inr ⟨mark, by omega⟩

end Entries

section Types

variable {lexemes : List Lexeme} {skip : Read Unit}

abbrev EnteredRef (lexemes : List Lexeme) : Nat → TypeRef → Nat → Prop :=
  Entered lexemes TypeRef.range fun ref => (Subtree.ref ref).AllWritten lexemes

abbrev EnteredArg (lexemes : List Lexeme) : Nat → TypeArg → Nat → Prop :=
  Entered lexemes TypeArg.range fun arg => arg.subtree.AllWritten lexemes

structure ArgsWritten (lexemes : List Lexeme) (start : Nat) (list : TypeArgs) (stop : Nat) : Prop where
  starts : list.range.start = start
  ends : list.range.stop = stop
  nonempty : start < stop
  written : (Subtree.args list).AllWritten lexemes

abbrev ReadsArgs (lexemes : List Lexeme) (read : Read TypeArgs) : Prop :=
  Ensures lexemes read fun start list stop => KindAt lexemes .lt start → ArgsWritten lexemes start list stop

def SegmentsJoined (lexemes : List Lexeme) (segments : List Segment) : Prop :=
  ∀ segment ∈ segments, ∀ list, segment.args? = some list →
    After lexemes segment.name.index list.range.start ∧ (Subtree.args list).AllWritten lexemes

theorem SegmentsJoined.append {first rest : List Segment} (left : SegmentsJoined lexemes first)
    (right : SegmentsJoined lexemes rest) : SegmentsJoined lexemes (first ++ rest) := by
  intro segment member
  rcases List.mem_append.mp member with there | there
  next => exact left segment there
  next => exact right segment there

theorem SegmentsJoined.plain {name : Name} : SegmentsJoined lexemes [.plain name] := by
  intro segment member list given
  cases List.mem_singleton.mp member
  cases given

structure SegmentsWritten (lexemes : List Lexeme) (start : Nat) (segments : List Segment) (stop : Nat) :
    Prop where
  begins : ∃ first rest, segments = first :: rest ∧ first.name.index = start ∧
    (rest = [] ∧ stop = first.last + 1 ∨
      KindAt lexemes .dot (first.last + 1) ∧ first.last + 1 < stop ∧ rest ≠ [])
  joined : SegmentsJoined lexemes segments

theorem SegmentsWritten.ref (meaningful : Meaningful lexemes) {start middle stop dims : Nat}
    {segments : List Segment} (written : SegmentsWritten lexemes start segments middle)
    (behind : dims = 0 ∧ stop = middle ∨ KindAt lexemes .lsqb middle ∧ middle < stop ∧ dims ≠ 0) :
    (Subtree.ref (.mk ⟨start, stop⟩ segments dims)).AllWritten lexemes := by
  refine .intro ⟨?_, fun segment member list given => (written.joined segment member list given).1⟩ ?_
  next =>
    obtain ⟨first, rest, same, index, ends⟩ := written.begins
    refine ⟨first, rest, same, index, ?_⟩
    rcases ends with ⟨alone, rfl⟩ | ⟨dot, further, more⟩
    next =>
      rcases behind with ⟨none, rfl⟩ | ⟨bracket, further, some⟩
      next => exact .inl ⟨alone, none, rfl⟩
      next => exact .inr ⟨_, meaningful.after bracket.lt, further, .inr ⟨bracket, some⟩⟩
    next =>
      have within : first.last + 1 < stop := by omega
      exact .inr ⟨_, meaningful.after dot.lt, within, .inl ⟨dot, more⟩⟩
  next =>
    intro child member
    obtain ⟨list, found, rfl⟩ := List.mem_map.mp member
    obtain ⟨segment, present, given⟩ := List.mem_filterMap.mp found
    exact (written.joined segment present list given).2

theorem appliedOr_written (meaningful : Meaningful lexemes) {name : Name} {args : Read TypeArgs}
    {cursor next : Cursor} {segment : Segment} (reads : ReadsArgs lexemes args)
    (on : cursor.On lexemes) (behind : cursor.position = name.index + 1)
    (done : appliedOr name args cursor = .done segment next) :
    next.On lexemes ∧ segment.name = name ∧ cursor.position ≤ next.position ∧
      next.position = segment.last + 1 ∧ SegmentsJoined lexemes [segment] := by
  simp only [appliedOr, branch_done, bind_done, pure_done] at done
  rcases done with ⟨seen, list, middle, read, rfl, rfl⟩ | ⟨-, rfl, rfl⟩
  next =>
    have opens := on.kindAt seen
    obtain ⟨onNext, given⟩ := reads _ _ _ on read
    have written := given opens
    have nonempty := written.nonempty
    refine ⟨onNext, rfl, Nat.le_of_lt nonempty, ?_, fun segment member list given => ?_⟩
    next =>
      rw [Segment.last, written.ends]
      omega
    next =>
      cases List.mem_singleton.mp member
      cases given
      refine ⟨?_, written.written⟩
      rw [written.starts, behind]
      exact meaningful.after (behind ▸ opens.lt)
  next => exact ⟨on, rfl, Nat.le_refl _, behind, .plain⟩

abbrev ReadsNames (lexemes : List Lexeme) (read : Read (List Segment)) : Prop :=
  Ensures lexemes read fun start segments stop =>
    start < stop ∧ SegmentsWritten lexemes start segments stop

theorem qualified_written {segment : Segment} {more : Read (List Segment)} {start : Nat}
    {cursor next : Cursor} {segments : List Segment} (reads : ReadsNames lexemes more)
    (on : cursor.On lexemes) (index : segment.name.index = start)
    (ends : cursor.position = segment.last + 1) (first : SegmentsJoined lexemes [segment])
    (done : qualified segment more cursor = .done segments next) :
    next.On lexemes ∧ cursor.position ≤ next.position ∧
      SegmentsWritten lexemes start segments next.position := by
  simp only [qualified, branch_done, bind_done, pure_done] at done
  rcases done with ⟨seen, _, middle, dot, rest, final, read, rfl, rfl⟩ | ⟨-, rfl, rfl⟩
  next =>
    simp only [Cursor.seesDotName, Bool.and_eq_true] at seen
    obtain ⟨onMiddle, -, position, -⟩ := on.take dot
    obtain ⟨onNext, forward, written⟩ := reads _ _ _ onMiddle read
    obtain ⟨second, further, rfl, -⟩ := written.begins
    refine ⟨onNext, by omega, ⟨segment, _, rfl, index, .inr ⟨ends ▸ on.kindAt seen.1, by omega, ?_⟩⟩, ?_⟩
    next => exact List.cons_ne_nil _ _
    next => exact first.append written.joined
  next => exact ⟨on, Nat.le_refl _, ⟨segment, [], rfl, index, .inl ⟨rfl, ends⟩⟩, first⟩

theorem dimensions_written (n : Nat) :
    Ensures lexemes (dimensions n) fun start dims stop =>
      dims = 0 ∧ stop = start ∨ KindAt lexemes .lsqb start ∧ start < stop ∧ dims ≠ 0 := by
  intro cursor dims next on done
  cases n with
  | zero => cases done
  | succ n =>
    simp only [dimensions, branch_done, bind_done, pure_done, Bool.and_eq_true] at done
    rcases done with ⟨seen, _, opened, first, _, closed, second, _, _, more, rfl, rfl⟩ | ⟨-, rfl, rfl⟩
    next =>
      obtain ⟨onOpened, -, afterOpened, -⟩ := on.take first
      obtain ⟨onClosed, -, afterClosed, -⟩ := onOpened.take second
      obtain ⟨onNext, forward⟩ := dimensions_forward n _ _ _ onClosed more
      exact ⟨onNext, .inr ⟨on.kindAt seen.1, by omega, Nat.succ_ne_zero _⟩⟩
    next => exact ⟨on, .inl ⟨rfl, rfl⟩⟩

structure TypesWritten (lexemes : List Lexeme) (skip : Read Unit) (n : Nat) : Prop where
  segments : ∀ diamond, ReadsNames lexemes (typeSegments skip diamond n)
  ref : ∀ diamond dims, Ensures lexemes (typeRef skip diamond dims n) (EnteredRef lexemes)
  args : ∀ diamond, ReadsArgs lexemes (typeArgs skip diamond n)
  list : Ensures lexemes (typeArgList skip n)
    (FencedList lexemes TypeArg.range fun arg => arg.subtree.AllWritten lexemes)
  arg : Ensures lexemes (typeArg skip n) (EnteredArg lexemes)
  bound : ∀ mark kind, Ensures lexemes (boundedArg skip mark kind n) fun start arg stop =>
    KindAt lexemes .qmark mark → start = mark + 1 → EnteredArg lexemes mark arg stop

namespace TypesWritten

variable {n : Nat}

theorem segments_step (meaningful : Meaningful lexemes) (written : TypesWritten lexemes skip n)
    (diamond : Bool) : ReadsNames lexemes (typeSegments skip diamond (n + 1)) := by
  intro cursor segments next on done
  simp only [typeSegments, bind_done] at done
  obtain ⟨name, named, taken, segment, applied, read, rest⟩ := done
  obtain ⟨onNamed, index, position, -⟩ := on.take taken
  obtain ⟨onApplied, rfl, forward, ends, joined⟩ :=
    appliedOr_written meaningful (written.args diamond) onNamed (by omega) read
  obtain ⟨onNext, further, all⟩ :=
    qualified_written (written.segments diamond) onApplied index ends joined rest
  exact ⟨onNext, by omega, all⟩

theorem ref_step (meaningful : Meaningful lexemes) (skips : Forward lexemes skip)
    (written : TypesWritten lexemes skip n) (diamond dims : Bool) :
    Ensures lexemes (typeRef skip diamond dims (n + 1)) (EnteredRef lexemes) := by
  intro cursor ref next on done
  rw [typeRef, bind_done] at done
  obtain ⟨_, _, skipped, done⟩ := done
  rw [branch_done, miss_done, and_false, or_false, bind_done] at done
  obtain ⟨seen, _, passed, start, done⟩ := done
  obtain ⟨rfl, rfl⟩ := (index_done _ _ _).mp start
  obtain ⟨segments, behind, read, done⟩ := (bind_done _ _ _ _ _).mp done
  obtain ⟨onPassed, annotated⟩ :=
    annotations_at (typeAnnotations_passes skip) skips n _ _ _ on skipped
  have ident : IdentAt lexemes passed.position := by
    refine onPassed.identAt seen fun lexeme passes => ?_
    rcases Bool.or_eq_true_iff.mp passes with name | primitive
    next => exact ident_of_isName name
    next => exact ident_of_isPrimitive primitive
  obtain ⟨onBehind, consumed, names⟩ := written.segments diamond _ _ _ onPassed read
  -- A reference that may have dimensions counts brackets; any other counts none.
  have counted (counting : Read Nat)
      (counts : Ensures lexemes counting fun start dims stop =>
        dims = 0 ∧ stop = start ∨ KindAt lexemes .lsqb start ∧ start < stop ∧ dims ≠ 0)
      (done : (do
        let count ← counting
        let stop ← past
        pure (TypeRef.mk ⟨passed.position, stop⟩ segments count)) behind = .done ref next) :
      next.On lexemes ∧ EnteredRef lexemes cursor.position ref next.position := by
    simp only [bind_done, past_done, pure_done] at done
    obtain ⟨count, last, read, _, _, ⟨rfl, rfl⟩, rfl, rfl⟩ := done
    obtain ⟨onNext, brackets⟩ := counts _ _ _ onBehind read
    have nonempty : passed.position < next.position := by omega
    exact ⟨onNext, annotated.before ident, nonempty, rfl, names.ref meaningful brackets⟩
  cases dims with
  | true => exact counted _ (dimensions_written n) done
  | false =>
    refine counted (pure 0) (fun cursor dims next on done => ?_) done
    obtain ⟨rfl, rfl⟩ := (pure_done _ _ _ _).mp done
    exact ⟨on, .inl ⟨rfl, rfl⟩⟩

theorem args_step (meaningful : Meaningful lexemes) (written : TypesWritten lexemes skip n)
    (diamond : Bool) : ReadsArgs lexemes (typeArgs skip diamond (n + 1)) := by
  intro cursor list next on done
  simp only [typeArgs, whole_done, bind_done, branch_done, past_done, pure_done] at done
  obtain ⟨opener, opened, taken, args, final, choice, _, _, ⟨rfl, rfl⟩, rfl, rfl⟩ := done
  obtain ⟨onOpened, index, position, -⟩ := on.take taken
  rcases choice with ⟨seen, empty⟩ | ⟨-, read⟩
  next =>
    -- Only where a diamond is allowed may the list have no entries.
    cases diamond with
    | false => exact absurd empty (by simp [miss_done])
    | true =>
      simp only [if_true, bind_done, pure_done] at empty
      obtain ⟨_, closed, close, rfl, rfl⟩ := empty
      have closes := onOpened.kindAt seen
      obtain ⟨onNext, -, after, -⟩ := onOpened.take close
      refine ⟨onNext, fun opens => ⟨index, rfl, by omega, .intro ⟨index ▸ opens, .inl ⟨rfl, ?_⟩, ?_⟩ ?_⟩⟩
      next =>
        have last : next.position - 1 = cursor.position + 1 := by omega
        simp only [TypeArgs.range, index, last]
        exact meaningful.after (position ▸ closes.lt)
      next =>
        have last : next.position - 1 = opened.position := by omega
        simp only [TypeArgs.range, last]
        exact closes
      next => exact List.forall_mem_nil _
  next =>
    obtain ⟨onNext, ⟨right, stop, fenced⟩, each⟩ := written.list _ _ _ onOpened read
    refine ⟨onNext, fun opens => ?_⟩
    have listed := fenced cursor.position position
    have last : next.position - 1 = right := by omega
    have inside : cursor.position < next.position := by
      have order := listed.order
      omega
    refine ⟨index, rfl, inside, .intro ⟨index ▸ opens, .inr ?_, ?_⟩ fun child member => ?_⟩
    next =>
      simp only [TypeArgs.range, TypeArgs.args, index, last]
      exact listed
    next =>
      simp only [TypeArgs.range, last]
      exact listed.closed
    next =>
      obtain ⟨arg, found, rfl⟩ := List.mem_map.mp member
      exact each arg found

theorem list_step (meaningful : Meaningful lexemes) (written : TypesWritten lexemes skip n) :
    Ensures lexemes (typeArgList skip (n + 1))
      (FencedList lexemes TypeArg.range fun arg => arg.subtree.AllWritten lexemes) := by
  intro cursor args next on done
  simp only [typeArgList, bind_done] at done
  obtain ⟨first, middle, read, rest⟩ := done
  obtain ⟨onMiddle, entered⟩ := written.arg _ _ _ on read
  exact separated_fenced meaningful written.list onMiddle entered rest

theorem arg_step (written : TypesWritten lexemes skip n) :
    Ensures lexemes (typeArg skip (n + 1)) (EnteredArg lexemes) := by
  intro cursor arg next on done
  simp only [typeArg, branch_done, bind_done, past_done, pure_done] at done
  rcases done with ⟨seen, mark, marked, taken, choice⟩ | ⟨-, found, final, read, rfl, rfl⟩
  next =>
    have question := on.kindAt seen
    obtain ⟨onMarked, index, position, -⟩ := on.take taken
    rw [← index] at position question ⊢
    rcases choice with ⟨-, read⟩ | ⟨-, ⟨-, read⟩ | ⟨-, _, _, ⟨rfl, rfl⟩, rfl, rfl⟩⟩
    next =>
      obtain ⟨onNext, bounded⟩ := written.bound _ _ _ _ _ onMarked read
      exact ⟨onNext, bounded question position⟩
    next =>
      obtain ⟨onNext, bounded⟩ := written.bound _ _ _ _ _ onMarked read
      exact ⟨onNext, bounded question position⟩
    next =>
      refine ⟨onMarked, .inl rfl, position ▸ Nat.lt_succ_self _, rfl, ?_⟩
      exact .intro question (List.forall_mem_nil _)
  next =>
    obtain ⟨onNext, entered⟩ := written.ref false true _ _ _ on read
    exact ⟨onNext, entered.before, entered.nonempty, entered.ends, entered.good⟩

theorem bound_step (written : TypesWritten lexemes skip n) (mark : Nat) (kind : BoundKind) :
    Ensures lexemes (boundedArg skip mark kind (n + 1)) fun start arg stop =>
      KindAt lexemes .qmark mark → start = mark + 1 → EnteredArg lexemes mark arg stop := by
  intro cursor arg next on done
  simp only [boundedArg, bind_done, past_done, pure_done] at done
  obtain ⟨_, word, taken, ref, final, read, _, _, ⟨rfl, rfl⟩, rfl, rfl⟩ := done
  obtain ⟨onWord, -, position, -⟩ := on.take taken
  obtain ⟨onNext, entered⟩ := written.ref false true _ _ _ onWord read
  refine ⟨onNext, fun question start => ⟨.inl rfl, ?_, rfl, .intro question fun child member => ?_⟩⟩
  next =>
    have before := entered.before
    have nonempty := entered.nonempty
    have ends := entered.ends
    change mark < next.position
    omega
  next =>
    cases List.mem_singleton.mp member
    exact entered.good

end TypesWritten

theorem types_written (meaningful : Meaningful lexemes) (skips : Forward lexemes skip) (n : Nat) :
    TypesWritten lexemes skip n := by
  induction n with
  | zero =>
    exact ⟨fun _ => .stuck _, fun _ _ => .stuck _, fun _ => .stuck _, .stuck _, .stuck _, fun _ _ => .stuck _⟩
  | succ n ih =>
    exact ⟨ih.segments_step meaningful, ih.ref_step meaningful skips, ih.args_step meaningful,
      ih.list_step meaningful, ih.arg_step, ih.bound_step⟩

end Types

section Lists

variable {lexemes : List Lexeme} {skip : Read Unit} (meaningful : Meaningful lexemes)
  (skips : Forward lexemes skip)

include meaningful skips

theorem typeRef_written (diamond dims : Bool) :
    Ensures lexemes (withSteps (typeRef skip diamond dims)) (EnteredRef lexemes) :=
  withSteps_ensures fun n => (types_written meaningful skips n).ref diamond dims

theorem typeArgs_written (diamond : Bool) : ReadsArgs lexemes (withSteps (typeArgs skip diamond)) :=
  withSteps_ensures fun n => (types_written meaningful skips n).args diamond

theorem typeList_written (separator : Kind) (n : Nat) :
    Ensures lexemes (typeList skip separator n) fun start refs stop =>
      start < stop ∧ ∀ ref ∈ refs, (Subtree.ref ref).AllWritten lexemes := by
  induction n with
  | zero => exact .stuck _
  | succ n ih =>
    intro cursor refs next on done
    simp only [typeList, bind_done, branch_done, pure_done] at done
    obtain ⟨ref, middle, read, choice⟩ := done
    obtain ⟨onMiddle, entered⟩ := typeRef_written meaningful skips false true _ _ _ on read
    have before := entered.before
    have nonempty := entered.nonempty
    have ends := entered.ends
    rcases choice with ⟨-, _, comma, taken, more, final, rest, rfl, rfl⟩ | ⟨-, rfl, rfl⟩
    next =>
      obtain ⟨onComma, -, position, -⟩ := onMiddle.take taken
      obtain ⟨onNext, forward, later⟩ := ih _ _ _ onComma rest
      exact ⟨onNext, by omega, by simpa using ⟨entered.good, later⟩⟩
    next => exact ⟨onMiddle, by omega, by simpa using entered.good⟩

theorem typeParam_written :
    Ensures lexemes (typeParam skip)
      (Entered lexemes TypeParam.range fun param => (Subtree.param param).AllWritten lexemes) := by
  intro cursor param next on done
  simp only [typeParam, bind_done, branch_done, miss_done, and_false, or_false, index_done, past_done,
    pure_done] at done
  obtain ⟨_, _, skipped, seen, _, passed, ⟨rfl, rfl⟩, name, named, taken, bounds, final, choice, _, _,
    ⟨rfl, rfl⟩, rfl, rfl⟩ := done
  obtain ⟨onPassed, annotated⟩ :=
    withSteps_ensures (annotations_at (parameterAnnotations_passes skip) skips) _ _ _ on skipped
  have ident := onPassed.identAt seen fun _ => ident_of_isName
  obtain ⟨onNamed, index, position, -⟩ := onPassed.take taken
  have bounded : next.On lexemes ∧ named.position ≤ next.position ∧
      ∀ ref ∈ bounds, (Subtree.ref ref).AllWritten lexemes := by
    rcases choice with ⟨-, _, word, extends_, read⟩ | ⟨-, rfl, rfl⟩
    next =>
      obtain ⟨onWord, -, after, -⟩ := onNamed.take extends_
      obtain ⟨onNext, forward, each⟩ :=
        withSteps_ensures (typeList_written meaningful skips .amp) _ _ _ onWord read
      exact ⟨onNext, by omega, each⟩
    next => exact ⟨onNamed, Nat.le_refl _, List.forall_mem_nil _⟩
  obtain ⟨onNext, forward, each⟩ := bounded
  refine ⟨onNext, annotated.before ident, ?_, rfl, .intro trivial fun child member => ?_⟩
  next =>
    change passed.position < next.position
    omega
  next =>
    obtain ⟨ref, found, rfl⟩ := List.mem_map.mp member
    exact each ref found

theorem typeParamList_written (n : Nat) :
    Ensures lexemes (typeParamList skip n)
      (FencedList lexemes TypeParam.range fun param => (Subtree.param param).AllWritten lexemes) := by
  induction n with
  | zero => exact .stuck _
  | succ n ih =>
    intro cursor params next on done
    simp only [typeParamList, bind_done] at done
    obtain ⟨param, middle, read, rest⟩ := done
    obtain ⟨onMiddle, entered⟩ := typeParam_written meaningful skips _ _ _ on read
    exact separated_fenced meaningful ih onMiddle entered rest

theorem typeParams_written :
    Ensures lexemes (typeParams skip) fun start list _ =>
      KindAt lexemes .lt start → (Subtree.params list).AllWritten lexemes := by
  intro cursor params next on done
  simp only [typeParams, part_done, bind_done, past_done, pure_done] at done
  obtain ⟨opener, opened, taken, list, final, read, _, _, ⟨rfl, rfl⟩, rfl, rfl⟩ := done
  obtain ⟨onOpened, index, position, -⟩ := on.take taken
  obtain ⟨onNext, ⟨right, stop, fenced⟩, each⟩ :=
    withSteps_ensures (typeParamList_written meaningful skips) _ _ _ onOpened read
  refine ⟨onNext, fun opens => .intro ⟨index ▸ opens, ?_⟩ fun child member => ?_⟩
  next =>
    have last : next.position - 1 = right := by omega
    simp only [index, last]
    exact fenced cursor.position position
  next =>
    obtain ⟨param, found, rfl⟩ := List.mem_map.mp member
    exact each param found

theorem expressionArgs_written : ReadsArgs lexemes (expressionArgs skip) := by
  intro cursor list next on done
  simp only [expressionArgs, whole_done, bind_done, branch_done, pure_done, miss_done, and_false,
    or_false] at done
  obtain ⟨found, middle, read, -, rfl, rfl⟩ := done
  exact typeArgs_written meaningful skips false _ _ _ on read

theorem chainSegments_written (n : Nat) : ReadsNames lexemes (chainSegments skip n) := by
  induction n with
  | zero => exact .stuck _
  | succ n ih =>
    intro cursor segments next on done
    simp only [chainSegments, chainSegment, bind_done, pure_done] at done
    obtain ⟨name, named, taken, segment, applied, ⟨tried, _, read, rfl, rfl⟩, rest⟩ := done
    obtain ⟨onNamed, index, position, -⟩ := on.take taken
    rcases optional_done _ _ _ _ read with ⟨segment, rfl, applied⟩ | ⟨rfl, back⟩
    next =>
      obtain ⟨onApplied, rfl, forward, ends, joined⟩ :=
        appliedOr_written meaningful (expressionArgs_written meaningful skips) onNamed (by omega) applied
      obtain ⟨onNext, further, all⟩ := qualified_written ih onApplied index ends joined rest
      exact ⟨onNext, by omega, all⟩
    next =>
      rw [back] at rest
      have ends : named.position = (Segment.plain name).last + 1 := by
        rw [Segment.last]
        omega
      have starts : (Segment.plain name).name.index = cursor.position := index
      obtain ⟨onNext, further, all⟩ := qualified_written ih onNamed starts ends .plain rest
      exact ⟨onNext, by omega, all⟩

theorem chain_written :
    Ensures lexemes (chain skip) fun _ found _ => ∀ ref ∈ found, (Subtree.ref ref).AllWritten lexemes := by
  intro cursor found next on done
  simp only [chain, bind_done, index_done, past_done, pure_done] at done
  obtain ⟨_, _, ⟨rfl, rfl⟩, segments, final, read, _, _, ⟨rfl, rfl⟩, rfl, rfl⟩ := done
  obtain ⟨onNext, -, written⟩ := withSteps_ensures (chainSegments_written meaningful skips) _ _ _ on read
  refine ⟨onNext, fun ref given => ?_⟩
  obtain ⟨-, same⟩ := Option.ite_none_right_eq_some.mp given
  exact Option.some.inj same ▸ written.ref meaningful (.inl ⟨rfl, rfl⟩)

end Lists

end Grammar

end Specializer
