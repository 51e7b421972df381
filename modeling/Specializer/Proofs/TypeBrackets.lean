import Specializer.Grammar.Types
import Specializer.Proofs.Brackets
import Specializer.Proofs.Reading

set_option autoImplicit false

namespace Specializer.Grammar

open Read

variable {α β : Type}

theorem take_done {cursor next : Cursor} {name : Name} (taken : take cursor = .done name next) :
    ∃ lexeme, cursor.rest = lexeme :: next.rest ∧ next.position = cursor.position + 1 := by
  cases left : cursor.rest with
  | nil => simp [take, left] at taken
  | cons lexeme rest =>
    simp only [take, left, Outcome.done.injEq] at taken
    obtain ⟨-, rfl⟩ := taken
    exact ⟨lexeme, rfl, rfl⟩

theorem take_index {cursor next : Cursor} {name : Name} (taken : take cursor = .done name next) :
    name.index = cursor.position := by
  cases left : cursor.rest with
  | nil => simp [take, left] at taken
  | cons lexeme rest =>
    simp only [take, left, Outcome.done.injEq] at taken
    obtain ⟨rfl, -⟩ := taken
    rfl

theorem sees_here {cursor : Cursor} {lexeme : Lexeme} {rest : List Lexeme}
    (left : cursor.rest = lexeme :: rest) (test : Lexeme → Bool) :
    cursor.sees test 0 = test lexeme := by
  simp [Cursor.sees, left]

theorem sees_take {cursor next : Cursor} {name : Name} (taken : take cursor = .done name next)
    (test : Lexeme → Bool) (ahead : Nat) : next.sees test ahead = cursor.sees test (ahead + 1) := by
  obtain ⟨lexeme, left, -⟩ := take_done taken
  simp [Cursor.sees, left]

def Between (shape : List Lexeme → Prop) (cursor next : Cursor) : Prop :=
  ∃ stretch, cursor.rest = stretch ++ next.rest ∧
    next.position = cursor.position + stretch.length ∧ shape stretch

def Closes (closer : Kind) (cursor next : Cursor) : Prop :=
  ∃ inner last, cursor.rest = inner ++ last :: next.rest ∧
    next.position = cursor.position + inner.length + 1 ∧ last.kind = closer ∧
    Balanced (fun _ => true) inner

def notPackage (lexeme : Lexeme) : Bool := !lexeme.spells "package"

def isMark (kind : Kind) : Bool := !kind.isBracket && kind != .ident

def lookedFor : List (List Char) :=
  primitiveWords ++ supertypeWords ++ declarationWords ++ ["super", "import", "static", "new"].map String.toList

def isCalm (lexeme : Lexeme) : Bool :=
  isMark lexeme.kind ||
    (lexeme.kind == .ident && (!keywords.contains lexeme.text || lookedFor.contains lexeme.text))

/-- A condition that stretches of lexemes meet together if each of them meets it, and that calm lexemes and
square brackets with nothing in between meet. -/
class Smooth (shape : List Lexeme → Prop) : Prop where
  nil : shape []
  append {first second : List Lexeme} : shape first → shape second → shape (first ++ second)
  calm {lexeme : Lexeme} : isCalm lexeme = true → shape [lexeme]
  square {opener closer : Lexeme} : opener.kind = .lsqb → closer.kind = .rsqb → shape [opener, closer]

section Stretches

variable {allowed : Lexeme → Bool} {shape : List Lexeme → Prop} {closer : Kind} {cursor middle next : Cursor}
  {name : Name}

theorem Between.refl [Smooth shape] (cursor : Cursor) : Between shape cursor cursor :=
  ⟨[], rfl, rfl, Smooth.nil⟩

theorem Between.trans [Smooth shape] (first : Between shape cursor middle) (second : Between shape middle next) :
    Between shape cursor next := by
  obtain ⟨stretch, left, position, holds⟩ := first
  obtain ⟨more, behind, later, also⟩ := second
  refine ⟨stretch ++ more, ?_, ?_, Smooth.append holds also⟩
  next => rw [left, behind, List.append_assoc]
  next =>
    rw [later, position, List.length_append]
    omega

theorem Between.le (between : Between shape cursor next) : cursor.position ≤ next.position := by
  obtain ⟨stretch, -, position, -⟩ := between
  omega

theorem Between.loosen (between : Between (Balanced allowed) cursor next) :
    Between (Balanced fun _ => true) cursor next := by
  obtain ⟨stretch, left, position, balanced⟩ := between
  exact ⟨stretch, left, position, balanced.loosen⟩

theorem Between.take [Smooth shape] (taken : Read.take cursor = .done name next)
    (seen : cursor.sees isCalm 0 = true) : Between shape cursor next := by
  obtain ⟨lexeme, left, position⟩ := take_done taken
  rw [sees_here left] at seen
  exact ⟨[lexeme], left, position, Smooth.calm seen⟩

theorem Between.square [Smooth shape] (first : Read.take cursor = .done name middle)
    (opens : cursor.seesKind .lsqb 0 = true) {other : Name} (second : Read.take middle = .done other next)
    (closes : middle.seesKind .rsqb 0 = true) : Between shape cursor next := by
  obtain ⟨opener, left, position⟩ := take_done first
  obtain ⟨closer, behind, later⟩ := take_done second
  rw [Cursor.seesKind, sees_here left, beq_iff_eq] at opens
  rw [Cursor.seesKind, sees_here behind, beq_iff_eq] at closes
  refine ⟨[opener, closer], ?_, ?_, Smooth.square opens closes⟩
  next => rw [left, behind, List.cons_append, List.singleton_append]
  next => rw [later, position, List.length_cons, List.length_singleton]

theorem Closes.take (taken : Read.take cursor = .done name next)
    (seen : cursor.seesKind closer 0 = true) : Closes closer cursor next := by
  obtain ⟨lexeme, left, position⟩ := take_done taken
  rw [Cursor.seesKind, sees_here left, beq_iff_eq] at seen
  exact ⟨[], lexeme, left, position, seen, .nil⟩

theorem Between.closes (first : Between (Balanced fun _ => true) cursor middle)
    (second : Closes closer middle next) : Closes closer cursor next := by
  obtain ⟨stretch, left, position, balanced⟩ := first
  obtain ⟨inner, last, behind, later, kind, also⟩ := second
  refine ⟨stretch ++ inner, last, ?_, ?_, kind, balanced.append also⟩
  next => rw [left, behind, List.append_assoc]
  next =>
    rw [later, position, List.length_append]
    omega

theorem Closes.enclosed {opener : Kind} (closes : Closes closer middle next)
    (taken : Read.take cursor = .done name middle) (seen : cursor.seesKind opener 0 = true)
    (pair : opener.closer? = some closer) : Between (Balanced allowed) cursor next := by
  obtain ⟨lexeme, left, position⟩ := take_done taken
  obtain ⟨inner, last, behind, later, kind, balanced⟩ := closes
  rw [Cursor.seesKind, sees_here left, beq_iff_eq] at seen
  refine ⟨lexeme :: (inner ++ [last]), ?_, ?_, .enclosed ?_ balanced .nil⟩
  next => rw [left, behind, List.cons_append, List.append_assoc, List.singleton_append]
  next =>
    rw [later, position, List.length_cons, List.length_append, List.length_singleton]
    omega
  next => rw [seen, pair, kind]

end Stretches

theorem sees_mono {cursor : Cursor} {test other : Lexeme → Bool} {ahead : Nat}
    (seen : cursor.sees test ahead = true)
    (wider : ∀ lexeme, test lexeme = true → other lexeme = true) : cursor.sees other ahead = true := by
  simp only [Cursor.sees, Option.any_eq_true] at seen ⊢
  obtain ⟨lexeme, there, passes⟩ := seen
  exact ⟨lexeme, there, wider lexeme passes⟩

theorem isCalm_of_kind (kind : Kind) (mark : isMark kind = true) (lexeme : Lexeme)
    (same : (lexeme.kind == kind) = true) : isCalm lexeme = true := by
  rw [beq_iff_eq] at same
  simp [isCalm, same, mark]

theorem isCalm_of_word {lexeme : Lexeme} (ident : lexeme.kind = .ident)
    (wanted : lookedFor.contains lexeme.text = true) : isCalm lexeme = true := by
  simp [isCalm, ident, List.contains_iff_mem.mp wanted]

theorem isCalm_of_isName (lexeme : Lexeme) (name : lexeme.isName = true) : isCalm lexeme = true := by
  simp only [Lexeme.isName, Bool.and_eq_true, beq_iff_eq, Bool.not_eq_true'] at name
  simp only [isCalm, name, Bool.not_false, beq_self_eq_true, Bool.true_or, Bool.and_self, Bool.or_true]

theorem isCalm_of_isPrimitive (lexeme : Lexeme) (primitive : lexeme.isPrimitive = true) :
    isCalm lexeme = true := by
  simp only [Lexeme.isPrimitive, Bool.and_eq_true, beq_iff_eq] at primitive
  apply isCalm_of_word primitive.1
  simp [lookedFor, List.contains_iff_mem.mp primitive.2]

theorem isCalm_of_spells {word : String} (wanted : lookedFor.contains word.toList = true) (lexeme : Lexeme)
    (spelled : lexeme.spells word = true) : isCalm lexeme = true := by
  simp only [Lexeme.spells, Bool.and_eq_true, beq_iff_eq] at spelled
  exact isCalm_of_word spelled.1 (spelled.2 ▸ wanted)

theorem not_calm {word : String} (keyword : keywords.contains word.toList = true)
    (unwanted : lookedFor.contains word.toList = false) {lexeme : Lexeme} (calm : isCalm lexeme = true) :
    lexeme.kind.isBracket = false ∧ lexeme.spells word = false := by
  simp only [isCalm, isMark, Bool.or_eq_true, Bool.and_eq_true, Bool.not_eq_true', bne_iff_ne, beq_iff_eq]
    at calm
  rcases calm with ⟨bracket, other⟩ | ⟨ident, spelled⟩
  next => exact ⟨bracket, by simp [Lexeme.spells, other]⟩
  next =>
    refine ⟨by rw [ident]; rfl, Bool.eq_false_iff.mpr fun same => ?_⟩
    simp only [Lexeme.spells, Bool.and_eq_true, beq_iff_eq] at same
    rw [same.2, keyword, unwanted] at spelled
    rcases spelled with spelled | spelled <;> cases spelled

instance : Smooth (Balanced notPackage) where
  nil := .nil
  append := .append
  calm calm := by
    obtain ⟨bracket, other⟩ := @not_calm "package" (by decide) (by decide) _ calm
    exact .plain bracket (by simp [notPackage, other]) .nil
  square opens closes := .enclosed (by rw [opens, closes]; rfl) .nil .nil

instance : Smooth (Balanced fun _ => true) where
  nil := .nil
  append := .append
  calm calm := by
    obtain ⟨bracket, -⟩ := @not_calm "package" (by decide) (by decide) _ calm
    exact .plain bracket rfl .nil
  square opens closes := .enclosed (by rw [opens, closes]; rfl) .nil .nil

def Calm (shape : List Lexeme → Prop) (pre : Cursor → Bool) (read : Read α) : Prop :=
  ∀ cursor value next, pre cursor = true → read cursor = .done value next → Between shape cursor next

abbrev anywhere : Cursor → Bool := fun _ => true

variable {shape : List Lexeme → Prop}

namespace Calm

variable {pre : Cursor → Bool} {read : Read α} {test : Cursor → Bool}

theorem mono {other : Cursor → Bool} (calm : Calm shape pre read)
    (stronger : ∀ cursor, other cursor = true → pre cursor = true) : Calm shape other read :=
  fun cursor value next seen done => calm cursor value next (stronger cursor seen) done

theorem weaken (calm : Calm shape anywhere read) : Calm shape pre read := calm.mono fun _ _ => rfl

theorem stuck : Calm shape pre (Read.stuck : Read α) := by
  intro cursor value next _ done
  simp only [Read.stuck_done] at done

theorem fail {what : Expected} : Calm shape pre (Read.fail what : Read α) := by
  intro cursor value next _ done
  simp only [Read.fail_done] at done

theorem miss {what : Expected} : Calm shape pre (Read.miss what : Read α) := by
  intro cursor value next _ done
  simp only [Read.miss_done] at done

theorem indexThen {more : Nat → Read α} (later : ∀ place, Calm shape pre (more place)) :
    Calm shape pre (Read.index >>= more) := by
  intro cursor result next seen done
  obtain ⟨place, middle, noted, ended⟩ := (Read.bind_done _ _ _ _ _).mp done
  obtain ⟨-, rfl⟩ := (Read.index_done _ _ _).mp noted
  exact later place _ _ _ seen ended

theorem branch {yes no : Read α} (taken : Calm shape (fun cursor => pre cursor && test cursor) yes)
    (other : Calm shape pre no) : Calm shape pre (Read.branch test yes no) := by
  intro cursor result next seen done
  rcases (Read.branch_done _ _ _ _ _ _).mp done with ⟨passes, done⟩ | ⟨-, done⟩
  next => exact taken _ _ _ (by simp [seen, passes]) done
  next => exact other _ _ _ seen done

theorem strict (calm : Calm shape pre read) : Calm shape pre (Read.strict read) := by
  intro cursor value next seen done
  exact calm _ _ _ seen ((Read.strict_done _ _ _ _).mp done)

theorem whole {what : Expected} (calm : Calm shape pre read) : Calm shape pre (Read.whole what read) := by
  intro cursor value next seen done
  exact calm _ _ _ seen ((Read.whole_done _ _ _ _ _).mp done)

theorem part {what : Expected} (calm : Calm shape pre read) : Calm shape pre (Read.part what read) := by
  intro cursor value next seen done
  exact calm _ _ _ seen ((Read.part_done _ _ _ _ _).mp done)

theorem ignore (calm : Calm shape pre read) : Calm shape pre read.ignore := by
  intro cursor value next seen done
  obtain ⟨value, done⟩ := (Read.ignore_done _ _ _ _).mp done
  exact calm _ _ _ seen done

theorem withSteps {read : Nat → Read α} (calm : ∀ n, Calm shape pre (read n)) :
    Calm shape pre (withSteps read) :=
  fun cursor value next seen done => calm _ cursor value next seen done

variable [Smooth shape]

theorem pure (value : α) : Calm shape pre (Pure.pure value : Read α) := by
  intro cursor result next _ done
  obtain ⟨-, rfl⟩ := (Read.pure_done _ _ _ _).mp done
  exact .refl _

theorem past : Calm shape pre Read.past := by
  intro cursor result next _ done
  obtain ⟨-, rfl⟩ := (Read.past_done _ _ _).mp done
  exact .refl _

theorem bind {more : α → Read β} (first : Calm shape pre read)
    (later : ∀ value, Calm shape anywhere (more value)) : Calm shape pre (read >>= more) := by
  intro cursor result next seen done
  obtain ⟨value, middle, one, two⟩ := (Read.bind_done _ _ _ _ _).mp done
  exact (first _ _ _ seen one).trans (later value _ _ _ rfl two)

theorem take (calm : ∀ cursor, pre cursor = true → cursor.sees isCalm 0 = true) : Calm shape pre Read.take := by
  intro cursor name next seen taken
  exact .take taken (calm cursor seen)

theorem branchTake {seen : Lexeme → Bool} {more : Name → Read α} {no : Read α}
    (calm : ∀ lexeme, seen lexeme = true → isCalm lexeme = true)
    (later : ∀ name, Calm shape anywhere (more name)) (other : Calm shape pre no) :
    Calm shape pre (Read.branch (fun cursor => cursor.sees seen 0) (Read.take >>= more) no) := by
  apply branch
  next =>
    apply bind _ later
    apply take
    intro cursor both
    simp only [Bool.and_eq_true] at both
    exact sees_mono both.2 calm
  next => exact other

theorem takeThen {first second : Lexeme → Bool} {more : Name → Read α}
    (calm : ∀ lexeme, first lexeme = true → isCalm lexeme = true)
    (sees : ∀ cursor, pre cursor = true → cursor.sees first 0 = true ∧ cursor.sees second 1 = true)
    (later : ∀ name, Calm shape (fun cursor => cursor.sees second 0) (more name)) :
    Calm shape pre (Read.take >>= more) := by
  intro cursor result next seen done
  obtain ⟨name, middle, taken, done⟩ := (Read.bind_done _ _ _ _ _).mp done
  obtain ⟨here, behind⟩ := sees cursor seen
  rw [← sees_take taken] at behind
  exact (Between.take taken (sees_mono here calm)).trans (later name _ _ _ behind done)

theorem optional (calm : Calm shape pre read) : Calm shape pre (Read.optional read) := by
  intro cursor value next seen done
  rcases Read.optional_done _ _ _ _ done with ⟨result, -, done⟩ | ⟨-, rfl⟩
  next => exact calm _ _ _ seen done
  next => exact .refl _

theorem takeName {what : Expected} : Calm shape pre (Read.takeName what) := by
  apply branch
  next =>
    apply take
    intro cursor both
    simp only [Bool.and_eq_true] at both
    exact sees_mono both.2 isCalm_of_isName
  next => exact fail

end Calm

section Types

variable [Smooth shape] {pre : Cursor → Bool}

theorem separated_calm {closer : Kind} {what : Expected} {item : α} {more : Read (List α)}
    (mark : isMark closer = true) (later : Calm shape anywhere more) :
    Calm shape pre (separated closer what item more) := by
  apply Calm.branchTake (isCalm_of_kind .comma rfl)
  next => exact fun _ => later.bind fun _ => .pure _
  next => exact .branchTake (isCalm_of_kind closer mark) (fun _ => .pure _) .miss

theorem qualified_calm {segment : Segment} {more : Read (List Segment)}
    (later : Calm shape (fun cursor => cursor.sees Lexeme.isName 0) more) :
    Calm shape pre (qualified segment more) := by
  apply Calm.branch
  next =>
    apply Calm.takeThen (isCalm_of_kind .dot rfl)
    next =>
      intro cursor both
      simp only [Cursor.seesDotName, Bool.and_eq_true] at both
      exact both.2
    next => exact fun _ => later.bind fun _ => .pure _
  next => exact .pure _

theorem appliedOr_calm {name : Name} {args : Read TypeArgs}
    (calm : Calm shape (fun cursor => cursor.seesKind .lt 0) args) : Calm shape pre (appliedOr name args) := by
  apply Calm.branch
  next => exact (calm.mono fun cursor both => (Bool.and_eq_true_iff.mp both).2).bind fun _ => .pure _
  next => exact .pure _

theorem dimensions_calm (n : Nat) : Calm shape anywhere (dimensions n) := by
  induction n with
  | zero => exact .stuck
  | succ n ih =>
    intro cursor count next _ done
    simp only [dimensions, branch_done, bind_done, pure_done, Bool.and_eq_true] at done
    rcases done with ⟨⟨opens, closes⟩, _, opened, first, _, closed, second, _, _, more, -, rfl⟩ | ⟨-, -, rfl⟩
    next =>
      rw [Cursor.seesKind, ← sees_take first] at closes
      have both : Between shape cursor closed := .square first opens second closes
      exact both.trans (ih _ _ _ rfl more)
    next => exact .refl _

variable {skip : Read Unit} (skips : Calm shape (fun cursor => cursor.seesKind .atSign 0) skip)

include skips

theorem annotations_calm {test : Cursor → Bool} {read : Nat → Read Unit}
    (passes : PassesAnnotations skip test read) (n : Nat) : Calm shape pre (read n) := by
  induction n generalizing pre with
  | zero =>
    rw [passes.zero]
    exact .stuck
  | succ n ih =>
    rw [passes.succ]
    apply Calm.branch
    next =>
      apply Calm.bind _ fun _ => ih
      apply skips.mono
      intro cursor both
      simp only [Bool.and_eq_true] at both
      exact both.2.1
    next => exact .pure _

abbrev beginsType (lexeme : Lexeme) : Bool := lexeme.isName || lexeme.isPrimitive

omit skips in
theorem isCalm_of_beginsType (lexeme : Lexeme) (begins : beginsType lexeme = true) :
    isCalm lexeme = true := by
  rcases Bool.or_eq_true_iff.mp begins with name | primitive
  next => exact isCalm_of_isName lexeme name
  next => exact isCalm_of_isPrimitive lexeme primitive

structure TypesCalm (shape : List Lexeme → Prop) (skip : Read Unit) (n : Nat) : Prop where
  segments : ∀ diamond, Calm shape (fun cursor => cursor.sees beginsType 0) (typeSegments skip diamond n)
  ref : ∀ diamond dims, Calm shape anywhere (typeRef skip diamond dims n)
  args : ∀ diamond, Calm shape (fun cursor => cursor.seesKind .lt 0) (typeArgs skip diamond n)
  list : Calm shape anywhere (typeArgList skip n)
  arg : Calm shape anywhere (typeArg skip n)
  bound : ∀ start kind, Calm shape (fun cursor => cursor.sees isCalm 0) (boundedArg skip start kind n)

omit skips in
theorem TypesCalm.segments_step {n : Nat} (calm : TypesCalm shape skip n) (diamond : Bool) :
    Calm shape (fun cursor => cursor.sees beginsType 0) (typeSegments skip diamond (n + 1)) := by
  apply Calm.bind
  next => exact .take fun cursor seen => sees_mono seen isCalm_of_beginsType
  next =>
    intro name
    apply (appliedOr_calm (calm.args diamond)).bind
    intro segment
    apply qualified_calm
    apply (calm.segments diamond).mono
    intro cursor seen
    exact sees_mono seen fun lexeme isName => by simp [isName]

theorem TypesCalm.ref_step {n : Nat} (calm : TypesCalm shape skip n) (diamond dims : Bool) :
    Calm shape anywhere (typeRef skip diamond dims (n + 1)) := by
  apply (annotations_calm skips (typeAnnotations_passes skip) n).bind
  intro _
  apply Calm.branch _ .miss
  apply Calm.indexThen
  intro start
  apply Calm.bind ((calm.segments diamond).mono fun cursor seen => (Bool.and_eq_true_iff.mp seen).2)
  intro segments
  dsimp only
  split
  next => exact (dimensions_calm n).bind fun _ => .bind .past fun _ => .pure _
  next => exact .bind (.pure _) fun _ => .bind .past fun _ => .pure _

omit skips in
theorem TypesCalm.args_step {n : Nat} (calm : TypesCalm shape skip n) (diamond : Bool) :
    Calm shape (fun cursor => cursor.seesKind .lt 0) (typeArgs skip diamond (n + 1)) := by
  apply Calm.whole
  apply Calm.bind
  next => exact .take fun cursor seen => sees_mono seen (isCalm_of_kind .lt rfl)
  next =>
    intro opener
    apply Calm.bind _ fun _ => .bind .past fun _ => .pure _
    apply Calm.branch _ calm.list
    split
    next =>
      apply Calm.bind _ fun _ => .pure _
      apply Calm.take
      intro cursor seen
      exact sees_mono (Bool.and_eq_true_iff.mp seen).2 (isCalm_of_kind .gt rfl)
    next => exact .miss

omit skips in
theorem TypesCalm.list_step {n : Nat} (calm : TypesCalm shape skip n) :
    Calm shape anywhere (typeArgList skip (n + 1)) :=
  calm.arg.bind fun _ => separated_calm rfl calm.list

omit skips in
theorem TypesCalm.bound_step {n : Nat} (calm : TypesCalm shape skip n) (start : Nat) (kind : BoundKind) :
    Calm shape (fun cursor => cursor.sees isCalm 0) (boundedArg skip start kind (n + 1)) := by
  apply (Calm.take fun _ seen => seen).bind
  intro _
  exact (calm.ref false true).bind fun _ => .bind .past fun _ => .pure _

omit skips in
theorem TypesCalm.arg_step {n : Nat} (calm : TypesCalm shape skip n) :
    Calm shape anywhere (typeArg skip (n + 1)) := by
  have bound (word : String) (wanted : lookedFor.contains word.toList = true) (start : Nat)
      (kind : BoundKind) {pre : Cursor → Bool} :
      Calm shape (fun cursor => pre cursor && cursor.seesWord word 0) (boundedArg skip start kind n) := by
    apply (calm.bound start kind).mono
    intro cursor seen
    exact sees_mono (Bool.and_eq_true_iff.mp seen).2 (isCalm_of_spells wanted)
  apply Calm.branchTake (isCalm_of_kind .qmark rfl)
  next =>
    intro mark
    apply Calm.branch (bound "extends" (by decide) _ _)
    exact .branch (bound "super" (by decide) _ _) (.bind .past fun _ => .pure _)
  next => exact (calm.ref false true).bind fun _ => .pure _

theorem types_calm (n : Nat) : TypesCalm shape skip n := by
  induction n with
  | zero => exact ⟨fun _ => .stuck, fun _ _ => .stuck, fun _ => .stuck, .stuck, .stuck, fun _ _ => .stuck⟩
  | succ n ih =>
    exact
      { segments := TypesCalm.segments_step ih
        ref := TypesCalm.ref_step skips ih
        args := TypesCalm.args_step ih
        list := TypesCalm.list_step ih
        arg := TypesCalm.arg_step ih
        bound := TypesCalm.bound_step ih }

theorem typeList_calm {separator : Kind} (mark : isMark separator = true) (n : Nat) :
    Calm shape pre (typeList skip separator n) := by
  induction n generalizing pre with
  | zero => exact .stuck
  | succ n ih =>
    apply Calm.bind (Calm.weaken (.withSteps fun k => (types_calm skips k).ref false true))
    intro ref
    apply Calm.branchTake (isCalm_of_kind separator mark)
    next => exact fun _ => ih.bind fun _ => .pure _
    next => exact .pure _

theorem typeParam_calm : Calm shape pre (typeParam skip) := by
  apply Calm.bind (Calm.withSteps (annotations_calm skips (parameterAnnotations_passes skip)))
  intro _
  apply Calm.branch _ .miss
  apply Calm.indexThen
  intro start
  apply Calm.bind (.take fun cursor seen => sees_mono (Bool.and_eq_true_iff.mp seen).2 isCalm_of_isName)
  intro name
  apply Calm.bind _ fun _ => .bind .past fun _ => .pure _
  apply Calm.branchTake (isCalm_of_spells (by decide))
  next => exact fun _ => .withSteps fun n => typeList_calm skips rfl n
  next => exact .pure _

theorem typeParamList_calm (n : Nat) : Calm shape pre (typeParamList skip n) := by
  induction n generalizing pre with
  | zero => exact .stuck
  | succ n ih => exact (typeParam_calm skips).bind fun _ => separated_calm rfl ih

theorem typeParams_calm : Calm shape (fun cursor => cursor.seesKind .lt 0) (typeParams skip) := by
  apply Calm.part
  apply Calm.bind
  next => exact .take fun cursor seen => sees_mono seen (isCalm_of_kind .lt rfl)
  next =>
    intro opener
    apply Calm.bind (Calm.withSteps fun n => typeParamList_calm skips n)
    exact fun _ => .bind .past fun _ => .pure _

theorem expressionArgs_calm : Calm shape (fun cursor => cursor.seesKind .lt 0) (expressionArgs skip) := by
  apply Calm.whole
  apply Calm.bind (Calm.withSteps fun n => (types_calm skips n).args false)
  exact fun _ => .branch (.pure _) .miss

theorem chainSegments_calm (n : Nat) :
    Calm shape (fun cursor => cursor.sees Lexeme.isName 0) (chainSegments skip n) := by
  induction n with
  | zero => exact .stuck
  | succ n ih =>
    apply Calm.bind
    next => exact .take fun cursor seen => sees_mono seen isCalm_of_isName
    next =>
      intro name
      apply Calm.bind ((appliedOr_calm (expressionArgs_calm skips)).optional.bind fun _ => .pure _)
      exact fun _ => qualified_calm ih

theorem chain_calm : Calm shape (fun cursor => cursor.sees Lexeme.isName 0) (chain skip) := by
  apply Calm.indexThen
  intro start
  apply Calm.bind (Calm.withSteps fun n => chainSegments_calm skips n)
  exact fun _ => .bind .past fun _ => .pure _

end Types

end Specializer.Grammar
