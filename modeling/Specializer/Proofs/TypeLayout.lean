import Specializer.Grammar.Types
import Specializer.Proofs.Subtree
import Specializer.Proofs.Reading

set_option autoImplicit false

namespace Specializer

namespace Grammar

open Read

section Places

variable {lexemes : List Lexeme}

def IdentAt (lexemes : List Lexeme) (index : Nat) : Prop :=
  ∃ lexeme, lexemes[index]? = some lexeme ∧ lexeme.kind = .ident

theorem ident_of_isName {lexeme : Lexeme} (name : lexeme.isName = true) : lexeme.kind = .ident := by
  simp only [Lexeme.isName, Bool.and_eq_true, beq_iff_eq] at name
  exact name.1

theorem ident_of_isPrimitive {lexeme : Lexeme} (primitive : lexeme.isPrimitive = true) :
    lexeme.kind = .ident := by
  simp only [Lexeme.isPrimitive, Bool.and_eq_true, beq_iff_eq] at primitive
  exact primitive.1

theorem ident_of_spells {lexeme : Lexeme} {word : String} (spelled : lexeme.spells word = true) :
    lexeme.kind = .ident := by
  simp only [Lexeme.spells, Bool.and_eq_true, beq_iff_eq] at spelled
  exact spelled.1

theorem Cursor.On.identAt {cursor : Cursor} (on : cursor.On lexemes) {test : Lexeme → Bool}
    {ahead : Nat} (seen : cursor.sees test ahead = true)
    (ident : ∀ lexeme, test lexeme = true → lexeme.kind = .ident) :
    IdentAt lexemes (cursor.position + ahead) := by
  obtain ⟨lexeme, found, passes⟩ := on.sees seen
  exact ⟨lexeme, found, ident lexeme passes⟩

theorem Cursor.On.takeIdent {cursor : Cursor} (on : cursor.On lexemes) {name : Name}
    {next : Cursor} (taken : Read.take cursor = .done name next)
    (ident : IdentAt lexemes cursor.position) :
    next.On lexemes ∧ name.index = cursor.position ∧ next.position = cursor.position + 1 ∧
      name.Stands lexemes := by
  obtain ⟨onNext, index, position, lexeme, found, text⟩ := on.take taken
  obtain ⟨other, same, kind⟩ := ident
  rw [found] at same
  cases same
  refine ⟨onNext, index, position, ?_⟩
  rw [Name.Stands, index, found, ← kind, ← text]

end Places

section

variable {lexemes : List Lexeme}

def Meaningful (lexemes : List Lexeme) : Prop := ∀ lexeme ∈ lexemes, lexeme.kind.isTrivia = false

theorem Meaningful.solid (meaningful : Meaningful lexemes) {index : Nat}
    (inside : index < lexemes.length) : Solid lexemes index :=
  ⟨lexemes[index], List.getElem?_eq_getElem inside, meaningful _ (List.getElem_mem inside)⟩

theorem Meaningful.bounded (meaningful : Meaningful lexemes) {start stop : Nat}
    (nonempty : start < stop) (inside : stop ≤ lexemes.length) :
    start < stop ∧ Solid lexemes start ∧ Solid lexemes (stop - 1) :=
  ⟨nonempty, meaningful.solid (by omega), meaningful.solid (by omega)⟩

def SegmentsSound (lexemes : List Lexeme) (segments : List Segment) : Prop :=
  ∀ segment ∈ segments, segment.name.Stands lexemes ∧
    ∀ args, segment.args? = some args → (Subtree.args args).Sound lexemes

theorem sound_ref (meaningful : Meaningful lexemes) {range : Range} {segments : List Segment}
    {dims : Nat} (nonempty : range.start < range.stop) (inside : range.stop ≤ lexemes.length)
    (arranged : Successive range.start (segments.flatMap Segment.marks) range.stop)
    (sound : SegmentsSound lexemes segments) :
    (Subtree.ref (.mk range segments dims)).Sound lexemes := by
  refine .intro ⟨arranged, ?_, meaningful.bounded nonempty inside⟩ ?_
  · intro name member
    obtain ⟨segment, found, rfl⟩ := List.mem_map.mp member
    exact (sound segment found).1
  · intro child member
    obtain ⟨args, found, rfl⟩ := List.mem_map.mp member
    obtain ⟨segment, present, applied⟩ := List.mem_filterMap.mp found
    exact (sound segment present).2 args applied

/-- Entries of a list in brackets, from the place after the opening bracket through the closing
one. -/
def Listed {α : Type} (place : α → Range) (good : α → Prop) (start : Nat) (items : List α)
    (stop : Nat) : Prop :=
  ∃ last, stop = last + 1 ∧ Successive start (items.map place) last ∧ ∀ item ∈ items, good item

theorem separated_listed {α : Type} {place : α → Range} {good : α → Prop} {closer : Kind}
    {what : Expected} {item : α} {more : Read (List α)} {start : Nat} {cursor next : Cursor}
    {items : List α} (later : Ensures lexemes more (Listed place good)) (on : cursor.On lexemes)
    (first : Successive start [place item] cursor.position) (goodItem : good item)
    (done : separated closer what item more cursor = .done items next) :
    next.On lexemes ∧ Listed place good start items next.position := by
  simp only [separated, branch_done, bind_done, pure_done, miss_done, and_false, or_false] at done
  rcases done with ⟨-, _, middle, comma, rest, final, read, rfl, rfl⟩ | ⟨-, -, _, middle, close, rfl, rfl⟩
  · obtain ⟨onMiddle, -, position, -⟩ := on.take comma
    obtain ⟨onNext, last, stop, arranged, goodRest⟩ := later middle rest _ onMiddle read
    refine ⟨onNext, last, stop, ?_, ?_⟩
    · have tail : Successive cursor.position (rest.map place) last :=
        arranged.widen (by omega) (Nat.le_refl _)
      exact first.append tail
    · intro entry member
      rcases List.mem_cons.mp member with rfl | member
      · exact goodItem
      · exact goodRest entry member
  · obtain ⟨onNext, -, position, -⟩ := on.take close
    refine ⟨onNext, cursor.position, position, first, ?_⟩
    intro entry member
    rcases List.mem_singleton.mp member with rfl
    exact goodItem

end

section Types

variable {lexemes : List Lexeme}

def Laid {α : Type} (place : α → Range) (good : α → Prop) (start : Nat) (value : α) (stop : Nat) :
    Prop :=
  Successive start [place value] stop ∧ good value

abbrev LaidRef (lexemes : List Lexeme) : Nat → TypeRef → Nat → Prop :=
  Laid TypeRef.range fun ref => (Subtree.ref ref).Sound lexemes

abbrev LaidArgs (lexemes : List Lexeme) : Nat → TypeArgs → Nat → Prop :=
  Laid TypeArgs.range fun args => (Subtree.args args).Sound lexemes

abbrev LaidArg (lexemes : List Lexeme) : Nat → TypeArg → Nat → Prop :=
  Laid TypeArg.range fun arg => arg.subtree.Sound lexemes

abbrev ListedArgs (lexemes : List Lexeme) : Nat → List TypeArg → Nat → Prop :=
  Listed TypeArg.range fun arg => arg.subtree.Sound lexemes

abbrev ListedParams (lexemes : List Lexeme) : Nat → List TypeParam → Nat → Prop :=
  Listed TypeParam.range fun param => (Subtree.param param).Sound lexemes

def ReadsSegments (lexemes : List Lexeme) (read : Read (List Segment)) : Prop :=
  ∀ cursor segments next, cursor.On lexemes → IdentAt lexemes cursor.position →
    read cursor = .done segments next →
    next.On lexemes ∧ cursor.position < next.position ∧
      Successive cursor.position (segments.flatMap Segment.marks) next.position ∧
      SegmentsSound lexemes segments

theorem SegmentsSound.cons {segment : Segment} {segments : List Segment}
    (first : SegmentsSound lexemes [segment]) (rest : SegmentsSound lexemes segments) :
    SegmentsSound lexemes (segment :: segments) := by
  intro other member
  rcases List.mem_cons.mp member with rfl | member
  · exact first other (List.mem_singleton_self other)
  · exact rest other member

theorem dimensions_forward (n : Nat) : Forward lexemes (dimensions n) := by
  induction n with
  | zero => exact .stuck _
  | succ n ih =>
    intro cursor count next on done
    simp only [dimensions, branch_done, bind_done, pure_done] at done
    rcases done with ⟨-, _, opened, first, _, closed, second, _, _, more, -, rfl⟩ | ⟨-, -, rfl⟩
    · obtain ⟨onOpened, -, afterOpened, -⟩ := on.take first
      obtain ⟨onClosed, -, afterClosed, -⟩ := onOpened.take second
      obtain ⟨onNext, forward⟩ := ih _ _ _ onClosed more
      exact ⟨onNext, by omega⟩
    · exact ⟨on, Nat.le_refl _⟩

theorem annotations_forward {skip : Read Unit} {test : Cursor → Bool} {read : Nat → Read Unit}
    (passes : PassesAnnotations skip test read) (skips : Forward lexemes skip) (n : Nat) :
    Forward lexemes (read n) := by
  induction n with
  | zero =>
    rw [passes.zero]
    exact .stuck _
  | succ n ih =>
    intro cursor _ next on done
    simp only [passes.succ, branch_done, bind_done, pure_done] at done
    rcases done with ⟨-, _, middle, first, more⟩ | ⟨-, -, rfl⟩
    · obtain ⟨onMiddle, passed⟩ := skips _ _ _ on first
      obtain ⟨onNext, forward⟩ := ih _ _ _ onMiddle more
      exact ⟨onNext, Nat.le_trans passed forward⟩
    · exact ⟨on, Nat.le_refl _⟩

theorem appliedOr_laid {name : Name} {args : Read TypeArgs} {cursor next : Cursor}
    {segment : Segment} (reads : Ensures lexemes args (LaidArgs lexemes)) (on : cursor.On lexemes)
    (stands : name.Stands lexemes) (behind : cursor.position = name.index + 1)
    (done : appliedOr name args cursor = .done segment next) :
    next.On lexemes ∧ cursor.position ≤ next.position ∧
      Successive name.index segment.marks next.position ∧ SegmentsSound lexemes [segment] := by
  simp only [appliedOr, branch_done, bind_done, pure_done] at done
  rcases done with ⟨-, found, middle, read, rfl, rfl⟩ | ⟨-, rfl, rfl⟩
  · obtain ⟨onNext, arranged, sound⟩ := reads _ _ _ on read
    refine ⟨onNext, arranged.le, ⟨Nat.le_refl _, Nat.lt_succ_self _, ?_⟩, ?_⟩
    · exact arranged.widen (Nat.le_of_eq behind.symm) (Nat.le_refl _)
    intro segment member
    rcases List.mem_singleton.mp member with rfl
    refine ⟨stands, ?_⟩
    intro args applied
    cases applied
    exact sound
  · refine ⟨on, Nat.le_refl _,
      ⟨Nat.le_refl _, Nat.lt_succ_self _, Nat.le_of_eq behind.symm⟩, ?_⟩
    intro segment member
    rcases List.mem_singleton.mp member with rfl
    exact ⟨stands, by simp [Segment.args?]⟩

theorem qualified_laid {segment : Segment} {more : Read (List Segment)} {start : Nat}
    {cursor next : Cursor} {segments : List Segment} (reads : ReadsSegments lexemes more)
    (on : cursor.On lexemes) (arranged : Successive start segment.marks cursor.position)
    (sound : SegmentsSound lexemes [segment])
    (done : qualified segment more cursor = .done segments next) :
    next.On lexemes ∧ cursor.position ≤ next.position ∧
      Successive start (segments.flatMap Segment.marks) next.position ∧
      SegmentsSound lexemes segments := by
  simp only [qualified, branch_done, bind_done, pure_done] at done
  rcases done with ⟨seen, _, middle, dot, rest, final, read, rfl, rfl⟩ | ⟨-, rfl, rfl⟩
  · simp only [Cursor.seesDotName, Bool.and_eq_true] at seen
    -- A dot counts only in front of a name, so an identifier stands where the rest is read.
    have ident := on.identAt seen.2 fun _ => ident_of_isName
    obtain ⟨onMiddle, -, position, -⟩ := on.take dot
    rw [← position] at ident
    obtain ⟨onNext, forward, laid, soundRest⟩ := reads _ _ _ onMiddle ident read
    refine ⟨onNext, by omega, ?_, sound.cons soundRest⟩
    have tail : Successive cursor.position (rest.flatMap Segment.marks) next.position :=
      laid.widen (by omega) (Nat.le_refl _)
    exact arranged.append tail
  · refine ⟨on, Nat.le_refl _, ?_, sound⟩
    simpa using arranged

theorem typeSegments_step {skip : Read Unit} {diamond : Bool} {n : Nat}
    (args : Ensures lexemes (typeArgs skip diamond n) (LaidArgs lexemes))
    (more : ReadsSegments lexemes (typeSegments skip diamond n)) :
    ReadsSegments lexemes (typeSegments skip diamond (n + 1)) := by
  intro cursor segments next on ident done
  simp only [typeSegments, bind_done] at done
  obtain ⟨name, named, taken, segment, applied, read, rest⟩ := done
  obtain ⟨onNamed, index, position, stands⟩ := on.takeIdent taken ident
  obtain ⟨onApplied, passed, arranged, sound⟩ :=
    appliedOr_laid args onNamed stands (by omega) read
  obtain ⟨onNext, forward, laid, soundAll⟩ := qualified_laid more onApplied arranged sound rest
  rw [index] at laid
  exact ⟨onNext, by omega, laid, soundAll⟩

theorem pure_forward {α : Type} (value : α) : Forward lexemes (pure value : Read α) := by
  intro cursor _ next on done
  obtain ⟨-, rfl⟩ := (pure_done _ _ _ _).mp done
  exact ⟨on, Nat.le_refl _⟩

theorem closed_ref {counting : Read Nat} (forward : Forward lexemes counting) {start : Nat}
    {segments : List Segment} {cursor next : Cursor} {ref : TypeRef} (on : cursor.On lexemes)
    (done : (do
      let count ← counting
      let stop ← past
      pure (TypeRef.mk ⟨start, stop⟩ segments count)) cursor = .done ref next) :
    next.On lexemes ∧ cursor.position ≤ next.position ∧
      ∃ dims, ref = .mk ⟨start, next.position⟩ segments dims := by
  simp only [bind_done, past_done, pure_done] at done
  obtain ⟨count, last, counted, _, _, ⟨rfl, rfl⟩, rfl, rfl⟩ := done
  obtain ⟨onNext, more⟩ := forward _ _ _ on counted
  exact ⟨onNext, more, count, rfl⟩

theorem typeRef_step (meaningful : Meaningful lexemes) {skip : Read Unit}
    (skips : Forward lexemes skip) {diamond : Bool} {n : Nat}
    (reads : ReadsSegments lexemes (typeSegments skip diamond n)) (dims : Bool) :
    Ensures lexemes (typeRef skip diamond dims (n + 1)) (LaidRef lexemes) := by
  intro cursor ref next on done
  rw [typeRef, bind_done] at done
  obtain ⟨_, _, skipped, done⟩ := done
  rw [branch_done, miss_done, and_false, or_false, bind_done] at done
  obtain ⟨seen, _, passed, start, done⟩ := done
  obtain ⟨rfl, rfl⟩ := (index_done _ _ _).mp start
  obtain ⟨segments, behind, read, done⟩ := (bind_done _ _ _ _ _).mp done
  obtain ⟨onPassed, forward⟩ :=
    annotations_forward (typeAnnotations_passes skip) skips n _ _ _ on skipped
  have ident : IdentAt lexemes passed.position := by
    refine onPassed.identAt seen fun lexeme passes => ?_
    rcases Bool.or_eq_true_iff.mp passes with name | primitive
    · exact ident_of_isName name
    · exact ident_of_isPrimitive primitive
  obtain ⟨onBehind, consumed, arranged, sound⟩ := reads _ _ _ onPassed ident read
  -- Square brackets belong to the reference, where it may have some.
  have closed : next.On lexemes ∧ behind.position ≤ next.position ∧
      ∃ dims, ref = .mk ⟨passed.position, next.position⟩ segments dims := by
    cases dims with
    | true => exact closed_ref (dimensions_forward n) onBehind done
    | false => exact closed_ref (pure_forward 0) onBehind done
  obtain ⟨onNext, more, count, rfl⟩ := closed
  have nonempty := Nat.lt_of_lt_of_le consumed more
  refine ⟨onNext, ⟨forward, nonempty, Nat.le_refl _⟩, ?_⟩
  exact sound_ref meaningful nonempty onNext.bound (arranged.widen (Nat.le_refl _) more) sound

theorem sound_args (meaningful : Meaningful lexemes) {start stop : Nat} {args : List TypeArg}
    (inside : stop ≤ lexemes.length) (listed : ListedArgs lexemes (start + 1) args stop) :
    LaidArgs lexemes start (.mk ⟨start, stop⟩ args) stop := by
  obtain ⟨last, rfl, arranged, sound⟩ := listed
  have brackets := arranged.le
  have nonempty : start < last + 1 := by omega
  refine ⟨⟨Nat.le_refl _, nonempty, Nat.le_refl _⟩, ?_⟩
  refine .intro ⟨arranged, ?_, meaningful.bounded nonempty inside⟩ ?_
  · intro name member
    cases member
  · intro child member
    obtain ⟨arg, found, rfl⟩ := List.mem_map.mp member
    exact sound arg found

theorem typeArgs_step (meaningful : Meaningful lexemes) {skip : Read Unit} {n : Nat}
    (reads : Ensures lexemes (typeArgList skip n) (ListedArgs lexemes)) (diamond : Bool) :
    Ensures lexemes (typeArgs skip diamond (n + 1)) (LaidArgs lexemes) := by
  intro cursor args next on done
  simp only [typeArgs, whole_done, bind_done, branch_done, past_done, pure_done] at done
  obtain ⟨opener, opened, open_, list, final, choice, _, _, ⟨rfl, rfl⟩, rfl, rfl⟩ := done
  obtain ⟨onOpened, index, position, -⟩ := on.take open_
  rw [index]
  rcases choice with ⟨-, empty⟩ | ⟨-, read⟩
  · cases diamond with
    | false => exact absurd empty (by simp [miss_done])
    | true =>
      simp only [if_true, bind_done, pure_done] at empty
      obtain ⟨_, closed, close, rfl, rfl⟩ := empty
      obtain ⟨onNext, -, after, -⟩ := onOpened.take close
      refine ⟨onNext, sound_args meaningful onNext.bound ⟨opened.position, after, ?_, ?_⟩⟩
      · exact Nat.le_of_eq position.symm
      · intro arg member
        cases member
  · obtain ⟨onNext, last, stop, arranged, sound⟩ := reads _ _ _ onOpened read
    refine ⟨onNext, sound_args meaningful onNext.bound ⟨last, stop, ?_, sound⟩⟩
    exact position ▸ arranged

theorem typeArgList_step {skip : Read Unit} {n : Nat}
    (arg : Ensures lexemes (typeArg skip n) (LaidArg lexemes))
    (more : Ensures lexemes (typeArgList skip n) (ListedArgs lexemes)) :
    Ensures lexemes (typeArgList skip (n + 1)) (ListedArgs lexemes) := by
  intro cursor args next on done
  simp only [typeArgList, bind_done] at done
  obtain ⟨first, middle, read, rest⟩ := done
  obtain ⟨onMiddle, laid, sound⟩ := arg _ _ _ on read
  exact separated_listed more onMiddle laid sound rest

theorem sound_wildcard (meaningful : Meaningful lexemes) {start stop : Nat} {bound : Option TypeRef}
    (inside : stop ≤ lexemes.length)
    (arranged : Successive (start + 1) (bound.toList.map TypeRef.range) stop)
    (sound : ∀ ref ∈ bound, (Subtree.ref ref).Sound lexemes) :
    (Subtree.wildcard ⟨start, stop⟩ bound).Sound lexemes := by
  have nonempty : start < stop := arranged.le
  refine .intro ⟨arranged, ?_, meaningful.bounded nonempty inside⟩ ?_
  · intro name member
    cases member
  · intro child member
    obtain ⟨ref, found, rfl⟩ := List.mem_map.mp member
    exact sound ref (Option.mem_toList.mp found)

def ReadsBound (lexemes : List Lexeme) (start : Nat) (read : Read TypeArg) : Prop :=
  ∀ cursor arg next, cursor.On lexemes → cursor.position = start + 1 →
    read cursor = .done arg next → next.On lexemes ∧ LaidArg lexemes start arg next.position

theorem boundedArg_step (meaningful : Meaningful lexemes) {skip : Read Unit} {n : Nat}
    (reads : Ensures lexemes (typeRef skip false true n) (LaidRef lexemes)) (start : Nat)
    (kind : BoundKind) : ReadsBound lexemes start (boundedArg skip start kind (n + 1)) := by
  intro cursor arg next on place done
  simp only [boundedArg, bind_done, past_done, pure_done] at done
  obtain ⟨_, word, taken, ref, final, read, _, _, ⟨rfl, rfl⟩, rfl, rfl⟩ := done
  obtain ⟨onWord, -, position, -⟩ := on.take taken
  obtain ⟨onNext, arranged, sound⟩ := reads _ _ _ onWord read
  have inner : Successive (start + 1) [ref.range] next.position :=
    arranged.widen (by omega) (Nat.le_refl _)
  refine ⟨onNext, ⟨Nat.le_refl _, inner.le, Nat.le_refl _⟩, ?_⟩
  refine sound_wildcard meaningful onNext.bound inner ?_
  intro other same
  cases same
  exact sound

theorem typeArg_step (meaningful : Meaningful lexemes) {skip : Read Unit} {n : Nat}
    (ref : Ensures lexemes (typeRef skip false true n) (LaidRef lexemes))
    (bound : ∀ start kind, ReadsBound lexemes start (boundedArg skip start kind n)) :
    Ensures lexemes (typeArg skip (n + 1)) (LaidArg lexemes) := by
  intro cursor arg next on done
  simp only [typeArg, branch_done, bind_done, past_done, pure_done] at done
  rcases done with ⟨-, mark, marked, taken, choice⟩ | ⟨-, found, final, read, rfl, rfl⟩
  · obtain ⟨onMarked, index, position, -⟩ := on.take taken
    rw [← index] at position ⊢
    rcases choice with ⟨-, read⟩ | ⟨-, ⟨-, read⟩ | ⟨-, _, _, ⟨rfl, rfl⟩, rfl, rfl⟩⟩
    · exact bound _ _ _ _ _ onMarked position read
    · exact bound _ _ _ _ _ onMarked position read
    · rw [position]
      refine ⟨onMarked, ⟨Nat.le_refl _, Nat.lt_succ_self _, Nat.le_refl _⟩, ?_⟩
      refine sound_wildcard meaningful (position ▸ onMarked.bound) (Nat.le_refl _) ?_
      intro ref member
      cases member
  · obtain ⟨onNext, laid, sound⟩ := ref _ _ _ on read
    exact ⟨onNext, laid, sound⟩

structure TypesLaid (lexemes : List Lexeme) (skip : Read Unit) (n : Nat) : Prop where
  segments : ∀ diamond, ReadsSegments lexemes (typeSegments skip diamond n)
  ref : ∀ diamond dims, Ensures lexemes (typeRef skip diamond dims n) (LaidRef lexemes)
  args : ∀ diamond, Ensures lexemes (typeArgs skip diamond n) (LaidArgs lexemes)
  list : Ensures lexemes (typeArgList skip n) (ListedArgs lexemes)
  arg : Ensures lexemes (typeArg skip n) (LaidArg lexemes)
  bound : ∀ start kind, ReadsBound lexemes start (boundedArg skip start kind n)

theorem types_laid (meaningful : Meaningful lexemes) {skip : Read Unit}
    (skips : Forward lexemes skip) (n : Nat) : TypesLaid lexemes skip n := by
  -- The readers call each other with one step less, so one induction serves them all.
  induction n with
  | zero =>
    refine ⟨fun _ => ?_, fun _ _ => .stuck _, fun _ => .stuck _, .stuck _, .stuck _, fun _ _ => ?_⟩
    · intro cursor segments next _ _ done
      exact absurd done (by simp [typeSegments, stuck_done])
    · intro cursor arg next _ _ done
      exact absurd done (by simp [boundedArg, stuck_done])
  | succ n ih =>
    exact
      { segments := fun diamond => typeSegments_step (ih.args diamond) (ih.segments diamond)
        ref := fun diamond dims => typeRef_step meaningful skips (ih.segments diamond) dims
        args := fun diamond => typeArgs_step meaningful ih.list diamond
        list := typeArgList_step ih.arg ih.list
        arg := typeArg_step meaningful (ih.ref false true) ih.bound
        bound := fun start kind => boundedArg_step meaningful (ih.ref false true) start kind }

end Types

section Lists

variable {lexemes : List Lexeme}

def Row {α : Type} (place : α → Range) (good : α → Prop) (start : Nat) (items : List α)
    (stop : Nat) : Prop :=
  Successive start (items.map place) stop ∧ ∀ item ∈ items, good item

abbrev RowOfRefs (lexemes : List Lexeme) : Nat → List TypeRef → Nat → Prop :=
  Row TypeRef.range fun ref => (Subtree.ref ref).Sound lexemes

theorem Row.nil {α : Type} {place : α → Range} {good : α → Prop} {start stop : Nat}
    (forward : start ≤ stop) : Row place good start [] stop := by
  refine ⟨forward, ?_⟩
  intro item member
  cases member

theorem Row.one {α : Type} {place : α → Range} {good : α → Prop} {start stop : Nat} {value : α}
    (laid : Laid place good start value stop) : Row place good start [value] stop := by
  refine ⟨laid.1, ?_⟩
  intro item member
  rcases List.mem_singleton.mp member with rfl
  exact laid.2

theorem Row.append {α : Type} {place : α → Range} {good : α → Prop} {start middle later stop : Nat}
    {first second : List α} (left : Row place good start first middle) (order : middle ≤ later)
    (right : Row place good later second stop) :
    Row place good start (first ++ second) stop := by
  refine ⟨?_, ?_⟩
  · rw [List.map_append]
    exact left.1.append (right.1.widen order (Nat.le_refl _))
  · intro item member
    rcases List.mem_append.mp member with member | member
    · exact left.2 item member
    · exact right.2 item member

theorem withSteps_ensures {α : Type} {read : Nat → Read α} {condition : Nat → α → Nat → Prop}
    (each : ∀ n, Ensures lexemes (read n) condition) :
    Ensures lexemes (withSteps read) condition := by
  intro cursor value next on done
  exact each cursor.steps cursor value next on done

theorem typeList_row (meaningful : Meaningful lexemes) {skip : Read Unit}
    (skips : Forward lexemes skip) (separator : Kind) (n : Nat) :
    Ensures lexemes (typeList skip separator n) (RowOfRefs lexemes) := by
  induction n with
  | zero => exact .stuck _
  | succ n ih =>
    intro cursor refs next on done
    simp only [typeList, bind_done, branch_done, pure_done] at done
    obtain ⟨ref, middle, read, choice⟩ := done
    have reads := withSteps_ensures fun n => (types_laid meaningful skips n).ref false true
    obtain ⟨onMiddle, laid⟩ := reads _ _ _ on read
    rcases choice with ⟨-, _, comma, taken, more, final, rest, rfl, rfl⟩ | ⟨-, rfl, rfl⟩
    · obtain ⟨onComma, -, position, -⟩ := onMiddle.take taken
      obtain ⟨onNext, row⟩ := ih _ _ _ onComma rest
      exact ⟨onNext, (Row.one laid).append (by omega) row⟩
    · exact ⟨onMiddle, .one laid⟩

theorem sound_param (meaningful : Meaningful lexemes) {stop : Nat} {name : Name}
    {bounds : List TypeRef} (inside : stop ≤ lexemes.length) (stands : name.Stands lexemes)
    (row : RowOfRefs lexemes (name.index + 1) bounds stop) :
    Laid TypeParam.range (fun param => (Subtree.param param).Sound lexemes) name.index
      ⟨⟨name.index, stop⟩, name, bounds⟩ stop := by
  have nonempty : name.index < stop := row.1.le
  refine ⟨⟨Nat.le_refl _, nonempty, Nat.le_refl _⟩, ?_⟩
  refine .intro ⟨⟨Nat.le_refl _, Nat.lt_succ_self _, row.1⟩, ?_, meaningful.bounded nonempty inside⟩ ?_
  · intro other member
    rcases List.mem_singleton.mp member with rfl
    exact stands
  · intro child member
    obtain ⟨ref, found, rfl⟩ := List.mem_map.mp member
    exact row.2 ref found

theorem typeParam_laid (meaningful : Meaningful lexemes) {skip : Read Unit}
    (skips : Forward lexemes skip) :
    Ensures lexemes (typeParam skip)
      (Laid TypeParam.range fun param => (Subtree.param param).Sound lexemes) := by
  intro cursor param next on done
  simp only [typeParam, bind_done, branch_done, miss_done, and_false, or_false, index_done, past_done,
    pure_done] at done
  obtain ⟨_, _, skipped, seen, _, passed, ⟨rfl, rfl⟩, name, named, taken, bounds, final, choice, _, _,
    ⟨rfl, rfl⟩, rfl, rfl⟩ := done
  obtain ⟨onPassed, forward⟩ :=
    withSteps_ensures (annotations_forward (parameterAnnotations_passes skip) skips) _ _ _ on skipped
  obtain ⟨onNamed, index, position, stands⟩ :=
    onPassed.takeIdent taken (onPassed.identAt seen fun _ => ident_of_isName)
  rw [← index]
  have bounded : next.On lexemes ∧ RowOfRefs lexemes (name.index + 1) bounds next.position := by
    rcases choice with ⟨-, _, word, extends_, read⟩ | ⟨-, rfl, rfl⟩
    · obtain ⟨onWord, -, after, -⟩ := onNamed.take extends_
      obtain ⟨onNext, row⟩ :=
        withSteps_ensures (typeList_row meaningful skips .amp) _ _ _ onWord read
      exact ⟨onNext, row.1.widen (by omega) (Nat.le_refl _), row.2⟩
    · exact ⟨onNamed, .nil (by omega)⟩
  obtain ⟨onNext, row⟩ := bounded
  obtain ⟨laid, sound⟩ := sound_param meaningful onNext.bound stands row
  exact ⟨onNext, laid.widen (by omega) (Nat.le_refl _), sound⟩

theorem typeParamList_listed (meaningful : Meaningful lexemes) {skip : Read Unit}
    (skips : Forward lexemes skip) (n : Nat) :
    Ensures lexemes (typeParamList skip n) (ListedParams lexemes) := by
  induction n with
  | zero => exact .stuck _
  | succ n ih =>
    intro cursor params next on done
    simp only [typeParamList, bind_done] at done
    obtain ⟨param, middle, read, rest⟩ := done
    obtain ⟨onMiddle, laid, sound⟩ := typeParam_laid meaningful skips _ _ _ on read
    exact separated_listed ih onMiddle laid sound rest

theorem typeParams_laid (meaningful : Meaningful lexemes) {skip : Read Unit}
    (skips : Forward lexemes skip) :
    Ensures lexemes (typeParams skip)
      (Laid TypeParams.range fun params => (Subtree.params params).Sound lexemes) := by
  intro cursor params next on done
  simp only [typeParams, part_done, bind_done, past_done, pure_done] at done
  obtain ⟨opener, opened, taken, list, final, read, _, _, ⟨rfl, rfl⟩, rfl, rfl⟩ := done
  obtain ⟨onOpened, index, position, -⟩ := on.take taken
  obtain ⟨onNext, last, stop, arranged, sound⟩ :=
    withSteps_ensures (typeParamList_listed meaningful skips) _ _ _ onOpened read
  have brackets := arranged.le
  have nonempty : opener.index < next.position := by omega
  refine ⟨onNext, ⟨Nat.le_of_eq index.symm, nonempty, Nat.le_refl _⟩, ?_⟩
  refine .intro ⟨?_, ?_, meaningful.bounded nonempty onNext.bound⟩ ?_
  · exact arranged.widen (by simp only [index]; omega) (by simp only [stop]; omega)
  · intro name member
    cases member
  · intro child member
    obtain ⟨param, found, rfl⟩ := List.mem_map.mp member
    exact sound param found

end Lists

section Expressions

variable {lexemes : List Lexeme}

theorem expressionArgs_laid (meaningful : Meaningful lexemes) {skip : Read Unit}
    (skips : Forward lexemes skip) :
    Ensures lexemes (expressionArgs skip) (LaidArgs lexemes) := by
  intro cursor args next on done
  simp only [expressionArgs, whole_done, bind_done, branch_done, pure_done, miss_done, and_false,
    or_false] at done
  obtain ⟨found, middle, read, -, rfl, rfl⟩ := done
  exact withSteps_ensures (fun n => (types_laid meaningful skips n).args false) _ _ _ on read

theorem chainSegment_laid (meaningful : Meaningful lexemes) {skip : Read Unit}
    (skips : Forward lexemes skip) {name : Name} {cursor next : Cursor} {segment : Segment}
    (on : cursor.On lexemes) (stands : name.Stands lexemes)
    (behind : cursor.position = name.index + 1)
    (done : chainSegment skip name cursor = .done segment next) :
    next.On lexemes ∧ cursor.position ≤ next.position ∧
      Successive name.index segment.marks next.position ∧ SegmentsSound lexemes [segment] := by
  simp only [chainSegment, bind_done, pure_done] at done
  obtain ⟨found, middle, tried, rfl, rfl⟩ := done
  rcases optional_done _ _ _ _ tried with ⟨segment, rfl, read⟩ | ⟨rfl, rfl⟩
  · exact appliedOr_laid (expressionArgs_laid meaningful skips) on stands behind read
  -- What looked like arguments is none, and the cursor is back behind the name.
  · refine ⟨on, Nat.le_refl _, ⟨Nat.le_refl _, Nat.lt_succ_self _, Nat.le_of_eq behind.symm⟩, ?_⟩
    intro segment member
    rcases List.mem_singleton.mp member with rfl
    exact ⟨stands, by simp [Segment.args?]⟩

theorem chainSegments_laid (meaningful : Meaningful lexemes) {skip : Read Unit}
    (skips : Forward lexemes skip) (n : Nat) :
    ReadsSegments lexemes (chainSegments skip n) := by
  induction n with
  | zero =>
    intro cursor segments next _ _ done
    exact absurd done (by simp [chainSegments, stuck_done])
  | succ n ih =>
    intro cursor segments next on ident done
    simp only [chainSegments, bind_done] at done
    obtain ⟨name, named, taken, segment, applied, read, rest⟩ := done
    obtain ⟨onNamed, index, position, stands⟩ := on.takeIdent taken ident
    obtain ⟨onApplied, passed, arranged, sound⟩ :=
      chainSegment_laid meaningful skips onNamed stands (by omega) read
    obtain ⟨onNext, forward, laid, soundAll⟩ := qualified_laid ih onApplied arranged sound rest
    rw [index] at laid
    exact ⟨onNext, by omega, laid, soundAll⟩

theorem chain_row (meaningful : Meaningful lexemes) {skip : Read Unit}
    (skips : Forward lexemes skip) {cursor next : Cursor} {found : Option TypeRef}
    (on : cursor.On lexemes) (ident : IdentAt lexemes cursor.position)
    (done : chain skip cursor = .done found next) :
    next.On lexemes ∧ RowOfRefs lexemes cursor.position found.toList next.position := by
  simp only [chain, bind_done, index_done, past_done, pure_done] at done
  obtain ⟨_, _, ⟨rfl, rfl⟩, segments, final, read, _, _, ⟨rfl, rfl⟩, rfl, rfl⟩ := done
  obtain ⟨onNext, consumed, arranged, sound⟩ :=
    chainSegments_laid meaningful skips _ _ _ _ on ident read
  refine ⟨onNext, ?_⟩
  split
  next =>
    exact .one ⟨⟨Nat.le_refl _, consumed, Nat.le_refl _⟩,
      sound_ref meaningful consumed onNext.bound arranged sound⟩
  next => exact .nil (Nat.le_of_lt consumed)

theorem witness_laid (meaningful : Meaningful lexemes) {skip : Read Unit}
    (skips : Forward lexemes skip) :
    Ensures lexemes (witness skip)
      (Laid Member.range fun member => member.subtree.Sound lexemes) := by
  intro cursor member next on done
  simp only [witness, takeKind, bind_done, branch_done, strict_done, fail_done, and_false, or_false,
    pure_done] at done
  obtain ⟨_, dotted, dot, args, behind, read, method, final, ⟨seen, taken⟩, rfl, rfl⟩ := done
  obtain ⟨onDotted, -, position, -⟩ := on.take dot
  obtain ⟨onBehind, laid, sound⟩ :=
    withSteps_ensures (fun n => (types_laid meaningful skips n).args false) _ _ _ onDotted read
  obtain ⟨onNext, index, after, stands⟩ :=
    onBehind.takeIdent taken (onBehind.identAt seen fun _ passes => by simpa using passes)
  obtain ⟨start, nonempty, stop⟩ := laid
  have inside : method.index + 1 ≤ lexemes.length := by
    have bound := onNext.bound
    omega
  change args.range.stop ≤ behind.position at stop
  have arranged : Successive args.range.start [args.range, method.range] (method.index + 1) :=
    ⟨Nat.le_refl _, nonempty, by simp only [Name.range]; omega, Nat.lt_succ_self _, Nat.le_refl _⟩
  have whole : args.range.start < method.index + 1 := by omega
  refine ⟨onNext, ⟨by simp only [Member.range]; omega, whole, ?_⟩, ?_⟩
  · change method.index + 1 ≤ next.position
    omega
  refine .intro ⟨arranged, ?_, meaningful.bounded whole inside⟩ ?_
  · intro name found
    rcases List.mem_singleton.mp found with rfl
    exact stands
  · intro child found
    rcases List.mem_singleton.mp found with rfl
    exact sound

end Expressions

end Grammar

end Specializer
