import Specializer.Edit.Render

set_option autoImplicit false

namespace Specializer

section Sorting

variable {α : Type} {le : α → α → Bool} {order : α → α → Prop}

theorem insertBy_pairwise (first : ∀ a b, le a b = true → order a b)
    (second : ∀ a b, le a b = false → order b a)
    (trans : ∀ a b c, order a b → order b c → order a c) {a : α} {items : List α}
    (sorted : items.Pairwise order) : (insertBy le a items).Pairwise order := by
  induction items with
  | nil => exact List.pairwise_singleton _ _
  | cons b rest ih =>
    obtain ⟨ahead, tail⟩ := List.pairwise_cons.mp sorted
    simp only [insertBy]
    split
    next precedes =>
      refine List.pairwise_cons.mpr ⟨?_, sorted⟩
      intro c member
      rcases List.mem_cons.mp member with rfl | later
      · exact first _ _ precedes
      · exact trans _ _ _ (first _ _ precedes) (ahead c later)
    next follows =>
      refine List.pairwise_cons.mpr ⟨?_, ih tail⟩
      intro c member
      rcases List.mem_cons.mp ((insertBy_perm le a rest).mem_iff.mp member) with rfl | later
      · exact second _ _ (Bool.eq_false_iff.mpr follows)
      · exact ahead c later

theorem sortBy_pairwise (first : ∀ a b, le a b = true → order a b)
    (second : ∀ a b, le a b = false → order b a)
    (trans : ∀ a b c, order a b → order b c → order a c) (items : List α) :
    (sortBy le items).Pairwise order := by
  induction items with
  | nil => exact .nil
  | cons a rest ih => exact insertBy_pairwise first second trans ih

end Sorting

namespace Edit

def Before (a b : Edit) : Prop := a.stop ≤ b.start

def Apart (a b : Edit) : Prop := a.Before b ∨ b.Before a

theorem Apart.symm {a b : Edit} (apart : a.Apart b) : b.Apart a := Or.symm apart

theorem sort_perm (edits : List Edit) : (sort edits).Perm edits := sortBy_perm le edits

theorem le_start {a b : Edit} (precedes : le a b = true) : a.start ≤ b.start := by
  simp only [le] at precedes
  split at precedes
  next same => omega
  next => exact Int.le_of_lt (of_decide_eq_true precedes)

theorem not_le_start {a b : Edit} (follows : le a b = false) : b.start ≤ a.start := by
  simp only [le] at follows
  split at follows
  next same => omega
  next => exact Int.not_lt.mp (of_decide_eq_false follows)

theorem sort_starts (edits : List Edit) : (sort edits).Pairwise fun a b => a.start ≤ b.start := by
  apply sortBy_pairwise
  · intro a b precedes
    exact le_start precedes
  · intro a b follows
    exact not_le_start follows
  · intro a b c first second
    exact Int.le_trans first second

theorem sort_before {edits : List Edit} (nonempty : ∀ edit ∈ edits, edit.start < edit.stop)
    (apart : edits.Pairwise Apart) : (sort edits).Pairwise Before := by
  have spread : (sort edits).Pairwise Apart :=
    apart.perm (sort_perm edits).symm fun apart => apart.symm
  refine ((sort_starts edits).and spread).imp_of_mem ?_
  intro a b first second both
  have left := nonempty a ((sort_perm edits).mem_iff.mp first)
  have right := nonempty b ((sort_perm edits).mem_iff.mp second)
  -- Of two that stand apart, the one that starts first cannot be the one behind.
  rcases both with ⟨start, before | behind⟩
  · exact before
  · simp only [Before] at behind
    omega

theorem le_of_before {a b : Edit} (nonempty : a.start < a.stop) (before : a.Before b) :
    le a b = true := by
  have start : a.start < b.start := Int.lt_of_lt_of_le nonempty before
  simp [le, Int.ne_of_lt start, start]

section Validation

variable {start stop : Int}

/-- The edit reaches out of the part that starts and stops at the given places. -/
def strays (start stop : Int) (edit : Edit) : Bool :=
  decide (edit.start < start) || decide (stop < edit.stop)

theorem validateAfter_before {previous : Option Edit} {edits : List Edit}
    (nonempty : ∀ edit ∈ edits, edit.start < edit.stop) (before : edits.Pairwise Before)
    (ahead : ∀ first, previous = some first → ∀ edit ∈ edits, first.Before edit) :
    validateAfter start stop previous edits =
      match edits.find? (strays start stop) with
      | none => .ok ()
      | some edit => .error (.strayEdit edit start stop) := by
  induction edits generalizing previous with
  | nil => cases previous <;> rfl
  | cons edit rest ih =>
    obtain ⟨first, later⟩ := List.pairwise_cons.mp before
    have solid := nonempty edit List.mem_cons_self
    have next : validateAfter start stop (some edit) rest = _ :=
      ih (fun edit member => nonempty edit (List.mem_cons_of_mem _ member)) later
        fun _ same => Option.some.inj same ▸ first
    have forward : decide (edit.stop < edit.start) = false := decide_eq_false (by omega)
    -- Edits in order do not clash, so the first complaint can only be that one strays.
    cases out : strays start stop edit with
    | true =>
      rw [List.find?_cons_of_pos out]
      simp only [strays] at out
      simp [validateAfter, forward, out]
    | false =>
      rw [List.find?_cons_of_neg (by simp [out])]
      simp only [strays] at out
      cases previous with
      | none => simpa [validateAfter, forward, out] using next
      | some behind =>
        have apart : behind.stop ≤ edit.start := ahead behind rfl edit List.mem_cons_self
        have fits : behind.clashes edit = false := by
          simp only [clashes, Bool.or_eq_false_iff, decide_eq_false_iff_not, Int.not_lt]
          refine ⟨apart, ?_⟩
          simp only [Bool.and_eq_false_iff, decide_eq_false_iff_not]
          omega
        simpa [validateAfter, forward, out, fits] using next

theorem validate_before {edits : List Edit} (nonempty : ∀ edit ∈ edits, edit.start < edit.stop)
    (before : edits.Pairwise Before) :
    validate start stop edits =
      match edits.find? (strays start stop) with
      | none => .ok ()
      | some edit => .error (.strayEdit edit start stop) :=
  validateAfter_before nonempty before (fun _ none => nomatch none)

theorem validateAfter_inside {previous : Option Edit} {edits : List Edit}
    (valid : validateAfter start stop previous edits = .ok ()) :
    ∀ edit ∈ edits, start ≤ edit.start ∧ edit.start ≤ edit.stop ∧ edit.stop ≤ stop := by
  induction edits generalizing previous with
  | nil => exact nofun
  | cons edit rest ih =>
    unfold validateAfter at valid
    split at valid
    next => cases valid
    next fits =>
      simp only [Bool.or_eq_true, decide_eq_true_eq, not_or, Int.not_lt] at fits
      have later : validateAfter start stop (some edit) rest = .ok () := by
        split at valid
        next =>
          split at valid
          next => cases valid
          next => exact valid
        next => exact valid
      intro other member
      rcases List.mem_cons.mp member with rfl | behind
      · exact ⟨fits.1.1, fits.2, fits.1.2⟩
      · exact ih later other behind

theorem validateAfter_ordered {previous : Option Edit} {edits : List Edit}
    (valid : validateAfter start stop previous edits = .ok ()) :
    (∀ first, previous = some first → ∀ edit ∈ edits, first.Before edit) ∧ edits.Pairwise Before := by
  induction edits generalizing previous with
  | nil => exact ⟨fun _ _ => List.forall_mem_nil _, .nil⟩
  | cons edit rest ih =>
    have forward := (validateAfter_inside valid edit List.mem_cons_self).2.1
    unfold validateAfter at valid
    split at valid
    next => cases valid
    next =>
      cases previous with
      | none =>
        obtain ⟨behind, ordered⟩ := ih valid
        exact ⟨nofun, List.pairwise_cons.mpr ⟨behind edit rfl, ordered⟩⟩
      | some before =>
        dsimp only at valid
        split at valid
        next => cases valid
        next fits =>
          obtain ⟨behind, ordered⟩ := ih valid
          -- Only neighbours are compared, and the order of all follows from that of each with the
          -- next.
          have here : before.Before edit := by
            simp only [clashes, Bool.or_eq_true, decide_eq_true_eq, not_or, Int.not_lt] at fits
            exact fits.1
          refine ⟨fun first same => ?_, List.pairwise_cons.mpr ⟨behind edit rfl, ordered⟩⟩
          cases same
          refine List.forall_mem_cons.mpr ⟨here, fun other member => ?_⟩
          exact Int.le_trans here (Int.le_trans forward (behind edit rfl other member))

theorem render_valid {texts : List (List Char)} {edits : List Edit} {text : List Char}
    (rendered : render texts edits start stop = .ok text) : validate start stop edits = .ok () := by
  rw [render] at rendered
  cases valid : validate start stop edits with
  | error fault =>
    rw [valid] at rendered
    cases rendered
  | ok value => rfl

theorem render_ok {texts : List (List Char)} {edits : List Edit} {text : List Char}
    (rendered : render texts edits start stop = .ok text) :
    (∀ edit ∈ edits, start ≤ edit.start ∧ edit.start ≤ edit.stop ∧ edit.stop ≤ stop) ∧
      text = renderFrom texts start stop edits := by
  have valid := render_valid rendered
  rw [render, valid] at rendered
  exact ⟨validateAfter_inside valid, (Except.ok.inj rendered).symm⟩

end Validation

section Positions

def emitted (edits : List Edit) (index : Nat) : List Char :=
  (edits.filter fun edit => edit.start = (index : Int)).flatMap fun edit => edit.text

def covered (edits : List Edit) (index : Nat) : Bool :=
  edits.any fun edit => edit.start ≤ (index : Int) && (index : Int) < edit.stop

/-- What stands at a position once the edits are made: the texts of those that start there, and what
stood there before unless one of them covers it. -/
def standing (texts : List (List Char)) (edits : List Edit) (index : Nat) : List Char :=
  emitted edits index ++ if covered edits index then [] else texts.getD index []

def positionwise (texts : List (List Char)) (edits : List Edit) (start stop : Nat) : List Char :=
  (List.range' start (stop - start)).flatMap (standing texts edits) ++ emitted edits stop

theorem clip_natural (length position : Nat) : clip length position = min position length := by
  have natural : ¬ (position : Int) < 0 := by omega
  rw [clip, if_neg natural, Int.toNat_natCast]

theorem slice_natural {α : Type} (items : List α) (start count : Nat) :
    slice items start (start + count : Nat) = (items.drop start).take count := by
  rw [slice, clip_natural, clip_natural]
  apply List.ext_getElem?
  intro index
  simp only [List.getElem?_drop, List.getElem?_take]
  split <;> split <;> grind

theorem slice_flatten (texts : List (List Char)) (start count : Nat) :
    (slice texts start (start + count : Nat)).flatten =
      (List.range' start count).flatMap fun index => texts.getD index [] := by
  rw [slice_natural]
  induction count generalizing start with
  | zero => simp
  | succ count ih =>
    have next := ih (start + 1)
    cases there : texts[start]? with
    | none =>
      have past : texts.length ≤ start := List.getElem?_eq_none_iff.mp there
      have beyond : texts.length ≤ start + 1 := Nat.le_succ_of_le past
      simpa [List.range'_succ, List.drop_eq_nil_of_le past, List.drop_eq_nil_of_le beyond, there]
        using next
    | some text =>
      obtain ⟨inside, rfl⟩ := List.getElem?_eq_some_iff.mp there
      rw [List.drop_eq_getElem_cons inside, List.take_succ_cons, List.flatten_cons, next,
        List.range'_succ, List.flatMap_cons, List.getD_eq_getElem?_getD, there, Option.getD_some]

variable {texts : List (List Char)} {edit : Edit} {rest : List Edit}

theorem emitted_eq_nil {edits : List Edit} {index : Nat}
    (elsewhere : ∀ edit ∈ edits, edit.start ≠ (index : Int)) : emitted edits index = [] := by
  have none : edits.filter (fun edit => edit.start = (index : Int)) = [] := by
    refine List.filter_eq_nil_iff.mpr fun edit member => ?_
    simpa using elsewhere edit member
  rw [emitted, none, List.flatMap_nil]

theorem standing_free {edits : List Edit} {index : Nat}
    (nonempty : ∀ edit ∈ edits, edit.start < edit.stop) (free : covered edits index = false) :
    standing texts edits index = texts.getD index [] := by
  have elsewhere : ∀ edit ∈ edits, edit.start ≠ (index : Int) := by
    intro edit member start
    have hidden := List.any_eq_false.mp free edit member
    have solid := nonempty edit member
    simp only [Bool.and_eq_true, decide_eq_true_eq] at hidden
    omega
  rw [standing, emitted_eq_nil elsewhere, free]
  rfl

theorem standing_ahead {edits : List Edit} {index : Nat}
    (later : ∀ edit ∈ edits, (index : Int) < edit.start) :
    standing texts edits index = texts.getD index [] := by
  have free : covered edits index = false := by
    refine List.any_eq_false.mpr fun edit member => ?_
    have start := later edit member
    simp only [Bool.and_eq_true, decide_eq_true_eq]
    omega
  rw [standing, emitted_eq_nil fun edit member => Int.ne_of_gt (later edit member), free]
  rfl

theorem standing_within {index : Nat} (start : edit.start ≤ index) (stop : index < edit.stop)
    (later : ∀ other ∈ rest, edit.stop ≤ other.start) :
    standing texts (edit :: rest) index = if edit.start = index then edit.text else [] := by
  have none : emitted rest index = [] :=
    emitted_eq_nil fun other member => Int.ne_of_gt (Int.lt_of_lt_of_le stop (later other member))
  have closed : covered (edit :: rest) index = true := by simp [covered, start, stop]
  rw [standing, closed]
  by_cases same : edit.start = (index : Int)
  · rw [emitted] at none
    simp [emitted, same, none]
  · rw [emitted] at none
    simp [emitted, same, none]

theorem standing_behind {index : Nat} (start : edit.start < index) (stop : edit.stop ≤ index) :
    standing texts (edit :: rest) index = standing texts rest index := by
  have other : ¬ edit.start = (index : Int) := by omega
  have free : ¬ (index : Int) < edit.stop := by omega
  simp [standing, emitted, covered, other, free]

theorem positionwise_step {edits : List Edit} {start high : Nat} (inside : start < high) :
    positionwise texts edits start high =
      standing texts edits start ++ positionwise texts edits (start + 1) high := by
  have count : high - start = (high - (start + 1)) + 1 := by omega
  simp only [positionwise, count, List.range'_succ, List.flatMap_cons, List.append_assoc]

theorem positionwise_end (edits : List Edit) (high : Nat) :
    positionwise texts edits high high = emitted edits high := by
  simp [positionwise]

theorem positionwise_behind {start stop index high : Nat} {text : List Char} (off : start < index)
    (past : stop ≤ index) (bound : index ≤ high) :
    positionwise texts (⟨start, stop, text⟩ :: rest) index high =
      positionwise texts rest index high := by
  have other : ¬ (start : Int) = (high : Int) := by omega
  have shown : emitted (⟨start, stop, text⟩ :: rest) high = emitted rest high := by
    simp [emitted, other]
  have same : (List.range' index (high - index)).map (standing texts (⟨start, stop, text⟩ :: rest)) =
      (List.range' index (high - index)).map (standing texts rest) := by
    refine List.map_congr_left fun place member => ?_
    obtain ⟨reached, -⟩ := List.mem_range'_1.mp member
    exact standing_behind (by simp only; omega) (by simp only; omega)
  rw [positionwise, positionwise, List.flatMap_def, List.flatMap_def, same, shown]

theorem positionwise_past {start stop high index : Nat} {text : List Char} (off : start < index)
    (reached : index ≤ stop) (bound : stop ≤ high)
    (later : ∀ other ∈ rest, (stop : Int) ≤ other.start) :
    positionwise texts (⟨start, stop, text⟩ :: rest) index high =
      positionwise texts rest stop high := by
  -- On the positions that the edit still covers: nothing is shown there.
  induction remaining : stop - index generalizing index with
  | zero =>
    have same : index = stop := by omega
    subst same
    exact positionwise_behind off (Nat.le_refl _) bound
  | succ remaining ih =>
    have hidden : standing texts (⟨start, stop, text⟩ :: rest) index = [] := by
      rw [standing_within (by simp only; omega) (by simp only; omega) later]
      exact if_neg (by simp only; omega)
    rw [positionwise_step (by omega), hidden, List.nil_append]
    exact ih (by omega) (by omega) (by omega)

theorem positionwise_cons {start stop high : Nat} {text : List Char} (order : start ≤ stop)
    (bound : stop ≤ high) (later : ∀ other ∈ rest, (stop : Int) ≤ other.start) :
    positionwise texts (⟨start, stop, text⟩ :: rest) start high =
      text ++ positionwise texts rest stop high := by
  rcases Nat.lt_or_eq_of_le order with nonempty | rfl
  · have shown : standing texts (⟨start, stop, text⟩ :: rest) start = text := by
      rw [standing_within (by simp only; omega) (by simp only; omega) later]
      exact if_pos rfl
    rw [positionwise_step (by omega), shown,
      positionwise_past (Nat.lt_succ_self start) nonempty bound later]
  -- An insertion covers nothing, so its text stands in front of what else starts there.
  · have shown : emitted (⟨start, start, text⟩ :: rest) start = text ++ emitted rest start := by
      simp [emitted]
    rcases Nat.lt_or_eq_of_le bound with inside | rfl
    · have front : standing texts (⟨start, start, text⟩ :: rest) start =
          text ++ standing texts rest start := by
        simp [standing, shown, covered]
      rw [positionwise_step inside, front, positionwise_step inside, List.append_assoc,
        positionwise_behind (Nat.lt_succ_self start) (Nat.le_succ start) inside]
    · rw [positionwise_end, positionwise_end, shown]

theorem positionwise_ahead {edits : List Edit} {position count high : Nat}
    (bound : position + count ≤ high)
    (later : ∀ edit ∈ edits, ((position + count : Nat) : Int) ≤ edit.start) :
    positionwise texts edits position high =
      (slice texts position (position + count : Nat)).flatten ++
        positionwise texts edits (position + count) high := by
  have sum : high - position = count + (high - (position + count)) := by omega
  have same : (List.range' position count).flatMap (standing texts edits) =
      (List.range' position count).flatMap fun index => texts.getD index [] := by
    rw [List.flatMap_def, List.flatMap_def]
    refine congrArg List.flatten (List.map_congr_left fun place member => ?_)
    obtain ⟨-, short⟩ := List.mem_range'_1.mp member
    refine standing_ahead fun edit found => ?_
    have start := later edit found
    omega
  rw [positionwise, positionwise, sum, ← List.range'_append_1, List.flatMap_append,
    List.append_assoc, same, slice_flatten]

theorem renderFrom_positionwise {edits : List Edit} {position high : Nat} (bound : position ≤ high)
    (inside : ∀ edit ∈ edits, (position : Int) ≤ edit.start ∧ edit.start ≤ edit.stop ∧
      edit.stop ≤ (high : Int)) (before : edits.Pairwise Before) :
    renderFrom texts position high edits = positionwise texts edits position high := by
  induction edits generalizing position with
  | nil =>
    have sum : high = position + (high - position) := by omega
    have plain : standing texts [] = fun index => texts.getD index [] := by
      funext index
      exact standing_ahead (by simp)
    rw [renderFrom, positionwise, plain, ← slice_flatten, ← sum, emitted_eq_nil (by simp),
      List.append_nil]
  | cons edit rest ih =>
    obtain ⟨first, later⟩ := List.pairwise_cons.mp before
    obtain ⟨low, order, last⟩ := inside edit List.mem_cons_self
    obtain ⟨start, stop, text⟩ := edit
    obtain ⟨start, rfl⟩ := Int.eq_ofNat_of_zero_le (Int.le_trans (Int.natCast_nonneg _) low)
    obtain ⟨stop, rfl⟩ := Int.eq_ofNat_of_zero_le (Int.le_trans (Int.natCast_nonneg _) order)
    simp only [Int.ofNat_le] at low order last
    -- What is copied first is the stretch of `count` texts in front of the edit.
    obtain ⟨count, rfl⟩ := Nat.exists_eq_add_of_le low
    have starts : ∀ other ∈ (⟨(position + count : Nat), stop, text⟩ : Edit) :: rest,
        ((position + count : Nat) : Int) ≤ other.start := by
      intro other member
      rcases List.mem_cons.mp member with rfl | behind
      · exact Int.le_refl _
      · exact Int.le_trans (Int.ofNat_le.mpr order) (first other behind)
    have tail := ih last (fun other member =>
      ⟨first other member, (inside other (List.mem_cons_of_mem _ member)).2⟩) later
    rw [renderFrom, tail, positionwise_ahead (Nat.le_trans order last) starts,
      positionwise_cons order last first, List.append_assoc]

-- Edits one after another in the part are accepted, and rendering goes by positions.
theorem render_positionwise {edits : List Edit} {low high : Nat} (bound : low ≤ high)
    (inside : ∀ edit ∈ edits, (low : Int) ≤ edit.start ∧ edit.start < edit.stop ∧
      edit.stop ≤ (high : Int)) (before : edits.Pairwise Before) :
    validate low high edits = .ok () ∧
      render texts edits low high = .ok (positionwise texts edits low high) := by
  have none : edits.find? (strays low high) = none := by
    refine List.find?_eq_none.mpr fun edit member => ?_
    have bounds := inside edit member
    simp only [strays, Bool.or_eq_true, decide_eq_true_eq]
    omega
  have accepted : validate low high edits = .ok () := by
    rw [validate_before (fun edit member => (inside edit member).2.1) before, none]
  have shown : renderFrom texts low high edits = positionwise texts edits low high := by
    refine renderFrom_positionwise bound (fun edit member => ?_) before
    obtain ⟨start, nonempty, stop⟩ := inside edit member
    exact ⟨start, Int.le_of_lt nonempty, stop⟩
  exact ⟨accepted, by rw [render, accepted, shown]; rfl⟩

theorem render_shows {edits : List Edit} {low high : Nat} {text : List Char} (bound : low ≤ high)
    (rendered : render texts edits low high = .ok text) :
    edits.Pairwise Before ∧ text = positionwise texts edits low high := by
  obtain ⟨inside, rfl⟩ := render_ok rendered
  obtain ⟨-, ordered⟩ := validateAfter_ordered (render_valid rendered)
  exact ⟨ordered, renderFrom_positionwise bound inside ordered⟩

theorem positionwise_whole {edits : List Edit} {count : Nat}
    (within : ∀ edit ∈ edits, edit.start < (count : Int)) :
    positionwise texts edits 0 count = (List.range count).flatMap (standing texts edits) := by
  rw [positionwise, emitted_eq_nil fun edit member => Int.ne_of_lt (within edit member),
    List.append_nil, Nat.sub_zero, List.range_eq_range']

theorem render_nil (texts : List (List Char)) :
    render texts [] 0 texts.length = .ok texts.flatten := by
  have whole : slice texts (0 : Nat) (0 + texts.length : Nat) = (texts.drop 0).take texts.length :=
    slice_natural texts 0 texts.length
  rw [Nat.zero_add, List.drop_zero, List.take_length] at whole
  exact congrArg (fun items => Except.ok (List.flatten items)) whole

end Positions

end Edit

end Specializer
