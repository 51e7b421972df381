import Mathlib.Data.List.Chain
import Specializer.Proofs.EditOrder

set_option autoImplicit false

namespace Specializer.Edit

def Collides (a b : Edit) : Prop := a.start = a.stop ∧ a.start = b.start ∧ b.start = b.stop

/-- The edits lie within the range, each one behind those that come before it in the list, and no two insert
at one place. -/
structure Fit (start stop : Int) (edits : List Edit) : Prop where
  inside : ∀ edit ∈ edits, start ≤ edit.start ∧ edit.start ≤ edit.stop ∧ edit.stop ≤ stop
  apart : edits.Pairwise fun a b => a.stop ≤ b.start ∧ ¬ a.Collides b

section Acceptance

variable {start stop : Int} {a b c edit : Edit} {edits rest : List Edit}

def Follows (a b : Edit) : Prop := b.start ≤ b.stop ∧ a.stop ≤ b.start ∧ ¬ a.Collides b

-- An edit between two that insert at one place would insert there as well.
theorem Follows.trans (first : a.Follows b) (second : b.Follows c) : a.Follows c := by
  simp only [Follows, Collides] at first second ⊢
  omega

instance : Trans Follows Follows Follows := ⟨Follows.trans⟩

theorem clashes_eq_false (forward : a.start ≤ a.stop) :
    a.clashes b = false ↔ a.stop ≤ b.start ∧ ¬ a.Collides b := by
  simp only [clashes, Collides, Bool.or_eq_false_iff, Bool.and_eq_false_iff, decide_eq_false_iff_not]
  omega

theorem validateAfter_cons {previous : Option Edit} :
    validateAfter start stop previous (edit :: rest) = .ok () ↔
      (start ≤ edit.start ∧ edit.start ≤ edit.stop ∧ edit.stop ≤ stop) ∧
        (∀ before, previous = some before → before.clashes edit = false) ∧
          validateAfter start stop (some edit) rest = .ok () := by
  rw [validateAfter.eq_def]
  dsimp only
  split
  next stray =>
    simp only [Bool.or_eq_true, decide_eq_true_eq] at stray
    simp only [reduceCtorEq, false_iff]
    omega
  next near =>
    simp only [Bool.or_eq_true, decide_eq_true_eq, not_or, Int.not_lt] at near
    have bounds : start ≤ edit.start ∧ edit.start ≤ edit.stop ∧ edit.stop ≤ stop :=
      ⟨near.1.1, near.2, near.1.2⟩
    cases previous with
    | none => simp [bounds]
    | some before => cases clash : before.clashes edit <;> simp [clash, bounds]

theorem validateAfter_ok_iff {previous : Option Edit}
    (forward : ∀ before, previous = some before → before.start ≤ before.stop) :
    validateAfter start stop previous edits = .ok () ↔
      (∀ edit ∈ edits, start ≤ edit.start ∧ edit.start ≤ edit.stop ∧ edit.stop ≤ stop) ∧
        (previous.toList ++ edits).IsChain Follows := by
  induction edits generalizing previous with
  | nil => cases previous <;> simp [validateAfter]
  | cons edit rest ih =>
    rw [validateAfter_cons, List.forall_mem_cons]
    constructor
    next =>
      rintro ⟨bounds, next, later⟩
      obtain ⟨inside, chain⟩ := (ih fun _ same => Option.some.inj same ▸ bounds.2.1).mp later
      refine ⟨⟨bounds, inside⟩, ?_⟩
      cases previous with
      | none => exact chain
      | some before =>
        exact .cons_cons ⟨bounds.2.1, (clashes_eq_false (forward before rfl)).mp (next before rfl)⟩ chain
    next =>
      rintro ⟨⟨bounds, inside⟩, chain⟩
      refine ⟨bounds, ?_, (ih fun _ same => Option.some.inj same ▸ bounds.2.1).mpr ⟨inside, ?_⟩⟩
      · rintro before rfl
        exact (clashes_eq_false (forward before rfl)).mpr (List.isChain_cons_cons.mp chain).1.2
      · cases previous with
        | none => exact chain
        | some before => exact (List.isChain_cons_cons.mp chain).2

-- Comparing neighbours is enough.
theorem validate_ok_iff : validate start stop edits = .ok () ↔ Fit start stop edits := by
  rw [validate, validateAfter_ok_iff (by simp), Option.toList_none, List.nil_append, List.isChain_iff_pairwise]
  constructor
  next =>
    rintro ⟨inside, apart⟩
    exact ⟨inside, apart.imp And.right⟩
  next =>
    rintro ⟨inside, apart⟩
    exact ⟨inside, apart.imp_of_mem fun _ second apart => ⟨(inside _ second).2.1, apart⟩⟩

theorem render_ok_iff {texts : List (List Char)} {text : List Char} :
    render texts edits start stop = .ok text ↔
      Fit start stop edits ∧ text = renderFrom texts start stop edits := by
  rw [← validate_ok_iff, render]
  cases validate start stop edits <;> simp [bind, Except.bind, pure, Except.pure, eq_comm]

end Acceptance

/-- A piece of what is rendered: the text of an edit, or a text that stays. -/
inductive Shown
  | put (edit : Edit)
  | kept (index : Nat)

namespace Shown

def text (texts : List (List Char)) : Shown → List Char
  | put edit => edit.text
  | kept index => texts.getD index []

def edit? : Shown → Option Edit
  | put edit => some edit
  | kept _ => none

def index? : Shown → Option Nat
  | put _ => none
  | kept index => some index

end Shown

def startingAt (edits : List Edit) (index : Nat) : List Edit :=
  edits.filter fun edit => edit.start = (index : Int)

/-- There is a text at the position and no edit covers it. -/
def visible (texts : List (List Char)) (edits : List Edit) (index : Nat) : Bool :=
  !covered edits index && decide (index < texts.length)

/-- What a position shows: the edits that start there, in the order of the list, and then its text if that is
visible. -/
def shownAt (texts : List (List Char)) (edits : List Edit) (index : Nat) : List Shown :=
  (startingAt edits index).map .put ++ if visible texts edits index then [.kept index] else []

/-- What the positions of a range show, one after the other; the place behind them is for insertions only. -/
def shown (texts : List (List Char)) (edits : List Edit) (start stop : Nat) : List Shown :=
  (List.range' start (stop - start)).flatMap (shownAt texts edits) ++ (startingAt edits stop).map .put

section Shown

variable {texts : List (List Char)} {edits : List Edit} {start stop : Nat}

theorem shown_text (texts : List (List Char)) (edits : List Edit) (start stop : Nat) :
    (shown texts edits start stop).flatMap (Shown.text texts) = positionwise texts edits start stop := by
  have put (index : Nat) :
      ((startingAt edits index).map Shown.put).flatMap (Shown.text texts) = emitted edits index :=
    List.flatMap_map ..
  have single (index : Nat) :
      (shownAt texts edits index).flatMap (Shown.text texts) = standing texts edits index := by
    rw [shownAt, standing, List.flatMap_append, put, visible]
    cases covered edits index with
    | true => rfl
    | false =>
      by_cases there : index < texts.length
      · simp [there, Shown.text]
      · simp [there]
  rw [shown, positionwise, List.flatMap_append, List.flatMap_assoc, put]
  simp only [single]

theorem shown_indices (texts : List (List Char)) (edits : List Edit) (start stop : Nat) :
    (shown texts edits start stop).filterMap Shown.index? =
      (List.range' start (stop - start)).filter (visible texts edits) := by
  have put (index : Nat) : ((startingAt edits index).map Shown.put).filterMap Shown.index? = [] := by
    simp [List.filterMap_map, Shown.index?]
  have single (index : Nat) : (shownAt texts edits index).filterMap Shown.index? =
      (Option.guard (visible texts edits) index).toList := by
    rw [shownAt, List.filterMap_append, put, Option.guard]
    cases visible texts edits index <;> rfl
  rw [shown, List.filterMap_append, put, List.append_nil, List.filterMap_flatMap]
  simp only [single]
  rw [← List.filterMap_eq_flatMap_toList, List.filterMap_eq_filter]

theorem filter_front {low : Int} (sorted : edits.Pairwise fun a b => a.start ≤ b.start)
    (least : ∀ edit ∈ edits, low ≤ edit.start) :
    edits.filter (fun edit => edit.start = low) ++ edits.filter (fun edit => edit.start ≠ low) = edits := by
  induction edits with
  | nil => rfl
  | cons edit rest ih =>
    obtain ⟨first, later⟩ := List.pairwise_cons.mp sorted
    obtain ⟨here, others⟩ := List.forall_mem_cons.mp least
    by_cases same : edit.start = low
    · simpa [same] using ih later others
    · -- Nothing behind an edit that starts later starts at the front.
      have none : ∀ other ∈ edit :: rest, other.start ≠ low := by
        refine List.forall_mem_cons.mpr ⟨same, fun other member => ?_⟩
        have behind := first other member
        omega
      rw [List.filter_eq_nil_iff.mpr (by simpa using none), List.filter_eq_self.mpr (by simpa using none)]
      rfl

theorem gathered {low count : Nat} (sorted : edits.Pairwise fun a b => a.start ≤ b.start)
    (inside : ∀ edit ∈ edits, (low : Int) ≤ edit.start ∧ edit.start < (low + count : Nat)) :
    (List.range' low count).flatMap (startingAt edits) = edits := by
  induction count generalizing low edits with
  | zero =>
    refine (List.eq_nil_iff_forall_not_mem.mpr fun edit member => ?_).symm
    have bounds := inside edit member
    omega
  | succ count ih =>
    let later := edits.filter fun edit => edit.start ≠ (low : Int)
    have rest : (List.range' (low + 1) count).flatMap (startingAt later) = later := by
      refine ih (sorted.filter _) fun edit member => ?_
      obtain ⟨there, other⟩ := List.mem_filter.mp member
      have bounds := inside edit there
      simp only [ne_eq, decide_not, Bool.not_eq_true', decide_eq_false_iff_not] at other
      omega
    have same : (List.range' (low + 1) count).map (startingAt edits) =
        (List.range' (low + 1) count).map (startingAt later) := by
      refine List.map_congr_left fun index member => ?_
      obtain ⟨behind, -⟩ := List.mem_range'_1.mp member
      rw [startingAt, startingAt, List.filter_filter]
      refine List.filter_congr fun edit _ => ?_
      rw [Bool.eq_iff_iff, Bool.and_eq_true, decide_eq_true_eq, decide_eq_true_eq]
      omega
    rw [List.range'_succ, List.flatMap_cons, List.flatMap_def, same, ← List.flatMap_def, rest]
    exact filter_front sorted fun edit member => (inside edit member).1

theorem shown_edits (bound : start ≤ stop) (fit : Fit start stop edits) :
    (shown texts edits start stop).filterMap Shown.edit? = edits := by
  have put (index : Nat) :
      ((startingAt edits index).map Shown.put).filterMap Shown.edit? = startingAt edits index := by
    simp [List.filterMap_map, Shown.edit?, Function.comp_def]
  have single (index : Nat) :
      (shownAt texts edits index).filterMap Shown.edit? = startingAt edits index := by
    rw [shownAt, List.filterMap_append, put]
    split <;> simp [Shown.edit?]
  have sorted : edits.Pairwise fun a b => a.start ≤ b.start :=
    fit.apart.imp_of_mem fun first _ apart => Int.le_trans (fit.inside _ first).2.1 apart.1
  have whole := @gathered edits start (stop - start + 1) sorted fun edit member => by
    have bounds := fit.inside edit member
    omega
  have last : start + (stop - start) = stop := Nat.add_sub_cancel' bound
  rw [List.range'_1_concat, List.flatMap_append, last, List.flatMap_singleton] at whole
  rw [shown, List.filterMap_append, put, List.filterMap_flatMap]
  simp only [single]
  exact whole

end Shown

/-- Rendering a part in one pass against rendering it position by position. It succeeds exactly if the edits fit:
each lies in the part, and of any two the first in the list ends before the second starts, and they do not both
insert at one place. The text is then what the positions show, among which every edit and every visible
position is found just once, in order. -/
theorem render_positions {texts : List (List Char)} {edits : List Edit} {start stop : Nat}
    (bound : start ≤ stop) :
    ((∃ text, render texts edits start stop = .ok text) ↔ Fit start stop edits) ∧
    ∀ text, render texts edits start stop = .ok text →
      text = (shown texts edits start stop).flatMap (Shown.text texts) ∧
      (shown texts edits start stop).filterMap Shown.edit? = edits ∧
      (shown texts edits start stop).filterMap Shown.index? =
        (List.range' start (stop - start)).filter (visible texts edits) := by
  constructor
  next => simp [render_ok_iff]
  next =>
    intro text rendered
    obtain ⟨fit, -⟩ := render_ok_iff.mp rendered
    refine ⟨?_, shown_edits bound fit, shown_indices texts edits start stop⟩
    rw [shown_text]
    exact (render_shows bound rendered).2

-- Insertions in front of a replacement, behind it and at the end are accepted; two at one place are not.
theorem render_positions_insertions :
    ∃ texts edits twice, texts = ["a".toList, "b".toList, "c".toList] ∧
      edits = [⟨1, 1, "+".toList⟩, ⟨1, 2, "B".toList⟩, ⟨2, 2, "-".toList⟩, ⟨3, 3, "!".toList⟩] ∧
      twice = [⟨2, 2, "-".toList⟩, ⟨2, 2, "!".toList⟩] ∧
      Fit (1 : Nat) (3 : Nat) edits ∧ ¬ Fit (1 : Nat) (3 : Nat) twice ∧
      render texts edits (1 : Nat) (3 : Nat) = .ok "+B-c!".toList ∧
      (shown texts edits 1 3).flatMap (Shown.text texts) = "+B-c!".toList ∧
      (shown texts edits 1 3).filterMap Shown.edit? = edits ∧
      (shown texts edits 1 3).filterMap Shown.index? = [2] := by
  refine ⟨_, _, _, rfl, rfl, rfl, ?_⟩
  obtain ⟨accepts, shows⟩ := @render_positions ["a".toList, "b".toList, "c".toList]
    [⟨1, 1, "+".toList⟩, ⟨1, 2, "B".toList⟩, ⟨2, 2, "-".toList⟩, ⟨3, 3, "!".toList⟩] 1 3 (by decide)
  obtain ⟨refuses, -⟩ := @render_positions ["a".toList, "b".toList, "c".toList]
    [⟨2, 2, "-".toList⟩, ⟨2, 2, "!".toList⟩] 1 3 (by decide)
  have rendered : render ["a".toList, "b".toList, "c".toList]
      [⟨1, 1, "+".toList⟩, ⟨1, 2, "B".toList⟩, ⟨2, 2, "-".toList⟩, ⟨3, 3, "!".toList⟩] (1 : Nat) (3 : Nat) =
        .ok "+B-c!".toList := by decide +kernel
  obtain ⟨text, edits, indices⟩ := shows _ rendered
  refine ⟨accepts.mp ⟨_, rendered⟩, ?_, rendered, text.symm, edits, indices⟩
  intro fit
  obtain ⟨text, accepted⟩ := refuses.mpr fit
  cases accepted

end Specializer.Edit
