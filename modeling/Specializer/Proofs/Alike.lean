import Mathlib.Data.List.Forall2
import Specializer.Proofs.EditOrder
import Specializer.Proofs.Outcomes

set_option autoImplicit false

namespace Specializer

def Notice.mark (notice : Notice) : Code × Option Span := (notice.issue.code, notice.issue.span)

namespace Traced

variable {α β γ δ : Type}

def Matches (view : α → γ) : Except Fault α → Except Fault α → Prop
  | .ok a, .ok b => view a = view b
  | .error f, .error g => f.code = g.code
  | _, _ => False

section

variable {view : α → γ} {later : β → δ} {first second : Except Fault α}

theorem Matches.refl (result : Except Fault α) : Matches view result result := by
  cases result <;> rfl

theorem Matches.bind {next more : α → Except Fault β} (same : Matches view first second)
    (follows : ∀ a b, view a = view b → Matches later (next a) (more b)) :
    Matches later (first >>= next) (second >>= more) := by
  cases first <;> cases second <;> simp only [Matches] at same
  case error.error => exact same
  case ok.ok a b => exact follows a b same

theorem Matches.mapM {ι : Type} {f g : ι → Except Fault α} {items : List ι}
    (each : ∀ item ∈ items, Matches view (f item) (g item)) :
    Matches (List.map view) (items.mapM f) (items.mapM g) := by
  induction items with
  | nil => exact .refl _
  | cons item rest ih =>
    simp only [List.mapM_cons]
    refine (each item List.mem_cons_self).bind fun a b same => ?_
    refine (ih fun item member => each item (List.mem_cons_of_mem _ member)).bind fun as bs rest => ?_
    simpa [Matches, pure, Except.pure] using And.intro same rest

end

/-- Two runs notice the same things at the same places and come to results that look the same. -/
structure Alike (view : α → γ) (first second : Traced α) : Prop where
  notices : first.notices.map Notice.mark = second.notices.map Notice.mark
  result : Matches view first.result second.result

variable {view : α → γ} {later : β → δ}

theorem Alike.refl (run : Traced α) : run.Alike view run := ⟨rfl, .refl _⟩

theorem Alike.pure {a b : α} (same : view a = view b) :
    (Pure.pure a : Traced α).Alike view (Pure.pure b) := ⟨rfl, same⟩

theorem Alike.fail {f g : Fault} (same : f.code = g.code) :
    (Traced.fail f : Traced α).Alike view (Traced.fail g) := ⟨rfl, same⟩

theorem Alike.lift {first second : Except Fault α} (same : Matches view first second) :
    (Traced.lift first).Alike view (Traced.lift second) := ⟨rfl, same⟩

theorem Alike.notice {a b : Notice} (same : a.mark = b.mark) :
    (Traced.notice a).Alike id (Traced.notice b) := by
  refine ⟨?_, rfl⟩
  simp [Traced.notice, same]

theorem Alike.bind {first second : Traced α} {next more : α → Traced β}
    (alike : first.Alike view second)
    (follows : ∀ a b, view a = view b → (next a).Alike later (more b)) :
    (first >>= next).Alike later (second >>= more) := by
  obtain ⟨noticed, result⟩ := first
  obtain ⟨noticed', result'⟩ := second
  obtain ⟨notices, same⟩ := alike
  show Alike later (andThen _ next) (andThen _ more)
  cases result <;> cases result' <;> simp only [Matches] at same
  case error.error => exact ⟨notices, same⟩
  case ok.ok a b =>
    have ⟨rest, results⟩ := follows a b same
    refine ⟨?_, results⟩
    simp only at notices
    simp [andThen, notices, rest]

theorem Alike.map {first second : Traced α} {make remake : α → β} (alike : first.Alike view second)
    (same : ∀ a b, view a = view b → later (make a) = later (remake b)) :
    (first >>= fun value => Pure.pure (make value)).Alike later
      (second >>= fun value => Pure.pure (remake value)) :=
  alike.bind fun a b seen => .pure (same a b seen)

theorem Alike.mapM {ι : Type} {f g : ι → Traced α} {items : List ι}
    (each : ∀ item ∈ items, (f item).Alike view (g item)) :
    (items.mapM f).Alike (List.map view) (items.mapM g) := by
  induction items with
  | nil => exact .refl _
  | cons item rest ih =>
    simp only [List.mapM_cons]
    refine (each item List.mem_cons_self).bind fun a b same => ?_
    refine (ih fun item member => each item (List.mem_cons_of_mem _ member)).map fun as bs rest => ?_
    simpa using And.intro same rest

end Traced

namespace Edit

def extent (edit : Edit) : Int × Int := (edit.start, edit.stop)

def Precedes (a b : Int × Int) : Prop := a.1 < b.1 ∨ a.1 = b.1 ∧ a.2 ≤ b.2

theorem extent_sorted (edits : List Edit) : ((sort edits).map extent).Pairwise Precedes := by
  refine List.pairwise_map.mpr (sortBy_pairwise ?_ ?_ ?_ edits)
  · intro a b precedes
    simp only [le] at precedes
    simp only [Precedes, extent]
    split at precedes
    · split at precedes <;> simp_all [Int.le_of_lt]
    · simp_all
  · intro a b follows
    simp only [le] at follows
    simp only [Precedes, extent]
    split at follows
    · split at follows <;> simp_all
    · simp_all; omega
  · intro a b c first second
    simp only [Precedes] at *
    omega

theorem sort_extents {first second : List Edit} (same : first.map extent = second.map extent) :
    (sort first).map extent = (sort second).map extent := by
  have perm : ((sort first).map extent).Perm ((sort second).map extent) := by
    refine ((sort_perm first).map extent).trans ?_
    rw [same]
    exact ((sort_perm second).map extent).symm
  refine perm.eq_of_pairwise ?_ (extent_sorted first) (extent_sorted second)
  intro a b _ _ left right
  simp only [Precedes] at left right
  exact Prod.ext (by omega) (by omega)

theorem validateAfter_alike {start stop : Int} {previous previous' : Option Edit}
    {first second : List Edit} (before : previous.map extent = previous'.map extent)
    (same : first.map extent = second.map extent) :
    Traced.Matches id (validateAfter start stop previous first)
      (validateAfter start stop previous' second) := by
  induction first generalizing previous previous' second with
  | nil =>
    cases second with
    | nil => cases previous <;> cases previous' <;> rfl
    | cons => cases same
  | cons edit rest ih =>
    cases second with
    | nil => cases same
    | cons other more =>
      simp only [List.map_cons, List.cons.injEq] at same
      obtain ⟨here, later⟩ := same
      have starts : edit.start = other.start := congrArg Prod.fst here
      have stops : edit.stop = other.stop := congrArg Prod.snd here
      have both : (some edit).map extent = (some other).map extent := congrArg some here
      have next := ih both later
      simp only [validateAfter, starts, stops]
      split
      · rfl
      · cases previous <;> cases previous' <;> simp only [Option.map_some, Option.map_none] at before
        case none.none => exact next
        case some.none | none.some => cases before
        case some.some a b =>
          -- Whether two edits clash is a matter of their extents.
          have clashes : a.clashes edit = b.clashes other := by
            have ends := Prod.ext_iff.mp (Option.some.inj before)
            simp only [extent] at ends
            simp [Edit.clashes, starts, stops, ends.1, ends.2]
          simp only [clashes]
          split
          · rfl
          · exact next

theorem render_alike {texts : List (List Char)} {start stop : Int} {first second : List Edit}
    (same : first.map extent = second.map extent) :
    Traced.Matches (fun _ => ()) (render texts first start stop) (render texts second start stop) :=
  (validateAfter_alike rfl same).bind fun _ _ _ => rfl

end Edit

end Specializer
