import Specializer.Proofs.OnePass

set_option autoImplicit false

namespace Specializer.Edit

section Slices

variable {p q r : Int}

theorem clip_le (length : Nat) (position : Int) : clip length position ≤ length := by
  rw [clip]
  split <;> omega

theorem clip_mono (side : 0 ≤ p ∨ q < 0) (order : p ≤ q) (length : Nat) : clip length p ≤ clip length q := by
  rw [clip, clip]
  split <;> split <;> omega

theorem slice_self {α : Type} (items : List α) (position : Int) : slice items position position = [] := by
  rw [slice]
  exact List.drop_eq_nil_of_le (List.length_take_le _ _)

theorem slice_append {α : Type} (items : List α) (side : 0 ≤ p ∨ r < 0) (first : p ≤ q) (second : q ≤ r) :
    slice items p q ++ slice items q r = slice items p r := by
  have left : clip items.length p ≤ (items.take (clip items.length q)).length := by
    rw [List.length_take_of_le (clip_le _ _)]
    exact clip_mono (by omega) first _
  have right : clip items.length q ≤ clip items.length r := clip_mono (by omega) second _
  have cut := List.take_append_drop (clip items.length q) (items.take (clip items.length r))
  rw [List.take_take, Nat.min_eq_left right] at cut
  calc slice items p q ++ slice items q r
      = (items.take (clip items.length q) ++
          (items.take (clip items.length r)).drop (clip items.length q)).drop (clip items.length p) :=
        (List.drop_append_of_le_length left).symm
    _ = slice items p r := by rw [cut, slice]

end Slices

section Parts

variable {texts : List (List Char)} {low high start stop : Int} {before inner after edits : List Edit}

-- Rendering goes up to any place in front of the edits, and on from there.
theorem renderFrom_ahead (side : 0 ≤ start ∨ high < 0) (order : start ≤ stop) (below : stop ≤ high)
    (later : ∀ edit ∈ edits, stop ≤ edit.start ∧ edit.start ≤ high) :
    renderFrom texts start high edits =
      (slice texts start stop).flatten ++ renderFrom texts stop high edits := by
  cases edits with
  | nil => rw [renderFrom, renderFrom, ← List.flatten_append, slice_append texts side order below]
  | cons edit rest =>
    obtain ⟨behind, within⟩ := later edit List.mem_cons_self
    rw [renderFrom, renderFrom, ← List.append_assoc, ← List.append_assoc, ← List.flatten_append,
      slice_append texts (by omega) order behind]

theorem renderFrom_append (side : 0 ≤ start ∨ high < 0) (order : start ≤ stop) (below : stop ≤ high)
    (fit : Fit start stop inner) (later : ∀ edit ∈ after, stop ≤ edit.start ∧ edit.start ≤ high) :
    renderFrom texts start high (inner ++ after) =
      renderFrom texts start stop inner ++ renderFrom texts stop high after := by
  -- The position moves behind each of the inner edits, and from the last of them to the end of the part.
  induction inner generalizing start with
  | nil => exact renderFrom_ahead side order below later
  | cons edit rest ih =>
    obtain ⟨bounds, inside⟩ := List.forall_mem_cons.mp fit.inside
    obtain ⟨first, apart⟩ := List.pairwise_cons.mp fit.apart
    have behind : Fit edit.stop stop rest :=
      ⟨fun other member => ⟨(first other member).1, (inside other member).2⟩, apart⟩
    rw [List.cons_append, renderFrom, renderFrom, ih (by omega) bounds.2.2 behind]
    simp only [List.append_assoc]

-- What an edit in the middle says of those around it.
theorem Fit.around {edit : Edit} (fit : Fit low high (before ++ [edit] ++ after)) :
    Fit low edit.start before ∧ (low ≤ edit.start ∧ edit.start ≤ edit.stop ∧ edit.stop ≤ high) ∧
      ∀ other ∈ after, edit.stop ≤ other.start ∧ other.start ≤ high := by
  obtain ⟨inside, apart⟩ := fit
  simp only [List.append_assoc, List.singleton_append, List.forall_mem_append, List.forall_mem_cons,
    List.pairwise_append, List.pairwise_cons] at inside apart
  obtain ⟨ahead, here, behind⟩ := inside
  obtain ⟨first, ⟨last, -⟩, reach⟩ := apart
  refine ⟨⟨fun other member => ?_, first⟩, here, fun other member => ?_⟩
  · have bounds := ahead other member
    exact ⟨bounds.1, bounds.2.1, (reach other member).1.1⟩
  · have bounds := behind other member
    exact ⟨(last other member).1, Int.le_trans bounds.2.1 bounds.2.2⟩

theorem Fit.replaced {text : List Char} (fit : Fit low high (before ++ inner ++ after)) (solid : start < stop)
    (above : low ≤ start) (below : stop ≤ high) (ahead : ∀ edit ∈ before, edit.stop ≤ start)
    (behind : ∀ edit ∈ after, stop ≤ edit.start) :
    Fit low high (before ++ [⟨start, stop, text⟩] ++ after) := by
  obtain ⟨inside, apart⟩ := fit
  simp only [List.append_assoc, List.forall_mem_append, List.pairwise_append] at inside apart
  obtain ⟨first, ⟨-, last, -⟩, reach⟩ := apart
  constructor
  next =>
    simp only [List.append_assoc, List.singleton_append, List.forall_mem_append, List.forall_mem_cons]
    exact ⟨inside.1, ⟨above, Int.le_of_lt solid, below⟩, inside.2.2⟩
  next =>
    simp only [List.append_assoc, List.singleton_append, List.pairwise_append, List.pairwise_cons,
      List.forall_mem_cons]
    -- What is not empty collides with nothing.
    refine ⟨first, ⟨fun other member => ⟨behind other member, fun both => ?_⟩, last⟩,
      fun other member => ⟨⟨ahead other member, fun both => ?_⟩, (reach other member).2⟩⟩
    · exact absurd both.1 (Int.ne_of_lt solid)
    · exact absurd both.2.2 (Int.ne_of_lt solid)

theorem render_replaced {text inPlace rebuilt : List Char} (side : 0 ≤ low ∨ high < 0)
    (fit : Fit start stop inner) (same : renderFrom texts start stop inner = text)
    (ofInner : render texts (before ++ inner ++ after) low high = .ok inPlace)
    (ofText : render texts (before ++ [⟨start, stop, text⟩] ++ after) low high = .ok rebuilt) :
    inPlace = rebuilt := by
  obtain ⟨-, rfl⟩ := render_ok_iff.mp ofInner
  obtain ⟨whole, rfl⟩ := render_ok_iff.mp ofText
  obtain ⟨ahead, ⟨above, order, below⟩, behind⟩ := whole.around
  dsimp only at ahead above order below behind
  have shared (edits : List Edit) (later : ∀ edit ∈ edits, start ≤ edit.start ∧ edit.start ≤ high) :
      renderFrom texts low high (before ++ (edits ++ after)) =
        renderFrom texts low start before ++ renderFrom texts start high (edits ++ after) := by
    refine renderFrom_append side above (Int.le_trans order below) ahead ?_
    refine List.forall_mem_append.mpr ⟨later, fun edit member => ?_⟩
    exact ⟨Int.le_trans order (behind edit member).1, (behind edit member).2⟩
  have inside : ∀ edit ∈ inner, start ≤ edit.start ∧ edit.start ≤ high := by
    intro edit member
    have bounds := fit.inside edit member
    omega
  have alone : ∀ edit ∈ [(⟨start, stop, text⟩ : Edit)], start ≤ edit.start ∧ edit.start ≤ high := by
    simpa using Int.le_trans order below
  rw [List.append_assoc, List.append_assoc, shared inner inside, shared _ alone,
    renderFrom_append (by omega) order below fit behind, same, List.singleton_append, renderFrom, slice_self]
  rfl

end Parts

/-- A part of the texts with edits of its own, and the text that these make of it. -/
structure Portion where
  start : Int
  stop : Int
  edits : List Edit
  text : List Char

namespace Portion

def edit (portion : Portion) : Edit := ⟨portion.start, portion.stop, portion.text⟩

def Rendered (texts : List (List Char)) (portion : Portion) : Prop :=
  render texts portion.edits portion.start portion.stop = .ok portion.text

variable {texts : List (List Char)} {start stop : Int} {portions : List Portion}

theorem edits_inside (rendered : ∀ portion ∈ portions, portion.Rendered texts)
    (fit : Fit start stop (portions.map edit)) :
    ∀ edit ∈ portions.flatMap edits, start ≤ edit.start ∧ edit.start ≤ edit.stop ∧ edit.stop ≤ stop := by
  intro edit member
  obtain ⟨portion, there, inside⟩ := List.mem_flatMap.mp member
  have inner := (render_ok_iff.mp (rendered portion there)).1.inside edit inside
  have outer := fit.inside portion.edit (List.mem_map_of_mem there)
  dsimp only [Portion.edit] at outer
  omega

theorem renderFrom_portions (side : 0 ≤ start ∨ stop < 0)
    (rendered : ∀ portion ∈ portions, portion.Rendered texts) (fit : Fit start stop (portions.map edit)) :
    renderFrom texts start stop (portions.flatMap edits) =
      renderFrom texts start stop (portions.map edit) := by
  induction portions generalizing start with
  | nil => rfl
  | cons portion rest ih =>
    obtain ⟨own, others⟩ := List.forall_mem_cons.mp rendered
    obtain ⟨within, text⟩ := render_ok_iff.mp own
    rw [List.map_cons] at fit
    obtain ⟨bounds, inside⟩ := List.forall_mem_cons.mp fit.inside
    obtain ⟨first, apart⟩ := List.pairwise_cons.mp fit.apart
    dsimp only [edit] at bounds
    -- The rest begins where the portion ends, so the induction is on texts from there on.
    have behind : Fit portion.stop stop (rest.map edit) :=
      ⟨fun other member => ⟨(first other member).1, (inside other member).2⟩, apart⟩
    have later : ∀ edit ∈ rest.flatMap edits, portion.stop ≤ edit.start ∧ edit.start ≤ stop := by
      intro edit member
      have bounds := edits_inside others behind edit member
      omega
    have all : ∀ edit ∈ portion.edits ++ rest.flatMap edits,
        portion.start ≤ edit.start ∧ edit.start ≤ stop := by
      refine List.forall_mem_append.mpr ⟨fun edit member => ?_, fun edit member => ?_⟩
      · have bounds := within.inside edit member
        omega
      · have bounds := later edit member
        omega
    calc renderFrom texts start stop (portion.edits ++ rest.flatMap edits)
        = (slice texts start portion.start).flatten ++
            renderFrom texts portion.start stop (portion.edits ++ rest.flatMap edits) :=
          renderFrom_ahead side bounds.1 (by omega) all
      _ = (slice texts start portion.start).flatten ++
            (portion.text ++ renderFrom texts portion.stop stop (rest.flatMap edits)) := by
          rw [renderFrom_append (by omega) bounds.2.1 bounds.2.2 within later, text]
      _ = renderFrom texts start stop (portion.edit :: rest.map edit) := by
          rw [ih (by omega) others behind, ← List.append_assoc]
          rfl

end Portion

/-- Edits within a part against the text that they make of it. In place, or as one replacement of the part by that
text, they make the same of the whole. A part that is not empty may be replaced wherever its edits are accepted in
place. The text may itself be put together of portions that were rendered before: their own edits, all in
place, still make the same of the whole. -/
theorem render_nested {texts : List (List Char)} {low high start stop : Int} {before inner after : List Edit}
    {text : List Char} (side : 0 ≤ low ∨ high < 0) (nested : render texts inner start stop = .ok text) :
    (∀ inPlace rebuilt, render texts (before ++ inner ++ after) low high = .ok inPlace →
      render texts (before ++ [⟨start, stop, text⟩] ++ after) low high = .ok rebuilt → inPlace = rebuilt) ∧
    (start < stop → low ≤ start → stop ≤ high → (∀ edit ∈ before, edit.stop ≤ start) →
      (∀ edit ∈ after, stop ≤ edit.start) →
      ∀ inPlace, render texts (before ++ inner ++ after) low high = .ok inPlace →
        render texts (before ++ [⟨start, stop, text⟩] ++ after) low high = .ok inPlace) ∧
    ∀ portions : List Portion, inner = portions.map Portion.edit →
      (∀ portion ∈ portions, portion.Rendered texts) →
      ∀ inPlace rebuilt,
        render texts (before ++ portions.flatMap Portion.edits ++ after) low high = .ok inPlace →
        render texts (before ++ [⟨start, stop, text⟩] ++ after) low high = .ok rebuilt →
        inPlace = rebuilt := by
  obtain ⟨fit, same⟩ := render_ok_iff.mp nested
  refine ⟨?_, ?_, ?_⟩
  next =>
    intro inPlace rebuilt ofInner ofText
    exact render_replaced side fit same.symm ofInner ofText
  next =>
    intro solid above below ahead behind inPlace ofInner
    have whole : Fit low high (before ++ [⟨start, stop, text⟩] ++ after) :=
      (render_ok_iff.mp ofInner).1.replaced solid above below ahead behind
    have ofText := (@render_ok_iff _ _ _ texts _).mpr ⟨whole, rfl⟩
    rw [ofText, render_replaced side fit same.symm ofInner ofText]
  next =>
    rintro portions rfl rendered inPlace rebuilt ofEdits ofText
    obtain ⟨-, ⟨above, order, below⟩, -⟩ := (render_ok_iff.mp ofText).1.around
    dsimp only at above order below
    have apart := (render_ok_iff.mp ofEdits).1.apart
    rw [List.append_assoc] at apart
    -- The edits of the portions are those of the part again, now each in its place.
    have within : Fit start stop (portions.flatMap Portion.edits) :=
      ⟨Portion.edits_inside rendered fit,
        (List.pairwise_append.mp (List.pairwise_append.mp apart).2.1).1⟩
    have parts : renderFrom texts start stop (portions.flatMap Portion.edits) = text := by
      rw [Portion.renderFrom_portions (by omega) rendered fit, same]
    exact render_replaced side within parts ofEdits ofText

-- A part with an insertion at its front and a replacement that two edits make up.
theorem render_nested_insertions :
    ∃ texts before portions after, texts = ["a".toList, "b".toList, "c".toList, "d".toList] ∧
      before = [⟨0, 1, "A".toList⟩] ∧ after = [⟨3, 3, "-".toList⟩] ∧
      portions = [⟨1, 1, [⟨1, 1, "+".toList⟩], "+".toList⟩,
        ⟨2, 3, [⟨2, 2, "C".toList⟩, ⟨2, 3, []⟩], "C".toList⟩] ∧
      (∀ portion ∈ portions, portion.Rendered texts) ∧
      render texts (portions.map Portion.edit) 1 3 = .ok "+bC".toList ∧
      render texts (before ++ portions.map Portion.edit ++ after) 0 4 = .ok "A+bC-d".toList ∧
      render texts (before ++ portions.flatMap Portion.edits ++ after) 0 4 = .ok "A+bC-d".toList ∧
      render texts (before ++ [⟨1, 3, "+bC".toList⟩] ++ after) 0 4 = .ok "A+bC-d".toList := by
  refine ⟨_, _, _, _, rfl, rfl, rfl, rfl, ?_⟩
  have rendered : ∀ portion ∈ ([⟨1, 1, [⟨1, 1, "+".toList⟩], "+".toList⟩,
      ⟨2, 3, [⟨2, 2, "C".toList⟩, ⟨2, 3, []⟩], "C".toList⟩] : List Portion),
        portion.Rendered ["a".toList, "b".toList, "c".toList, "d".toList] := by
    simp only [List.forall_mem_cons, List.not_mem_nil, false_implies, implies_true, and_true]
    exact ⟨rfl, rfl⟩
  obtain ⟨same, replaced, rebuilt⟩ := @render_nested ["a".toList, "b".toList, "c".toList, "d".toList]
    0 4 1 3 [⟨0, 1, "A".toList⟩] [⟨1, 1, "+".toList⟩, ⟨2, 3, "C".toList⟩] [⟨3, 3, "-".toList⟩]
    "+bC".toList (by decide) rfl
  have ofText := replaced (by decide) (by decide) (by decide) (by decide) (by decide) _ rfl
  cases same _ _ rfl ofText
  cases rebuilt _ rfl rendered _ _ rfl ofText
  exact ⟨rendered, rfl, rfl, rfl, ofText⟩

end Specializer.Edit
