import Mathlib.Data.List.Forall2
import Specializer.Traced

set_option autoImplicit false

namespace Specializer

section Except

variable {α β ε : Type} {value : β}

theorem bind_eq_ok {first : Except ε α} {next : α → Except ε β} :
    first >>= next = .ok value ↔ ∃ middle, first = .ok middle ∧ next middle = .ok value := by
  cases first with
  | error fault => simp [bind, Except.bind]
  | ok middle => simp [bind, Except.bind]

theorem pure_eq_ok {given : β} : (pure given : Except ε β) = .ok value ↔ given = value := by
  simp [pure, Except.pure]

theorem bind_eq_error {first : Except ε α} {next : α → Except ε β} {fault : ε} :
    first >>= next = .error fault ↔
      first = .error fault ∨ ∃ middle, first = .ok middle ∧ next middle = .error fault := by
  cases first with
  | error other => simp [bind, Except.bind]
  | ok middle => simp [bind, Except.bind]

theorem ok_of_any {result : Except ε β} {test : β → Bool} (passes : result.toOption.any test = true) :
    ∃ value, result = .ok value ∧ test value = true := by
  cases result with
  | error fault => cases passes
  | ok value => exact ⟨value, rfl, passes⟩

def failsWith (test : ε → Bool) : Except ε β → Bool
  | .error fault => test fault
  | .ok _ => false

theorem error_of_failsWith {result : Except ε β} {test : ε → Bool}
    (fails : failsWith test result = true) : ∃ fault, result = .error fault ∧ test fault = true := by
  cases result with
  | error fault => exact ⟨fault, rfl, fails⟩
  | ok value => cases fails

theorem exists_of_forall₂ {relates : α → β → Prop} {items : List α} {others : List β}
    (all : List.Forall₂ relates items others) {other : β} (member : other ∈ others) :
    ∃ item ∈ items, relates item other := by
  induction all with
  | nil => cases member
  | cons first _ ih =>
    rcases List.mem_cons.mp member with rfl | later
    next => exact ⟨_, List.mem_cons_self, first⟩
    next =>
      obtain ⟨item, inside, related⟩ := ih later
      exact ⟨item, List.mem_cons_of_mem _ inside, related⟩

theorem mapM_eq_ok {f : α → Except ε β} {items : List α} {results : List β}
    (made : items.mapM f = .ok results) :
    List.Forall₂ (fun item result => f item = .ok result) items results := by
  induction items generalizing results with
  | nil =>
    rw [List.mapM_nil, pure_eq_ok] at made
    subst made
    exact .nil
  | cons item rest ih =>
    rw [List.mapM_cons] at made
    simp only [bind_eq_ok, pure_eq_ok] at made
    obtain ⟨result, first, more, later, rfl⟩ := made
    exact .cons first (ih later)

theorem mapM_eq_error {f : α → Except ε β} {items : List α} {fault : ε}
    (failed : items.mapM f = .error fault) : ∃ item ∈ items, f item = .error fault := by
  induction items with
  | nil => cases failed
  | cons item rest ih =>
    rw [List.mapM_cons] at failed
    cases first : f item with
    | error other =>
      rw [first] at failed
      cases failed
      exact ⟨item, List.mem_cons_self, first⟩
    | ok result =>
      cases later : rest.mapM f with
      | error other =>
        rw [first, later] at failed
        cases failed
        obtain ⟨item, member, failed⟩ := ih later
        exact ⟨item, List.mem_cons_of_mem _ member, failed⟩
      | ok more =>
        rw [first, later] at failed
        cases failed

theorem mapM_ok {f : α → Except ε β} {g : α → β} {items : List α}
    (each : ∀ item ∈ items, f item = .ok (g item)) : items.mapM f = .ok (items.map g) := by
  induction items with
  | nil => rfl
  | cons item rest ih =>
    rw [List.mapM_cons, each item List.mem_cons_self,
      ih fun item member => each item (List.mem_cons_of_mem _ member)]
    rfl

end Except

namespace Traced

variable {α β : Type} {value : β}

theorem pure_ok {given : β} : (pure given : Traced β).result = .ok value ↔ given = value := by
  show Except.ok given = Except.ok value ↔ _
  exact ⟨fun same => by injection same, fun same => same ▸ rfl⟩

theorem lift_ok {result : Except Fault β} :
    (lift result).result = .ok value ↔ result = .ok value := Iff.rfl

theorem andThen_eq (first : Traced α) (next : α → Traced β) :
    first.andThen next = first >>= next := rfl

instance : LawfulMonad Traced := by
  refine .mk' Traced (fun run => ?_) (fun _ _ => rfl) (fun first next last => ?_)
  · change run.andThen Traced.done = run
    rcases run with ⟨notices, _ | value⟩ <;> simp [andThen]
  · change (first.andThen next).andThen last = first.andThen fun value => (next value).andThen last
    cases outcome : first.result with
    | error fault => simp only [andThen, outcome]
    | ok value => cases made : (next value).result <;> simp [andThen, outcome, made]

theorem bind_ok {first : Traced α} {next : α → Traced β} :
    (first >>= next).result = .ok value ↔
      ∃ middle, first.result = .ok middle ∧ (next middle).result = .ok value := by
  show (first.andThen next).result = .ok value ↔ _
  rw [andThen]
  cases first.result with
  | error fault => simp
  | ok middle => simp

theorem bind_eq {first : Traced α} {next : α → Traced β} {middle : α}
    (ok : first.result = .ok middle) :
    first >>= next = ⟨first.notices ++ (next middle).notices, (next middle).result⟩ := by
  show first.andThen next = _
  rw [andThen, ok]

theorem mapM_ok {f : α → Traced β} {items : List α} {results : List β} {holds : α → β → Prop}
    (each : ∀ item ∈ items, ∀ result, (f item).result = .ok result → holds item result)
    (made : (items.mapM f).result = .ok results) : List.Forall₂ holds items results := by
  induction items generalizing results with
  | nil =>
    rw [List.mapM_nil, pure_ok] at made
    subst made
    exact .nil
  | cons item rest ih =>
    rw [List.mapM_cons] at made
    simp only [bind_ok, pure_ok] at made
    obtain ⟨result, first, more, later, rfl⟩ := made
    exact .cons (each item List.mem_cons_self result first)
      (ih (fun item member => each item (List.mem_cons_of_mem _ member)) later)

theorem mapM_each {f : α → Traced β} {items : List α} {results : List β} {item : α}
    (made : (items.mapM f).result = .ok results) (member : item ∈ items) :
    ∃ result ∈ results, (f item).result = .ok result :=
  exists_of_forall₂ (List.Forall₂.flip (mapM_ok (fun _ _ _ same => same) made)) member

/-- What a run notes, what it fails for and what it returns is as said. -/
structure Meets (run : Traced α) (notes : Notice → Prop) (fails : Fault → Prop) (returns : α → Prop) :
    Prop where
  noted : ∀ notice ∈ run.notices, notes notice
  failed : ∀ fault, run.result = .error fault → fails fault
  returned : ∀ value, run.result = .ok value → returns value

namespace Meets

variable {notes : Notice → Prop} {fails : Fault → Prop} {early : α → Prop} {late : β → Prop}
  {first : Traced α} {next : α → Traced β}

theorem pure {value : α} (holds : early value) : (Pure.pure value : Traced α).Meets notes fails early :=
  ⟨nofun, nofun, fun _ same => pure_ok.mp same ▸ holds⟩

theorem lift {result : Except Fault α} (failed : ∀ fault, result = .error fault → fails fault)
    (returned : ∀ value, result = .ok value → early value) :
    (Traced.lift result).Meets notes fails early :=
  ⟨nofun, failed, returned⟩

theorem fail {fault : Fault} (failed : fails fault) : (Traced.fail fault : Traced α).Meets notes fails early := by
  refine ⟨nofun, fun other same => ?_, nofun⟩
  cases same
  exact failed

theorem notice {notice : Notice} {returns : Unit → Prop} (noted : notes notice)
    (returned : returns ()) :
    (Traced.notice notice).Meets notes fails returns :=
  ⟨fun _ member => List.mem_singleton.mp member ▸ noted, nofun, fun _ _ => returned⟩

theorem bind (meets : first.Meets notes fails early)
    (follows : ∀ value, first.result = .ok value → early value → (next value).Meets notes fails late) :
    (first >>= next).Meets notes fails late := by
  cases outcome : first.result with
  | error fault =>
    have stopped : first >>= next = ⟨first.notices, .error fault⟩ := by
      show first.andThen next = _
      rw [andThen, outcome]
    rw [stopped]
    refine ⟨meets.noted, fun other same => ?_, nofun⟩
    cases same
    exact meets.failed fault outcome
  | ok value =>
    have later := follows value outcome (meets.returned value outcome)
    rw [bind_eq outcome]
    refine ⟨fun notice member => ?_, later.failed, later.returned⟩
    rcases List.mem_append.mp member with before | after
    · exact meets.noted notice before
    · exact later.noted notice after

theorem mono {returns : α → Prop} (meets : first.Meets notes fails early)
    (implies : ∀ value, early value → returns value) : first.Meets notes fails returns :=
  ⟨meets.noted, meets.failed, fun value made => implies value (meets.returned value made)⟩

theorem map {make : α → β} (meets : first.Meets notes fails early)
    (implies : ∀ value, early value → late (make value)) :
    (first >>= fun value => Pure.pure (make value)).Meets notes fails late :=
  meets.bind fun value _ holds => pure (implies value holds)

theorem mapAny {make : α → β} (meets : first.Meets notes fails early) :
    (first >>= fun value => Pure.pure (make value)).Meets notes fails fun _ => True :=
  meets.map fun _ _ => trivial

theorem mapM {f : α → Traced β} {items : List α} {returns : α → β → Prop}
    (each : ∀ item ∈ items, (f item).Meets notes fails (returns item)) :
    (items.mapM f).Meets notes fails (List.Forall₂ returns items) := by
  induction items with
  | nil => exact pure .nil
  | cons item rest ih =>
    rw [List.mapM_cons]
    refine (each item List.mem_cons_self).bind fun result _ here => ?_
    exact (ih fun item member => each item (List.mem_cons_of_mem _ member)).map fun _ => .cons here

end Meets

end Traced

end Specializer
