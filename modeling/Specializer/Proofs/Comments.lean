import Mathlib.Data.List.SplitBy
import Specializer.Proofs.EditOrder
import Specializer.Proofs.Outcomes
import Specializer.Proofs.Placeholders
import Specializer.Template

set_option autoImplicit false

namespace Specializer

theorem DocText.fill_plain {binding : Binding} {values : Option (List SlotType)} {text : List Char}
    (plain : hasPlaceholder text = false) : DocText.fill binding values text = .ok text := by
  have whole : (runs text).flatten = text := List.flatten_splitBy _ text
  have each : ∀ run ∈ runs text, fillRun binding values run = .ok (id run) := by
    intro run member
    have inside : run <:+: text := whole ▸ List.infix_of_mem_flatten member
    rw [fillRun, plain_of_infix inside plain]
    rfl
  rw [fill, mapM_ok each, List.map_id]
  show Except.ok (runs text).flatten = _
  rw [whole]

namespace Setting

variable {setting : Setting} {edits : List Edit}

theorem apart_of_kept {doc : Nat} (before : edits.Pairwise Edit.Before)
    (kept : isReplaced edits doc = false) :
    ∀ edit ∈ edits, edit.stop ≤ doc ∨ (doc : Int) + 1 ≤ edit.start := by
  intro edit member
  by_cases late : edit.start ≤ (doc : Int)
  · left
    have listed : edit ∈ edits.filter fun edit => edit.start ≤ (doc : Int) :=
      List.mem_filter.mpr ⟨member, decide_eq_true late⟩
    -- The last edit that starts no later does not reach the comment, and the others end before it.
    cases ending : (edits.filter fun edit => edit.start ≤ (doc : Int)).getLast? with
    | none => exact absurd (List.getLast?_eq_none_iff.mp ending) (List.ne_nil_of_mem listed)
    | some last =>
      obtain ⟨front, split⟩ := List.getLast?_eq_some_iff.mp ending
      have short : last.stop ≤ doc := by
        rw [isReplaced, ending, Option.any_some, decide_eq_false_iff_not] at kept
        omega
      have early : last.start ≤ (doc : Int) := by
        have there : last ∈ edits.filter fun edit => edit.start ≤ (doc : Int) := by
          rw [split]
          exact List.mem_append_right _ List.mem_cons_self
        exact of_decide_eq_true (List.mem_filter.mp there).2
      rw [split] at listed
      rcases List.mem_append.mp listed with ahead | same
      · have ordered : (edits.filter fun edit => edit.start ≤ (doc : Int)).Pairwise Edit.Before :=
          before.sublist List.filter_sublist
        rw [split] at ordered
        have order := (List.pairwise_append.mp ordered).2.2 edit ahead last List.mem_cons_self
        exact Int.le_trans order early
      · cases List.mem_singleton.mp same
        exact short
  · right
    omega

def docText (setting : Setting) (doc : Nat) : List Char :=
  (setting.tokens[doc]?.map fun token => token.text).getD []

structure EditsDoc (setting : Setting) (doc : Nat) (edit : Edit) : Prop where
  start : edit.start = doc
  stop : edit.stop = doc + 1
  filled : ∃ values, DocText.fill setting.binding (some values) (setting.docText doc) = .ok edit.text
  changed : edit.text ≠ setting.docText doc

theorem docEdit_ok {scope : Scope Slot} {doc : Nat}
    (made : setting.docEdit scope doc = .ok edits) :
    edits = [] ∨ ∃ edit, edits = [edit] ∧ setting.EditsDoc doc edit := by
  simp only [docEdit, bind_eq_ok, pure_eq_ok] at made
  obtain ⟨values, -, new, filled, rfl⟩ := made
  split
  next => exact .inl rfl
  next changed => exact .inr ⟨_, rfl, rfl, rfl, ⟨values, filled⟩, changed⟩

theorem docs_before {scope : Nat → Scope Slot} {docs : List Nat} {lists : List (List Edit)}
    (each : List.Forall₂ (fun doc list => setting.docEdit (scope doc) doc = .ok list) docs lists)
    (increasing : docs.Pairwise (· < ·)) :
    lists.flatten.Pairwise Edit.Before ∧
      ∀ edit ∈ lists.flatten, ∃ doc ∈ docs, setting.EditsDoc doc edit := by
  induction each with
  | nil => exact ⟨.nil, nofun⟩
  | @cons doc list docs lists made _ ih =>
    obtain ⟨smaller, later⟩ := List.pairwise_cons.mp increasing
    obtain ⟨ordered, ofDocs⟩ := ih later
    -- A comment gives one edit of itself or none, so edits keep the order of their comments.
    rcases docEdit_ok made with rfl | ⟨edit, rfl, edits⟩
    · refine ⟨ordered, fun edit member => ?_⟩
      obtain ⟨doc, there, edits⟩ := ofDocs edit member
      exact ⟨doc, List.mem_cons_of_mem _ there, edits⟩
    · constructor
      · refine List.pairwise_cons.mpr ⟨fun other member => ?_, ordered⟩
        obtain ⟨behind, there, follows⟩ := ofDocs other member
        have order := smaller behind there
        have stop := edits.stop
        have start := follows.start
        simp only [Edit.Before]
        omega
      · intro other member
        rcases List.mem_cons.mp member with rfl | member
        · exact ⟨doc, List.mem_cons_self, edits⟩
        · obtain ⟨behind, there, follows⟩ := ofDocs other member
          exact ⟨behind, List.mem_cons_of_mem _ there, follows⟩

theorem docEdits_ok {tree : Tree} {found : List Edit} (increasing : tree.docs.Pairwise (· < ·))
    (made : setting.docEdits tree edits = .ok found) :
    found.Pairwise Edit.Before ∧
      ∀ edit ∈ found, ∃ doc ∈ tree.docs, isReplaced edits doc = false ∧ setting.EditsDoc doc edit := by
  simp only [docEdits, bind_eq_ok, pure_eq_ok] at made
  obtain ⟨lists, filled, rfl⟩ := made
  obtain ⟨ordered, ofDocs⟩ :=
    docs_before (mapM_eq_ok filled) (increasing.sublist List.filter_sublist)
  refine ⟨ordered, fun edit member => ?_⟩
  obtain ⟨doc, there, edits⟩ := ofDocs edit member
  obtain ⟨inTree, kept⟩ := List.mem_filter.mp there
  exact ⟨doc, inTree, by simpa using kept, edits⟩

theorem docEdit_plain {scope : Scope Slot} {values : List SlotType} {doc : Nat}
    (bound : scope.values setting.binding = .ok values)
    (plain : hasPlaceholder (setting.docText doc) = false) : setting.docEdit scope doc = .ok [] := by
  rw [docText] at plain
  rw [docEdit, bound]
  simp only [bind, Except.bind, DocText.fill_plain plain]
  rfl

end Setting

end Specializer
