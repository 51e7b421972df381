import Specializer.Proofs.Treatment

set_option autoImplicit false

namespace Specializer

def Name.Renames (name : Name) (edits : List Edit) : Prop :=
  edits = [] ∨ ∃ text, edits = [Setting.replace name text] ∧ hasPlaceholder name.text = true

/-- An edit of a whole range; one that deletes it may take a blank behind it along if there is one in
front of it, too. -/
structure Setting.Rebuilds (setting : Setting) (range : Range) (edit : Edit) : Prop where
  start : edit.start = range.start
  stop : edit.stop = range.stop ∨
    (edit.stop = range.stop + 1 ∧ edit.text = [] ∧ 0 < range.start ∧
      setting.isBlankAt (range.start - 1) = true ∧ setting.isBlankAt range.stop = true)

/-- The edits that a subtree can give rise to, in any order. -/
inductive Setting.Yields (setting : Setting) : Subtree → List Edit → Prop
  | none {part : Subtree} : setting.Yields part []
  | within {part : Subtree} {edits : List Edit} (renamed : List (Name × List Edit))
      (inner : List (Subtree × List Edit)) (names : renamed.map Prod.fst = part.names)
      (children : inner.map Prod.fst = part.children)
      (renames : ∀ pair ∈ renamed, pair.1.Renames pair.2)
      (yields : ∀ pair ∈ inner, setting.Yields pair.1 pair.2)
      (all : edits.Perm (renamed.flatMap Prod.snd ++ inner.flatMap Prod.snd)) :
      setting.Yields part edits
  -- Edits inside a list that is rebuilt are gone: their text is in the one edit.
  | rebuilt {part : Subtree} {edit : Edit} (list : part.kind = .typeParams ∨ part.kind = .typeArgs)
      (rebuilds : setting.Rebuilds part.range edit) : setting.Yields part [edit]

namespace Setting

variable {setting : Setting}

def Gathers (setting : Setting) (names : List Name) (parts : List Subtree) (edits : List Edit) :
    Prop :=
  ∃ (renamed : List (Name × List Edit)) (inner : List (Subtree × List Edit)),
    renamed.map Prod.fst = names ∧ inner.map Prod.fst = parts ∧
      (∀ pair ∈ renamed, pair.1.Renames pair.2) ∧ (∀ pair ∈ inner, setting.Yields pair.1 pair.2) ∧
        edits.Perm (renamed.flatMap Prod.snd ++ inner.flatMap Prod.snd)

theorem Respells.renames {part : Subtree} {name : Name} {edits : List Edit}
    (respells : setting.Respells part name edits) : name.Renames edits := by
  cases respells with
  | stays => exact .inl rfl
  | changes has => exact .inr ⟨_, rfl, has⟩

theorem rename_renames {scope : Scope Slot} {name : Name} {values : List SlotType}
    {edits : List Edit} (made : (setting.rename scope name values).result = .ok edits) :
    name.Renames edits := by
  rcases rename_ok made with ⟨-, rfl⟩ | ⟨has, text, -, rfl⟩
  · exact .inl rfl
  · exact .inr ⟨text, rfl, has⟩

theorem reduce_rebuilds (range : Range) (entries : List (List Char)) :
    setting.Rebuilds range (setting.reduce range entries) := by
  unfold reduce
  split
  next =>
    refine ⟨rfl, ?_⟩
    simp only
    split
    next spreads =>
      simp only [Bool.and_eq_true, decide_eq_true_eq] at spreads
      exact .inr ⟨by simp, trivial, spreads.1.1, spreads.1.2, spreads.2⟩
    next => exact .inl rfl
  next => exact ⟨rfl, .inl rfl⟩

theorem Treats.yields {part : Subtree} {edits : List Edit} (treats : setting.Treats part edits) :
    setting.Yields part edits := by
  induction treats with
  | within renamed inner names children respells treats all ih =>
    exact .within renamed inner names children (fun pair member => (respells pair member).renames) ih all
  | rebuilt kept list => exact .rebuilt list (reduce_rebuilds _ _)
  | removed list => exact .rebuilt (.inr list) ⟨rfl, .inl rfl⟩

theorem Collects.gathers {node : Subtree} {names : List Name} {parts : List Subtree}
    {edits : List Edit} (collects : setting.Collects node names parts edits) :
    setting.Gathers names parts edits := by
  obtain ⟨renamed, inner, ofNames, ofParts, respells, treats, all⟩ := collects
  exact ⟨renamed, inner, ofNames, ofParts, fun pair member => (respells pair member).renames,
    fun pair member => (treats pair member).yields, all⟩

-- Also the edits of a list that is rebuilt come from its entries, though they are not made.
theorem Lists.gathers {parts : List Subtree} {entries : Entries}
    (lists : setting.Lists parts entries) : setting.Gathers [] parts entries.edits := by
  induction lists with
  | nil => exact ⟨[], [], rfl, rfl, nofun, nofun, .refl _⟩
  | @cons part parts entry more enters lists ih =>
    have first : setting.Yields part entry.edits := by
      cases enters with
      | goes none => exact none ▸ .none
      | stays _ _ treats => exact treats.yields
    obtain ⟨renamed, inner, noNames, rfl, -, yields, all⟩ := ih
    cases List.map_eq_nil_iff.mp noNames
    refine ⟨[], (part, entry.edits) :: inner, rfl, rfl, nofun, ?_, ?_⟩
    · simpa using ⟨first, fun a b => yields (a, b)⟩
    · exact (List.Perm.refl _).append all

theorem refEdits_yields {owner : Option (List Char)} {scope : Scope Slot} (ref : TypeRef)
    {found : RefEdits} (made : (setting.refEdits owner scope ref).result = .ok found) :
    setting.Yields (.ref ref) found.edits := (refEdits_treats made).yields

theorem membersEdits_gathers {scope : Scope Slot} (members : List Member) {edits : List Edit}
    (made : (setting.membersEdits scope members).result = .ok edits) :
    setting.Gathers [] (members.map Member.subtree) edits :=
  (membersEdits_collects (.unit ⟨0, members, []⟩) (fun _ _ => memberEdits_treats) made).gathers

end Setting

end Specializer
