import Specializer.Files.Tree
import Specializer.Proofs.Outcomes

set_option autoImplicit false

namespace Specializer

namespace Path

def place (path home : Path) : Place := path.parts.foldl Place.step (path.base home)

def Holds (above path : Path) : Prop := above.root = path.root ∧ above.parts <+: path.parts.dropLast

theorem Holds.parent (path : Path) : path.parent.Holds path := ⟨rfl, List.prefix_rfl⟩

theorem Holds.trans {first second third : Path} (outer : first.Holds second)
    (inner : second.Holds third) : first.Holds third := by
  constructor
  next => exact outer.1.trans inner.1
  next => exact outer.2.trans ((List.dropLast_prefix _).trans inner.2)

end Path

namespace FileTree

variable {tree after : FileTree} {place other : Place} {path : Path} {entry : FileEntry}

theorem lookup_filter (entries : List (Place × FileEntry)) :
    (entries.filter fun item => item.1 != place).lookup other =
      if other = place then none else entries.lookup other := by
  induction entries with
  | nil => simp
  | cons item rest ih =>
    obtain ⟨key, value⟩ := item
    by_cases here : key = place
    next =>
      rw [List.filter_cons_of_neg (by simp [here]), ih, here]
      by_cases same : other = place
      next => simp [same]
      next => simp [same, List.lookup_cons, beq_false_of_ne same]
    next =>
      rw [List.filter_cons_of_pos (by simp [here]), List.lookup_cons, List.lookup_cons, ih]
      by_cases same : other = place
      next => simp [same, beq_false_of_ne (Ne.symm here)]
      next => simp [same]

theorem isAbove_congr (same : after.home = tree.home) : after.isAbove place = tree.isAbove place := by
  rw [isAbove, isAbove, same]

theorem put_home : (tree.put place entry).home = tree.home := rfl

theorem get?_put_self (down : tree.isAbove place = false) :
    (tree.put place entry).get? place = some entry := by
  rw [get?, isAbove_congr put_home, down, put]
  simp [List.lookup_append, lookup_filter]

theorem get?_put_other (differ : other ≠ place) :
    (tree.put place entry).get? other = tree.get? other := by
  rw [get?, get?, isAbove_congr put_home]
  by_cases above : tree.isAbove other = true
  next => simp [above]
  next => simp [above, put, List.lookup_append, lookup_filter, differ, List.lookup_cons,
      beq_false_of_ne differ]

theorem down_of_get? (here : tree.get? place ≠ some .directory) : tree.isAbove place = false := by
  by_contra above
  simp [get?, above] at here

theorem enter_ok {names : List (List Char)} {start : Place}
    (entered : tree.enter start names = .ok place) : place = names.foldl Place.step start := by
  induction names generalizing start with
  | nil =>
    cases entered
    rfl
  | cons name rest ih =>
    rw [enter] at entered
    split at entered
    next => cases entered
    next =>
      by_cases last : rest = []
      next =>
        subst last
        cases entered
        rfl
      next =>
        simp only [List.isEmpty_iff, last, if_false] at entered
        split at entered
        next => cases entered
        next => cases entered
        next => exact ih entered

theorem locate_ok (located : tree.locate path = .ok place) : place = path.place tree.home := by
  rw [locate] at located
  split at located
  next => cases located
  next =>
    split at located
    next => cases located
    next =>
      exact enter_ok located

/-- The later tree has all that the earlier one has, and more directories at most, at places of a
certain kind. -/
structure Grows (new : Place → Prop) (tree after : FileTree) : Prop where
  home : after.home = tree.home
  entries : ∀ place, after.get? place = tree.get? place ∨
    tree.get? place = none ∧ after.get? place = some .directory ∧ new place

namespace Grows

variable {new more : Place → Prop} {middle : FileTree}

theorem refl : Grows new tree tree := ⟨rfl, fun _ => .inl rfl⟩

theorem mono (grows : Grows new tree after) (wider : ∀ place, new place → more place) :
    Grows more tree after := by
  constructor
  next => exact grows.home
  next =>
    intro place
    apply (grows.entries place).imp_right
    rintro ⟨free, made, kind⟩
    exact ⟨free, made, wider place kind⟩

theorem trans (first : Grows new tree middle) (second : Grows new middle after) :
    Grows new tree after := by
  constructor
  next => rw [second.home, first.home]
  next =>
    intro place
    rcases second.entries place with same | ⟨free, made, kind⟩
    next => simpa only [same] using first.entries place
    next =>
      -- What is free in between was free before: nothing is taken away.
      rcases first.entries place with kept | ⟨-, there, -⟩
      next => exact .inr ⟨kept ▸ free, made, kind⟩
      next => simp [there] at free

end Grows

theorem makeDirectory_ok (made : tree.makeDirectory path = .ok after) :
    Grows (· = path.place tree.home) tree after := by
  simp only [makeDirectory, bind_eq_ok] at made
  obtain ⟨spot, located, made⟩ := made
  cases here : tree.get? spot with
  | some entry => simp [here, throw, throwThe, MonadExceptOf.throw] at made
  | none =>
    rw [here, pure_eq_ok] at made
    subst made
    constructor
    next => rfl
    next =>
      intro place
      by_cases same : place = spot
      next =>
        have free : tree.get? spot ≠ some .directory := by simp [here]
        subst same
        exact .inr ⟨here, get?_put_self (down_of_get? free), locate_ok located⟩
      next => exact .inl (get?_put_other same)

def AlongTo (home path : Path) (place : Place) : Prop :=
  ∃ above : Path, (above = path ∨ above.Holds path) ∧ above.place home = place

theorem AlongTo.parent {home : Path} (along : AlongTo home path.parent place) :
    ∃ above : Path, above.Holds path ∧ above.place home = place := by
  obtain ⟨above, rfl | holds, rfl⟩ := along
  next => exact ⟨_, .parent path, rfl⟩
  next => exact ⟨_, holds.trans (.parent path), rfl⟩

theorem makeDirectories_grows (levels : Nat) (tree : FileTree) (path : Path) :
    Grows (AlongTo tree.home path) tree (makeDirectories levels tree path).tree := by
  have own {before after : FileTree} (home : before.home = tree.home)
      (made : before.makeDirectory path = .ok after) :
      Grows (AlongTo tree.home path) before after := by
    apply (makeDirectory_ok made).mono
    intro place here
    exact ⟨path, .inl rfl, home ▸ here.symm⟩
  induction levels generalizing tree path with
  | zero =>
    rw [makeDirectories]
    split
    next after made => exact own rfl made
    next => exact .refl
    next => dsimp only; split <;> exact .refl
  | succ levels ih =>
    rw [makeDirectories]
    split
    next after made => exact own rfl made
    next =>
      -- The directories above are made first, also if the last one then fails.
      have above : Grows (AlongTo tree.home path) tree
          (makeDirectories levels tree path.parent).tree := by
        apply (ih tree path.parent _).mono
        next =>
          intro place along
          obtain ⟨dir, holds, there⟩ := along.parent
          exact ⟨dir, .inr holds, there⟩
        next =>
          intro before after home made
          apply (makeDirectory_ok made).mono
          intro place here
          exact ⟨path.parent, .inl rfl, home ▸ here.symm⟩
      dsimp only
      split
      next => exact above
      next =>
        split
        next after made => exact above.trans (own above.home made)
        next => exact above
        next => split <;> exact above
    next => dsimp only; split <;> exact .refl

theorem write_ok {bytes : Bytes} (written : tree.write path bytes = .ok after) :
    after = tree.put (path.place tree.home) (.file bytes) ∧
      tree.isAbove (path.place tree.home) = false ∧
      tree.get? (path.place tree.home) ≠ some .directory := by
  simp only [write, bind_eq_ok] at written
  obtain ⟨spot, located, written⟩ := written
  rw [locate_ok located] at written
  split at written
  next => simp [throw, throwThe, MonadExceptOf.throw] at written
  next free =>
    rw [pure_eq_ok] at written
    exact ⟨written.symm, down_of_get? free, free⟩

-- A file is saved, or there is a fault. In either case directories may have been made above it.
theorem save_grows (tree : FileTree) (path : Path) (bytes : Bytes) :
    ∃ middle, Grows (fun place => ∃ above : Path, above.Holds path ∧ above.place tree.home = place)
        tree middle ∧
      (((tree.save path bytes).fault = none ∧
          (tree.save path bytes).tree = middle.put (path.place tree.home) (.file bytes) ∧
          tree.isAbove (path.place tree.home) = false) ∨
        ((tree.save path bytes).fault ≠ none ∧ (tree.save path bytes).tree = middle)) := by
  have made := (makeDirectories_grows path.parts.length tree path.parent).mono
    fun _ => AlongTo.parent
  refine ⟨_, made, ?_⟩
  rw [save]
  split
  next => exact .inr ⟨nofun, rfl⟩
  next =>
    split
    next after written =>
      obtain ⟨put, down, -⟩ := write_ok written
      rw [made.home] at put down
      rw [isAbove_congr made.home] at down
      exact .inl ⟨rfl, put, down⟩
    next => exact .inr ⟨nofun, rfl⟩

end FileTree

end Specializer
