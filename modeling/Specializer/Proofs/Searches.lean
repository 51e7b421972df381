import Specializer.Manifest
import Specializer.Proofs.BadPaths

set_option autoImplicit false

namespace Specializer

section Except

variable {α β ε : Type} {f : α → Except ε β} {test : α → Except ε Bool} {items : List α} {fault : ε}

theorem mapM_error_iff :
    items.mapM f = .error fault ↔
      ∃ before item after, items = before ++ item :: after ∧
        (∀ other ∈ before, ∃ value, f other = .ok value) ∧ f item = .error fault := by
  induction items with
  | nil => exact ⟨nofun, fun ⟨before, item, after, cut, _⟩ => by simp at cut⟩
  | cons first rest ih =>
    rw [List.mapM_cons, bind_eq_error]
    constructor
    next =>
      rintro (failed | ⟨value, made, failed⟩)
      next => exact ⟨[], first, rest, rfl, nofun, failed⟩
      next =>
        rcases bind_eq_error.mp failed with failed | ⟨_, _, done⟩
        next =>
          obtain ⟨before, item, after, rfl, each, fails⟩ := ih.mp failed
          refine ⟨first :: before, item, after, rfl, ?_, fails⟩
          exact List.forall_mem_cons.mpr ⟨⟨value, made⟩, each⟩
        next => cases done
    next =>
      rintro ⟨before, item, after, cut, each, fails⟩
      cases before with
      | nil =>
        cases cut
        exact .inl fails
      | cons other before =>
        cases cut
        obtain ⟨⟨value, made⟩, each⟩ := List.forall_mem_cons.mp each
        exact .inr ⟨value, made, bind_eq_error.mpr (.inl (ih.mpr ⟨_, _, _, rfl, each, fails⟩))⟩

theorem filterAuxM_passes {kept found : List α} (made : items.filterAuxM test kept = .ok found) :
    ∀ item ∈ found, item ∈ kept ∨ test item = .ok true := by
  induction items generalizing kept with
  | nil =>
    cases made
    exact fun item member => .inl member
  | cons first rest ih =>
    simp only [List.filterAuxM, bind_eq_ok] at made
    obtain ⟨passes, tested, made⟩ := made
    intro item member
    rcases ih made item member with inside | passed
    next =>
      cases passes with
      | false => exact .inl inside
      | true =>
        rcases List.mem_cons.mp inside with rfl | before
        next => exact .inr tested
        next => exact .inl before
    next => exact .inr passed

theorem filterM_passes {found : List α} (made : items.filterM test = .ok found) :
    ∀ item ∈ found, test item = .ok true := by
  simp only [List.filterM, bind_eq_ok, pure_eq_ok] at made
  obtain ⟨reversed, made, rfl⟩ := made
  intro item member
  rcases filterAuxM_passes made item (List.mem_reverse.mp member) with none_ | passes
  next => cases none_
  next => exact passes

theorem filterAuxM_fails {kept : List α} (failed : items.filterAuxM test kept = .error fault) :
    ∃ item ∈ items, test item = .error fault := by
  induction items generalizing kept with
  | nil => cases failed
  | cons first rest ih =>
    rw [List.filterAuxM, bind_eq_error] at failed
    rcases failed with failed | ⟨passes, -, failed⟩
    next => exact ⟨first, List.mem_cons_self, failed⟩
    next =>
      obtain ⟨item, member, failed⟩ := ih failed
      exact ⟨item, List.mem_cons_of_mem _ member, failed⟩

theorem filterM_fails (failed : items.filterM test = .error fault) :
    ∃ item ∈ items, test item = .error fault := by
  rw [List.filterM, bind_eq_error] at failed
  rcases failed with failed | ⟨_, _, done⟩
  next => exact filterAuxM_fails failed
  next => cases done

end Except

theorem Path.mem_sortDistinct {path : Path} {paths : List Path} :
    path ∈ sortDistinct paths ↔ path ∈ paths := by
  rw [sortDistinct, List.mem_eraseDups, (sortBy_perm le paths).mem_iff]

namespace FileTree

variable {tree : FileTree} {path : Path} {fault : FileFault}

theorem find?_tooLong (failed : tree.find? path = .error fault) : fault = .tooLong := by
  rw [find?] at failed
  split at failed <;> cases failed
  rfl

theorem isPresent_tooLong (failed : tree.isPresent path = .error fault) : fault = .tooLong := by
  rcases bind_eq_error.mp failed with failed | ⟨_, _, done⟩
  next => exact find?_tooLong failed
  next => cases done

theorem isDirectory_tooLong (failed : tree.isDirectory path = .error fault) : fault = .tooLong := by
  rcases bind_eq_error.mp failed with failed | ⟨_, _, done⟩
  next => exact find?_tooLong failed
  next => cases done

theorem isFile_tooLong (failed : tree.isFile path = .error fault) : fault = .tooLong := by
  rcases bind_eq_error.mp failed with failed | ⟨found, -, done⟩
  next => exact find?_tooLong failed
  next => split at done <;> cases done

theorem find?_plain {entry : FileEntry} (found : tree.find? path = .ok (some entry)) :
    ¬ path.HasNull := by
  intro null
  rw [find?, (locate_null tree path).mpr null] at found
  cases found

theorem isFile_plain (file : tree.isFile path = .ok true) : ¬ path.HasNull := by
  obtain ⟨found, there, file⟩ := bind_eq_ok.mp file
  split at file
  next => exact find?_plain there
  next => cases file

end FileTree

namespace Glob

variable {tree : FileTree} {fault : FileFault}

theorem select_tooLong {onlyDirectories : Bool} {parts : List Part} {path : Path}
    (failed : select tree onlyDirectories parts path = .error fault) : fault = .tooLong := by
  induction parts generalizing path with
  | nil => cases failed
  | cons part rest ih =>
    -- Whatever is chosen, the search goes on with the rest of the parts or ends.
    have goes {chosen : Bool} {next : Path} (failed : (if chosen = true then
        select tree onlyDirectories rest next else pure []) = .error fault) : fault = .tooLong := by
      split at failed
      next => exact ih failed
      next => cases failed
    cases part with
    | exact name =>
      rw [select] at failed
      dsimp only at failed
      split at failed
      next =>
        rcases bind_eq_error.mp failed with failed | ⟨found, -, failed⟩
        next => exact FileTree.isPresent_tooLong failed
        next => exact goes failed
      next =>
        rcases bind_eq_error.mp failed with failed | ⟨found, -, failed⟩
        next => exact FileTree.isDirectory_tooLong failed
        next => exact goes failed
    | pattern items =>
      rw [select] at failed
      rcases bind_eq_error.mp failed with failed | ⟨_, _, done⟩
      next =>
        obtain ⟨name, -, failed⟩ := mapM_eq_error failed
        dsimp only at failed
        split at failed
        next => cases failed
        next =>
          split at failed
          next => exact @goes true _ failed
          next =>
            rcases bind_eq_error.mp failed with failed | ⟨chosen, -, failed⟩
            next => exact FileTree.isDirectory_tooLong failed
            next => exact goes failed
      next => cases done
    | anyDirectories =>
      rw [select] at failed
      rcases bind_eq_error.mp failed with failed | ⟨_, _, done⟩
      next =>
        obtain ⟨directory, -, failed⟩ := mapM_eq_error failed
        exact ih failed
      next => cases done

theorem expand_tooLong {glob : Glob} {directory : Path}
    (failed : glob.expand tree directory = .error fault) : fault = .tooLong := by
  rcases bind_eq_error.mp failed with failed | ⟨isDirectory, -, failed⟩
  next => exact FileTree.isDirectory_tooLong failed
  next =>
    split at failed
    next =>
      rcases bind_eq_error.mp failed with failed | ⟨_, _, done⟩
      next => exact select_tooLong failed
      next => cases done
    next => cases failed

end Glob

namespace Manifest

variable {tree : FileTree} {directory : Path} {pattern : List Char} {fault : LoadFault}

def search (tree : FileTree) (directory : Path) (glob : Glob) : Except FileFault (List Path) :=
  glob.expand tree directory >>= fun found => found.filterM tree.isFile

theorem search_tooLong {glob : Glob} {fault : FileFault}
    (failed : search tree directory glob = .error fault) : fault = .tooLong := by
  rcases bind_eq_error.mp failed with failed | ⟨found, -, failed⟩
  next => exact Glob.expand_tooLong failed
  next =>
    obtain ⟨path, -, failed⟩ := filterM_fails failed
    exact FileTree.isFile_tooLong failed

theorem matching_eq (tree : FileTree) (directory : Path) (pattern : List Char) :
    matching tree directory pattern =
      (Glob.parse pattern).mapError .badPattern >>= fun glob =>
        (search tree directory glob).mapError .refused := by
  rw [matching]
  refine congrArg _ (funext fun glob => ?_)
  rw [search]
  cases glob.expand tree directory <;> rfl

theorem matching_error :
    matching tree directory pattern = .error fault ↔
      (∃ cause, Glob.parse pattern = .error cause ∧ fault = .badPattern cause) ∨
        ∃ glob, Glob.parse pattern = .ok glob ∧ search tree directory glob = .error .tooLong ∧
          fault = .refused .tooLong := by
  rw [matching_eq]
  cases parsed : Glob.parse pattern with
  | error cause => simp [Except.mapError, bind, Except.bind, eq_comm]
  | ok glob =>
    cases searched : search tree directory glob with
    | error cause =>
      cases search_tooLong searched
      simp [Except.mapError, bind, Except.bind, searched, eq_comm]
    | ok found => simp [Except.mapError, bind, Except.bind, searched]

theorem templates_files {manifest : Manifest} {found : List Path}
    (made : manifest.templates tree = .ok found) : ∀ path ∈ found, tree.isFile path = .ok true := by
  obtain ⟨each, searched, made⟩ := bind_eq_ok.mp made
  rw [pure_eq_ok] at made
  subst made
  intro path member
  obtain ⟨part, inside, member⟩ := List.mem_flatten.mp (Path.mem_sortDistinct.mp member)
  obtain ⟨pattern, -, matched⟩ := exists_of_forall₂ (mapM_eq_ok searched) inside
  rw [matching_eq] at matched
  obtain ⟨glob, -, matched⟩ := bind_eq_ok.mp matched
  cases searched : search tree manifest.source glob with
  | error cause => simp [searched, Except.mapError] at matched
  | ok matches_ =>
    rw [searched] at matched
    cases matched
    obtain ⟨all, -, kept⟩ := bind_eq_ok.mp searched
    exact filterM_passes kept path member

theorem templates_error {manifest : Manifest} :
    manifest.templates tree = .error fault ↔
      ∃ before pattern after, manifest.patterns = before ++ pattern :: after ∧
        (∀ other ∈ before, ∃ found, matching tree manifest.source other = .ok found) ∧
        matching tree manifest.source pattern = .error fault := by
  rw [← mapM_error_iff, templates, bind_eq_error]
  constructor
  next =>
    rintro (failed | ⟨_, _, done⟩)
    next => exact failed
    next => cases done
  next => exact .inl

end Manifest

end Specializer
