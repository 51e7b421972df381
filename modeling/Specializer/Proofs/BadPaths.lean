import Specializer.Job
import Specializer.Proofs.OutputNames

set_option autoImplicit false

namespace Specializer

namespace Path

def HasNull (path : Path) : Prop := '\x00' ∈ path.toText

instance (path : Path) : Decidable path.HasNull := inferInstanceAs (Decidable ('\x00' ∈ path.toText))

theorem mem_intercalate {c : Char} {parts : List (List Char)} (other : c ≠ '/') :
    c ∈ List.intercalate ['/'] parts ↔ ∃ part ∈ parts, c ∈ part := by
  induction parts with
  | nil => simp
  | cons part rest ih =>
    cases rest with
    | nil => simp
    | cons second more =>
      rw [List.intercalate_cons_cons]
      simp only [List.append_assoc, List.mem_append, ih, List.mem_singleton, other, false_or]
      simp

theorem hasNull_iff {path : Path} :
    path.HasNull ↔ '\x00' ∈ path.root ∨ ∃ part ∈ path.parts, '\x00' ∈ part := by
  rw [← mem_intercalate (by decide), ← List.mem_append, HasNull, toText]
  split
  next empty =>
    rw [List.isEmpty_iff.mp empty]
    decide
  next => rfl

theorem HasNull.of_parent {path : Path} (null : path.parent.HasNull) : path.HasNull := by
  rw [hasNull_iff] at null ⊢
  apply null.imp_right
  rintro ⟨part, member, inside⟩
  exact ⟨part, List.mem_of_mem_dropLast member, inside⟩

theorem HasNull.of_join {base path : Path} (null : (base.join path).HasNull) :
    base.HasNull ∨ path.HasNull := by
  rw [join] at null
  split at null
  next =>
    rw [hasNull_iff] at null
    rcases null with inRoot | ⟨part, member, inside⟩
    next => exact .inl (hasNull_iff.mpr (.inl inRoot))
    next =>
      rcases List.mem_append.mp member with ours | theirs
      next => exact .inl (hasNull_iff.mpr (.inr ⟨part, ours, inside⟩))
      next => exact .inr (hasNull_iff.mpr (.inr ⟨part, theirs, inside⟩))
  next => exact .inr null

theorem HasNull.of_relative {base path : Path} (null : ((path.relativeTo? base).getD .here).HasNull) :
    path.HasNull := by
  rw [relativeTo?] at null
  split at null
  next =>
    rcases hasNull_iff.mp null with inRoot | ⟨part, member, inside⟩
    next => cases inRoot
    next => exact hasNull_iff.mpr (.inr ⟨part, List.mem_of_mem_drop member, inside⟩)
  next => exact absurd null (by decide)

theorem splitOn_mem {c separator : Char} {text part : List Char} (member : part ∈ splitOn separator text)
    (inside : c ∈ part) : c ∈ text := by
  induction text generalizing part with
  | nil => simp_all [splitOn]
  | cons d rest ih =>
    rw [splitOn] at member
    split at member
    next =>
      rcases List.mem_cons.mp member with rfl | later
      next => cases inside
      next => exact List.mem_cons_of_mem _ (ih later inside)
    next =>
      split at member
      next => simp_all
      next first more cut =>
        rcases List.mem_cons.mp member with rfl | later
        next =>
          rcases List.mem_cons.mp inside with rfl | behind
          next => exact List.mem_cons_self
          next => exact List.mem_cons_of_mem _ (ih (cut ▸ List.mem_cons_self) behind)
        next => exact List.mem_cons_of_mem _ (ih (cut ▸ List.mem_cons_of_mem _ later) inside)

theorem HasNull.of_parse {text : List Char} (null : (parse text).HasNull) : '\x00' ∈ text := by
  rcases hasNull_iff.mp null with inRoot | ⟨part, member, inside⟩
  next =>
    have slashes : ∀ c ∈ rootOf text, c = '/' := by
      rw [rootOf]
      split <;> simp
    cases slashes _ inRoot
  next => exact splitOn_mem (List.mem_filter.mp member).1 inside

end Path

namespace FileTree

variable {tree : FileTree} {path : Path}

theorem enter_fault {names : List (List Char)} {start : Place} :
    tree.enter start names ≠ .error .nullInPath := by
  induction names generalizing start with
  | nil => exact nofun
  | cons name rest ih =>
    rw [enter]
    split
    next => exact nofun
    next =>
      dsimp only
      split
      next => exact nofun
      next =>
        split
        next => exact nofun
        next => exact nofun
        next => exact ih

theorem locate_null (tree : FileTree) (path : Path) :
    tree.locate path = .error .nullInPath ↔ path.HasNull := by
  rw [locate, Path.HasNull]
  by_cases null : '\x00' ∈ path.toText
  next => simp [null]
  next =>
    simp only [List.contains_iff_mem, null, if_false, iff_false]
    split
    next => exact nofun
    next => exact enter_fault

theorem locate_then {α : Type} {next : Place → Except FileFault α}
    (named : ∀ place, next place ≠ .error .nullInPath) :
    tree.locate path >>= next = .error .nullInPath ↔ path.HasNull := by
  rw [← locate_null tree path, bind_eq_error]
  constructor
  next =>
    rintro (located | ⟨place, -, failed⟩)
    next => exact located
    next => exact absurd failed (named place)
  next => exact .inl

theorem read_null : tree.read path = .error .nullInPath ↔ path.HasNull := by
  apply locate_then
  intro place
  split <;> exact nofun

theorem makeDirectory_null : tree.makeDirectory path = .error .nullInPath ↔ path.HasNull := by
  apply locate_then
  intro place
  split <;> exact nofun

theorem write_null {bytes : Bytes} : tree.write path bytes = .error .nullInPath ↔ path.HasNull := by
  apply locate_then
  intro place
  split <;> exact nofun

theorem isDirectory_fault : tree.isDirectory path ≠ .error .nullInPath := by
  rw [isDirectory, ne_eq, bind_eq_error]
  rintro (failed | ⟨found, -, failed⟩)
  next =>
    rw [find?] at failed
    split at failed <;> cases failed
  next => cases failed

theorem settle_fault {fault : FileFault} (other : fault ≠ .nullInPath) :
    (match tree.isDirectory path with
      | .ok true => (⟨tree, none⟩ : Made)
      | .ok false => ⟨tree, some fault⟩
      | .error fault => ⟨tree, some fault⟩).fault ≠ some .nullInPath := by
  split
  next => exact nofun
  next => simpa using other
  next fault unsettled => simpa using fun same => isDirectory_fault (same ▸ unsettled)

theorem makeDirectories_fault (levels : Nat) (plain : ¬ path.HasNull) :
    (makeDirectories levels tree path).fault ≠ some .nullInPath := by
  have named {path : Path} {fault : FileFault} {tree : FileTree} (plain : ¬ path.HasNull)
      (failed : tree.makeDirectory path = .error fault) : fault ≠ .nullInPath :=
    fun same => plain (makeDirectory_null.mp (same ▸ failed))
  induction levels generalizing tree path with
  | zero =>
    rw [makeDirectories]
    split
    next => exact nofun
    next => exact nofun
    next failed => exact settle_fault (named plain failed)
  | succ levels ih =>
    rw [makeDirectories]
    split
    next => exact nofun
    next =>
      dsimp only
      split
      next failed => exact failed ▸ ih (mt Path.HasNull.of_parent plain)
      next =>
        split
        next => exact nofun
        next => exact nofun
        next failed => exact settle_fault (named plain failed)
    next failed => exact settle_fault (named plain failed)

theorem save_fault {bytes : Bytes} (plain : ¬ path.HasNull) :
    (tree.save path bytes).fault ≠ some .nullInPath := by
  rw [save]
  split
  next fault failed =>
    exact failed ▸ makeDirectories_fault path.parts.length (mt Path.HasNull.of_parent plain)
  next =>
    split
    next => exact nofun
    next fault failed => simpa using fun same => plain (write_null.mp (same ▸ failed))

end FileTree

variable {tree : FileTree} {path : Path} {bad : BadPath}

theorem readSource_badPath :
    readSource tree path = .error (.badPath bad) ↔ path.HasNull ∧ bad = ⟨path⟩ := by
  rw [← @FileTree.read_null tree path, readSource]
  split
  next failed => simp [failed, eq_comm]
  next fault other failed =>
    have named : fault ≠ .nullInPath := other
    simp [failed, named]
  next read =>
    simp only [read]
    split <;> simp

theorem load_badPath :
    Template.load tree path = .error (.badPath bad) ↔ path.HasNull ∧ bad = ⟨path⟩ := by
  rw [← @readSource_badPath tree path, Template.load, bind_eq_error]
  constructor
  next =>
    rintro (failed | ⟨source, -, failed⟩)
    next => exact failed
    next =>
      cases read : Template.read source path.description <;> rw [read] at failed <;> cases failed
  next => exact .inl

theorem load_read {template : Template} (loaded : Template.load tree path = .ok template) :
    ∃ source, Template.read source path.description = .ok template := by
  rw [Template.load, bind_eq_ok] at loaded
  obtain ⟨source, -, loaded⟩ := loaded
  cases read : Template.read source path.description with
  | error fault => simp [read, Except.mapError] at loaded
  | ok found =>
    simp only [read, Except.mapError, Except.ok.injEq] at loaded
    exact ⟨source, loaded ▸ read⟩

theorem outputPath_hasNull {source : List Char} {filename : String} {template : Template}
    {binding : Binding} {sourceRoot outputRoot out : Path}
    (read : Template.read source filename = .ok template) (fits : template.Fits binding)
    (made : outputPath template binding path sourceRoot outputRoot = .ok out) (null : out.HasNull) :
    outputRoot.HasNull ∨ path.HasNull := by
  obtain ⟨values, -, named⟩ := template.outputPath_named read fits path sourceRoot outputRoot
  rw [made] at named
  cases named
  have ofName (there : '\x00' ∈ path.name) : path.HasNull := by
    obtain ⟨part, member, inside⟩ := Path.name_mem there
    exact Path.hasNull_iff.mpr (.inr ⟨part, member, inside⟩)
  rcases null.of_join with inBase | inName
  next =>
    apply inBase.of_join.imp_right
    intro inRelative
    exact Path.HasNull.of_parent (inRelative.of_relative)
  next =>
    right
    rcases List.mem_append.mp inName.of_parse with own | rest
    next =>
      rcases template.outputName_mem read path values _ own with word | there
      next => exact absurd word (by decide)
      next => exact ofName there
    next => exact ofName (Path.suffix_mem rest)

end Specializer
