import Specializer.Proofs.BadPaths
import Specializer.Proofs.FileEffects

set_option autoImplicit false

namespace Specializer

namespace Path

variable {path home : Path}

/-- A path that never goes up. -/
def Straight (path : Path) : Prop := up ∉ path.parts

instance (path : Path) : Decidable path.Straight := inferInstanceAs (Decidable (up ∉ path.parts))

/-- Why no tree has a place for a path: its text alone says so. -/
def refusal (path : Path) : Option FileFault :=
  if path.toText.contains '\x00' then some .nullInPath
  else if pathLimit < byteCount path.toText then some .tooLong
  else none

def spot (path home : Path) : Except FileFault Place :=
  match path.refusal with
  | some fault => .error fault
  | none =>
    match path.parts.getLast? with
    | none => .ok (path.place home)
    | some last => if nameLimit < byteCount last then .error .tooLong else .ok (path.place home)

theorem spot_ok {place : Place} (found : path.spot home = .ok place) : place = path.place home := by
  rw [spot] at found
  split at found
  next => cases found
  next =>
    split at found
    next => cases found; rfl
    next =>
      split at found
      next => cases found
      next => cases found; rfl

theorem refusal_named {fault : FileFault} (refused : path.refusal = some fault) : fault ≠ .missing := by
  rw [refusal] at refused
  split at refused
  next => cases refused; exact nofun
  next =>
    split at refused
    next => cases refused; exact nofun
    next => cases refused

theorem Straight.parent (straight : path.Straight) : path.parent.Straight :=
  fun member => straight (List.mem_of_mem_dropLast member)

theorem foldl_step {names : List (List Char)} (down : up ∉ names) (place : Place) :
    names.foldl Place.step place = place ++ names := by
  induction names generalizing place with
  | nil => simp
  | cons name rest ih =>
    have here : name ≠ up := fun same => down (same ▸ List.mem_cons_self)
    rw [List.foldl_cons, ih fun member => down (List.mem_cons_of_mem _ member)]
    simp [Place.step, here]

theorem Straight.place (straight : path.Straight) : path.place home = path.base home ++ path.parts :=
  foldl_step straight _

theorem byteCount_append (first second : List Char) :
    byteCount (first ++ second) = byteCount first + byteCount second := by
  induction first with
  | nil => simp [byteCount]
  | cons c rest ih => simp [byteCount, ih, Nat.add_assoc]

theorem byteCount_intercalate (first more : List (List Char)) :
    byteCount (List.intercalate ['/'] first) ≤ byteCount (List.intercalate ['/'] (first ++ more)) := by
  induction first with
  | nil => simp [byteCount]
  | cons part rest ih =>
    cases rest with
    | nil =>
      cases more with
      | nil => simp
      | cons next others => simp [List.intercalate_cons_cons, byteCount_append]
    | cons next others =>
      simp only [List.cons_append, List.intercalate_cons_cons, byteCount_append] at ih ⊢
      omega

theorem byteCount_toText (path : Path) :
    byteCount path.toText =
      max 1 (byteCount path.root + byteCount (List.intercalate ['/'] path.parts)) := by
  rw [toText, ← byteCount_append]
  cases path.root ++ List.intercalate ['/'] path.parts with
  | nil => rfl
  | cons c rest =>
    have some : 1 ≤ charBytes c := by
      rw [charBytes]
      repeat' split
      all_goals decide
    simp only [List.isEmpty_cons, Bool.false_eq_true, if_false, byteCount]
    omega

theorem refusal_parent (free : path.refusal = none) : path.parent.refusal = none := by
  -- The text of the parent has no other characters and is no longer.
  have shorter : byteCount path.parent.toText ≤ byteCount path.toText := by
    have cut := byteCount_intercalate path.parts.dropLast (path.parts.drop (path.parts.length - 1))
    rw [List.dropLast_eq_take, List.take_append_drop] at cut
    rw [byteCount_toText, byteCount_toText, parent, List.dropLast_eq_take]
    dsimp only
    omega
  have plain : ¬ path.HasNull := by
    intro null
    have null : '\x00' ∈ path.toText := null
    simp [refusal, null] at free
  have kept : '\x00' ∉ path.parent.toText := mt HasNull.of_parent plain
  simp only [refusal, List.contains_iff_mem, show '\x00' ∉ path.toText from plain, if_false] at free
  have fits : ¬ pathLimit < byteCount path.toText := by
    intro long
    simp [long] at free
  simp only [refusal, List.contains_iff_mem, kept, if_false]
  rw [if_neg (by omega)]

end Path

def FileFault.behind : FileFault → FileFault
  | tooLong => tooLong
  | _ => notDirectory

namespace FileTree

variable {tree after : FileTree} {path : Path} {place : Place}

theorem locate_eq (tree : FileTree) (path : Path) :
    tree.locate path = match path.refusal with
      | some fault => .error fault
      | none => tree.enter (path.base tree.home) path.parts := by
  rw [locate, Path.refusal]
  split
  next => rfl
  next => split <;> rfl

def Connected (tree : FileTree) : Prop :=
  ∀ place entry, tree.get? place = some entry → tree.get? place.dropLast = some .directory

/-- How far directories can be made along names: the places up to the first that cannot be a directory,
and the fault of that one. -/
def survey (tree : FileTree) (place : Place) : List (List Char) → List Place × Option FileFault
  | [] => ([], none)
  | name :: rest =>
    if nameLimit < byteCount name then ([], some .tooLong)
    else
      match tree.get? (place ++ [name]) with
      | some (.file _) => ([], some (if rest.isEmpty then .occupied else .notDirectory))
      | _ =>
        let further := survey tree (place ++ [name]) rest
        ((place ++ [name]) :: further.1, further.2)

section Survey

variable {names : List (List Char)}

theorem survey_cases (tree : FileTree) (place : Place) (name : List Char) (rest : List (List Char)) :
    (nameLimit < byteCount name ∧ tree.survey place (name :: rest) = ([], some .tooLong)) ∨
      ¬ nameLimit < byteCount name ∧
        ((∃ bytes, tree.get? (place ++ [name]) = some (.file bytes) ∧
            tree.survey place (name :: rest) =
              ([], some (if rest.isEmpty then .occupied else .notDirectory))) ∨
          (∀ bytes, tree.get? (place ++ [name]) ≠ some (.file bytes)) ∧
            tree.survey place (name :: rest) =
              ((place ++ [name]) :: (tree.survey (place ++ [name]) rest).1,
                (tree.survey (place ++ [name]) rest).2)) := by
  by_cases long : nameLimit < byteCount name
  next => exact .inl ⟨long, by simp [survey, long]⟩
  next =>
    right
    refine ⟨long, ?_⟩
    rw [survey, if_neg long]
    split
    next bytes there => exact .inl ⟨bytes, there, rfl⟩
    next other => exact .inr ⟨other, rfl⟩

-- Each place of a survey lies behind the first and no further than the names lead; it is no file, and
-- the place above it is the first one or is in the survey, too.
theorem survey_places {found : Place} (member : found ∈ (tree.survey place names).1) :
    (place <+: found ∧ found ≠ place ∧ found <+: place ++ names) ∧
      (∀ bytes, tree.get? found ≠ some (.file bytes)) ∧
      (found.dropLast = place ∨ found.dropLast ∈ (tree.survey place names).1) := by
  induction names generalizing place with
  | nil => cases member
  | cons name rest ih =>
    -- A survey ends at a name that is too long or at a file; else it goes one name further.
    rcases survey_cases tree place name rest with ⟨-, same⟩ | ⟨-, ⟨_, -, same⟩ | ⟨other, same⟩⟩
    next =>
      rw [same] at member
      cases member
    next =>
      rw [same] at member
      cases member
    next =>
      rw [same] at member ⊢
      rcases List.mem_cons.mp member with rfl | later
      next =>
        refine ⟨⟨List.prefix_append _ _, by simp, ?_⟩, other, .inl (by simp)⟩
        simp
      next =>
        obtain ⟨⟨behind, differ, within⟩, noFile, above⟩ := ih later
        refine ⟨⟨(List.prefix_append _ _).trans behind, ?_, by simpa using within⟩, noFile, .inr ?_⟩
        next =>
          rintro rfl
          have shorter := behind.length_le
          simp only [List.length_append, List.length_singleton] at shorter
          omega
        next => exact above.elim (fun first => by simp [first]) fun there => by simp [there]

theorem survey_congr {other : FileTree}
    (same : ∀ found, place <+: found → found <+: place ++ names → ∀ bytes,
      tree.get? found = some (.file bytes) ↔ other.get? found = some (.file bytes)) :
    tree.survey place names = other.survey place names := by
  induction names generalizing place with
  | nil => rfl
  | cons name rest ih =>
    have here := same (place ++ [name]) (List.prefix_append _ _) (by simp)
    have later : tree.survey (place ++ [name]) rest = other.survey (place ++ [name]) rest := by
      apply ih
      intro found behind within
      exact same found ((List.prefix_append _ _).trans behind) (by simpa using within)
    rcases survey_cases tree place name rest with ⟨long, one⟩ | ⟨short, ⟨bytes, there, one⟩ | ⟨none, one⟩⟩
    all_goals
      rcases survey_cases other place name rest with
        ⟨long', two⟩ | ⟨short', ⟨bytes', there', two⟩ | ⟨none', two⟩⟩
    all_goals simp_all

theorem survey_concat (tree : FileTree) (place : Place) (names : List (List Char)) (last : List Char) :
    tree.survey place (names ++ [last]) =
      match (tree.survey place names).2 with
      | none => ((tree.survey place names).1 ++ (tree.survey (place ++ names) [last]).1,
          (tree.survey (place ++ names) [last]).2)
      | some fault => ((tree.survey place names).1, some fault.behind) := by
  induction names generalizing place with
  | nil => simp [survey]
  | cons name rest ih =>
    have later := ih (place ++ [name])
    rw [List.append_assoc, List.singleton_append] at later
    rw [List.cons_append]
    rcases survey_cases tree place name rest with ⟨long, same⟩ | ⟨short, ⟨bytes, there, same⟩ | ⟨other, same⟩⟩
    next => simp [survey, long, FileFault.behind]
    next =>
      -- A file at the end of the names is one in the way of the last.
      have blocked : tree.survey place (name :: (rest ++ [last])) = ([], some .notDirectory) := by
        simp [survey, short, there]
      rw [same, blocked]
      cases rest.isEmpty <;> rfl
    next =>
      have onward : tree.survey place (name :: (rest ++ [last])) =
          ((place ++ [name]) :: (tree.survey (place ++ [name]) (rest ++ [last])).1,
            (tree.survey (place ++ [name]) (rest ++ [last])).2) := by
        rcases survey_cases tree place name (rest ++ [last]) with
          ⟨long, -⟩ | ⟨-, ⟨bytes, there, -⟩ | ⟨-, onward⟩⟩
        next => exact absurd long short
        next => exact absurd there (other bytes)
        next => exact onward
      rw [onward, same, later]
      dsimp only
      split <;> rfl

theorem enter_concat {last : List Char} (down : Path.up ∉ names ++ [last]) :
    tree.enter place (names ++ [last]) =
      if ∀ found ∈ (tree.survey place names).1, tree.get? found = some .directory then
        match (tree.survey place names).2 with
        | none =>
          if nameLimit < byteCount last then .error .tooLong else .ok (place ++ names ++ [last])
        | some fault => .error fault.behind
      else .error .missing := by
  induction names generalizing place with
  | nil =>
    have here : last ≠ Path.up := fun same => down (same ▸ List.mem_cons_self)
    simp [enter, survey, Place.step, here]
  | cons name rest ih =>
    have here : name ≠ Path.up := fun same => down (same ▸ List.mem_cons_self)
    have later := @ih (place ++ [name]) fun member => down (List.mem_cons_of_mem _ member)
    rw [List.cons_append, enter]
    rcases survey_cases tree place name rest with ⟨long, same⟩ | ⟨short, ⟨bytes, there, same⟩ | ⟨other, same⟩⟩
    next => simp [same, long, FileFault.behind]
    next =>
      simp only [short, if_false, Place.step, here, there, same]
      cases rest.isEmpty <;> simp [FileFault.behind]
    next =>
      simp only [short, if_false, Place.step, here, same]
      -- The survey passes what is missing as it passes directories; entering does not.
      cases there : tree.get? (place ++ [name]) with
      | none => simp [there]
      | some entry =>
        cases entry with
        | file bytes => exact absurd there (other bytes)
        | directory => simp [there, later]

theorem survey_file {fault : FileFault} (stopped : (tree.survey place names).2 = some fault)
    (short : fault ≠ .tooLong) :
    ∃ file bytes, place <+: file.dropLast ∧ tree.get? file = some (.file bytes) ∧
      ∀ found ∈ (tree.survey place names).1, found <+: file.dropLast := by
  induction names generalizing place with
  | nil => cases stopped
  | cons name rest ih =>
    rcases survey_cases tree place name rest with ⟨-, same⟩ | ⟨-, ⟨bytes, there, same⟩ | ⟨-, same⟩⟩
    next =>
      rw [same] at stopped
      exact absurd (Option.some.inj stopped).symm short
    next => exact ⟨place ++ [name], bytes, by simp, there, by simp [same]⟩
    next =>
      rw [same] at stopped
      obtain ⟨file, bytes, behind, there, places⟩ := ih stopped
      refine ⟨file, bytes, (List.prefix_append _ _).trans behind, there, ?_⟩
      rw [same]
      intro found member
      rcases List.mem_cons.mp member with rfl | later
      next => exact behind
      next => exact places found later

end Survey

theorem get?_above (above : tree.isAbove place = true) : tree.get? place = some .directory := if_pos above

theorem base_isAbove (tree : FileTree) (path : Path) : tree.isAbove (path.base tree.home) = true := by
  rw [isAbove, Path.base]
  split <;> simp

theorem connected_of_entries
    (within : ∀ item ∈ tree.entries, tree.get? item.1.dropLast = some .directory) : tree.Connected := by
  intro place entry there
  by_cases above : tree.isAbove place = true
  next =>
    rw [isAbove, List.isPrefixOf_iff_prefix] at above
    have higher : place.dropLast <+: tree.home.parts := (List.dropLast_prefix place).trans above
    exact get?_above (List.isPrefixOf_iff_prefix.mpr higher)
  next =>
    rw [get?, if_neg above] at there
    obtain ⟨before, after, split, -⟩ := List.lookup_eq_some_iff.mp there
    exact within (place, entry) (by simp [split])

theorem Connected.above (connected : tree.Connected) {entry : FileEntry} {higher : Place}
    (there : tree.get? place = some entry) (within : higher <+: place.dropLast) :
    tree.get? higher = some .directory := by
  induction place using List.reverseRecOn generalizing entry with
  | nil =>
    cases List.prefix_nil.mp within
    exact get?_above (by simp [isAbove])
  | append_singleton place name ih =>
    have directory := connected _ _ there
    rw [List.dropLast_concat] at directory within
    by_cases same : higher = place
    next => rw [same, directory]
    next =>
      apply ih directory
      obtain ⟨rest, rfl⟩ := within
      have some : rest ≠ [] := fun empty => same (by simp [empty])
      rw [List.dropLast_append_of_ne_nil some]
      exact List.prefix_append _ _

end FileTree

end Specializer
