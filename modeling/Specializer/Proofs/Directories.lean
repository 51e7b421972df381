import Specializer.Proofs.Ways

set_option autoImplicit false

namespace Specializer

namespace FileTree

variable {tree after : FileTree} {path : Path} {place : Place}

structure Adds (tree : FileTree) (places : List Place) (after : FileTree) : Prop where
  home : after.home = tree.home
  entries : ∀ place, after.get? place =
    (tree.get? place).or (if place ∈ places then some .directory else none)

namespace Adds

variable {places : List Place}

theorem none (present : ∀ found ∈ places, tree.get? found = some .directory) :
    Adds tree places tree := by
  refine ⟨rfl, fun place => ?_⟩
  by_cases member : place ∈ places
  next => simp [present place member]
  next => simp [member]

theorem trans {more : List Place} {middle : FileTree} (first : Adds tree places middle)
    (second : Adds middle more after) : Adds tree (places ++ more) after := by
  refine ⟨second.home.trans first.home, fun place => ?_⟩
  rw [second.entries, first.entries, Option.or_assoc]
  by_cases early : place ∈ places <;> by_cases late : place ∈ more <;> simp [early, late]

theorem put (adds : Adds tree places after) (free : after.get? place = Option.none) :
    Adds tree (places ++ [place]) (after.put place .directory) := by
  refine ⟨adds.home, fun found => ?_⟩
  have down : after.isAbove place = false := down_of_get? (by simp [free])
  by_cases same : found = place
  next =>
    subst same
    have entries := adds.entries found
    rw [free] at entries
    cases before : tree.get? found with
    | none => simp [get?_put_self down]
    | some entry => simp [before] at entries
  next => simp [get?_put_other same, adds.entries, same]

theorem file_iff (adds : Adds tree places after) {bytes : Bytes} :
    tree.get? place = some (.file bytes) ↔ after.get? place = some (.file bytes) := by
  rw [adds.entries]
  cases tree.get? place with
  | none => split <;> simp
  | some entry => simp

theorem directory_iff (adds : Adds tree places after)
    (noFile : ∀ found ∈ places, ∀ bytes, tree.get? found ≠ some (.file bytes)) :
    after.get? place = some .directory ↔ tree.get? place = some .directory ∨ place ∈ places := by
  rw [adds.entries]
  cases there : tree.get? place with
  | none => simp
  | some entry =>
    cases entry with
    | file bytes =>
      have absent : place ∉ places := fun member => noFile place member bytes there
      simp [absent]
    | directory => simp

end Adds

theorem isDirectory_eq (tree : FileTree) (path : Path) :
    tree.isDirectory path = match tree.locate path with
      | .ok spot => .ok (tree.get? spot == some .directory)
      | .error .tooLong => .error .tooLong
      | .error _ => .ok false := by
  rw [isDirectory, find?]
  cases tree.locate path with
  | ok spot => rfl
  | error fault => cases fault <;> rfl

theorem makeDirectory_eq (tree : FileTree) (path : Path) :
    tree.makeDirectory path = match tree.locate path with
      | .ok spot =>
        match tree.get? spot with
        | some _ => .error .occupied
        | none => .ok (tree.put spot .directory)
      | .error fault => .error fault := by
  rw [makeDirectory]
  cases tree.locate path with
  | ok spot => rfl
  | error fault => rfl

def settled (tree : FileTree) (path : Path) (fault : FileFault) : Made :=
  match tree.isDirectory path with
  | .ok true => ⟨tree, none⟩
  | .ok false => ⟨tree, some fault⟩
  | .error fault => ⟨tree, some fault⟩

/-- What comes of making one directory, all above it being there. -/
def attempt (tree : FileTree) (path : Path) : Made :=
  match tree.makeDirectory path with
  | .ok after => ⟨after, none⟩
  | .error .missing => ⟨tree, some .missing⟩
  | .error fault => tree.settled path fault

theorem makeDirectories_attempt {levels : Nat} (failed : tree.makeDirectory path ≠ .error .missing) :
    makeDirectories levels tree path = tree.attempt path := by
  cases levels <;> rw [makeDirectories, attempt]
  all_goals
    cases made : tree.makeDirectory path with
    | ok after => rfl
    | error fault => cases fault <;> first | exact absurd made failed | rfl

theorem makeDirectories_above {levels : Nat} (failed : tree.makeDirectory path = .error .missing) :
    makeDirectories (levels + 1) tree path =
      match makeDirectories levels tree path.parent with
      | ⟨above, some fault⟩ => ⟨above, some fault⟩
      | ⟨above, none⟩ => above.attempt path := by
  rw [makeDirectories]
  simp only [failed]
  generalize makeDirectories levels tree path.parent = made
  obtain ⟨above, fault⟩ := made
  cases fault with
  | some fault => rfl
  | none => rfl

section Making

variable {names : List (List Char)} {last : List Char}

-- A path whose directory is there leads to its place, or its last name is too long.
theorem locate_last (free : path.refusal = none) (straight : path.Straight)
    (split : path.parts = names ++ [last])
    (clear : (tree.survey (path.base tree.home) names).2 = none)
    (present : ∀ found ∈ (tree.survey (path.base tree.home) names).1, tree.get? found = some .directory) :
    tree.locate path =
      if nameLimit < byteCount last then .error .tooLong
      else .ok (path.base tree.home ++ names ++ [last]) := by
  rw [locate_eq, free]
  dsimp only
  rw [split, enter_concat (split ▸ straight), if_pos present, clear]

theorem attempt_last (free : path.refusal = none) (straight : path.Straight)
    (split : path.parts = names ++ [last])
    (clear : (tree.survey (path.base tree.home) names).2 = none)
    (present : ∀ found ∈ (tree.survey (path.base tree.home) names).1, tree.get? found = some .directory) :
    Adds tree (tree.survey (path.base tree.home ++ names) [last]).1 (tree.attempt path).tree ∧
      (tree.attempt path).fault = (tree.survey (path.base tree.home ++ names) [last]).2 := by
  have located := locate_last free straight split clear present
  by_cases long : nameLimit < byteCount last
  next =>
    rw [if_pos long] at located
    have result : tree.attempt path = ⟨tree, some .tooLong⟩ := by
      simp only [attempt, makeDirectory_eq, settled, isDirectory_eq, located]
    rw [result, survey, if_pos long]
    exact ⟨.none (by simp), rfl⟩
  next =>
    rw [if_neg long] at located
    simp only [survey, long, if_false]
    generalize path.base tree.home ++ names ++ [last] = spot at *
    -- Only a place that is free gets a directory; a directory that is there is no fault.
    cases here : tree.get? spot with
    | none =>
      have result : tree.attempt path = ⟨tree.put spot .directory, none⟩ := by
        simp only [attempt, makeDirectory_eq, located, here]
      rw [result]
      have start : Adds tree [] tree := .none (by simp)
      exact ⟨start.put here, rfl⟩
    | some entry =>
      have result : tree.attempt path = tree.settled path .occupied := by
        simp only [attempt, makeDirectory_eq, located, here]
      rw [result, settled, isDirectory_eq, located]
      cases entry with
      | file bytes =>
        simp only [here]
        exact ⟨.none (by simp), rfl⟩
      | directory =>
        simp only [here]
        exact ⟨.none (by simp [here]), rfl⟩

-- Where no place can be found, for another reason than that directories are missing, none is made.
theorem makeDirectories_unlocated {levels : Nat} {fault : FileFault} (other : fault ≠ .missing)
    (located : tree.locate path = .error fault) :
    makeDirectories levels tree path = ⟨tree, some fault⟩ := by
  have made : tree.makeDirectory path = .error fault := by rw [makeDirectory_eq, located]
  rw [makeDirectories_attempt (by simpa [made] using other), attempt, made]
  cases fault <;> first | contradiction | simp [settled, isDirectory_eq, located]

theorem makeDirectories_base {levels : Nat} (free : path.refusal = none)
    (arrived : path.parts = []) : makeDirectories levels tree path = ⟨tree, none⟩ := by
  have located : tree.locate path = .ok (path.base tree.home) := by
    rw [locate_eq, free]
    dsimp only
    rw [arrived, enter]
  have there : tree.get? (path.base tree.home) = some .directory := get?_above (tree.base_isAbove path)
  have made : tree.makeDirectory path = .error .occupied := by
    simp only [makeDirectory_eq, located, there]
  rw [makeDirectories_attempt (by simp [made]), attempt, made]
  simp [settled, isDirectory_eq, located, there]

-- Where something is missing on the way, only a name that is too long can stand in the way behind it:
-- a file would stand in a directory.
theorem tooLong_of_missing (connected : tree.Connected)
    (missing : ¬ ∀ found ∈ (tree.survey place names).1, tree.get? found = some .directory)
    {fault : FileFault} (stopped : (tree.survey place names).2 = some fault) : fault = .tooLong := by
  by_contra other
  obtain ⟨file, bytes, -, there, places⟩ := survey_file stopped other
  exact missing fun found member => connected.above there (places found member)

theorem makeDirectories_present {levels : Nat} (straight : path.Straight) (free : path.refusal = none)
    (split : path.parts = names ++ [last])
    (present : ∀ found ∈ (tree.survey (path.base tree.home) names).1, tree.get? found = some .directory) :
    Adds tree (tree.survey (path.base tree.home) (names ++ [last])).1 (makeDirectories levels tree path).tree ∧
      (makeDirectories levels tree path).fault = (tree.survey (path.base tree.home) (names ++ [last])).2 := by
  rw [survey_concat]
  cases clear : (tree.survey (path.base tree.home) names).2 with
  | none =>
    obtain ⟨adds, fault⟩ := attempt_last free straight split clear present
    have tried : tree.makeDirectory path ≠ .error .missing := by
      rw [makeDirectory_eq, locate_last free straight split clear present]
      by_cases long : nameLimit < byteCount last
      next => simp [long]
      next =>
        simp only [long, if_false]
        split <;> simp
    rw [makeDirectories_attempt tried]
    exact ⟨(Adds.none present).trans adds, fault⟩
  | some fault =>
    have located : tree.locate path = .error fault.behind := by
      rw [locate_eq, free]
      dsimp only
      rw [split, enter_concat (split ▸ straight), if_pos present, clear]
    have other : fault.behind ≠ .missing := by cases fault <;> decide
    rw [makeDirectories_unlocated other located]
    exact ⟨.none present, rfl⟩

theorem attempt_above {half : FileTree} (straight : path.Straight) (free : path.refusal = none)
    (split : path.parts = names ++ [last])
    (adds : Adds tree (tree.survey (path.base tree.home) names).1 half)
    (clear : (tree.survey (path.base tree.home) names).2 = none) :
    Adds tree (tree.survey (path.base tree.home) (names ++ [last])).1 (half.attempt path).tree ∧
      (half.attempt path).fault = (tree.survey (path.base tree.home) (names ++ [last])).2 := by
  -- A survey depends on the files of a tree only, and those are the same.
  have same (place : Place) (steps : List (List Char)) : half.survey place steps = tree.survey place steps :=
    survey_congr fun found _ _ bytes => adds.file_iff.symm
  have present : ∀ found ∈ (half.survey (path.base half.home) names).1, half.get? found = some .directory := by
    rw [adds.home, same]
    exact fun found member =>
      (adds.directory_iff fun _ there => (survey_places there).2.1).mpr (.inr member)
  obtain ⟨further, fault⟩ := @attempt_last half _ _ _ free straight split
    (by rw [adds.home, same, clear]) present
  rw [adds.home, same] at further fault
  rw [survey_concat, clear]
  exact ⟨adds.trans further, fault⟩

theorem makeDirectories_survey {levels : Nat} (connected : tree.Connected) (straight : path.Straight)
    (free : path.refusal = none) (steps : path.parts = names)
    (enough : names.length ≤ levels + 1) :
    Adds tree (tree.survey (path.base tree.home) names).1 (makeDirectories levels tree path).tree ∧
      (makeDirectories levels tree path).fault = (tree.survey (path.base tree.home) names).2 := by
  -- Each level goes back by one name, so that the names before the last are those of the parent.
  induction names using List.reverseRecOn generalizing path levels with
  | nil =>
    rw [makeDirectories_base free steps]
    exact ⟨.none (by simp [survey]), rfl⟩
  | append_singleton names last ih =>
    have parentSteps : path.parent.parts = names := by rw [Path.parent, steps, List.dropLast_concat]
    by_cases present : ∀ found ∈ (tree.survey (path.base tree.home) names).1,
        tree.get? found = some .directory
    next => exact makeDirectories_present straight free steps present
    next =>
      -- Something is missing on the way: the directories above come first, then this one is tried again.
      have made : tree.makeDirectory path = .error .missing := by
        rw [makeDirectory_eq, locate_eq, free]
        dsimp only
        rw [steps, enter_concat (steps ▸ straight), if_neg present]
      obtain ⟨levels, rfl⟩ : ∃ fewer, levels = fewer + 1 := by
        apply Nat.exists_eq_succ_of_ne_zero
        rintro rfl
        have empty : names = [] := by simpa using enough
        simp [empty, survey] at present
      have fewer : names.length ≤ levels + 1 := by simpa using enough
      have above := ih straight.parent (Path.refusal_parent free) parentSteps fewer
      rw [show path.parent.base tree.home = path.base tree.home from rfl] at above
      rw [makeDirectories_above made]
      generalize makeDirectories levels tree path.parent = half at above
      obtain ⟨half, fault⟩ := half
      obtain ⟨adds, rfl⟩ := above
      cases stopped : (tree.survey (path.base tree.home) names).2 with
      | some fault =>
        cases tooLong_of_missing connected present stopped
        rw [survey_concat, stopped]
        exact ⟨adds, rfl⟩
      | none => exact attempt_above straight free steps adds stopped

/-- The directories that can be made on the way to a path, which may be there already, and what then
stands in the way. -/
def ahead (tree : FileTree) (path : Path) : List Place × Option FileFault :=
  match path.refusal with
  | some fault => ([], some fault)
  | none => tree.survey (path.base tree.home) path.parts

theorem ahead_noFile {found : Place} (member : found ∈ (tree.ahead path).1) (bytes : Bytes) :
    tree.get? found ≠ some (.file bytes) := by
  rw [ahead] at member
  split at member
  next => cases member
  next => exact (survey_places member).2.1 bytes

theorem ahead_within {found : Place} (straight : path.Straight) (member : found ∈ (tree.ahead path).1) :
    found <+: path.place tree.home := by
  rw [ahead] at member
  split at member
  next => cases member
  next =>
    rw [straight.place]
    exact (survey_places member).1.2.2

theorem makeDirectories_eq {levels : Nat} (connected : tree.Connected) (straight : path.Straight)
    (enough : path.parts.length ≤ levels + 1) :
    Adds tree (tree.ahead path).1 (makeDirectories levels tree path).tree ∧
      (makeDirectories levels tree path).fault = (tree.ahead path).2 := by
  rw [ahead]
  cases refused : path.refusal with
  | some fault =>
    have located : tree.locate path = .error fault := by rw [locate_eq, refused]
    rw [makeDirectories_unlocated (Path.refusal_named refused) located]
    exact ⟨.none (by simp), rfl⟩
  | none => exact makeDirectories_survey connected straight refused rfl enough

end Making

/-- Trees that the directories of a path and the file there cannot tell apart: only directories differ
above it, and nothing at its place. -/
structure Alike (path : Path) (tree other : FileTree) : Prop where
  home : other.home = tree.home
  files : ∀ found, found <+: path.parent.place tree.home → ∀ bytes,
    tree.get? found = some (.file bytes) ↔ other.get? found = some (.file bytes)
  target : other.get? (path.place tree.home) = tree.get? (path.place tree.home)

theorem ahead_alike {other : FileTree} (straight : path.Straight) (alike : Alike path tree other) :
    other.ahead path.parent = tree.ahead path.parent := by
  rw [ahead, ahead, alike.home]
  cases path.parent.refusal with
  | some fault => rfl
  | none =>
    refine (survey_congr fun found _ within => ?_).symm
    rw [← straight.parent.place] at within
    exact alike.files found within

def saveFault (tree : FileTree) (path : Path) : Option FileFault :=
  match (tree.ahead path.parent).2 with
  | some fault => some fault
  | none =>
    match path.spot tree.home with
    | .error fault => some fault
    | .ok place =>
      if tree.get? place = some .directory ∨ place ∈ (tree.ahead path.parent).1 then some .isDirectory
      else none

theorem saveFault_alike {other : FileTree} (straight : path.Straight) (alike : Alike path tree other) :
    other.saveFault path = tree.saveFault path := by
  rw [saveFault, saveFault, ahead_alike straight alike, alike.home]
  cases (tree.ahead path.parent).2 with
  | some fault => rfl
  | none =>
    cases found : path.spot tree.home with
    | error fault => rfl
    | ok place => simp only [Path.spot_ok found, alike.target]

theorem locate_made (straight : path.Straight) (adds : Adds tree (tree.ahead path.parent).1 after)
    (clear : (tree.ahead path.parent).2 = none) : after.locate path = path.spot tree.home := by
  rw [Path.spot]
  cases free : path.refusal with
  | some fault => rw [locate_eq, free]
  | none =>
    rcases List.eq_nil_or_concat path.parts with arrived | ⟨names, last, steps⟩
    next =>
      rw [locate_eq, free, adds.home, arrived, straight.place, arrived]
      simp [enter]
    next =>
      rw [List.concat_eq_append] at steps
      have inner : tree.ahead path.parent = tree.survey (path.base tree.home) names := by
        rw [ahead, Path.refusal_parent free, Path.parent, steps, List.dropLast_concat, Path.base, Path.base]
      rw [inner] at adds clear
      have same : after.survey (path.base tree.home) names = tree.survey (path.base tree.home) names :=
        survey_congr fun found _ _ bytes => adds.file_iff.symm
      have located := @locate_last after _ _ _ free straight steps
        (by rw [adds.home, same, clear])
        (by
          rw [adds.home, same]
          exact fun found member =>
            (adds.directory_iff fun _ there => (survey_places there).2.1).mpr (.inr member))
      rw [located, adds.home, steps, List.getLast?_concat, straight.place, steps, List.append_assoc]

theorem write_eq (tree : FileTree) (path : Path) (bytes : Bytes) :
    tree.write path bytes = match tree.locate path with
      | .ok spot =>
        if tree.get? spot = some .directory then .error .isDirectory
        else .ok (tree.put spot (.file bytes))
      | .error fault => .error fault := by
  rw [write]
  cases tree.locate path with
  | error fault => rfl
  | ok spot =>
    cases there : tree.get? spot with
    | none => simp [there, bind, Except.bind]; rfl
    | some entry => cases entry <;> simp [there, bind, Except.bind] <;> rfl

theorem save_eq (connected : tree.Connected) (straight : path.Straight) (bytes : Bytes) :
    ∃ middle, Adds tree (tree.ahead path.parent).1 middle ∧
      (tree.save path bytes).fault = tree.saveFault path ∧
      (tree.save path bytes).tree =
        if tree.saveFault path = none then middle.put (path.place tree.home) (.file bytes) else middle := by
  have enough : path.parent.parts.length ≤ path.parts.length + 1 := by
    rw [Path.parent, List.length_dropLast]
    omega
  obtain ⟨adds, ended⟩ := makeDirectories_eq connected straight.parent enough
  refine ⟨_, adds, ?_⟩
  rw [save, saveFault, ended]
  cases clear : (tree.ahead path.parent).2 with
  | some fault => simp
  | none =>
    have located := locate_made straight adds clear
    simp only [write_eq, located]
    cases found : path.spot tree.home with
    | error fault => simp
    | ok place =>
      rw [Path.spot_ok found]
      simp only [adds.directory_iff fun found member => ahead_noFile member]
      by_cases occupied : tree.get? (path.place tree.home) = some .directory ∨
          path.place tree.home ∈ (tree.ahead path.parent).1
      next => simp [occupied]
      next => simp [occupied]

theorem free_of_saveFault (clear : tree.saveFault path = none) :
    (tree.ahead path.parent).2 = none ∧ path.refusal = none ∧
      tree.get? (path.place tree.home) ≠ some .directory ∧
      path.place tree.home ∉ (tree.ahead path.parent).1 := by
  rw [saveFault] at clear
  split at clear
  next => cases clear
  next passable =>
    cases found : path.spot tree.home with
    | error fault => simp [found] at clear
    | ok place =>
      rw [found] at clear
      rw [Path.spot_ok found] at clear
      have free : path.refusal = none := by
        by_contra refused
        obtain ⟨fault, refused⟩ := Option.ne_none_iff_exists'.mp refused
        simp [Path.spot, refused] at found
      simp only [ite_eq_right_iff, reduceCtorEq, imp_false, not_or] at clear
      exact ⟨passable, free, clear⟩

theorem save_entries (connected : tree.Connected) (straight : path.Straight) (bytes : Bytes)
    (place : Place) :
    (tree.save path bytes).tree.get? place =
      if tree.saveFault path = none ∧ place = path.place tree.home then some (.file bytes)
      else (tree.get? place).or (if place ∈ (tree.ahead path.parent).1 then some .directory else none) := by
  obtain ⟨middle, adds, -, left⟩ := save_eq connected straight bytes
  rw [left, ← adds.entries]
  by_cases clear : tree.saveFault path = none
  next =>
    rw [if_pos clear]
    by_cases same : place = path.place tree.home
    next =>
      have free := (free_of_saveFault clear).2.2.1
      have down : middle.isAbove (path.place tree.home) = false := by
        rw [isAbove_congr adds.home, down_of_get? free]
      rw [if_pos ⟨clear, same⟩, same, get?_put_self down]
    next => rw [if_neg fun both => same both.2, get?_put_other same]
  next => rw [if_neg clear, if_neg fun both => clear both.1]

theorem Connected.adds {places : List Place} (connected : tree.Connected) (adds : Adds tree places after)
    (noFile : ∀ found ∈ places, ∀ bytes, tree.get? found ≠ some (.file bytes))
    (within : ∀ found ∈ places, tree.get? found.dropLast = some .directory ∨ found.dropLast ∈ places) :
    after.Connected := by
  intro place entry there
  rw [adds.directory_iff noFile]
  rw [adds.entries] at there
  cases before : tree.get? place with
  | some entry => exact .inl (connected place entry before)
  | none =>
    have member : place ∈ places := by
      by_contra absent
      simp [before, absent] at there
    exact within place member

theorem Connected.put {bytes : Bytes} (connected : tree.Connected)
    (within : tree.get? place.dropLast = some .directory) (free : tree.get? place ≠ some .directory) :
    (tree.put place (.file bytes)).Connected := by
  intro found entry there
  have apart : tree.get? found.dropLast = some .directory := by
    by_cases same : found = place
    next => rw [same, within]
    next =>
      rw [get?_put_other same] at there
      exact connected found entry there
  rw [get?_put_other]
  next => exact apart
  next =>
    rintro same
    exact free (same ▸ apart)

theorem survey_end {names : List (List Char)} (clear : (tree.survey place names).2 = none) :
    names = [] ∨ place ++ names ∈ (tree.survey place names).1 := by
  induction names generalizing place with
  | nil => exact .inl rfl
  | cons name rest ih =>
    right
    rcases survey_cases tree place name rest with ⟨-, same⟩ | ⟨-, ⟨_, -, same⟩ | ⟨-, same⟩⟩
    next => simp [same] at clear
    next => simp [same] at clear
    next =>
      rw [same] at clear ⊢
      rcases ih clear with rfl | member
      next => simp
      next => exact List.mem_cons_of_mem _ (by simpa using member)

-- Whatever comes of it, a file is saved in a directory, and so are the directories made for it.
theorem save_connected (connected : tree.Connected) (straight : path.Straight) (bytes : Bytes) :
    (tree.save path bytes).tree.Connected := by
  obtain ⟨middle, adds, -, left⟩ := save_eq connected straight bytes
  -- First the tree with the directories made, then the file in it.
  have between : middle.Connected := by
    apply connected.adds adds fun found member => ahead_noFile member
    intro found member
    rw [ahead] at member ⊢
    split at member
    next => cases member
    next =>
      apply (survey_places member).2.2.imp_left
      intro first
      rw [first]
      exact get?_above (tree.base_isAbove path.parent)
  rw [left]
  split
  next clear =>
    obtain ⟨passable, free, target, absent⟩ := free_of_saveFault clear
    apply between.put
    next =>
      have more : path.parts ≠ [] := by
        intro arrived
        apply target
        rw [straight.place, arrived, List.append_nil]
        exact get?_above (tree.base_isAbove path)
      have inner : (path.place tree.home).dropLast = path.parent.place tree.home := by
        rw [straight.place, straight.parent.place, List.dropLast_append_of_ne_nil more]
        rfl
      rw [inner, adds.directory_iff fun found member => ahead_noFile member, straight.parent.place]
      rw [ahead, Path.refusal_parent free] at passable ⊢
      rcases survey_end passable with empty | member
      next =>
        rw [empty, List.append_nil]
        exact .inl (get?_above (tree.base_isAbove path.parent))
      next => exact .inr member
    next =>
      rw [ne_eq, adds.directory_iff fun found member => ahead_noFile member, not_or]
      exact ⟨target, absent⟩
  next => exact between

end FileTree

end Specializer
