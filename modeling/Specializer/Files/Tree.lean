import Specializer.Files.Path

set_option autoImplicit false

namespace Specializer

inductive FileFault
  | missing | occupied | notDirectory | isDirectory | tooLong | nullInPath
deriving DecidableEq, Repr

def FileFault.reason : FileFault → String
  | missing => "No such file or directory"
  | occupied => "File exists"
  | notDirectory => "Not a directory"
  | isDirectory => "Is a directory"
  | tooLong => "File name too long"
  | nullInPath => "Null character in path"

abbrev Bytes := List UInt8

inductive FileEntry
  | file (bytes : Bytes)
  | directory
deriving DecidableEq

def charBytes (c : Char) : Nat :=
  if c.toNat < 0x80 then 1 else if c.toNat < 0x800 then 2 else if c.toNat < 0x10000 then 3 else 4

def byteCount : List Char → Nat
  | [] => 0
  | c :: rest => charBytes c + byteCount rest

def nameLimit : Nat := 255

def pathLimit : Nat := 4095

/-- The names that lead to something from the root. None of them goes up. -/
abbrev Place := List (List Char)

namespace Place

def step (place : Place) (name : List Char) : Place :=
  if name = Path.up then place.dropLast else place ++ [name]

def below? (place other : Place) : Option (List (List Char)) :=
  let names := other.drop place.length
  if place.isPrefixOf other && !names.isEmpty then some names else none

def path (place : Place) (home : Path) : Path :=
  match below? home.parts place with
  | some names => ⟨[], names⟩
  | none => ⟨['/'], place⟩

end Place

def Path.base (path home : Path) : Place := if path.root.isEmpty then home.parts else []

-- Of what is not below the working directory the tree knows only what was put there, and that the
-- directories above are directories.
structure FileTree where
  home : Path
  entries : List (Place × FileEntry)

namespace FileTree

variable (tree : FileTree)

def isAbove (place : Place) : Bool := place.isPrefixOf tree.home.parts

def get? (place : Place) : Option FileEntry :=
  if tree.isAbove place then some .directory else tree.entries.lookup place

def put (place : Place) (entry : FileEntry) : FileTree :=
  { tree with
    entries := tree.entries.filter (fun other => other.1 != place) ++ [(place, entry)] }

/-- The place that names lead to, whether something stands there or not; all before the last has to
be directories. -/
def enter (place : Place) : List (List Char) → Except FileFault Place
  | [] => .ok place
  | name :: rest =>
    if nameLimit < byteCount name then .error .tooLong
    else
      let next := place.step name
      if rest.isEmpty then .ok next
      else
        match tree.get? next with
        | none => .error .missing
        | some (.file _) => .error .notDirectory
        | some .directory => enter next rest

def locate (path : Path) : Except FileFault Place :=
  if path.toText.contains '\x00' then .error .nullInPath
  else if pathLimit < byteCount path.toText then .error .tooLong
  else tree.enter (path.base tree.home) path.parts

/-- What stands at a path. Nothing does where no directory leads, but of a path that is too long the
file system does not say. -/
def find? (path : Path) : Except FileFault (Option FileEntry) :=
  match tree.locate path with
  | .ok place => .ok (tree.get? place)
  | .error .tooLong => .error .tooLong
  | .error _ => .ok none

def isPresent (path : Path) : Except FileFault Bool := do
  pure (← tree.find? path).isSome

def isDirectory (path : Path) : Except FileFault Bool := do
  pure ((← tree.find? path) == some .directory)

def isFile (path : Path) : Except FileFault Bool := do
  match ← tree.find? path with
  | some (.file _) => pure true
  | _ => pure false

def read (path : Path) : Except FileFault Bytes := do
  let place ← tree.locate path
  match tree.get? place with
  | none => throw .missing
  | some .directory => throw .isDirectory
  | some (.file bytes) => pure bytes

def write (path : Path) (bytes : Bytes) : Except FileFault FileTree := do
  let place ← tree.locate path
  match tree.get? place with
  | some .directory => throw .isDirectory
  | _ => pure (tree.put place (.file bytes))

def makeDirectory (path : Path) : Except FileFault FileTree := do
  let place ← tree.locate path
  match tree.get? place with
  | some _ => throw .occupied
  | none => pure (tree.put place .directory)

/-- What a path's directories come to: the tree with as many of them as could be made, and why the
rest could not. -/
structure Made where
  tree : FileTree
  fault : Option FileFault

def makeDirectories : Nat → FileTree → Path → Made
  | levels, tree, path =>
    let settle (tree : FileTree) (fault : FileFault) : Made :=
      match tree.isDirectory path with
      | .ok true => ⟨tree, none⟩
      | .ok false => ⟨tree, some fault⟩
      | .error fault => ⟨tree, some fault⟩
    match tree.makeDirectory path with
    | .ok tree => ⟨tree, none⟩
    | .error .missing =>
      match levels with
      | 0 => ⟨tree, some .missing⟩
      | levels + 1 =>
        let above := makeDirectories levels tree path.parent
        match above.fault with
        | some fault => ⟨above.tree, some fault⟩
        | none =>
          match above.tree.makeDirectory path with
          | .ok tree => ⟨tree, none⟩
          | .error .missing => ⟨above.tree, some .missing⟩
          | .error fault => settle above.tree fault
    | .error fault => settle tree fault

def save (path : Path) (bytes : Bytes) : Made :=
  let made := makeDirectories path.parts.length tree path.parent
  match made.fault with
  | some fault => ⟨made.tree, some fault⟩
  | none =>
    match made.tree.write path bytes with
    | .ok tree => ⟨tree, none⟩
    | .error fault => ⟨made.tree, some fault⟩

def known : List (Place × FileEntry) :=
  let depths := List.range (tree.home.parts.length + 1)
  depths.map (fun depth => (tree.home.parts.take depth, .directory)) ++ tree.entries

def children (place : Place) : List (List Char) :=
  tree.known.filterMap fun entry =>
    match place.below? entry.1 with
    | some [name] => some name
    | _ => none

def directoriesBelow (place : Place) : List (List (List Char)) :=
  tree.known.filterMap fun entry =>
    if entry.2 == .directory then place.below? entry.1 else none

def newDirectories (before after : FileTree) : List (List Char) :=
  after.entries.filterMap fun entry =>
    if entry.2 == .directory && (before.get? entry.1).isNone then
      some (entry.1.path after.home).toText
    else none

def changes (before after : FileTree) : List (List Char × Bytes) :=
  let changed := after.entries.filterMap fun entry =>
    match entry.2 with
    | .directory => none
    | .file bytes =>
      if before.get? entry.1 == some (.file bytes) then none
      else some ((entry.1.path after.home).toText, bytes)
  sortBy (fun a b => textLe a.1 b.1) changed

end FileTree

end Specializer
