import Specializer.Files.Tree

set_option autoImplicit false

namespace Specializer

structure CharSet where
  negated : Bool
  ranges : List (Char × Char)
deriving DecidableEq, Repr

def CharSet.contains (set : CharSet) (c : Char) : Bool :=
  (set.ranges.any fun range => range.1.toNat ≤ c.toNat && c.toNat ≤ range.2.toNat) != set.negated

namespace CharSet

/-- Cuts the inside of brackets at the hyphens of ranges: one that has `start` characters before it
can be such a hyphen, and the next one only after the end of the range. -/
def chunks : Nat → (start : Nat) → List Char → List (List Char)
  | 0, _, text => [text]
  | n + 1, start, text =>
    let more := (text.drop start).takeWhile (· != '-')
    match (text.drop start).drop more.length with
    | [] => [text]
    | [_] => [text.take start ++ more ++ ['-']]
    | _ :: rest => (text.take start ++ more) :: chunks n 2 rest

/-- Joins two chunks whose ends make no range because they are the wrong way round; both go. -/
def joinChunk (chunk : List Char) : List (List Char) → List (List Char)
  | [] => [chunk]
  | next :: rest =>
    match chunk.getLast?, next.head? with
    | some a, some b =>
      if b.toNat < a.toNat then (chunk.dropLast ++ next.tail) :: rest else chunk :: next :: rest
    | _, _ => chunk :: next :: rest

def rangesOf : (continued : Bool) → List (List Char) → List (Char × Char)
  | _, [] => []
  | continued, [chunk] => (if continued then chunk.tail else chunk).map fun c => (c, c)
  | continued, chunk :: next :: rest =>
    let inner := (if continued then chunk.tail else chunk).dropLast.map fun c => (c, c)
    let range := match chunk.getLast?, next.head? with
      | some a, some b => [(a, b)]
      | _, _ => []
    inner ++ range ++ rangesOf true (next :: rest)

def parse (text : List Char) : CharSet :=
  let start := if text.head? = some '!' then 2 else 1
  let joined := (chunks text.length start text).foldr joinChunk []
  match joined with
  | ('!' :: chunk) :: rest => ⟨true, rangesOf false (chunk :: rest)⟩
  | _ => ⟨false, rangesOf false joined⟩

end CharSet

namespace Glob

inductive Item
  | star
  | one
  | set (set : CharSet)
  | char (c : Char)
deriving DecidableEq, Repr

def bracketed? (text : List Char) : Option (List Char × List Char) :=
  let mark := if text.head? = some '!' then 1 else 0
  let front := if (text.drop mark).head? = some ']' then mark + 1 else mark
  let inside := front + ((text.drop front).takeWhile (· != ']')).length
  match text.drop inside with
  | [] => none
  | _ :: rest => some (text.take inside, rest)

def items : Nat → List Char → List Item
  | 0, _ => []
  | _, [] => []
  | n + 1, c :: rest =>
    if c = '*' then .star :: items n rest
    else if c = '?' then .one :: items n rest
    else if c = '[' then
      match bracketed? rest with
      | some (inside, rest) => .set (CharSet.parse inside) :: items n rest
      | none => .char '[' :: items n rest
    else .char c :: items n rest

def anySuffix (test : List Char → Bool) : List Char → Bool
  | [] => test []
  | c :: rest => test (c :: rest) || anySuffix test rest

def fits : List Item → List Char → Bool
  | [], text => text.isEmpty
  | .star :: more, text => anySuffix (fits more) text
  | .one :: more, _ :: text => fits more text
  | .set set :: more, c :: text => set.contains c && fits more text
  | .char d :: more, c :: text => c == d && fits more text
  | _ :: _, [] => false

inductive Part
  | anyDirectories
  | pattern (items : List Item)
  | exact (name : List Char)
deriving DecidableEq, Repr

inductive Fault
  | empty
  | absolute
  | starsInside
  | noParts
  | onlySlash
deriving DecidableEq, Repr

def isPattern (part : List Char) : Bool := part.any fun c => c == '*' || c == '?' || c == '['

def hasDoubleStar : List Char → Bool
  | '*' :: '*' :: _ => true
  | _ :: rest => hasDoubleStar rest
  | [] => false

def part (text : List Char) : Except Fault Part :=
  if text = ['*', '*'] then .ok .anyDirectories
  else if hasDoubleStar text then .error .starsInside
  else if isPattern text then .ok (.pattern (items text.length text))
  else .ok (.exact text)

end Glob

structure Glob where
  parts : List Glob.Part
  onlyDirectories : Bool
deriving DecidableEq, Repr

namespace Glob

def parse (text : List Char) : Except Fault Glob := do
  let path := Path.parse text
  let onlyDirectories := text.getLast? = some '/'
  if text.isEmpty then throw .empty
  if !path.root.isEmpty then throw .absolute
  if path.parts.isEmpty then throw (if onlyDirectories then .onlySlash else .noParts)
  let parts ← path.parts.mapM part
  pure ⟨parts, onlyDirectories⟩

section

variable (tree : FileTree)

def childrenOf (path : Path) : List (List Char) :=
  match tree.locate path with
  | .ok place => tree.children place
  | .error _ => []

def directoriesFrom (path : Path) : List Path :=
  match tree.locate path with
  | .ok place => path :: (tree.directoriesBelow place).map fun names =>
      ⟨path.root, path.parts ++ names⟩
  | .error _ => []

def select (onlyDirectories : Bool) : List Part → Path → Except FileFault (List Path)
  | [], path => .ok [path]
  | .exact name :: rest, path => do
    let next := path.child name
    let found ← if rest.isEmpty && !onlyDirectories then tree.isPresent next
      else tree.isDirectory next
    if found then select onlyDirectories rest next else pure []
  | .pattern items :: rest, path => do
    let found ← (childrenOf tree path).mapM fun name => do
      let next := path.child name
      let chosen ← if !fits items name then pure false
        else if rest.isEmpty && !onlyDirectories then pure true
        else tree.isDirectory next
      if chosen then select onlyDirectories rest next else pure []
    pure found.flatten
  | .anyDirectories :: rest, path => do
    let found ← (directoriesFrom tree path).mapM (select onlyDirectories rest)
    pure found.flatten

end

def expand (glob : Glob) (tree : FileTree) (directory : Path) : Except FileFault (List Path) := do
  if ← tree.isDirectory directory then
    return Path.sortDistinct (← select tree glob.onlyDirectories glob.parts directory)
  return []

end Glob

end Specializer
