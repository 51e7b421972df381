import Specializer.Toml.Scalar

set_option autoImplicit false

namespace Specializer

/-- Changes the table that names lead to, by way of new tables where there are none. The last table
of a list stands for the list, if lists may be entered. -/
def Table.change? (lists : Bool) (change : Table → Option Table) :
    List (List Char) → Table → Option Table
  | [], table => change table
  | name :: names, table =>
    match table.lookup name with
    | none => (change? lists change names []).map fun inner => table ++ [(name, .table inner)]
    | some (.table inner) =>
      (change? lists change names inner).map fun inner => table.replace name (.table inner)
    | some (.list items) =>
      match items.getLast? with
      | some (.table inner) =>
        if lists then
          (change? lists change names inner).map fun inner =>
            table.replace name (.list (items.dropLast ++ [.table inner]))
        else none
      | _ => none
    | some _ => none

def Table.insert? (name : List Char) (value : Datum) (table : Table) : Option Table :=
  if (table.lookup name).isSome then none else some (table ++ [(name, value)])

def Table.append? (name : List Char) (table : Table) : Option Table :=
  match table.lookup name with
  | none => some (table ++ [(name, .list [.table []])])
  | some (.list items) => some (table.replace name (.list (items ++ [.table []])))
  | some _ => none

def Datum.isCompound : Datum → Bool
  | .list _ | .table _ => true
  | _ => false

namespace Toml

open Reader

def isFrozen (frozen : List Key) (key : Key) : Bool := frozen.any fun top => top.isPrefixOf key

def scalar : Reader Datum := do
  let text ← get
  match ← tryRead moment? with
  | some (some moment) => pure (.moment moment)
  | some none => set text; fail .badMoment
  | none =>
    match ← tryRead number? with
    | some (some datum) => pure datum
    | some none => set text; fail .tooManyDigits
    | none =>
      match ← tryRead wordNumber? with
      | some datum => pure datum
      | none => fail .badValue

mutual

def value : Nat → Reader Datum
  | 0 => fail .badValue
  | steps + 1 => do
    match ← peek with
    | some '\x22' => .text <$> quotedText '\x22'
    | some '\x27' => .text <$> quotedText '\x27'
    | some '[' =>
      skip 1
      skipGaps
      if ← accept [']'] then pure (.list []) else .list <$> items steps
    | some '\x7b' =>
      skip 1
      skipWhile isBlank
      if ← accept ['\x7d'] then pure (.table []) else .table <$> entries [] [] steps
    | _ =>
      if ← accept ['t', 'r', 'u', 'e'] then pure (.boolean true)
      else if ← accept ['f', 'a', 'l', 's', 'e'] then pure (.boolean false)
      else scalar

def items : Nat → Reader (List Datum)
  | 0 => fail .openList
  | steps + 1 => do
    let item ← value steps
    skipGaps
    if ← accept [']'] then pure [item]
    else if ← accept [','] then
      skipGaps
      if ← accept [']'] then pure [item]
      else
        let more ← items steps
        pure (item :: more)
    else fail .openList

def pair : Nat → Reader (Key × Datum)
  | 0 => fail .badValue
  | steps + 1 => do
    let name ← key
    if ← accept ['='] then
      skipWhile isBlank
      let datum ← value steps
      pure (name, datum)
    else fail .noEquals

def entries (table : Table) (frozen : List Key) : Nat → Reader Table
  | 0 => fail .openTable
  | steps + 1 => do
    let (name, datum) ← pair steps
    let last := name.getLast?.getD []
    if isFrozen frozen name then fail (.frozen name)
    let table ← match table.change? false some name.dropLast with
      | none => fail .overwritten
      | some table =>
        match table.change? false (Table.insert? last datum) name.dropLast with
        | none => fail (.repeatedKey last)
        | some table => pure table
    skipWhile isBlank
    if ← accept ['\x7d'] then pure table
    else if ← accept [','] then
      skipWhile isBlank
      entries table (if datum.isCompound then name :: frozen else frozen) steps
    else fail .openTable

end

/-- What has been read of a document: the table so far, the header that holds, the keys that no
header may open again, those that join them at the next header, and those closed to changes. -/
structure Draft where
  table : Table
  header : Key
  declared : List Key
  pending : List Key
  frozen : List Key

namespace Draft

def empty : Draft := ⟨[], [], [], [], []⟩

def settle (draft : Draft) : Draft :=
  { draft with declared := draft.pending ++ draft.declared, pending := [] }

def openTable (draft : Draft) (name : Key) : Except Reason Draft :=
  if draft.declared.contains name || isFrozen draft.frozen name then
    .error (.declaredTwice name)
  else
    match draft.table.change? true some name with
    | none => .error .overwritten
    | some table =>
      .ok { draft with table := table, header := name, declared := name :: draft.declared }

/-- Opens a further table of a list. What was said of keys below the list was said of tables
before. -/
def openListTable (draft : Draft) (name : Key) : Except Reason Draft :=
  if isFrozen draft.frozen name then .error (.frozen name)
  else
    match draft.table.change? true (Table.append? (name.getLast?.getD [])) name.dropLast with
    | none => .error .overwritten
    | some table =>
      let others := fun (other : Key) => !name.isPrefixOf other
      .ok { draft with
        table := table
        header := name
        declared := name :: draft.declared.filter others
        frozen := draft.frozen.filter others }

def setValue (draft : Draft) (name : Key) (datum : Datum) : Except Reason Draft :=
  let inner := (List.range (name.length - 1)).map fun n => draft.header ++ name.take (n + 1)
  let parent := draft.header ++ name.dropLast
  match inner.find? draft.declared.contains with
  | some key => .error (.redefined key)
  | none =>
    if isFrozen draft.frozen parent then .error (.frozen parent)
    else
      match draft.table.change? true (Table.insert? (name.getLast?.getD []) datum) parent with
      | none => .error .overwritten
      | some table =>
        let full := draft.header ++ name
        .ok { draft with
          table := table
          pending := inner ++ draft.pending
          frozen := if datum.isCompound then full :: draft.frozen else draft.frozen }

end Draft

def orFail {α : Type} : Except Reason α → Reader α
  | .ok value => pure value
  | .error reason => fail reason

def statement (draft : Draft) : Reader Draft := do
  match ← peek with
  | some '#' => pure draft
  | some '[' =>
    if ← accept ['[', '['] then
      skipWhile isBlank
      let name ← key
      let draft ← orFail (draft.settle.openListTable name)
      if ← accept [']', ']'] then pure draft else fail .openListHeader
    else
      skip 1
      skipWhile isBlank
      let name ← key
      let draft ← orFail (draft.settle.openTable name)
      if ← accept [']'] then pure draft else fail .openHeader
  | some c =>
    if isKeyStart c then
      let (name, datum) ← pair ((← get).length + 1)
      orFail (draft.setValue name datum)
    else fail .badStatement
  | none => fail .badStatement

def statements : Nat → Draft → Reader Draft
  | 0, draft => pure draft
  | lines + 1, draft => do
    skipWhile isBlank
    match ← peek with
    | none => pure draft
    | some '\n' =>
      skip 1
      statements lines draft
    | some _ =>
      let draft ← statement draft
      skipWhile isBlank
      skipComment
      match ← peek with
      | none => pure draft
      | some '\n' =>
        skip 1
        statements lines draft
      | some _ => fail .badLineEnd

structure Fault where
  reason : Reason
  place : Option (Nat × Nat)
deriving DecidableEq, Repr

def Fault.message (fault : Fault) : String :=
  fault.reason.message ++ " (at " ++
    (match fault.place with
      | some (line, column) => "line " ++ toString line ++ ", column " ++ toString column
      | none => "end of document") ++ ")"

def placeOf (text : List Char) (left : Nat) : Option (Nat × Nat) :=
  if left = 0 then none
  else
    let before := text.take (text.length - left)
    some (before.count '\n' + 1, (before.reverse.takeWhile (· != '\n')).length + 1)

def joinLineEnds : List Char → List Char
  | '\r' :: '\n' :: rest => '\n' :: joinLineEnds rest
  | c :: rest => c :: joinLineEnds rest
  | [] => []

def parse (text : List Char) : Except Fault Table :=
  let text := joinLineEnds text
  match statements (text.length + 1) .empty text with
  | .ok (draft, _) => .ok draft.table
  | .error trouble => .error ⟨trouble.reason, placeOf text trouble.left⟩

end Toml

end Specializer
