import Specializer.Files.Path
import Specializer.Text.Integer
import Specializer.Text.Quoted

set_option autoImplicit false

namespace Specializer.CommandLine

inductive Switch
  | help | keyType | valueType | out | all | outputDir | manifest | jobs | dumpTokens | dumpTree
  | dumpEdits | trace | version
deriving DecidableEq, Repr

namespace Switch

def every : List Switch :=
  [help, keyType, valueType, out, all, outputDir, manifest, jobs, dumpTokens, dumpTree, dumpEdits,
   trace, version]

def spellings : Switch → List String
  | help => ["-h", "--help"]
  | keyType => ["--ktype"]
  | valueType => ["--vtype"]
  | out => ["-o", "--out"]
  | all => ["--all"]
  | outputDir => ["--output-dir"]
  | manifest => ["--manifest"]
  | jobs => ["-j", "--jobs"]
  | dumpTokens => ["--dump-tokens"]
  | dumpTree => ["--dump-tree"]
  | dumpEdits => ["--dump-ops"]
  | trace => ["--traceback"]
  | version => ["--version"]

def title (switch : Switch) : String := String.intercalate "/" switch.spellings

def takesValue : Switch → Bool
  | keyType | valueType | out | outputDir | manifest | jobs => true
  | _ => false

def table : List (List Char × Switch) :=
  every.flatMap fun switch => switch.spellings.map fun spelling => (spelling.toList, switch)

end Switch

/-- A value that stands in the same argument as its option, behind an equals sign or right behind
the option's letter; `byLetter` says whether the option is spelled with its letter. -/
structure Attached where
  text : List Char
  byLetter : Bool
deriving DecidableEq, Repr

inductive Given (α : Type)
  | value (a : α)
  | blank
deriving DecidableEq, Repr

def Attached.given (attached : Attached) : Given (List Char) :=
  if attached.text = ['-', '-'] then .blank else .value attached.text

def Given.text : Given (List Char) → List Char
  | value text => text
  | blank => []

inductive Word
  | plain (text : List Char)
  | divider
  | option (switch : Switch) (value : Option Attached)
  | unknown (text : List Char)
deriving DecidableEq, Repr

inductive UsageFault
  | ambiguous (text : List Char) (candidates : List (List Char))
  | missingValue (switch : Switch)
  | surplusValue (switch : Switch) (text : List Char)
  | badInteger (switch : Switch) (text : List Char)
  | unrecognized (words : List (List Char))
deriving DecidableEq, Repr

namespace UsageFault

private def about (switch : Switch) (message : String) : String :=
  "argument " ++ switch.title ++ ": " ++ message

def message : UsageFault → String
  | ambiguous text candidates =>
    "ambiguous option: " ++ String.ofList text ++ " could match " ++
      String.intercalate ", " (candidates.map String.ofList)
  | missingValue switch => about switch "expected one argument"
  | surplusValue switch text =>
    about switch ("ignored explicit argument " ++ String.ofList (quoted text))
  | badInteger switch text => about switch ("invalid int value: " ++ String.ofList (quoted text))
  | unrecognized words =>
    "unrecognized arguments: " ++ String.intercalate " " (words.map String.ofList)

end UsageFault

def cutAtEquals (text : List Char) : List Char × Option (List Char) :=
  match text.dropWhile (· != '=') with
  | [] => (text, none)
  | _ :: rest => (text.takeWhile (· != '='), some rest)

def candidates (text : List Char) : List (List Char × Word) :=
  if ['-', '-'].isPrefixOf text then
    let (front, value) := cutAtEquals text
    Switch.table.filterMap fun (spelling, switch) =>
      if front.isPrefixOf spelling then
        some (spelling, .option switch (value.map fun value => ⟨value, false⟩))
      else none
  else
    Switch.table.filterMap fun (spelling, switch) =>
      if spelling = text.take 2 then
        some (spelling, .option switch (some ⟨text.drop 2, true⟩))
      else none

def isNegativeNumber : List Char → Bool
  | '-' :: rest =>
    let text := if rest.getLast? = some '\n' then rest.dropLast else rest
    match text.dropWhile isDecimal with
    | [] => !text.isEmpty
    | '.' :: places => !places.isEmpty && places.all isDecimal
    | _ => false
  | _ => false

def classify (text : List Char) : Except UsageFault Word :=
  if text.head? != some '-' then .ok (.plain text)
  else
    match Switch.table.lookup text with
    | some switch => .ok (.option switch none)
    | none =>
      if text.length = 1 then .ok (.plain text)
      else
        let (front, value) := cutAtEquals text
        match value, Switch.table.lookup front with
        | some value, some switch => .ok (.option switch (some ⟨value, front.length = 2⟩))
        | _, _ =>
          match candidates text with
          | [(_, word)] => .ok word
          | [] =>
            if isNegativeNumber text || text.contains ' ' then .ok (.plain text)
            else .ok (.unknown text)
          | several => .error (.ambiguous text (several.map Prod.fst))

def classifyAll : List (List Char) → Except UsageFault (List Word)
  | [] => .ok []
  | text :: rest =>
    if text = ['-', '-'] then .ok (.divider :: rest.map .plain)
    else do
      let word ← classify text
      let words ← classifyAll rest
      pure (word :: words)

structure Settings where
  source : Option (List Char)
  keyType : Option (Given (List Char))
  valueType : Option (Given (List Char))
  out : Option (List Char)
  all : Bool
  outputDir : Option (List Char)
  manifest : Option (List Char)
  jobs : Option (Given Int)
  dumpTokens : Bool
  dumpTree : Bool
  dumpEdits : Bool
  trace : Bool
deriving DecidableEq, Repr

namespace Settings

def empty : Settings :=
  ⟨none, none, none, none, false, none, none, none, false, false, false, false⟩

def enable (settings : Settings) : Switch → Settings
  | .all => { settings with all := true }
  | .dumpTokens => { settings with dumpTokens := true }
  | .dumpTree => { settings with dumpTree := true }
  | .dumpEdits => { settings with dumpEdits := true }
  | .trace => { settings with trace := true }
  | _ => settings

def assign (settings : Settings) (switch : Switch) (given : Given (List Char)) :
    Except UsageFault Settings :=
  match switch with
  | .keyType => .ok { settings with keyType := some given }
  | .valueType => .ok { settings with valueType := some given }
  | .out => .ok { settings with out := some given.text }
  | .outputDir => .ok { settings with outputDir := some given.text }
  | .manifest => .ok { settings with manifest := some given.text }
  | .jobs =>
    match given with
    | .blank => .ok { settings with jobs := some .blank }
    | .value text =>
      match readInteger? text with
      | some n => .ok { settings with jobs := some (.value n) }
      | none => .error (.badInteger .jobs text)
  | _ => .ok settings

end Settings

inductive Request
  | run (settings : Settings)
  | help
  | version
deriving DecidableEq, Repr

structure Intake where
  settings : Settings
  hasSource : Bool
  sourceLast : Bool
  surplus : List (List Char)

namespace Intake

def empty : Intake := ⟨.empty, false, false, []⟩

def takePlain (intake : Intake) (text : List Char) : Intake :=
  if intake.hasSource then
    { intake with sourceLast := false, surplus := intake.surplus ++ [text] }
  else
    { intake with
      settings := { intake.settings with source := some text }
      hasSource := true
      sourceLast := true }

def takeDivider (intake : Intake) : Intake :=
  if intake.hasSource && !intake.sourceLast then intake.takePlain ['-', '-']
  else { intake with sourceLast := false }

def takeUnknown (intake : Intake) (text : List Char) : Intake :=
  { intake with sourceLast := false, surplus := intake.surplus ++ [text] }

def takeOption (intake : Intake) (settings : Settings) : Intake :=
  { intake with settings := settings, sourceLast := false }

end Intake

/-- Checks the letters behind the one that asks for help, each an option of its own, and the words
behind them. What follows the letter of an option that takes a value is its value, or else the next
word is; a letter that is no option makes a value of what is left, and help takes none. -/
def checkLetters (rest : List Word) : List Char → Except UsageFault Unit
  | [] => .ok ()
  | letter :: more =>
    match Switch.table.lookup ['-', letter] with
    | none => .error (.surplusValue .help (letter :: more))
    | some switch =>
      if switch.takesValue then
        match more, rest with
        | [], .plain _ :: _ => .ok ()
        | [], _ => .error (.missingValue switch)
        | _ :: _, _ => .ok ()
      else checkLetters rest more

def take : Intake → List Word → Except UsageFault Request
  | intake, [] =>
    if intake.surplus.isEmpty then .ok (.run intake.settings)
    else .error (.unrecognized intake.surplus)
  | intake, .plain text :: rest => take (intake.takePlain text) rest
  | intake, .divider :: rest => take intake.takeDivider rest
  | intake, .unknown text :: rest => take (intake.takeUnknown text) rest
  | intake, .option switch (some value) :: rest =>
    if switch.takesValue then
      match intake.settings.assign switch value.given with
      | .ok settings => take (intake.takeOption settings) rest
      | .error fault => .error fault
    else if value.byLetter && !value.text.isEmpty then
      match checkLetters rest value.text with
      | .ok () => .ok .help
      | .error fault => .error fault
    else .error (.surplusValue switch value.text)
  | intake, .option switch none :: rest =>
    if switch.takesValue then
      match rest with
      | .plain text :: rest =>
        match intake.settings.assign switch (.value text) with
        | .ok settings => take (intake.takeOption settings) rest
        | .error fault => .error fault
      | _ => .error (.missingValue switch)
    else if switch = .help then .ok .help
    else if switch = .version then .ok .version
    else take (intake.takeOption (intake.settings.enable switch)) rest

def parse (arguments : List (List Char)) : Except UsageFault Request := do
  take .empty (← classifyAll arguments)

end Specializer.CommandLine
