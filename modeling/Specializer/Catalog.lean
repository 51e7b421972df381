import Specializer.Text.Quoted

set_option autoImplicit false

namespace Specializer

inductive Severity
  | error | warning
deriving DecidableEq, Repr

def Severity.label : Severity → String
  | .error => "error"
  | .warning => "warning"

inductive Category
  | template | unsupported | binding | erasure | driver | internal
deriving DecidableEq, Repr

def Category.label : Category → String
  | .template => "syntax"
  | .unsupported => "unsupported"
  | .binding => "binding"
  | .erasure => "erasure"
  | .driver => "driver"
  | .internal => "internal"

inductive Argument
  | text (value : String)
  | number (value : Int)
deriving DecidableEq, Repr

namespace Argument

def plain : Argument → String
  | text value => value
  | number value => toString value

def shown : Argument → String
  | text value => String.ofList (quoted value.toList)
  | number value => toString value

end Argument

abbrev Arguments := List (String × Argument)

inductive Part
  | fixed (text : String)
  | gap (key : String)
  | quotedGap (key : String)
deriving DecidableEq, Repr

namespace Part

def key? : Part → Option String
  | fixed _ => none
  | gap key | quotedGap key => some key

def pattern : Part → String
  | fixed text => text
  | gap key => "\x7b" ++ key ++ "\x7d"
  | quotedGap key => "\x7b" ++ key ++ "!r\x7d"

def fill (args : Arguments) : Part → String
  | fixed text => text
  | gap key => ((args.lookup key).map Argument.plain).getD ""
  | quotedGap key => ((args.lookup key).map Argument.shown).getD ""

end Part

structure Entry where
  severity : Severity
  category : Category
  parts : List Part
  doc : String
deriving Repr

def Entry.pattern (entry : Entry) : String := String.join (entry.parts.map Part.pattern)

inductive Code
  | unexpectedCharacter | unterminatedComment | unexpectedToken | unbalancedBracket
  | surplusSegments | placeholderArguments | missingRule
  | missingValue | surplusValue | unknownType
  | overlappingEdits | strayEdit
  | unreadableTemplate | badManifest | unwritableOutput | outputCollision
  | foreignArguments | primitiveArgument
deriving DecidableEq, Repr

namespace Code

def all : List Code :=
  [unexpectedCharacter, unterminatedComment, unexpectedToken, unbalancedBracket,
   surplusSegments, placeholderArguments, missingRule,
   missingValue, surplusValue, unknownType,
   overlappingEdits, strayEdit,
   unreadableTemplate, badManifest, unwritableOutput, outputCollision,
   foreignArguments, primitiveArgument]

def label : Code → String
  | unexpectedCharacter => "TE1001"
  | unterminatedComment => "TE1002"
  | unexpectedToken => "TE1003"
  | unbalancedBracket => "TE1004"
  | surplusSegments => "TE2001"
  | placeholderArguments => "TE2002"
  | missingRule => "TE2003"
  | missingValue => "TE3001"
  | surplusValue => "TE3002"
  | unknownType => "TE3003"
  | overlappingEdits => "TE4001"
  | strayEdit => "TE4002"
  | unreadableTemplate => "TE5001"
  | badManifest => "TE5002"
  | unwritableOutput => "TE5003"
  | outputCollision => "TE5004"
  | foreignArguments => "TW0001"
  | primitiveArgument => "TW0002"

def ofLabel? (label : String) : Option Code := all.find? fun code => code.label == label

def entry : Code → Entry
  | unexpectedCharacter => ⟨.error, .template,
    [.fixed "unexpected character ", .quotedGap "char"],
    "The lexer found a character that starts no token (stray '#', '\\', unterminated literal)."⟩
  | unterminatedComment => ⟨.error, .template,
    [.fixed "unterminated comment"],
    "A '/*' comment is never closed."⟩
  | unexpectedToken => ⟨.error, .template,
    [.fixed "expected ", .gap "expected", .fixed ", found ", .gap "found"],
    "The structural parser expected a different token here."⟩
  | unbalancedBracket => ⟨.error, .template,
    [.fixed "unbalanced '", .gap "bracket", .fixed "'"],
    "An opening bracket is never closed or a closing bracket has no opener."⟩
  | surplusSegments => ⟨.error, .unsupported,
    [.fixed "identifier '", .gap "name", .fixed "' has ", .gap "count",
     .fixed " placeholder segments but only ", .gap "slots", .fixed " slot(s) are available"],
    "A template identifier may carry at most one placeholder segment per slot."⟩
  | placeholderArguments => ⟨.error, .unsupported,
    [.fixed "placeholder '", .gap "name", .fixed "' cannot take type arguments"],
    "A bare placeholder is a type variable; 'KType<X>' has no specialization."⟩
  | missingRule => ⟨.error, .unsupported,
    [.fixed "no substitution rule for ", .gap "kind", .fixed " node"],
    "A recognized construct reached the engine without a rewrite rule."⟩
  | missingValue => ⟨.error, .binding,
    [.fixed "template uses '", .gap "placeholder", .fixed "' but the binding has no value for it"],
    "A two-slot template was specialized with a single-slot binding."⟩
  | surplusValue => ⟨.error, .binding,
    [.fixed "single-slot template cannot take a second binding (", .gap "vtype", .fixed ")"],
    "VType was bound for a template that only uses KType."⟩
  | unknownType => ⟨.error, .binding,
    [.fixed "unknown type '", .gap "name", .fixed "' (expected one of: ", .gap "choices",
     .fixed ")"],
    "Type names are 'generic' or a Java primitive."⟩
  | overlappingEdits => ⟨.error, .internal,
    [.fixed "rewrite operations overlap or are out of order: ", .gap "first", .fixed " / ",
     .gap "second"],
    "The substitution engine produced overlapping token ranges (engine bug)."⟩
  | strayEdit => ⟨.error, .internal,
    [.fixed "rewrite operation ", .gap "op", .fixed " lies outside tokens [", .gap "start",
     .fixed ", ", .gap "end", .fixed ")"],
    "A rewrite referenced tokens outside the rendered range (engine bug)."⟩
  | unreadableTemplate => ⟨.error, .driver,
    [.fixed "cannot read ", .gap "path", .fixed ": ", .gap "reason"],
    "The template file could not be read."⟩
  | badManifest => ⟨.error, .driver,
    [.fixed "invalid manifest ", .gap "path", .fixed ": ", .gap "reason"],
    "templates.toml is missing or malformed."⟩
  | unwritableOutput => ⟨.error, .driver,
    [.fixed "cannot write ", .gap "path", .fixed ": ", .gap "reason"],
    "The specialized output could not be written."⟩
  | outputCollision => ⟨.error, .driver,
    [.fixed "output ", .gap "path", .fixed " for (", .gap "options", .fixed ") collides with (",
     .gap "other", .fixed ")"],
    "Two bindings of one template map to the same output file; the first one is kept."⟩
  | foreignArguments => ⟨.warning, .erasure,
    [.fixed "type arguments of '", .gap "name",
     .fixed "' reference no template placeholder; '", .gap "name", .fixed "' erased to '",
     .gap "erased", .fixed "'"],
    "Arguments such as 'KTypeBar<B>' cannot be mapped to slots and default to Object."⟩
  | primitiveArgument => ⟨.warning, .erasure,
    [.fixed "'", .gap "placeholder", .fixed "' is bound to ", .gap "type",
     .fixed " inside non-template type '", .gap "name", .fixed "'; erased to Object"],
    "Java type arguments cannot be primitive; the argument was replaced by Object."⟩

def severity (code : Code) : Severity := code.entry.severity

def fill (code : Code) (args : Arguments) : String :=
  String.join (code.entry.parts.map (Part.fill args))

def unfilled? (code : Code) (args : Arguments) : Option String :=
  code.entry.parts.findSome? fun part =>
    part.key?.bind fun key => if (args.lookup key).isNone then some key else none

end Code

inductive CatalogFault
  | unknownCode (label : String)
  | missingArgument (code : Code) (key : String)
deriving DecidableEq, Repr

def CatalogFault.message : CatalogFault → String
  | .unknownCode label => "unknown error code: " ++ label
  | .missingArgument code key =>
    "missing text key '" ++ key ++ "' for " ++ code.label ++ " (needed by: " ++
      String.ofList (quoted code.entry.pattern.toList) ++ ")"

namespace Code

def message (code : Code) (args : Arguments) : Except CatalogFault String :=
  match code.unfilled? args with
  | some key => .error (.missingArgument code key)
  | none => .ok (code.fill args)

def find (label : String) : Except CatalogFault Code :=
  match ofLabel? label with
  | some code => .ok code
  | none => .error (.unknownCode label)

end Code

end Specializer
