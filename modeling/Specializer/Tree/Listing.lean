import Specializer.Text.Quoted
import Specializer.Tree.Walk

set_option autoImplicit false

namespace Specializer

namespace Listing

def widest : Nat := 60

def abbreviated (text : List Char) : List Char :=
  if text.length ≤ widest then text else text.take (widest - 3) ++ ['.', '.', '.']

def excerpt (tokens : List Token) (range : Range) : List Char :=
  abbreviated (collapse (spell ((tokens.take range.stop).drop range.start)))

def indented (level : Nat) (text : String) : String := "".pushn ' ' (2 * level) ++ text

def header (tokens : List Token) (level : Nat) (kind : NodeKind) (range : Range) : String :=
  indented level (kind.label ++ " [" ++ toString range.start ++ ":" ++ toString range.stop ++ "] " ++
    String.ofList (quoted (excerpt tokens range)))

def property (level : Nat) (label value : String) : String :=
  indented level (label ++ ": " ++ value)

def block (level : Nat) (label : String) (lines : List String) : List String :=
  if lines.isEmpty then [] else indented level (label ++ ":") :: lines

def flag (value : Bool) : String := if value then "True" else "False"

section

variable (tokens : List Token)

mutual

def typeRef (level : Nat) : TypeRef → List String
  | .mk range segments dims =>
    header tokens level .typeRef range ::
      block (level + 1) "segments" (segmentLines (level + 2) segments) ++
      [property (level + 1) "dims" (toString dims)]

def segmentLines (level : Nat) : List Segment → List String
  | [] => []
  | .plain name :: rest =>
    indented level "Segment" :: property (level + 1) "name" (String.ofList name.text) ::
      segmentLines level rest
  | .applied name args :: rest =>
    indented level "Segment" :: property (level + 1) "name" (String.ofList name.text) ::
      block (level + 1) "args" (typeArgs (level + 2) args) ++ segmentLines level rest

def typeArgs (level : Nat) : TypeArgs → List String
  | .mk range args =>
    header tokens level .typeArgs range :: block (level + 1) "args" (argLines (level + 2) args)

def argLines (level : Nat) : List TypeArg → List String
  | [] => []
  | .exact ref :: rest => typeRef level ref ++ argLines level rest
  | .unbounded range :: rest => header tokens level .wildcard range :: argLines level rest
  | .bounded range kind ref :: rest =>
    header tokens level .wildcard range ::
      property (level + 1) "bound_kind" (String.ofList (quoted kind.word.toList)) ::
      block (level + 1) "bound" (typeRef (level + 2) ref) ++ argLines level rest

end

def typeParam (level : Nat) (param : TypeParam) : List String :=
  header tokens level .typeParam param.range ::
    property (level + 1) "name" (String.ofList param.name.text) ::
    block (level + 1) "bounds" (param.bounds.flatMap (typeRef tokens (level + 2)))

def typeParams (level : Nat) (params : TypeParams) : List String :=
  header tokens level .typeParams params.range ::
    block (level + 1) "params" (params.params.flatMap (typeParam tokens (level + 2)))

mutual

def member (level : Nat) : Member → List String
  | .typeUse ref => typeRef tokens level ref
  | .importDecl range ref isStatic onDemand =>
    header tokens level .importDecl range ::
      block (level + 1) "ref" (typeRef tokens (level + 2) ref) ++
      [property (level + 1) "is_static" (flag isStatic),
       property (level + 1) "on_demand" (flag onDemand)]
  | .typeDecl range keyword name params supertypes members =>
    header tokens level .typeDecl range ::
      property (level + 1) "keyword" (String.ofList keyword.text) ::
      property (level + 1) "name" (String.ofList name.text) ::
      block (level + 1) "type_params" ((params.map (typeParams tokens (level + 2))).getD []) ++
      block (level + 1) "supertypes" (supertypes.flatMap (typeRef tokens (level + 2))) ++
      block (level + 1) "members" (memberLines (level + 2) members)
  | .methodDecl range params members =>
    header tokens level .methodDecl range ::
      block (level + 1) "type_params" (typeParams tokens (level + 2) params) ++
      block (level + 1) "members" (memberLines (level + 2) members)
  | .creation range type members constructorArgs =>
    header tokens level .creation range ::
      block (level + 1) "type" (typeRef tokens (level + 2) type) ++
      block (level + 1) "members" (memberLines (level + 2) members) ++
      block (level + 1) "ctor_args" ((constructorArgs.map (typeArgs tokens (level + 2))).getD [])
  | .witness range args method =>
    header tokens level .witness range ::
      block (level + 1) "args" (typeArgs tokens (level + 2) args) ++
      [property (level + 1) "method" (String.ofList method.text)]

def memberLines (level : Nat) : List Member → List String
  | [] => []
  | first :: rest => member level first ++ memberLines level rest

end

end

end Listing

def Tree.listing (tree : Tree) (tokens : List Token) : String :=
  String.intercalate "\n"
    (Listing.header tokens 0 .unit ⟨0, tree.size⟩ ::
      Listing.block 1 "members" (Listing.memberLines tokens 2 tree.members) ++
      Listing.block 1 "doc_comments"
        (tree.docs.map fun doc => Listing.header tokens 2 .docComment ⟨doc, doc + 1⟩))

end Specializer
