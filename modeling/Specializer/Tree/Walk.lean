import Specializer.Tree.Basic

set_option autoImplicit false

namespace Specializer

inductive NodeKind
  | unit | importDecl | typeDecl | typeParams | typeParam | typeRef | typeArgs | wildcard
  | creation | methodDecl | witness | docComment
deriving DecidableEq, Repr

def NodeKind.label : NodeKind → String
  | unit => "compilation_unit"
  | importDecl => "import"
  | typeDecl => "type_decl"
  | typeParams => "type_params"
  | typeParam => "type_param"
  | typeRef => "type_ref"
  | typeArgs => "type_args"
  | wildcard => "wildcard"
  | creation => "object_creation"
  | methodDecl => "method_decl"
  | witness => "type_witness"
  | docComment => "doc_comment"

structure Node where
  kind : NodeKind
  range : Range
deriving DecidableEq, Repr

mutual

def TypeRef.nodes : TypeRef → List Node
  | .mk range segments _ => ⟨.typeRef, range⟩ :: segmentNodes segments

def segmentNodes : List Segment → List Node
  | [] => []
  | .plain _ :: rest => segmentNodes rest
  | .applied _ args :: rest => args.nodes ++ segmentNodes rest

def TypeArgs.nodes : TypeArgs → List Node
  | .mk range args => ⟨.typeArgs, range⟩ :: argNodes args

def argNodes : List TypeArg → List Node
  | [] => []
  | .exact ref :: rest => ref.nodes ++ argNodes rest
  | .unbounded range :: rest => ⟨.wildcard, range⟩ :: argNodes rest
  | .bounded range _ ref :: rest => ⟨.wildcard, range⟩ :: ref.nodes ++ argNodes rest

end

def TypeParam.nodes (param : TypeParam) : List Node :=
  ⟨.typeParam, param.range⟩ :: param.bounds.flatMap TypeRef.nodes

def TypeParams.nodes (params : TypeParams) : List Node :=
  ⟨.typeParams, params.range⟩ :: params.params.flatMap TypeParam.nodes

mutual

def Member.nodes : Member → List Node
  | .typeUse ref => ref.nodes
  | .importDecl range ref _ _ => ⟨.importDecl, range⟩ :: ref.nodes
  | .typeDecl range _ _ params supertypes members =>
    ⟨.typeDecl, range⟩ :: (params.map TypeParams.nodes).getD [] ++
      supertypes.flatMap TypeRef.nodes ++ memberNodes members
  | .methodDecl range params members =>
    ⟨.methodDecl, range⟩ :: params.nodes ++ memberNodes members
  | .creation range type members constructorArgs =>
    ⟨.creation, range⟩ :: type.nodes ++ memberNodes members ++
      (constructorArgs.map TypeArgs.nodes).getD []
  | .witness range args _ => ⟨.witness, range⟩ :: args.nodes

def memberNodes : List Member → List Node
  | [] => []
  | member :: rest => member.nodes ++ memberNodes rest

end

def Tree.nodes (tree : Tree) : List Node :=
  ⟨.unit, ⟨0, tree.size⟩⟩ :: memberNodes tree.members ++
    tree.docs.map fun doc => ⟨.docComment, ⟨doc, doc + 1⟩⟩

end Specializer
