import Specializer.DocScope
import Specializer.DocText
import Specializer.Grammar.Parse

set_option autoImplicit false

namespace Specializer

namespace Setting

variable (setting : Setting)

/-- Whether edits in order already replace a token: the last that starts no later reaches past it. -/
def isReplaced (edits : List Edit) (index : Nat) : Bool :=
  ((edits.filter fun edit => edit.start ≤ (index : Int)).getLast?).any fun edit => (index : Int) + 1 ≤ edit.stop

def docEdit (scope : Scope Slot) (doc : Nat) : Except Fault (List Edit) := do
  let values ← scope.values setting.binding
  let text := (setting.tokens[doc]?.map fun token => token.text).getD []
  let new ← DocText.fill setting.binding (some values) text
  pure (if new = text then [] else [⟨doc, doc + 1, new⟩])

def docEdits (tree : Tree) (edits : List Edit) : Except Fault (List Edit) := do
  let outermost := Scope.outermost setting.binding
  let decls := declScopesOf outermost tree.members
  let docs := tree.docs.filter fun doc => !isReplaced edits doc
  let found ← docs.mapM fun doc =>
    setting.docEdit (DocScope.find setting.tokens decls outermost doc) doc
  pure found.flatten

def edits (tree : Tree) : Traced (List Edit) := do
  let found ← setting.membersEdits (Scope.outermost setting.binding) tree.members
  let inCode := Edit.sort found
  let inDocs ← Traced.lift (setting.docEdits tree inCode)
  pure (Edit.sort (inCode ++ inDocs))

end Setting

structure Template where
  source : List Char
  filename : String
  tokens : List Token
  tree : Tree

namespace Template

def read (source : List Char) (filename : String) : Except Fault Template := do
  let (tokens, tree) ← parse source
  pure ⟨source, filename, tokens, tree⟩

/-- A template has a second slot if an identifier or a documentation comment names it. -/
def slotCount (template : Template) : Nat :=
  let usesValue (token : Token) : Bool :=
    (token.kind == .ident || token.kind == .docComment) && (segments token.text).contains .value
  if template.tokens.any usesValue then 2 else 1

def bind (template : Template) (key : String) (value : Option String) : Except Fault Binding :=
  Binding.forSlots template.slotCount key value

def edits (template : Template) (binding : Binding) : Traced (List Edit) := do
  Traced.lift (binding.check template.slotCount)
  Setting.edits ⟨template.tokens, binding⟩ template.tree

def specialize (template : Template) (binding : Binding) : Traced (List Char) := do
  let edits ← template.edits binding
  Traced.lift (Edit.render (template.tokens.map fun token => token.text) edits 0
    template.tokens.length)

structure TopType where
  range : Range
  name : Name
  params : Option TypeParams

def topTypes (template : Template) : List TopType :=
  template.tree.members.filterMap fun
    | .typeDecl range _ name params _ _ => some ⟨range, name, params⟩
    | _ => none

/-- The first type at the top whose name has a placeholder or, failing that, the first of all. -/
def primaryType (template : Template) : Option TopType :=
  let types := template.topTypes
  (types.find? fun type => hasPlaceholder type.name.text).or types.head?

def nameIn (scope : Scope Slot) (binding : Binding) (name : List Char) :
    Except Fault (List Char) := do
  let values ← scope.values binding
  pure ((substituteInOrder name values).getD name)

/-- The specialized name of the primary type or, if another is given, of that one outside all
declarations. -/
def typeName (template : Template) (binding : Binding) (name : Option (List Char)) :
    Except Fault (Option (List Char)) := do
  binding.check template.slotCount
  let outermost := Scope.outermost binding
  match template.primaryType, name with
  | none, none => pure none
  | none, some name => some <$> nameIn outermost binding name
  | some type, none => some <$> nameIn (outermost.inside type.params) binding type.name.text
  | some type, some name =>
    let scope := if name = type.name.text then outermost.inside type.params else outermost
    some <$> nameIn scope binding name

end Template

def specialize (source : List Char) (binding : Binding) : Traced (List Char) := do
  let template ← Traced.lift (Template.read source "<template>")
  template.specialize binding

end Specializer
