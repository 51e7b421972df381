import Specializer.Grammar.Types

set_option autoImplicit false

namespace Specializer.Grammar

open Read

variable [Numbering]

/-- Where a scan ends: at the end of the template, with the member it is in, or at a bracket that
closes the one at the given place. -/
inductive Extent
  | template
  | member
  | closing (closer : Kind) (opener : Nat)
deriving DecidableEq, Repr

/-- What stood before an item, as far as it matters to it: something a member can begin after, a
dot, or anything else. -/
inductive Before
  | boundary | dot | other
deriving DecidableEq, Repr

def qualifiers : Nat → Read Unit
  | 0 => stuck
  | n + 1 =>
    branch (·.seesDotName) (do let _ ← take; let _ ← take; qualifiers n) (pure ())

def throughSemicolon : Nat → Read Unit
  | 0 => stuck
  | n + 1 =>
    branch (·.rest.isEmpty) (fail .semicolon)
      (branch (·.seesKind .semi 0)
        (do let _ ← take; pure ())
        (do let _ ← take; throughSemicolon n))

def importedNames : Nat → Read (List Segment × Bool)
  | 0 => stuck
  | n + 1 =>
    branch (·.seesKind .dot 0)
      (do
        let _ ← take
        branch (·.sees (fun lexeme => lexeme.kind == .op && lexeme.text == ['*']) 0)
          (do let _ ← take; pure ([], true))
          (do
            let name ← takeName .importedName
            let (segments, onDemand) ← importedNames n
            pure (.plain name :: segments, onDemand)))
      (pure ([], false))

def segmentsEnd (segments : List Segment) : Nat :=
  match segments.getLast? with
  | some segment => segment.name.index + 1
  | none => 0

def importDecl : Read Member := do
  let keyword ← take
  let isStatic ← branch (·.seesWord "static" 0) (do let _ ← take; pure true) (pure false)
  let first ← index
  let name ← takeName .importedName
  let (more, onDemand) ← withSteps importedNames
  let segments := .plain name :: more
  let _ ← takeKind .semi .semicolon
  let stop ← past
  pure (.importDecl ⟨keyword.index, stop⟩ (.mk ⟨first, segmentsEnd segments⟩ segments 0)
    isStatic onDemand)

def supertypeClauses (skip : Read Unit) : Nat → Read (List TypeRef)
  | 0 => stuck
  | n + 1 =>
    branch (·.sees Lexeme.opensSupertypes 0)
      (do
        let _ ← take
        let refs ← strict (withSteps (typeList skip .comma))
        let more ← supertypeClauses skip n
        pure (refs ++ more))
      (pure [])

def Cursor.opensTypeDecl (cursor : Cursor) : Bool :=
  cursor.sees Lexeme.isName 1 &&
    (!cursor.seesWord "record" 0 || cursor.seesKind .lpar 2 || cursor.seesKind .lt 2)

def Cursor.seesDeclaration (cursor : Cursor) : Bool :=
  cursor.sees (fun lexeme => lexeme.kind == .ident && declarationWords.contains lexeme.text) 0 &&
    cursor.opensTypeDecl

def atEnd : Extent → Read (List Member)
  | .template => pure []
  | .member => fail .endOfMember
  | .closing _ opener => unbalanced opener

abbrev Item := List Member × Option Before

def passed (after : Before) : Read Item := do
  let _ ← take
  pure ([], some after)

def closed (kind : Kind) (extent : Extent) : Read Item := do
  let here ← index
  match extent with
  | .closing closer _ =>
    if kind = closer then do
      let _ ← take
      pure ([], none)
    else unbalanced here
  | _ => unbalanced here

def semicolon (extent : Extent) : Read Item := do
  let _ ← take
  pure ([], if extent = .member then none else some .boundary)

def afterKeyword (lexeme : Lexeme) : Before :=
  if lexeme.isModifier then .boundary else .other

def enclosed (scan : Extent → Before → Read (List Member)) (closer : Kind) :
    Read (List Member) := do
  let opener ← take
  scan (.closing closer opener.index) .boundary

def enclosedIf (scan : Extent → Before → Read (List Member)) (opener closer : Kind) :
    Read (List Member) :=
  branch (·.seesKind opener 0) (enclosed scan closer) (pure [])

mutual

def scan : Nat → Extent → Before → Read (List Member)
  | 0, _, _ => stuck
  | n + 1, extent, before =>
    branch (·.rest.isEmpty) (atEnd extent) do
      let (members, after) ← item n extent before
      match after with
      | none => pure members
      | some before => do
        let more ← scan n extent before
        pure (members ++ more)

def item : Nat → Extent → Before → Read Item
  | 0, _, _ => stuck
  | n + 1, extent, before => inspect fun lexeme =>
    match lexeme.kind with
    | .rpar | .rsqb | .rbrace => closed lexeme.kind extent
    | .lpar => do
      let members ← enclosed (scan n) .rpar
      pure (members, some .other)
    | .lsqb => do
      let members ← enclosed (scan n) .rsqb
      pure (members, some .other)
    | .lbrace => do
      let members ← enclosed (scan n) .rbrace
      pure (members, if extent = .member then none else some .boundary)
    | .semi => semicolon extent
    | .atSign =>
      branch (·.seesWord "interface" 1)
        (do let decl ← typeDecl n; pure ([decl], some .boundary))
        (do let members ← annotationUse n; pure (members, some .boundary))
    | .ident => wordItem n extent before lexeme
    | .dot =>
      branch (·.seesKind .lt 1)
        (do let use ← witness (annotationUse n).ignore; pure ([use], some .other))
        (passed .dot)
    | .lt => if before = .boundary then genericMember n else passed .other
    | _ => passed .other

def wordItem : Nat → Extent → Before → Lexeme → Read Item
  | 0, _, _, _ => stuck
  | n + 1, extent, before, lexeme =>
    if extent = .template ∧ lexeme.spells "import" then do
      let decl ← importDecl
      pure ([decl], some .boundary)
    else if extent = .template ∧ lexeme.spells "package" then do
      withSteps throughSemicolon
      pure ([], some .boundary)
    else branch (fun cursor => before ≠ .dot && cursor.seesDeclaration)
      (do let decl ← typeDecl n; pure ([decl], some .boundary))
      (if lexeme.spells "new" then do
        let members ← creation n
        pure (members, some .other)
      else if lexeme.isKeyword then passed (afterKeyword lexeme)
      else do
        let ref ← chain (annotationUse n).ignore
        pure (ref.toList.map Member.typeUse, some .other))

def genericMember : Nat → Read Item
  | 0 => stuck
  | n + 1 => do
    let params ← optional (typeParams (annotationUse n).ignore)
    match params with
    | none => passed .other
    | some params => do
      let members ← scan n .member .boundary
      let stop ← past
      pure ([.methodDecl ⟨params.range.start, stop⟩ params members], some .boundary)

def annotationUse : Nat → Read (List Member)
  | 0 => stuck
  | n + 1 => do
    let _ ← take
    let _ ← takeName .annotationName
    withSteps qualifiers
    enclosedIf (scan n) .lpar .rpar

def typeDecl : Nat → Read Member
  | 0 => stuck
  | n + 1 => do
    let start ← index
    branch (·.seesKind .atSign 0) (do let _ ← take; pure ()) (pure ())
    let keyword ← take
    let name ← takeName .typeName
    let params ← branch (·.seesKind .lt 0)
      (do let params ← strict (typeParams (annotationUse n).ignore); pure (some params))
      (pure none)
    let header ← enclosedIf (scan n) .lpar .rpar
    let supertypes ← withSteps (supertypeClauses (annotationUse n).ignore)
    branch (·.seesKind .lbrace 0) (pure ()) (fail .openBrace)
    let body ← enclosed (scan n) .rbrace
    let stop ← past
    pure (.typeDecl ⟨start, stop⟩ keyword name params supertypes (header ++ body))

def creation : Nat → Read (List Member)
  | 0 => stuck
  | n + 1 => do
    let keyword ← take
    let constructorArgs ← branch (·.seesKind .lt 0)
      (do
        let args ← strict (withSteps (typeArgs (annotationUse n).ignore false))
        pure (some args))
      (pure none)
    branch (·.seesKind .ident 0)
      (branch (·.sees Lexeme.isPrimitive 0)
        (do let _ ← take; pure [])
        (do
          let type ← strict (withSteps (typeRef (annotationUse n).ignore true false))
          let members ← branch (·.seesKind .lpar 0)
            (do
              let args ← enclosed (scan n) .rpar
              let body ← enclosedIf (scan n) .lbrace .rbrace
              pure (args ++ body))
            (pure [])
          let stop ← past
          pure [.creation ⟨keyword.index, stop⟩ type members constructorArgs]))
      (pure [])

end

/-- Steps that suffice for a scan of so many lexemes. -/
def scanSteps (length : Nat) : Nat := 6 * length + 6

def members (lexemes : List Lexeme) : Outcome (List Member) :=
  scan (scanSteps lexemes.length) .template .boundary ⟨0, lexemes⟩

end Specializer.Grammar
