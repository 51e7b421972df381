import Specializer.Grammar.Members
import Specializer.Proofs.Reading

set_option autoImplicit false

namespace Specializer.Grammar

open Read

variable {n : Nat} {extent : Extent} {before : Before} {lexeme : Lexeme} {cursor next : Cursor}

theorem scan_done {members : List Member}
    (done : scan (n + 1) extent before cursor = .done members next) :
    (cursor.rest = [] ∧ extent = .template ∧ members = [] ∧ next = cursor) ∨
      item n extent before cursor = .done (members, none) next ∨
      ∃ first after middle rest, item n extent before cursor = .done (first, some after) middle ∧
        scan n extent after middle = .done rest next ∧ members = first ++ rest := by
  rw [scan, branch_done] at done
  rcases done with ⟨empty, ended⟩ | ⟨-, done⟩
  next =>
    cases extent with
    | template =>
      obtain ⟨rfl, rfl⟩ := (pure_done _ _ _ _).mp ended
      exact .inl ⟨List.isEmpty_iff.mp empty, rfl, rfl, rfl⟩
    | member => exact ((fail_done _ _ _ _).mp ended).elim
    | closing closer opener => exact ((unbalanced_done opener cursor next members).mp ended).elim
  next =>
    obtain ⟨⟨first, after⟩, middle, read, more⟩ := (bind_done _ _ _ _ _).mp done
    cases after with
    | none =>
      obtain ⟨rfl, rfl⟩ := (pure_done _ _ _ _).mp more
      exact .inr (.inl read)
    | some after =>
      simp only [bind_done, pure_done] at more
      obtain ⟨rest, final, scanned, rfl, rfl⟩ := more
      exact .inr (.inr ⟨first, after, middle, rest, read, scanned, rfl⟩)

inductive ItemRead (n : Nat) (extent : Extent) (before : Before) (lexeme : Lexeme)
    (cursor next : Cursor) : Item → Prop
  | closes {opener : Nat} {name : Name} (closer : lexeme.kind.isCloser = true)
      (awaited : extent = .closing lexeme.kind opener) (taken : take cursor = .done name next) :
      ItemRead n extent before lexeme cursor next ([], none)
  | encloses {closer : Kind} {members : List Member} {after : Option Before}
      (pair : lexeme.kind.closer? = some closer)
      (read : enclosed (scan n) closer cursor = .done members next)
      (last : after = none ↔ lexeme.kind = .lbrace ∧ extent = .member) :
      ItemRead n extent before lexeme cursor next (members, after)
  | semicolon {name : Name} (kind : lexeme.kind = .semi)
      (taken : take cursor = .done name next) :
      ItemRead n extent before lexeme cursor next
        ([], if extent = .member then none else some .boundary)
  | declared {decl : Member} (kind : lexeme.kind = .atSign)
      (word : cursor.seesWord "interface" 1 = true) (read : typeDecl n cursor = .done decl next) :
      ItemRead n extent before lexeme cursor next ([decl], some .boundary)
  | annotated {members : List Member} (kind : lexeme.kind = .atSign)
      (read : annotationUse n cursor = .done members next) :
      ItemRead n extent before lexeme cursor next (members, some .boundary)
  | word {found : Item} (kind : lexeme.kind = .ident)
      (read : wordItem n extent before lexeme cursor = .done found next) :
      ItemRead n extent before lexeme cursor next found
  | witness {use : Member} (kind : lexeme.kind = .dot)
      (angled : cursor.seesKind .lt 1 = true)
      (read : Grammar.witness (annotationUse n).ignore cursor = .done use next) :
      ItemRead n extent before lexeme cursor next ([use], some .other)
  | generic {found : Item} (kind : lexeme.kind = .lt) (fresh : before = .boundary)
      (read : genericMember n cursor = .done found next) :
      ItemRead n extent before lexeme cursor next found
  | passed {name : Name} {after : Before} (opens : lexeme.kind.closer? = none)
      (closes : lexeme.kind.isCloser = false) (noWord : lexeme.kind ≠ .ident)
      (taken : take cursor = .done name next) :
      ItemRead n extent before lexeme cursor next ([], some after)

theorem item_done {found : Item} (done : item (n + 1) extent before cursor = .done found next) :
    ∃ lexeme rest, cursor.rest = lexeme :: rest ∧
      ItemRead n extent before lexeme cursor next found := by
  rw [item, inspect_done] at done
  obtain ⟨lexeme, rest, left, done⟩ := done
  refine ⟨lexeme, rest, left, ?_⟩
  have plain {after : Before} (opens : lexeme.kind.closer? = none)
      (closes : lexeme.kind.isCloser = false) (noWord : lexeme.kind ≠ .ident)
      (done : passed after cursor = .done found next) :
      ItemRead n extent before lexeme cursor next found := by
    simp only [passed, bind_done, pure_done] at done
    obtain ⟨name, _, taken, rfl, rfl⟩ := done
    exact .passed opens closes noWord taken
  cases kind : lexeme.kind <;> simp only [kind] at done
  case rpar | rsqb | rbrace =>
    simp only [closed, bind_done, index_done] at done
    obtain ⟨_, _, ⟨-, rfl⟩, done⟩ := done
    cases extent with
    | template | member => exact ((unbalanced_done _ _ _ _).mp done).elim
    | closing closer opener =>
      simp only at done
      split at done
      next same =>
        simp only [bind_done, pure_done] at done
        obtain ⟨name, _, taken, rfl, rfl⟩ := done
        exact .closes (by rw [kind]; rfl) (by rw [kind, same]) taken
      next => exact ((unbalanced_done _ _ _ _).mp done).elim
  case lpar | lsqb | lbrace =>
    simp only [bind_done, pure_done] at done
    obtain ⟨members, _, read, rfl, rfl⟩ := done
    exact .encloses (by rw [kind]; rfl) read (by simp [kind])
  case semi =>
    simp only [Grammar.semicolon, bind_done, pure_done] at done
    obtain ⟨name, _, taken, rfl, rfl⟩ := done
    exact .semicolon kind taken
  case atSign =>
    simp only [branch_done, bind_done, pure_done] at done
    rcases done with ⟨word, decl, _, read, rfl, rfl⟩ | ⟨-, members, _, read, rfl, rfl⟩
    next => exact .declared kind word read
    next => exact .annotated kind read
  case ident => exact .word kind done
  case dot =>
    rcases (branch_done _ _ _ _ _ _).mp done with ⟨angled, done⟩ | ⟨-, done⟩
    next =>
      simp only [bind_done, pure_done] at done
      obtain ⟨use, _, read, rfl, rfl⟩ := done
      exact .witness kind angled read
    next => exact plain (by rw [kind]; rfl) (by rw [kind]; rfl) (by simp [kind]) done
  case lt =>
    split at done
    next fresh => exact .generic kind fresh done
    next => exact plain (by rw [kind]; rfl) (by rw [kind]; rfl) (by simp [kind]) done
  all_goals exact plain (by rw [kind]; rfl) (by rw [kind]; rfl) (by simp [kind]) done

inductive WordRead (n : Nat) (extent : Extent) (before : Before) (lexeme : Lexeme)
    (cursor next : Cursor) : Item → Prop
  | imports {decl : Member} (top : extent = .template)
      (spells : lexeme.spells "import" = true) (read : importDecl cursor = .done decl next) :
      WordRead n extent before lexeme cursor next ([decl], some .boundary)
  | package (top : extent = .template) (spells : lexeme.spells "package" = true)
      (read : withSteps throughSemicolon cursor = .done () next) :
      WordRead n extent before lexeme cursor next ([], some .boundary)
  | declares {decl : Member} (undotted : before ≠ .dot)
      (seen : cursor.seesDeclaration = true) (read : typeDecl n cursor = .done decl next) :
      WordRead n extent before lexeme cursor next ([decl], some .boundary)
  | creates {members : List Member} (spells : lexeme.spells "new" = true)
      (read : creation n cursor = .done members next) :
      WordRead n extent before lexeme cursor next (members, some .other)
  | keyword {name : Name}
      (inner : ¬ (extent = .template ∧ lexeme.spells "package" = true))
      (word : lexeme.isKeyword = true) (taken : take cursor = .done name next) :
      WordRead n extent before lexeme cursor next ([], some (afterKeyword lexeme))
  | uses {ref : Option TypeRef} (word : lexeme.isKeyword = false)
      (read : chain (annotationUse n).ignore cursor = .done ref next) :
      WordRead n extent before lexeme cursor next (ref.toList.map Member.typeUse, some .other)

theorem word_done {found : Item}
    (done : wordItem (n + 1) extent before lexeme cursor = .done found next) :
    WordRead n extent before lexeme cursor next found := by
  simp only [wordItem, passed, ite_done, branch_done, bind_done, pure_done] at done
  rcases done with ⟨word, decl, _, read, rfl, rfl⟩ | ⟨-, ⟨word, _, _, read, rfl, rfl⟩ | ⟨inner, done⟩⟩
  next => exact .imports word.1 word.2 read
  next => exact .package word.1 word.2 read
  rcases done with ⟨seen, decl, _, read, rfl, rfl⟩ | ⟨-, ⟨word, members, _, read, rfl, rfl⟩ |
    ⟨-, ⟨word, name, _, taken, rfl, rfl⟩ | ⟨word, ref, _, read, rfl, rfl⟩⟩⟩
  next =>
    simp only [Bool.and_eq_true, decide_eq_true_eq] at seen
    exact .declares seen.1 seen.2 read
  next => exact .creates word read
  next => exact .keyword inner word taken
  next => exact .uses (eq_false_of_ne_true word) read

-- A generic member goes from its type parameters on; without them, only the bracket is passed.
theorem generic_done {found : Item} (done : genericMember (n + 1) cursor = .done found next) :
    (∃ params middle members, typeParams (annotationUse n).ignore cursor = .done params middle ∧
        scan n .member .boundary middle = .done members next ∧
        found = ([.methodDecl ⟨params.range.start, next.position⟩ params members], some .boundary)) ∨
      ∃ name, take cursor = .done name next ∧ found = ([], some .other) := by
  rw [genericMember, bind_done] at done
  obtain ⟨tried, middle, read, done⟩ := done
  rcases optional_done _ _ _ _ read with ⟨params, rfl, listed⟩ | ⟨rfl, rfl⟩
  next =>
    simp only [bind_done, past_done, pure_done] at done
    obtain ⟨members, _, scanned, _, _, ⟨rfl, rfl⟩, rfl, rfl⟩ := done
    exact .inl ⟨params, middle, members, listed, scanned, rfl⟩
  next =>
    simp only [passed, bind_done, pure_done] at done
    obtain ⟨name, _, taken, rfl, rfl⟩ := done
    exact .inr ⟨name, taken, rfl⟩

inductive DeclRead (n : Nat) (cursor next : Cursor) : Member → Prop
  | mk {opened worded named listed headed clauses : Cursor} {keyword name : Name}
      {params : Option TypeParams} {header body : List Member} {supertypes : List TypeRef}
      (mark : branch (·.seesKind .atSign 0) (do let _ ← take; pure ()) (pure ()) cursor = .done () opened)
      (word : take opened = .done keyword worded)
      (declares : takeName .typeName worded = .done name named)
      (lists : (∃ list, named.seesKind .lt 0 = true ∧ params = some list ∧
          typeParams (annotationUse n).ignore named = .done list listed) ∨
        params = none ∧ listed = named)
      (heads : enclosedIf (scan n) .lpar .rpar listed = .done header headed)
      (extends_ : withSteps (supertypeClauses (annotationUse n).ignore) headed = .done supertypes clauses)
      (opens : clauses.seesKind .lbrace 0 = true)
      (encloses : enclosed (scan n) .rbrace clauses = .done body next) :
      DeclRead n cursor next
        (.typeDecl ⟨cursor.position, next.position⟩ keyword name params supertypes (header ++ body))

theorem decl_done {member : Member} (done : typeDecl (n + 1) cursor = .done member next) :
    DeclRead n cursor next member := by
  rw [typeDecl, bind_done] at done
  obtain ⟨_, _, start, done⟩ := done
  obtain ⟨rfl, rfl⟩ := (index_done _ _ _).mp start
  obtain ⟨_, opened, mark, done⟩ := (bind_done _ _ _ _ _).mp done
  simp only [bind_done, branch_done, strict_done, pure_done, fail_done, past_done, and_false,
    or_false] at done
  obtain ⟨keyword, worded, taken, name, named, declares, params, listed, choice, header, headed,
    heads, supertypes, _, clauses, _, _, ⟨opens, -, rfl⟩, body, _, encloses, _, _, ⟨rfl, rfl⟩, rfl,
    rfl⟩ := done
  refine .mk mark taken declares ?_ heads clauses opens encloses
  rcases choice with ⟨seen, list, _, read, rfl, rfl⟩ | ⟨-, rfl, rfl⟩
  next => exact .inl ⟨list, seen, rfl, read⟩
  next => exact .inr ⟨rfl, rfl⟩

inductive CreatedRead (n : Nat) (keyword : Name) (constructorArgs : Option TypeArgs) (cursor : Cursor) :
    List Member → Cursor → Prop
  | nothing : CreatedRead n keyword constructorArgs cursor [] cursor
  | array {name : Name} {next : Cursor} (primitive : cursor.sees Lexeme.isPrimitive 0 = true)
      (taken : take cursor = .done name next) : CreatedRead n keyword constructorArgs cursor [] next
  | plain {type : TypeRef} {next : Cursor}
      (read : withSteps (typeRef (annotationUse n).ignore true false) cursor = .done type next) :
      CreatedRead n keyword constructorArgs cursor
        [.creation ⟨keyword.index, next.position⟩ type [] constructorArgs] next
  | called {type : TypeRef} {typed closed next : Cursor} {args body : List Member}
      (read : withSteps (typeRef (annotationUse n).ignore true false) cursor = .done type typed)
      (opens : typed.seesKind .lpar 0 = true)
      (calls : enclosed (scan n) .rpar typed = .done args closed)
      (encloses : enclosedIf (scan n) .lbrace .rbrace closed = .done body next) :
      CreatedRead n keyword constructorArgs cursor
        [.creation ⟨keyword.index, next.position⟩ type (args ++ body) constructorArgs] next

theorem creation_done {members : List Member} (done : creation (n + 1) cursor = .done members next) :
    ∃ keyword worded constructorArgs behind, take cursor = .done keyword worded ∧
      ((∃ args, worded.seesKind .lt 0 = true ∧ constructorArgs = some args ∧
          withSteps (typeArgs (annotationUse n).ignore false) worded = .done args behind) ∨
        constructorArgs = none ∧ behind = worded) ∧
      CreatedRead n keyword constructorArgs behind members next := by
  simp only [creation, bind_done, branch_done, strict_done, pure_done, past_done] at done
  obtain ⟨keyword, worded, taken, constructorArgs, behind, explicit, choice⟩ := done
  refine ⟨keyword, worded, constructorArgs, behind, taken, ?_, ?_⟩
  next =>
    rcases explicit with ⟨seen, args, _, read, rfl, rfl⟩ | ⟨-, rfl, rfl⟩
    next => exact .inl ⟨args, seen, rfl, read⟩
    next => exact .inr ⟨rfl, rfl⟩
  next =>
    rcases choice with ⟨-, ⟨primitive, _, _, second, rfl, rfl⟩ | ⟨-, type, typed, read, inner, _,
      body, _, _, ⟨rfl, rfl⟩, rfl, rfl⟩⟩ | ⟨-, rfl, rfl⟩
    next => exact .array primitive second
    next =>
      rcases body with ⟨opens, args, closed, calls, block, _, encloses, rfl, rfl⟩ | ⟨-, rfl, rfl⟩
      next => exact .called read opens calls encloses
      next => exact .plain read
    next => exact .nothing

end Specializer.Grammar
