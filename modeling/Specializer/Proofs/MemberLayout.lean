import Specializer.Proofs.MemberReading
import Specializer.Proofs.TypeLayout

set_option autoImplicit false

namespace Specializer.Grammar

open Read

variable {lexemes : List Lexeme}

abbrev LaidMember (lexemes : List Lexeme) : Nat → Member → Nat → Prop :=
  Laid Member.range fun member => member.subtree.Sound lexemes

abbrev RowOfMembers (lexemes : List Lexeme) : Nat → List Member → Nat → Prop :=
  Row Member.range fun member => member.subtree.Sound lexemes

def RowOfItem (lexemes : List Lexeme) (start : Nat) (item : Item) (stop : Nat) : Prop :=
  RowOfMembers lexemes start item.1 stop

section Imports

theorem qualifiers_forward (n : Nat) : Forward lexemes (qualifiers n) := by
  induction n with
  | zero => exact .stuck _
  | succ n ih =>
    intro cursor _ next on done
    simp only [qualifiers, branch_done, bind_done, pure_done] at done
    rcases done with ⟨-, _, dotted, first, _, named, second, more⟩ | ⟨-, -, rfl⟩
    · obtain ⟨onDotted, -, afterDot, -⟩ := on.take first
      obtain ⟨onNamed, -, afterName, -⟩ := onDotted.take second
      obtain ⟨onNext, forward⟩ := ih _ _ _ onNamed more
      exact ⟨onNext, by omega⟩
    · exact ⟨on, Nat.le_refl _⟩

theorem throughSemicolon_forward (n : Nat) : Forward lexemes (throughSemicolon n) := by
  induction n with
  | zero => exact .stuck _
  | succ n ih =>
    intro cursor _ next on done
    simp only [throughSemicolon, branch_done, bind_done, pure_done, fail_done, and_false,
      false_or] at done
    rcases done with ⟨-, ⟨-, _, middle, taken, -, rfl⟩ | ⟨-, _, middle, taken, more⟩⟩
    · obtain ⟨onNext, -, position, -⟩ := on.take taken
      exact ⟨onNext, by omega⟩
    · obtain ⟨onMiddle, -, position, -⟩ := on.take taken
      obtain ⟨onNext, forward⟩ := ih _ _ _ onMiddle more
      exact ⟨onNext, by omega⟩

theorem takeName_laid {what : Expected} {cursor next : Cursor} {name : Name}
    (on : cursor.On lexemes) (done : takeName what cursor = .done name next) :
    next.On lexemes ∧ name.index = cursor.position ∧ next.position = cursor.position + 1 ∧
      name.Stands lexemes := by
  simp only [takeName, branch_done, fail_done, and_false, or_false] at done
  exact on.takeIdent done.2 (on.identAt done.1 fun _ => ident_of_isName)

def RowOfNames (lexemes : List Lexeme) (start : Nat) (segments : List Segment) (stop : Nat) : Prop :=
  ∃ names : List Name, segments = names.map Segment.plain ∧
    Row Name.range (fun name => name.Stands lexemes) start names stop

theorem importedNames_row (n : Nat) :
    Ensures lexemes (importedNames n) fun start found stop => RowOfNames lexemes start found.1 stop := by
  induction n with
  | zero => exact .stuck _
  | succ n ih =>
    intro cursor found next on done
    simp only [importedNames, branch_done, bind_done, pure_done] at done
    rcases done with ⟨-, _, dotted, dot, choice⟩ | ⟨-, rfl, rfl⟩
    · obtain ⟨onDotted, -, afterDot, -⟩ := on.take dot
      rcases choice with ⟨-, _, starred, star, rfl, rfl⟩ | ⟨-, name, named, taken, rest, final, more, rfl, rfl⟩
      · obtain ⟨onNext, -, afterStar, -⟩ := onDotted.take star
        exact ⟨onNext, [], rfl, .nil (by omega)⟩
      · obtain ⟨onNamed, index, position, stands⟩ := takeName_laid onDotted taken
        obtain ⟨onNext, names, same, row⟩ := ih _ _ _ onNamed more
        have one : Row Name.range (fun name => name.Stands lexemes) cursor.position [name]
            named.position :=
          .one ⟨⟨by simp only [Name.range]; omega, Nat.lt_succ_self _,
            by change name.index + 1 ≤ named.position; omega⟩, stands⟩
        exact ⟨onNext, name :: names, by simp [same], one.append (Nat.le_refl _) row⟩
    · exact ⟨on, [], rfl, .nil (Nat.le_refl _)⟩

theorem names_end {start stop : Nat} (name : Name) (names : List Name)
    (row : Successive start ((name :: names).map Name.range) stop) :
    Successive start ((name :: names).map Name.range)
        (segmentsEnd ((name :: names).map Segment.plain)) ∧
      segmentsEnd ((name :: names).map Segment.plain) ≤ stop := by
  induction names generalizing name start with
  | nil => exact ⟨⟨row.1, row.2.1, Nat.le_refl _⟩, row.2.2⟩
  | cons second rest ih =>
    obtain ⟨inner, before⟩ := ih second row.2.2
    have same : segmentsEnd ((name :: second :: rest).map Segment.plain) =
        segmentsEnd ((second :: rest).map Segment.plain) := by
      simp [segmentsEnd, List.getLast?_cons_cons]
    rw [same]
    exact ⟨⟨row.1, row.2.1, inner⟩, before⟩

theorem plain_marks (names : List Name) :
    (names.map Segment.plain).flatMap Segment.marks = names.map Name.range := by
  rw [List.flatMap_map, List.map_eq_flatMap]
  rfl

theorem names_laid (meaningful : Meaningful lexemes) {stop : Nat} (name : Name) (names : List Name)
    (inside : stop ≤ lexemes.length)
    (row : Row Name.range (fun name => name.Stands lexemes) name.index (name :: names) stop) :
    LaidRef lexemes name.index
      (.mk ⟨name.index, segmentsEnd ((name :: names).map Segment.plain)⟩
        ((name :: names).map Segment.plain) 0) stop := by
  -- The reference ends with its last name, whatever the import has behind it.
  obtain ⟨arranged, before⟩ := names_end name names row.1
  have nonempty : name.index < segmentsEnd ((name :: names).map Segment.plain) := arranged.2.2.le
  refine ⟨⟨Nat.le_refl _, nonempty, before⟩, ?_⟩
  refine sound_ref meaningful nonempty (Nat.le_trans before inside) ?_ ?_
  · rw [plain_marks]
    exact arranged
  · intro segment member
    obtain ⟨other, found, rfl⟩ := List.mem_map.mp member
    exact ⟨row.2 other found, by simp [Segment.args?]⟩

theorem importDecl_laid (meaningful : Meaningful lexemes) :
    Ensures lexemes importDecl (LaidMember lexemes) := by
  intro cursor member next on done
  simp only [importDecl, takeKind, bind_done, branch_done, fail_done, and_false, or_false,
    index_done, past_done, pure_done] at done
  obtain ⟨keyword, word, taken, static, _, choice, _, behind, ⟨rfl, rfl⟩, name, named, first,
    ⟨more, onDemand⟩, last, read, _, ended, ⟨-, semicolon⟩, _, _, ⟨rfl, rfl⟩, rfl, rfl⟩ := done
  obtain ⟨onWord, index, afterWord, -⟩ := on.take taken
  have passed : behind.On lexemes ∧ word.position ≤ behind.position := by
    rcases choice with ⟨-, _, middle, taken, rfl, rfl⟩ | ⟨-, rfl, rfl⟩
    · obtain ⟨onBehind, -, position, -⟩ := onWord.take taken
      exact ⟨onBehind, by omega⟩
    · exact ⟨onWord, Nat.le_refl _⟩
  obtain ⟨onBehind, forward⟩ := passed
  obtain ⟨onNamed, place, afterName, stands⟩ := takeName_laid onBehind first
  rw [← place]
  obtain ⟨onLast, names, same, row⟩ := withSteps_ensures importedNames_row _ _ _ onNamed read
  obtain ⟨onNext, -, afterLast, -⟩ := onLast.take semicolon
  change more = names.map Segment.plain at same
  subst same
  have one : Row Name.range (fun name => name.Stands lexemes) name.index [name] named.position :=
    .one ⟨⟨Nat.le_refl _, Nat.lt_succ_self _, by change name.index + 1 ≤ named.position; omega⟩, stands⟩
  obtain ⟨arranged, sound⟩ :=
    names_laid meaningful name names onLast.bound (one.append (Nat.le_refl _) row)
  have later := row.1.le
  have nonempty : keyword.index < next.position := by omega
  refine ⟨onNext, ⟨Nat.le_of_eq index.symm, nonempty, Nat.le_refl _⟩, ?_⟩
  refine .intro ⟨?_, ?_, meaningful.bounded nonempty onNext.bound⟩ ?_
  · exact arranged.widen (by change keyword.index ≤ name.index; omega)
      (by change last.position ≤ next.position; omega)
  · intro name member
    cases member
  · intro child member
    rcases List.mem_singleton.mp member with rfl
    exact sound

end Imports

section Scans

theorem supertypeClauses_row (meaningful : Meaningful lexemes) {skip : Read Unit}
    (skips : Forward lexemes skip) (n : Nat) :
    Ensures lexemes (supertypeClauses skip n) (RowOfRefs lexemes) := by
  induction n with
  | zero => exact .stuck _
  | succ n ih =>
    intro cursor refs next on done
    simp only [supertypeClauses, branch_done, bind_done, strict_done, pure_done] at done
    rcases done with ⟨-, _, word, taken, first, middle, read, more, final, rest, rfl, rfl⟩ | ⟨-, rfl, rfl⟩
    · obtain ⟨onWord, -, position, -⟩ := on.take taken
      obtain ⟨onMiddle, row⟩ :=
        withSteps_ensures (typeList_row meaningful skips .comma) _ _ _ onWord read
      obtain ⟨onNext, later⟩ := ih _ _ _ onMiddle rest
      refine ⟨onNext, Row.append ?_ (Nat.le_refl _) later⟩
      exact ⟨row.1.widen (by omega) (Nat.le_refl _), row.2⟩
    · exact ⟨on, .nil (Nat.le_refl _)⟩

theorem taken_row {after : Option Before} {cursor next : Cursor} {name : Name}
    (on : cursor.On lexemes) (taken : take cursor = .done name next) :
    next.On lexemes ∧ RowOfItem lexemes cursor.position ([], after) next.position := by
  obtain ⟨onNext, -, position, -⟩ := on.take taken
  exact ⟨onNext, .nil (by omega)⟩

theorem enclosed_row {scan : Extent → Before → Read (List Member)}
    (scans : ∀ extent before, Ensures lexemes (scan extent before) (RowOfMembers lexemes))
    (closer : Kind) : Ensures lexemes (enclosed scan closer) (RowOfMembers lexemes) := by
  intro cursor members next on done
  simp only [enclosed, bind_done] at done
  obtain ⟨opener, opened, taken, read⟩ := done
  obtain ⟨onOpened, -, position, -⟩ := on.take taken
  obtain ⟨onNext, row⟩ := scans _ _ _ _ _ onOpened read
  exact ⟨onNext, row.1.widen (by omega) (Nat.le_refl _), row.2⟩

theorem enclosedIf_row {scan : Extent → Before → Read (List Member)}
    (scans : ∀ extent before, Ensures lexemes (scan extent before) (RowOfMembers lexemes))
    (opener closer : Kind) :
    Ensures lexemes (enclosedIf scan opener closer) (RowOfMembers lexemes) := by
  intro cursor members next on done
  simp only [enclosedIf, branch_done, pure_done] at done
  rcases done with ⟨-, read⟩ | ⟨-, rfl, rfl⟩
  · exact enclosed_row scans closer _ _ _ on read
  · exact ⟨on, .nil (Nat.le_refl _)⟩

def DeclAt (lexemes : List Lexeme) (cursor : Cursor) : Prop :=
  (cursor.seesKind .atSign 0 = true ∧ IdentAt lexemes (cursor.position + 1)) ∨
    (cursor.seesKind .atSign 0 = false ∧ IdentAt lexemes cursor.position)

def ReadsDecl (lexemes : List Lexeme) (read : Read Member) : Prop :=
  ∀ cursor member next, cursor.On lexemes → DeclAt lexemes cursor →
    read cursor = .done member next →
    next.On lexemes ∧ LaidMember lexemes cursor.position member next.position

def ReadsWord (lexemes : List Lexeme) (read : Lexeme → Read Item) : Prop :=
  ∀ cursor lexeme item next, cursor.On lexemes → lexemes[cursor.position]? = some lexeme →
    lexeme.kind = .ident → read lexeme cursor = .done item next →
    next.On lexemes ∧ RowOfItem lexemes cursor.position item next.position

structure MembersLaid (lexemes : List Lexeme) (n : Nat) : Prop where
  scan : ∀ extent before, Ensures lexemes (scan n extent before) (RowOfMembers lexemes)
  item : ∀ extent before, Ensures lexemes (item n extent before) (RowOfItem lexemes)
  word : ∀ extent before, ReadsWord lexemes (wordItem n extent before)
  generic : Ensures lexemes (genericMember n) (RowOfItem lexemes)
  annotation : Ensures lexemes (annotationUse n) (RowOfMembers lexemes)
  decl : ReadsDecl lexemes (typeDecl n)
  creation : Ensures lexemes (creation n) (RowOfMembers lexemes)

theorem MembersLaid.skips {n : Nat} (laid : MembersLaid lexemes n) :
    Forward lexemes (annotationUse n).ignore :=
  laid.annotation.ignore fun _ _ _ row => row.1.le

theorem scan_step {n : Nat} (laid : MembersLaid lexemes n) (extent : Extent) (before : Before) :
    Ensures lexemes (scan (n + 1) extent before) (RowOfMembers lexemes) := by
  intro cursor members next on done
  rcases scan_done done with ⟨-, -, rfl, rfl⟩ | last | ⟨first, after, middle, rest, read, scanned, rfl⟩
  · exact ⟨on, .nil (Nat.le_refl _)⟩
  · exact laid.item extent before _ _ _ on last
  · obtain ⟨onMiddle, row⟩ := laid.item extent before _ _ _ on read
    obtain ⟨onNext, later⟩ := laid.scan extent after _ _ _ onMiddle scanned
    exact ⟨onNext, Row.append row (Nat.le_refl _) later⟩

theorem annotationUse_step {n : Nat} (laid : MembersLaid lexemes n) :
    Ensures lexemes (annotationUse (n + 1)) (RowOfMembers lexemes) := by
  intro cursor members next on done
  simp only [annotationUse, bind_done] at done
  obtain ⟨_, marked, mark, _, named, name, _, behind, more, read⟩ := done
  obtain ⟨onMarked, -, afterMark, -⟩ := on.take mark
  obtain ⟨onNamed, -, afterName, -⟩ := takeName_laid onMarked name
  obtain ⟨onBehind, forward⟩ := withSteps_ensures qualifiers_forward _ _ _ onNamed more
  obtain ⟨onNext, row⟩ := enclosedIf_row laid.scan .lpar .rpar _ _ _ onBehind read
  exact ⟨onNext, row.1.widen (by omega) (Nat.le_refl _), row.2⟩

theorem genericMember_step (meaningful : Meaningful lexemes) {n : Nat}
    (laid : MembersLaid lexemes n) :
    Ensures lexemes (genericMember (n + 1)) (RowOfItem lexemes) := by
  intro cursor item next on done
  -- An angle bracket that opens no type parameters is passed over, from where it stands.
  rcases generic_done done with ⟨params, middle, members, listed, scanned, rfl⟩ | ⟨name, taken, rfl⟩
  · obtain ⟨onMiddle, place, sound⟩ := typeParams_laid meaningful laid.skips _ _ _ on listed
    obtain ⟨onNext, row⟩ := laid.scan .member .boundary _ _ _ onMiddle scanned
    have arranged : Successive params.range.start (params.range :: members.map Member.range)
        next.position :=
      ⟨Nat.le_refl _, place.2.1, row.1.widen place.2.2 (Nat.le_refl _)⟩
    have nonempty : params.range.start < next.position :=
      Nat.lt_of_lt_of_le place.2.1 arranged.2.2.le
    refine ⟨onNext, .one ⟨⟨place.1, nonempty, Nat.le_refl _⟩, ?_⟩⟩
    refine .intro ⟨arranged, ?_, meaningful.bounded nonempty onNext.bound⟩ ?_
    · intro name member
      cases member
    · intro child member
      rcases List.mem_cons.mp member with rfl | member
      · exact sound
      · obtain ⟨inner, found, rfl⟩ := List.mem_map.mp member
        exact row.2 inner found
  · exact taken_row on taken

theorem sound_typeDecl (meaningful : Meaningful lexemes) {start stop first second third : Nat}
    {keyword name : Name} {params : Option TypeParams} {supertypes : List TypeRef}
    {header body : List Member} (inside : stop ≤ lexemes.length)
    (keywordStands : keyword.Stands lexemes) (nameStands : name.Stands lexemes)
    (behind : start ≤ keyword.index) (adjacent : name.index = keyword.index + 1)
    (declared : Row TypeParams.range (fun params => (Subtree.params params).Sound lexemes)
      (name.index + 1) params.toList first)
    (headerRow : RowOfMembers lexemes first header second)
    (superRow : RowOfRefs lexemes second supertypes third)
    (bodyRow : RowOfMembers lexemes third body stop) :
    LaidMember lexemes start
      (.typeDecl ⟨start, stop⟩ keyword name params supertypes (header ++ body)) stop := by
  have names : Successive start [keyword.range, name.range] (name.index + 1) :=
    ⟨behind, Nat.lt_succ_self _, Nat.le_of_eq adjacent.symm, Nat.lt_succ_self _, Nat.le_refl _⟩
  have arranged := (((names.append declared.1).append headerRow.1).append superRow.1).append bodyRow.1
  have nonempty : start < stop := by
    have rest := ((declared.1.append headerRow.1).append superRow.1).append bodyRow.1
    have later := rest.le
    omega
  refine ⟨⟨Nat.le_refl _, nonempty, Nat.le_refl _⟩, ?_⟩
  refine .intro ⟨⟨header, body, rfl, arranged⟩, ?_, meaningful.bounded nonempty inside⟩ ?_
  · intro other member
    rcases List.mem_cons.mp member with rfl | member
    · exact keywordStands
    · rcases List.mem_singleton.mp member with rfl
      exact nameStands
  · intro child member
    simp only [Member.subtree, Subtree.children, List.mem_append, List.mem_map] at member
    rcases member with (⟨list, found, rfl⟩ | ⟨ref, found, rfl⟩) | ⟨inner, found | found, rfl⟩
    · exact declared.2 list found
    · exact superRow.2 ref found
    · exact headerRow.2 inner found
    · exact bodyRow.2 inner found

theorem declWord {cursor next : Cursor} (on : cursor.On lexemes) (decl : DeclAt lexemes cursor)
    (done : branch (·.seesKind .atSign 0) (do let _ ← take; pure ()) (pure ()) cursor =
      .done () next) :
    next.On lexemes ∧ cursor.position ≤ next.position ∧ IdentAt lexemes next.position := by
  simp only [branch_done, bind_done, pure_done] at done
  rcases done with ⟨seen, _, middle, taken, -, rfl⟩ | ⟨unseen, -, rfl⟩
  · obtain ⟨onNext, -, position, -⟩ := on.take taken
    rcases decl with ⟨-, ident⟩ | ⟨unseen, -⟩
    · exact ⟨onNext, by omega, position ▸ ident⟩
    · rw [seen] at unseen
      cases unseen
  · rcases decl with ⟨seen, -⟩ | ⟨-, ident⟩
    · rw [unseen] at seen
      cases seen
    · exact ⟨on, Nat.le_refl _, ident⟩

theorem typeDecl_step (meaningful : Meaningful lexemes) {n : Nat} (laid : MembersLaid lexemes n) :
    ReadsDecl lexemes (typeDecl (n + 1)) := by
  intro cursor member next on decl done
  obtain @⟨opened, worded, named, listed, headed, clauses, keyword, name, params, header, body,
    supertypes, mark, word, declares, lists, heads, extends_, -, encloses⟩ := decl_done done
  obtain ⟨onOpened, forward, ident⟩ := declWord on decl mark
  obtain ⟨onWorded, keywordIndex, afterKeyword, keywordStands⟩ := onOpened.takeIdent word ident
  obtain ⟨onNamed, nameIndex, afterName, nameStands⟩ := takeName_laid onWorded declares
  have declared : listed.On lexemes ∧
      Row TypeParams.range (fun params => (Subtree.params params).Sound lexemes) (name.index + 1)
        params.toList listed.position := by
    rcases lists with ⟨list, -, rfl, read⟩ | ⟨rfl, rfl⟩
    · obtain ⟨onListed, place, sound⟩ := typeParams_laid meaningful laid.skips _ _ _ onNamed read
      exact ⟨onListed, .one ⟨place.widen (by omega) (Nat.le_refl _), sound⟩⟩
    · exact ⟨onNamed, .nil (by omega)⟩
  obtain ⟨onListed, paramsRow⟩ := declared
  obtain ⟨onHeaded, headerRow⟩ := enclosedIf_row laid.scan .lpar .rpar _ _ _ onListed heads
  obtain ⟨onClauses, superRow⟩ :=
    withSteps_ensures (supertypeClauses_row meaningful laid.skips) _ _ _ onHeaded extends_
  obtain ⟨onNext, bodyRow⟩ := enclosed_row laid.scan .rbrace _ _ _ onClauses encloses
  exact ⟨onNext, sound_typeDecl meaningful onNext.bound keywordStands nameStands (by omega)
    (by omega) paramsRow headerRow superRow bodyRow⟩

theorem sound_creation (meaningful : Meaningful lexemes) {start first second stop : Nat}
    {type : TypeRef} {members : List Member} {constructorArgs : Option TypeArgs}
    (inside : stop ≤ lexemes.length)
    (explicit : Row TypeArgs.range (fun args => (Subtree.args args).Sound lexemes) (start + 1)
      constructorArgs.toList first)
    (typeLaid : LaidRef lexemes first type second)
    (row : RowOfMembers lexemes second members stop) :
    LaidMember lexemes start (.creation ⟨start, stop⟩ type members constructorArgs) stop := by
  have arranged := explicit.1.append (typeLaid.1.append row.1)
  have nonempty : start < stop := arranged.le
  refine ⟨⟨Nat.le_refl _, nonempty, Nat.le_refl _⟩, ?_⟩
  refine .intro ⟨?_, ?_, meaningful.bounded nonempty inside⟩ ?_
  · exact arranged.widen (Nat.le_succ _) (Nat.le_refl _)
  · intro name member
    cases member
  · intro child member
    simp only [Member.subtree, Subtree.children, List.cons_append, List.mem_cons, List.mem_append,
      List.mem_map] at member
    rcases member with rfl | ⟨inner, found, rfl⟩ | ⟨args, found, rfl⟩
    · exact typeLaid.2
    · exact row.2 inner found
    · exact explicit.2 args found

theorem creation_step (meaningful : Meaningful lexemes) {n : Nat} (laid : MembersLaid lexemes n) :
    Ensures lexemes (creation (n + 1)) (RowOfMembers lexemes) := by
  intro cursor members next on done
  obtain ⟨keyword, worded, constructorArgs, behind, taken, explicit, created⟩ := creation_done done
  obtain ⟨onWorded, index, afterWord, -⟩ := on.take taken
  have args : behind.On lexemes ∧
      Row TypeArgs.range (fun args => (Subtree.args args).Sound lexemes) (keyword.index + 1)
        constructorArgs.toList behind.position := by
    rcases explicit with ⟨list, -, rfl, read⟩ | ⟨rfl, rfl⟩
    · obtain ⟨onBehind, place, sound⟩ :=
        withSteps_ensures (fun k => (types_laid meaningful laid.skips k).args false) _ _ _ onWorded read
      exact ⟨onBehind, .one ⟨place.widen (by omega) (Nat.le_refl _), sound⟩⟩
    · exact ⟨onWorded, .nil (by omega)⟩
  obtain ⟨onBehind, argsRow⟩ := args
  have later := argsRow.1.le
  have typed {type : TypeRef} {after : Cursor}
      (read : withSteps (typeRef (annotationUse n).ignore true false) behind = .done type after) :
      after.On lexemes ∧ LaidRef lexemes behind.position type after.position :=
    withSteps_ensures (fun k => (types_laid meaningful laid.skips k).ref true false) _ _ _ onBehind read
  cases created with
  | nothing => exact ⟨onBehind, .nil (by omega)⟩
  | array primitive second =>
    obtain ⟨onNext, -, position, -⟩ := onBehind.take second
    exact ⟨onNext, .nil (by omega)⟩
  | plain read =>
    obtain ⟨onNext, typeLaid⟩ := typed read
    rw [← index]
    exact ⟨onNext, .one (sound_creation meaningful onNext.bound argsRow typeLaid
      (.nil (Nat.le_refl _)))⟩
  | called read opens calls encloses =>
    obtain ⟨onTyped, typeLaid⟩ := typed read
    obtain ⟨onClosed, firstRow⟩ := enclosed_row laid.scan .rpar _ _ _ onTyped calls
    obtain ⟨onNext, secondRow⟩ := enclosedIf_row laid.scan .lbrace .rbrace _ _ _ onClosed encloses
    rw [← index]
    exact ⟨onNext, .one (sound_creation meaningful onNext.bound argsRow typeLaid
      (firstRow.append (Nat.le_refl _) secondRow))⟩

theorem wordItem_step (meaningful : Meaningful lexemes) {n : Nat} (laid : MembersLaid lexemes n)
    (extent : Extent) (before : Before) : ReadsWord lexemes (wordItem (n + 1) extent before) := by
  intro cursor lexeme item next on found ident done
  have identAt : IdentAt lexemes cursor.position := ⟨lexeme, found, ident⟩
  cases word_done done with
  | imports top spells read =>
    obtain ⟨onNext, laidMember⟩ := importDecl_laid meaningful _ _ _ on read
    exact ⟨onNext, .one laidMember⟩
  | package top spells read =>
    obtain ⟨onNext, forward⟩ := withSteps_ensures throughSemicolon_forward _ _ _ on read
    exact ⟨onNext, .nil forward⟩
  | declares undotted seen read =>
    have left : cursor.rest[0]? = some lexeme := by
      rw [on.rest]
      simpa using found
    have unmarked : cursor.seesKind .atSign 0 = false := by
      simp [Cursor.seesKind, Cursor.sees, left, ident]
    obtain ⟨onNext, laidMember⟩ := laid.decl _ _ _ on (.inr ⟨unmarked, identAt⟩) read
    exact ⟨onNext, .one laidMember⟩
  | creates spells read => exact laid.creation _ _ _ on read
  | keyword inner word taken => exact taken_row on taken
  | uses word read =>
    obtain ⟨onNext, row⟩ := chain_row meaningful laid.skips on identAt read
    refine ⟨onNext, ?_, ?_⟩
    · simpa [Member.range, Function.comp_def] using row.1
    · intro member present
      obtain ⟨inner, mem, rfl⟩ := List.mem_map.mp present
      exact row.2 inner mem

theorem item_step (meaningful : Meaningful lexemes) {n : Nat} (laid : MembersLaid lexemes n)
    (extent : Extent) (before : Before) :
    Ensures lexemes (item (n + 1) extent before) (RowOfItem lexemes) := by
  intro cursor found next on done
  obtain ⟨lexeme, rest, left, read⟩ := item_done done
  cases read with
  | closes closer awaited taken => exact taken_row on taken
  | encloses pair read last => exact enclosed_row laid.scan _ _ _ _ on read
  | semicolon kind taken => exact taken_row on taken
  | declared kind word read =>
    have marked : cursor.seesKind .atSign 0 = true := by
      simp [Cursor.seesKind, Cursor.sees, left, kind]
    have ident := on.identAt word fun _ => ident_of_spells
    obtain ⟨onNext, laidMember⟩ := laid.decl _ _ _ on (.inl ⟨marked, ident⟩) read
    exact ⟨onNext, .one laidMember⟩
  | annotated kind read => exact laid.annotation _ _ _ on read
  | word kind read => exact laid.word extent before _ _ _ _ on (on.lexeme left) kind read
  | witness kind angled read =>
    obtain ⟨onNext, laidMember⟩ := witness_laid meaningful laid.skips _ _ _ on read
    exact ⟨onNext, .one laidMember⟩
  | generic kind fresh read => exact laid.generic _ _ _ on read
  | passed opens closes noWord taken => exact taken_row on taken

theorem members_laid (meaningful : Meaningful lexemes) (n : Nat) : MembersLaid lexemes n := by
  -- As with the types: one induction on the steps left, for all readers at once.
  induction n with
  | zero =>
    refine ⟨fun _ _ => .stuck _, fun _ _ => .stuck _, fun _ _ => ?_, .stuck _, .stuck _, ?_, .stuck _⟩
    · intro cursor lexeme item next _ _ _ done
      exact absurd done (by simp [wordItem, stuck_done])
    · intro cursor member next _ _ done
      exact absurd done (by simp [typeDecl, stuck_done])
  | succ n ih =>
    exact
      { scan := scan_step ih
        item := item_step meaningful ih
        word := wordItem_step meaningful ih
        generic := genericMember_step meaningful ih
        annotation := annotationUse_step ih
        decl := typeDecl_step meaningful ih
        creation := creation_step meaningful ih }

theorem members_row (meaningful : Meaningful lexemes) {found : List Member} {next : Cursor}
    (done : members lexemes = .done found next) :
    RowOfMembers lexemes 0 found lexemes.length := by
  -- The reader may stop short of the end, which leaves room behind the last member.
  obtain ⟨on, row⟩ := (members_laid meaningful _).scan .template .boundary _ _ _ .begin done
  exact ⟨row.1.widen (Nat.le_refl _) on.bound, row.2⟩

end Scans

end Specializer.Grammar
