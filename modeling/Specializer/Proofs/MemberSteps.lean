import Specializer.Grammar.Members
import Specializer.Proofs.TypeSteps

set_option autoImplicit false

namespace Specializer.Grammar

open Read

variable {lexemes : List Lexeme} {cursor : Cursor}

section Loops

theorem qualifiers_ends {n : Nat} (on : cursor.On lexemes)
    (steps : lexemes.length < n + cursor.position) :
    (qualifiers n cursor).Ends lexemes cursor.position := by
  induction n generalizing cursor with
  | zero =>
    have bound := on.bound
    omega
  | succ n ih =>
    refine .branch (fun seen => ?_) fun _ => .pure () on (Nat.le_refl _)
    simp only [Cursor.seesDotName, Bool.and_eq_true] at seen
    have name := on.inside seen.2
    refine .takeThen on (on.inside seen.1) fun _ dotted _ onDotted atDotted => ?_
    refine .takeThen onDotted (by omega) fun _ named _ onNamed atNamed => ?_
    exact (ih onNamed (by omega)).mono (by omega)

theorem throughSemicolon_ends {n : Nat} (on : cursor.On lexemes)
    (steps : lexemes.length < n + cursor.position) :
    (throughSemicolon n cursor).Ends lexemes (cursor.position + 1) := by
  induction n generalizing cursor with
  | zero =>
    have bound := on.bound
    omega
  | succ n ih =>
    refine .branch (fun _ => .fail _ on) fun left => ?_
    have inside : cursor.position < lexemes.length :=
      Nat.lt_of_not_le fun past => by simp [on.isEmpty_iff.mpr past] at left
    refine .branch (fun _ => ?_) fun _ => ?_
    · refine .takeThen on inside fun _ behind _ onBehind atBehind => ?_
      exact .pure _ onBehind (Nat.le_of_eq atBehind.symm)
    · refine .takeThen on inside fun _ behind _ onBehind atBehind => ?_
      exact (ih onBehind (by omega)).mono (by omega)

theorem importedNames_ends {n : Nat} (on : cursor.On lexemes)
    (steps : lexemes.length < n + cursor.position) :
    (importedNames n cursor).Ends lexemes cursor.position := by
  induction n generalizing cursor with
  | zero =>
    have bound := on.bound
    omega
  | succ n ih =>
    refine .branch (fun seen => ?_) fun _ => .pure _ on (Nat.le_refl _)
    refine .takeThen on (on.inside seen) fun _ dotted _ onDotted atDotted => ?_
    refine .branch (fun star => ?_) fun _ => ?_
    · refine .takeThen onDotted (onDotted.inside star) fun _ behind _ onBehind atBehind => ?_
      exact .pure _ onBehind (by omega)
    · refine (Outcome.Ends.takeName _ onDotted).bind fun name named _ onNamed gained => ?_
      exact (ih onNamed (by omega)).map.mono (by omega)

theorem importDecl_ends (on : cursor.On lexemes) (inside : cursor.position < lexemes.length) :
    (importDecl cursor).Ends lexemes (cursor.position + 1) := by
  rw [importDecl]
  refine .takeThen on inside fun keyword opened _ onOpened atOpened => ?_
  have marked : (branch (·.seesWord "static" 0) (do let _ ← take; pure true) (pure false) opened).Ends
      lexemes opened.position := by
    refine .branch (fun seen => ?_) fun _ => .pure _ onOpened (Nat.le_refl _)
    refine .takeThen onOpened (onOpened.inside seen) fun _ behind _ onBehind atBehind => ?_
    exact .pure _ onBehind (by omega)
  refine marked.bind fun isStatic behind _ onBehind le => .indexThen ?_
  refine (Outcome.Ends.takeName _ onBehind).bind fun name named _ onNamed gained => ?_
  have imported := withSteps_ends onNamed fun n => importedNames_ends onNamed
  refine imported.bind fun found final _ onFinal forward => ?_
  refine (Outcome.Ends.takeKind _ _ onFinal).bind fun _ next _ onNext more => .pastThen ?_
  exact .pure _ onNext (by omega)

theorem supertypeClauses_ends {skip : Read Unit} {base : Nat} (skips : Skips lexemes base skip)
    {n : Nat} (on : cursor.On lexemes) (low : base ≤ cursor.position)
    (steps : lexemes.length < n + cursor.position) :
    (supertypeClauses skip n cursor).Ends lexemes cursor.position := by
  induction n generalizing cursor with
  | zero =>
    have bound := on.bound
    omega
  | succ n ih =>
    refine .branch (fun seen => ?_) fun _ => .pure _ on (Nat.le_refl _)
    refine .takeThen on (on.inside seen) fun _ opened _ onOpened atOpened => ?_
    have types := withSteps_ends onOpened fun n => typeList_ends skips .comma onOpened (by omega)
    refine types.strict.bind fun refs behind _ onBehind gained => ?_
    exact (ih onBehind (by omega) (by omega)).map.mono (by omega)

end Loops

section Members

def Extent.Within (lexemes : List Lexeme) : Extent → Prop
  | .closing _ opener => opener < lexemes.length
  | _ => True

/-- The scan comes to an end wherever its steps are six for each lexeme that is left and three above. -/
def ScanEnds (lexemes : List Lexeme) (n : Nat) (scan : Extent → Before → Read (List Member)) : Prop :=
  ∀ extent before (cursor : Cursor), extent.Within lexemes → cursor.On lexemes →
    6 * lexemes.length + 3 ≤ n + 6 * cursor.position →
    (scan extent before cursor).Ends lexemes cursor.position

def Reaches {α : Type} (lexemes : List Lexeme) (need slack n : Nat) (read : Read α) : Prop :=
  ∀ cursor : Cursor, cursor.On lexemes → cursor.position + need ≤ lexemes.length →
    6 * lexemes.length + slack ≤ n + 6 * cursor.position →
    (read cursor).Ends lexemes (cursor.position + 1)

structure MembersEnd (lexemes : List Lexeme) (n : Nat) : Prop where
  scan : ScanEnds lexemes n (scan n)
  item : ∀ extent before, Reaches lexemes 1 2 n (item n extent before)
  word : ∀ extent before lexeme, Reaches lexemes 1 1 n (wordItem n extent before lexeme)
  generic : Reaches lexemes 1 0 n (genericMember n)
  annotation : Reaches lexemes 1 0 n (annotationUse n)
  declaration : Reaches lexemes 2 0 n (typeDecl n)
  creation : Reaches lexemes 1 0 n (creation n)

theorem Reaches.stuck {α : Type} {need slack : Nat} {read : Read α} (covered : 0 < need + slack) :
    Reaches lexemes need slack 0 read := by
  intro cursor on left steps
  have bound := on.bound
  omega

theorem enclosed_ends {scan : Extent → Before → Read (List Member)} {n : Nat}
    (scans : ScanEnds lexemes n scan) (closer : Kind) (on : cursor.On lexemes)
    (inside : cursor.position < lexemes.length)
    (steps : 6 * lexemes.length ≤ n + 6 * cursor.position + 3) :
    (enclosed scan closer cursor).Ends lexemes (cursor.position + 1) := by
  refine .takeThen on inside fun opener opened index onOpened atOpened => ?_
  have within : (Extent.closing closer opener.index).Within lexemes := by
    change opener.index < lexemes.length
    omega
  exact (scans _ _ opened within onOpened (by omega)).mono (by omega)

theorem enclosedIf_ends {scan : Extent → Before → Read (List Member)} {n : Nat}
    (scans : ScanEnds lexemes n scan) (opener closer : Kind) (on : cursor.On lexemes)
    (steps : 6 * lexemes.length ≤ n + 6 * cursor.position + 3) :
    (enclosedIf scan opener closer cursor).Ends lexemes cursor.position :=
  .branch (fun seen => (enclosed_ends scans closer on (on.inside seen) steps).mono (Nat.le_succ _))
    fun _ => .pure _ on (Nat.le_refl _)

theorem passed_ends (after : Before) (on : cursor.On lexemes)
    (inside : cursor.position < lexemes.length) :
    (passed after cursor).Ends lexemes (cursor.position + 1) :=
  .takeThen on inside fun _ _ _ onBehind atBehind => .pure _ onBehind (Nat.le_of_eq atBehind.symm)

theorem semicolon_ends (extent : Extent) (on : cursor.On lexemes)
    (inside : cursor.position < lexemes.length) :
    (semicolon extent cursor).Ends lexemes (cursor.position + 1) :=
  .takeThen on inside fun _ _ _ onBehind atBehind => .pure _ onBehind (Nat.le_of_eq atBehind.symm)

theorem closed_ends (kind : Kind) (extent : Extent) (on : cursor.On lexemes)
    (inside : cursor.position < lexemes.length) :
    (closed kind extent cursor).Ends lexemes (cursor.position + 1) := by
  refine .indexThen ?_
  cases extent with
  | template => exact inside
  | member => exact inside
  | closing closer opener =>
    dsimp only
    split
    · exact .takeThen on inside fun _ _ _ onBehind atBehind =>
        .pure _ onBehind (Nat.le_of_eq atBehind.symm)
    · exact inside

theorem atEnd_ends {extent : Extent} (within : extent.Within lexemes) (on : cursor.On lexemes) :
    (atEnd extent cursor).Ends lexemes cursor.position := by
  cases extent with
  | template => exact .pure _ on (Nat.le_refl _)
  | member => exact .fail _ on
  | closing closer opener => exact within

namespace MembersEnd

variable {n : Nat}

theorem skips (ends : MembersEnd lexemes n) {base : Nat} (steps : 6 * lexemes.length ≤ n + 6 * base) :
    Skips lexemes base (annotationUse n).ignore := fun cursor on low seen =>
  (ends.annotation cursor on (on.inside seen) (by omega)).ignore

theorem scan_step (ends : MembersEnd lexemes n) : ScanEnds lexemes (n + 1) (Grammar.scan (n + 1)) := by
  intro extent before cursor within on steps
  rw [Grammar.scan]
  refine .branch (fun _ => atEnd_ends within on) fun left => ?_
  have inside : cursor.position < lexemes.length :=
    Nat.lt_of_not_le fun past => by simp [on.isEmpty_iff.mpr past] at left
  refine (ends.item extent before cursor on inside (by omega)).bind
    fun found behind _ onBehind gained => ?_
  obtain ⟨members, after⟩ := found
  cases after with
  | none => exact .pure _ onBehind (by omega)
  | some before =>
    exact (ends.scan extent before behind within onBehind (by omega)).map.mono (by omega)

theorem annotation_step (ends : MembersEnd lexemes n) :
    Reaches lexemes 1 0 (n + 1) (annotationUse (n + 1)) := by
  intro cursor on left steps
  rw [annotationUse]
  refine .takeThen on left fun _ marked _ onMarked atMarked => ?_
  refine (Outcome.Ends.takeName _ onMarked).bind fun _ named _ onNamed gained => ?_
  have names := withSteps_ends onNamed fun n => qualifiers_ends onNamed
  refine names.bind fun _ behind _ onBehind le => ?_
  exact (enclosedIf_ends ends.scan .lpar .rpar onBehind (by omega)).mono (by omega)

theorem generic_step (ends : MembersEnd lexemes n) :
    Reaches lexemes 1 0 (n + 1) (genericMember (n + 1)) := by
  intro cursor on left steps
  rw [genericMember]
  have skips : Skips lexemes (cursor.position + 1) (annotationUse n).ignore := ends.skips (by omega)
  have params := typeParams_ends skips on (Nat.le_refl _) left
  have tried : (optional (typeParams (annotationUse n).ignore) cursor).Ends lexemes cursor.position :=
    .optional on (Nat.le_refl _) (params.mono (Nat.le_succ _))
  refine tried.bind fun found behind same onBehind _ => ?_
  rcases optional_done _ _ _ _ same with ⟨list, rfl, read⟩ | ⟨rfl, rfl⟩
  · obtain ⟨-, gained⟩ := params.done read
    refine (ends.scan .member .boundary behind trivial onBehind (by omega)).bind
      fun members next _ onNext le => .pastThen ?_
    exact .pure _ onNext (by omega)
  -- Nothing was read, and the bracket is passed over.
  · exact passed_ends .other on left

theorem declaration_step (ends : MembersEnd lexemes n) :
    Reaches lexemes 2 0 (n + 1) (typeDecl (n + 1)) := by
  intro cursor on left steps
  rw [typeDecl]
  refine .indexThen ?_
  have marked : (branch (·.seesKind .atSign 0) (do let _ ← take; pure ()) (pure ()) cursor).Ends
      lexemes cursor.position := by
    refine .branch (fun seen => ?_) fun _ => .pure _ on (Nat.le_refl _)
    refine .takeThen on (on.inside seen) fun _ behind _ onBehind atBehind => ?_
    exact .pure _ onBehind (by omega)
  refine marked.bind fun _ opened same onOpened le => ?_
  have skips : Skips lexemes (cursor.position + 1) (annotationUse n).ignore := ends.skips (by omega)
  -- At most the at sign was taken, and two lexemes are there.
  have near : opened.position ≤ cursor.position + 1 := by
    simp only [branch_done, bind_done, pure_done] at same
    rcases same with ⟨-, _, _, taken, -, rfl⟩ | ⟨-, -, rfl⟩
    · obtain ⟨-, -, position, -⟩ := on.take taken
      exact Nat.le_of_eq position
    · exact Nat.le_succ _
  refine .takeThen onOpened (by omega) fun keyword worded _ onWorded atWorded => ?_
  refine (Outcome.Ends.takeName _ onWorded).bind fun name named _ onNamed gained => ?_
  have params : (branch (·.seesKind .lt 0)
      (do let params ← strict (typeParams (annotationUse n).ignore); pure (some params))
      (pure none) named).Ends lexemes named.position := by
    refine .branch (fun seen => ?_) fun _ => .pure _ onNamed (Nat.le_refl _)
    exact (typeParams_ends skips onNamed (by omega) (onNamed.inside seen)).strict.map.mono (by omega)
  refine params.bind fun params listed _ onListed forward => ?_
  refine (enclosedIf_ends ends.scan .lpar .rpar onListed (by omega)).bind
    fun header headed _ onHeaded further => ?_
  have clauses := withSteps_ends onHeaded fun n => supertypeClauses_ends skips onHeaded (by omega)
  refine clauses.bind fun supertypes behind _ onBehind more => ?_
  have brace : (branch (·.seesKind .lbrace 0) (pure ()) (fail .openBrace) behind).Ends lexemes
      behind.position :=
    .branch (fun _ => .pure _ onBehind (Nat.le_refl _)) fun _ => .fail _ onBehind
  refine brace.bind fun _ braced same onBraced _ => ?_
  simp only [branch_done, pure_done, fail_done, and_false, or_false] at same
  obtain ⟨seen, -, rfl⟩ := same
  refine (enclosed_ends ends.scan .rbrace onBehind (onBehind.inside seen) (by omega)).bind
    fun body next _ onNext last => .pastThen ?_
  exact .pure _ onNext (by omega)

theorem creation_step (ends : MembersEnd lexemes n) :
    Reaches lexemes 1 0 (n + 1) (Grammar.creation (n + 1)) := by
  intro cursor on left steps
  rw [Grammar.creation]
  refine .takeThen on left fun keyword opened _ onOpened atOpened => ?_
  have skips : Skips lexemes (cursor.position + 1) (annotationUse n).ignore := ends.skips (by omega)
  have constructorArgs : (branch (·.seesKind .lt 0)
      (do
        let args ← strict (withSteps (typeArgs (annotationUse n).ignore false))
        pure (some args))
      (pure none) opened).Ends lexemes opened.position := by
    refine .branch (fun seen => ?_) fun _ => .pure _ onOpened (Nat.le_refl _)
    exact (typeArgs_ends skips false onOpened (by omega) (onOpened.inside seen)).strict.map.mono
      (by omega)
  refine constructorArgs.bind fun found behind _ onBehind le => ?_
  refine .branch (fun ident => ?_) fun _ => .pure _ onBehind (by omega)
  refine .branch (fun _ => ?_) fun _ => ?_
  · refine .takeThen onBehind (onBehind.inside ident) fun _ next _ onNext atNext => ?_
    exact .pure _ onNext (by omega)
  refine (typeRef_ends skips true false onBehind (by omega)).strict.bind
    fun type typed _ onTyped gained => ?_
  have members : (branch (·.seesKind .lpar 0)
      (do
        let args ← enclosed (Grammar.scan n) .rpar
        let body ← enclosedIf (Grammar.scan n) .lbrace .rbrace
        pure (args ++ body))
      (pure []) typed).Ends lexemes typed.position := by
    refine .branch (fun seen => ?_) fun _ => .pure _ onTyped (Nat.le_refl _)
    refine (enclosed_ends ends.scan .rpar onTyped (onTyped.inside seen) (by omega)).bind
      fun args closed _ onClosed further => ?_
    exact (enclosedIf_ends ends.scan .lbrace .rbrace onClosed (by omega)).map.mono (by omega)
  refine members.bind fun members next _ onNext more => .pastThen ?_
  exact .pure _ onNext (by omega)

theorem word_step (ends : MembersEnd lexemes n) (extent : Extent) (before : Before) (lexeme : Lexeme) :
    Reaches lexemes 1 1 (n + 1) (wordItem (n + 1) extent before lexeme) := by
  intro cursor on left steps
  rw [wordItem]
  split
  · exact (importDecl_ends on left).map
  split
  · have package := withSteps_ends on fun n => throughSemicolon_ends on
    exact package.map
  refine .branch (fun seen => ?_) fun _ => ?_
  · simp only [Cursor.seesDeclaration, Cursor.opensTypeDecl, Bool.and_eq_true] at seen
    have name := on.inside seen.2.2.1
    exact (ends.declaration cursor on name (by omega)).map
  split
  · exact (ends.creation cursor on left (by omega)).map
  split
  · exact passed_ends _ on left
  · have skips : Skips lexemes cursor.position (annotationUse n).ignore := ends.skips (by omega)
    exact (chain_ends skips on (Nat.le_refl _) left).map

theorem item_step (ends : MembersEnd lexemes n) (extent : Extent) (before : Before) :
    Reaches lexemes 1 2 (n + 1) (Grammar.item (n + 1) extent before) := by
  intro cursor on left steps
  have enclosed (closer : Kind) := enclosed_ends ends.scan closer on left (by omega)
  cases present : cursor.rest with
  | nil => exact absurd (on.isEmpty_iff.mp (by rw [present]; rfl)) (by omega)
  | cons lexeme rest =>
    rw [Grammar.item, inspect, present]
    cases kind : lexeme.kind <;> simp only [kind]
    case rpar | rsqb | rbrace => exact closed_ends _ extent on left
    case lpar | lsqb | lbrace => exact (enclosed _).map
    case semi => exact semicolon_ends extent on left
    case atSign =>
      refine .branch (fun seen => ?_) fun _ => (ends.annotation cursor on left (by omega)).map
      exact (ends.declaration cursor on (on.inside seen) (by omega)).map
    case ident => exact ends.word extent before lexeme cursor on left (by omega)
    case dot =>
      refine .branch (fun seen => ?_) fun _ => passed_ends _ on left
      have skips : Skips lexemes cursor.position (annotationUse n).ignore := ends.skips (by omega)
      exact (witness_ends skips on (Nat.le_refl _) (on.inside seen)).map
    case lt =>
      split
      · exact ends.generic cursor on left (by omega)
      · exact passed_ends _ on left
    all_goals exact passed_ends _ on left

end MembersEnd

theorem members_end (n : Nat) : MembersEnd lexemes n := by
  induction n with
  | zero =>
    refine ⟨?_, fun _ _ => .stuck (by decide), fun _ _ _ => .stuck (by decide), .stuck (by decide),
      .stuck (by decide), .stuck (by decide), .stuck (by decide)⟩
    intro extent before cursor within on steps
    have bound := on.bound
    omega
  | succ n ih =>
    exact ⟨ih.scan_step, ih.item_step, ih.word_step,
      ih.generic_step, ih.annotation_step, ih.declaration_step, ih.creation_step⟩

theorem members_ends (lexemes : List Lexeme) : (members lexemes).Ends lexemes 0 := by
  refine (members_end _).scan .template .boundary ⟨0, lexemes⟩ trivial .begin ?_
  rw [scanSteps]
  omega

end Members

end Specializer.Grammar
