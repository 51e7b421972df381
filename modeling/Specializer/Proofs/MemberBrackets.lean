import Specializer.Proofs.MemberCapture
import Specializer.Proofs.TypeBrackets

set_option autoImplicit false

namespace Specializer.Grammar

open Read

variable {pre : Cursor → Bool}

section Parts

variable {shape : List Lexeme → Prop} [Smooth shape]

theorem qualifiers_calm (n : Nat) : Calm shape pre (qualifiers n) := by
  induction n generalizing pre with
  | zero => exact .stuck
  | succ n ih =>
    apply Calm.branch _ (.pure _)
    apply Calm.takeThen (isCalm_of_kind .dot rfl)
    next =>
      intro cursor both
      simp only [Cursor.seesDotName, Bool.and_eq_true] at both
      exact both.2
    next =>
      intro _
      apply Calm.bind _ fun _ => ih
      exact .take fun cursor seen => sees_mono seen isCalm_of_isName

theorem importedNames_calm (n : Nat) : Calm shape pre (importedNames n) := by
  induction n generalizing pre with
  | zero => exact .stuck
  | succ n ih =>
    apply Calm.branchTake (isCalm_of_kind .dot rfl) _ (.pure _)
    intro _
    apply Calm.branchTake
    next =>
      intro lexeme star
      exact isCalm_of_kind .op rfl lexeme (Bool.and_eq_true_iff.mp star).1
    next => exact fun _ => .pure _
    next => exact .bind .takeName fun _ => ih.bind fun _ => .pure _

theorem importDecl_calm : Calm shape (fun cursor => cursor.seesWord "import" 0) importDecl := by
  apply Calm.bind (.take fun cursor seen => sees_mono seen (isCalm_of_spells (by decide)))
  intro keyword
  apply Calm.bind (.branchTake (isCalm_of_spells (by decide)) (fun _ => .pure _) (.pure _))
  intro static
  apply Calm.indexThen
  intro first
  apply Calm.bind .takeName
  intro name
  apply Calm.bind (.withSteps fun n => importedNames_calm n)
  intro names
  apply Calm.bind
  next =>
    apply Calm.branch _ .fail
    exact .take fun cursor seen =>
      sees_mono (Bool.and_eq_true_iff.mp seen).2 (isCalm_of_kind .semi rfl)
  next => exact fun _ => .bind .past fun _ => .pure _

theorem supertypeClauses_calm {skip : Read Unit}
    (skips : Calm shape (fun cursor => cursor.seesKind .atSign 0) skip) (n : Nat) :
    Calm shape pre (supertypeClauses skip n) := by
  induction n generalizing pre with
  | zero => exact .stuck
  | succ n ih =>
    apply Calm.branchTake
    next =>
      intro lexeme opens
      simp only [Lexeme.opensSupertypes, Bool.and_eq_true, beq_iff_eq] at opens
      apply isCalm_of_word opens.1
      simp [lookedFor, List.contains_iff_mem.mp opens.2]
    next =>
      intro _
      apply Calm.bind (.strict (.withSteps fun n => typeList_calm skips rfl n))
      exact fun _ => ih.bind fun _ => .pure _
    next => exact .pure _

def States (cursor next : Cursor) : Prop :=
  ∃ word body last, cursor.rest = word :: (body ++ last :: next.rest) ∧
    next.position = cursor.position + body.length + 2 ∧ word.spells "package" = true ∧
    (∀ lexeme ∈ body, lexeme.kind ≠ .semi) ∧ last.kind = .semi

theorem throughSemicolon_done {n : Nat} {cursor next : Cursor} {value : Unit}
    (done : throughSemicolon n cursor = .done value next) :
    ∃ body last, cursor.rest = body ++ last :: next.rest ∧
      next.position = cursor.position + body.length + 1 ∧ (∀ lexeme ∈ body, lexeme.kind ≠ .semi) ∧
      last.kind = .semi := by
  induction n generalizing cursor with
  | zero => simp [throughSemicolon, stuck_done] at done
  | succ n ih =>
    simp only [throughSemicolon, branch_done, bind_done, pure_done, fail_done, and_false,
      false_or] at done
    rcases done with ⟨-, ⟨seen, _, middle, taken, -, rfl⟩ | ⟨unseen, _, middle, taken, more⟩⟩
    next =>
      obtain ⟨lexeme, left, position⟩ := take_done taken
      rw [Cursor.seesKind, sees_here left, beq_iff_eq] at seen
      exact ⟨[], lexeme, left, position, List.forall_mem_nil _, seen⟩
    next =>
      obtain ⟨lexeme, left, position⟩ := take_done taken
      rw [Cursor.seesKind, sees_here left, beq_eq_false_iff_ne] at unseen
      obtain ⟨body, last, behind, later, free, semicolon⟩ := ih more
      refine ⟨lexeme :: body, last, ?_, ?_, ?_, semicolon⟩
      next => rw [left, behind, List.cons_append]
      next =>
        rw [later, position, List.length_cons]
        omega
      next => exact List.forall_mem_cons.mpr ⟨unseen, free⟩

theorem throughSemicolon_states {n : Nat} {cursor next : Cursor} {value : Unit} {word : Lexeme}
    {rest : List Lexeme} (done : throughSemicolon n cursor = .done value next)
    (left : cursor.rest = word :: rest) (spelled : word.spells "package" = true) :
    States cursor next := by
  obtain ⟨body, last, whole, position, free, semicolon⟩ := throughSemicolon_done done
  rw [left] at whole
  cases body with
  | nil =>
    cases whole
    have ident := ident_of_spells spelled
    rw [semicolon] at ident
    cases ident
  | cons first body =>
    obtain ⟨rfl, rfl⟩ := List.cons.inj whole
    refine ⟨word, body, last, left, ?_, spelled, fun lexeme member => ?_, semicolon⟩
    next =>
      rw [position, List.length_cons]
      omega
    next => exact free lexeme (List.mem_cons_of_mem _ member)

theorem typeArgs_start {skip : Read Unit} {diamond : Bool} {n : Nat} {cursor next : Cursor}
    {args : TypeArgs} (done : typeArgs skip diamond n cursor = .done args next) :
    args.range.start = cursor.position := by
  cases n with
  | zero => simp [typeArgs, stuck_done] at done
  | succ n =>
    simp only [typeArgs, whole_done, bind_done, pure_done] at done
    obtain ⟨opener, middle, taken, _, _, -, _, _, -, rfl, -⟩ := done
    exact take_index taken

theorem typeParams_start {skip : Read Unit} {cursor next : Cursor} {params : TypeParams}
    (done : typeParams skip cursor = .done params next) : params.range.start = cursor.position := by
  simp only [typeParams, part_done, bind_done, pure_done] at done
  obtain ⟨opener, middle, taken, _, _, -, _, _, -, rfl, -⟩ := done
  exact take_index taken

end Parts

section Items

variable {extent : Extent} {found : Item} {cursor next : Cursor}

/-- What an item of a scan goes over. It is balanced, without the word for a package statement outside of
brackets; or with it, which cannot be at the top of a template, or which is within the range of a member that
opens with an angle bracket; or it is a package statement; or it ends the scan with the closing bracket that
the scan waits for. -/
inductive Progress (extent : Extent) (found : Item) (cursor next : Cursor) : Prop
  | calm (between : Between (Balanced notPackage) cursor next) (ends : found.2 = none → extent = .member)
  | loose (inner : extent ≠ .template) (between : Between (Balanced fun _ => true) cursor next)
      (goesOn : found.2 ≠ none)
  | covered {member : Member} {opening middle : Cursor} (own : member ∈ found.1)
      (angled : opening.seesKind .lt 0 = true) (before : Between (Balanced notPackage) cursor opening)
      (inside : Between (Balanced notPackage) opening middle) (behind : Between (Balanced fun _ => true) middle next)
      (range : member.range = ⟨opening.position, next.position⟩) (goesOn : found.2 ≠ none)
  | statement (top : extent = .template) (alone : found.1 = []) (states : States cursor next)
  | closed {closer : Kind} {opener : Nat} (awaited : extent = .closing closer opener)
      (ended : found.2 = none) (closes : Closes closer cursor next)

theorem Progress.inner (progress : Progress extent found cursor next) (inner : extent ≠ .template) :
    Between (Balanced fun _ => true) cursor next ∧ (found.2 = none → extent = .member) ∨
      ∃ closer opener, extent = .closing closer opener ∧ found.2 = none ∧
        Closes closer cursor next := by
  cases progress with
  | calm between ends => exact .inl ⟨between.loosen, ends⟩
  | loose _ between goesOn => exact .inl ⟨between, fun ended => absurd ended goesOn⟩
  | covered _ _ before inside behind _ goesOn =>
    exact .inl ⟨(before.trans inside).loosen.trans behind, fun ended => absurd ended goesOn⟩
  | statement top => exact absurd top inner
  | closed awaited ended closes => exact .inr ⟨_, _, awaited, ended, closes⟩

def declares (cursor : Cursor) : Bool :=
  (cursor.seesKind .atSign 0 && cursor.seesWord "interface" 1) ||
    cursor.sees (fun lexeme => lexeme.kind == .ident && declarationWords.contains lexeme.text) 0

structure Bracketed (n : Nat) : Prop where
  closing : ∀ closer opener before cursor members next,
    scan n (.closing closer opener) before cursor = .done members next → Closes closer cursor next
  member : ∀ before cursor members next, scan n .member before cursor = .done members next →
    Between (Balanced fun _ => true) cursor next
  item : ∀ extent before cursor found next, item n extent before cursor = .done found next →
    Progress extent found cursor next
  word : ∀ extent before cursor lexeme rest found next, cursor.rest = lexeme :: rest →
    lexeme.kind = .ident → wordItem n extent before lexeme cursor = .done found next →
    Progress extent found cursor next
  generic : ∀ extent cursor found next, cursor.seesKind .lt 0 = true →
    genericMember n cursor = .done found next → Progress extent found cursor next
  annotation : Calm (Balanced notPackage) (fun cursor => cursor.seesKind .atSign 0) (annotationUse n)
  decl : Calm (Balanced notPackage) declares (typeDecl n)
  creation : Calm (Balanced notPackage) (fun cursor => cursor.seesWord "new" 0) (creation n)

variable {n : Nat}

theorem closing_closes (bracketed : Bracketed n) {closer : Kind} {opener : Nat} {before : Before}
    {members : List Member}
    (done : scan (n + 1) (.closing closer opener) before cursor = .done members next) :
    Closes closer cursor next := by
  have goesOver {found : Item} {after : Cursor}
      (read : item n (.closing closer opener) before cursor = .done found after) :=
    (bracketed.item _ _ _ _ _ read).inner (by simp)
  rcases scan_done done with ⟨-, same, -⟩ | last | ⟨first, after, middle, rest, read, scanned, rfl⟩
  next => cases same
  next =>
    rcases goesOver last with ⟨-, goesOn⟩ | ⟨kind, place, same, -, closes⟩
    next => cases goesOn rfl
    next =>
      cases same
      exact closes
  next =>
    rcases goesOver read with ⟨between, -⟩ | ⟨-, -, -, ended, -⟩
    next => exact between.closes (bracketed.closing _ _ _ _ _ _ scanned)
    next => cases ended

theorem member_between (bracketed : Bracketed n) {before : Before} {members : List Member}
    (done : scan (n + 1) .member before cursor = .done members next) :
    Between (Balanced fun _ => true) cursor next := by
  have goesOver {found : Item} {after : Cursor} (read : item n .member before cursor = .done found after) :
      Between (Balanced fun _ => true) cursor after := by
    rcases (bracketed.item _ _ _ _ _ read).inner (by simp) with ⟨between, -⟩ | ⟨kind, place, same, -⟩
    next => exact between
    next => cases same
  rcases scan_done done with ⟨-, same, -⟩ | last | ⟨first, after, middle, rest, read, scanned, rfl⟩
  next => cases same
  next => exact goesOver last
  next => exact (goesOver read).trans (bracketed.member _ _ _ _ scanned)

theorem enclosed_calm (bracketed : Bracketed n) {opener closer : Kind}
    (pair : opener.closer? = some closer) :
    Calm (Balanced notPackage) (fun cursor => cursor.seesKind opener 0) (enclosed (scan n) closer) := by
  intro cursor members next seen done
  simp only [enclosed, bind_done] at done
  obtain ⟨name, opened, taken, scanned⟩ := done
  exact (bracketed.closing _ _ _ _ _ _ scanned).enclosed taken seen pair

theorem enclosedIf_calm (bracketed : Bracketed n) {opener closer : Kind}
    (pair : opener.closer? = some closer) : Calm (Balanced notPackage) pre (enclosedIf (scan n) opener closer) := by
  apply Calm.branch _ (.pure _)
  exact (enclosed_calm bracketed pair).mono fun cursor seen => (Bool.and_eq_true_iff.mp seen).2

theorem annotationUse_calm (bracketed : Bracketed n) :
    Calm (Balanced notPackage) (fun cursor => cursor.seesKind .atSign 0) (annotationUse (n + 1)) := by
  apply Calm.bind (.take fun cursor seen => sees_mono seen (isCalm_of_kind .atSign rfl))
  intro mark
  apply Calm.bind .takeName
  intro name
  apply Calm.bind (.withSteps fun k => qualifiers_calm k)
  exact fun _ => enclosedIf_calm bracketed rfl

theorem genericMember_progress (bracketed : Bracketed n) (opens : cursor.seesKind .lt 0 = true)
    (done : genericMember (n + 1) cursor = .done found next) :
    Progress extent found cursor next := by
  rcases generic_done done with ⟨params, middle, members, listed, scanned, rfl⟩ | ⟨name, taken, rfl⟩
  next =>
    have inside := typeParams_calm bracketed.annotation.ignore _ _ _ opens listed
    have behind := bracketed.member _ _ _ _ scanned
    have range : (⟨params.range.start, next.position⟩ : Range) = ⟨cursor.position, next.position⟩ := by
      rw [typeParams_start listed]
    exact .covered List.mem_cons_self opens (.refl _) inside behind range (Option.some_ne_none _)
  next => exact .calm (.take taken (sees_mono opens (isCalm_of_kind .lt rfl))) (by simp)

theorem requireThen_calm {α : Type} {test : Cursor → Bool} {what : Expected} {more : Unit → Read α}
    (later : ∀ value, Calm (Balanced notPackage) test (more value)) :
    Calm (Balanced notPackage) pre (branch test (pure ()) (fail what) >>= more) := by
  intro cursor result next _ done
  obtain ⟨value, middle, checked, ended⟩ := (bind_done _ _ _ _ _).mp done
  simp only [branch_done, pure_done, fail_done, and_false, or_false] at checked
  obtain ⟨holds, -, rfl⟩ := checked
  exact later value _ _ _ holds ended

theorem isCalm_of_declarationWord (lexeme : Lexeme)
    (declares : (lexeme.kind == .ident && declarationWords.contains lexeme.text) = true) :
    isCalm lexeme = true := by
  simp only [Bool.and_eq_true, beq_iff_eq] at declares
  apply isCalm_of_word declares.1
  simp [lookedFor, List.contains_iff_mem.mp declares.2]

theorem declWord_between {shape : List Lexeme → Prop} [Smooth shape] {opened : Cursor} {keyword : Name} {value : Unit}
    (seen : declares cursor = true)
    (mark : branch (fun cursor => cursor.seesKind .atSign 0) (do let _ ← take; pure ()) (pure ()) cursor =
      .done value opened)
    (taken : take opened = .done keyword next) : Between shape cursor next := by
  simp only [bind_done, branch_done, pure_done] at mark
  simp only [declares, Bool.or_eq_true, Bool.and_eq_true] at seen
  rcases mark with ⟨sign, _, _, first, -, rfl⟩ | ⟨none, -, rfl⟩
  next =>
    rcases seen with ⟨-, named⟩ | word
    next =>
      rw [Cursor.seesWord, ← sees_take first] at named
      exact (Between.take first (sees_mono sign (isCalm_of_kind .atSign rfl))).trans
        (.take taken (sees_mono named (isCalm_of_spells (by decide))))
    next =>
      obtain ⟨lexeme, left, -⟩ := take_done first
      simp only [Cursor.seesKind, sees_here left, beq_iff_eq, Bool.and_eq_true] at sign word
      rw [sign] at word
      cases word.1
  next =>
    rcases seen with ⟨sign, -⟩ | word
    next => simp [sign] at none
    next => exact .take taken (sees_mono word isCalm_of_declarationWord)

theorem declWord_calm {α : Type} {more : Name → Read α}
    (later : ∀ keyword, Calm (Balanced notPackage) anywhere (more keyword)) :
    Calm (Balanced notPackage) declares
      (branch (fun cursor => cursor.seesKind .atSign 0) (do let _ ← take; pure ()) (pure ()) >>=
        fun _ => take >>= more) := by
  intro cursor value next seen done
  obtain ⟨_, opened, mark, done⟩ := (bind_done _ _ _ _ _).mp done
  obtain ⟨keyword, worded, taken, ended⟩ := (bind_done _ _ _ _ _).mp done
  exact (declWord_between seen mark taken).trans (later keyword _ _ _ rfl ended)

theorem typeDecl_calm (bracketed : Bracketed n) : Calm (Balanced notPackage) declares (typeDecl (n + 1)) := by
  have skips := bracketed.annotation.ignore
  apply Calm.indexThen
  intro start
  apply declWord_calm
  intro keyword
  apply Calm.bind .takeName
  intro name
  apply Calm.bind
  next =>
    apply Calm.branch _ (.pure _)
    apply Calm.bind _ fun _ => .pure _
    exact .strict ((typeParams_calm skips).mono fun cursor both => (Bool.and_eq_true_iff.mp both).2)
  next =>
    intro params
    apply Calm.bind (enclosedIf_calm bracketed rfl)
    intro header
    apply Calm.bind (.withSteps fun k => supertypeClauses_calm skips k)
    intro supertypes
    apply requireThen_calm
    intro _
    apply Calm.bind (enclosed_calm bracketed rfl)
    exact fun _ => .bind .past fun _ => .pure _

theorem creation_calm (bracketed : Bracketed n) :
    Calm (Balanced notPackage) (fun cursor => cursor.seesWord "new" 0) (creation (n + 1)) := by
  have skips := bracketed.annotation.ignore
  apply Calm.bind (.take fun cursor seen => sees_mono seen (isCalm_of_spells (by decide)))
  intro keyword
  apply Calm.bind
  next =>
    apply Calm.branch _ (.pure _)
    apply Calm.bind _ fun _ => .pure _
    apply Calm.strict
    apply Calm.withSteps
    intro k
    exact ((types_calm skips k).args false).mono fun cursor both => (Bool.and_eq_true_iff.mp both).2
  next =>
    intro constructorArgs
    apply Calm.branch _ (.pure _)
    apply Calm.branchTake isCalm_of_isPrimitive (fun _ => .pure _)
    apply Calm.bind (.strict (.withSteps fun k => ((types_calm skips k).ref true false).weaken))
    intro type
    apply Calm.bind _ fun _ => .bind .past fun _ => .pure _
    apply Calm.branch _ (.pure _)
    apply Calm.bind ((enclosed_calm bracketed rfl).mono fun cursor both => (Bool.and_eq_true_iff.mp both).2)
    exact fun _ => (enclosedIf_calm bracketed rfl).bind fun _ => .pure _

theorem Between.word {allowed : Lexeme → Bool} {name : Name} (taken : Read.take cursor = .done name next)
    (ident : cursor.seesKind .ident 0 = true) (fine : cursor.sees allowed 0 = true) :
    Between (Balanced allowed) cursor next := by
  obtain ⟨lexeme, left, position⟩ := take_done taken
  rw [Cursor.seesKind, sees_here left, beq_iff_eq] at ident
  rw [sees_here left] at fine
  have other : lexeme.kind.isBracket = false := by
    rw [ident]
    rfl
  exact ⟨[lexeme], left, position, .plain other fine .nil⟩

theorem witness_progress (bracketed : Bracketed n) {use : Member} {after : Before}
    (dotted : cursor.seesKind .dot 0 = true) (angled : cursor.seesKind .lt 1 = true)
    (done : witness (annotationUse n).ignore cursor = .done use next) :
    Progress extent ([use], some after) cursor next := by
  simp only [witness, bind_done, strict_done, takeKind, branch_done, fail_done, and_false, or_false,
    pure_done] at done
  obtain ⟨dot, opened, first, args, middle, read, method, final, ⟨ident, last⟩, rfl, rfl⟩ := done
  rw [Cursor.seesKind, ← sees_take first] at angled
  have before : Between (Balanced notPackage) cursor opened :=
    .take first (sees_mono dotted (isCalm_of_kind .dot rfl))
  have inside := (types_calm bracketed.annotation.ignore _).args false _ _ _ angled read
  have range : (⟨args.range.start, method.index + 1⟩ : Range) = ⟨opened.position, next.position⟩ := by
    obtain ⟨_, _, position⟩ := take_done last
    rw [typeArgs_start read, take_index last, position]
  have behind := Between.word last ident (sees_mono ident fun _ _ => rfl)
  exact .covered List.mem_cons_self angled before inside behind range (Option.some_ne_none _)

-- A keyword that is passed may open a package statement, but not at the top of a template.
theorem keyword_progress {lexeme : Lexeme} {rest : List Lexeme} {name : Name} {after : Before}
    (left : cursor.rest = lexeme :: rest) (ident : lexeme.kind = .ident)
    (inner : ¬(extent = .template ∧ lexeme.spells "package" = true))
    (taken : take cursor = .done name next) : Progress extent ([], some after) cursor next := by
  have here : cursor.seesKind .ident 0 = true := by simp [Cursor.seesKind, sees_here left, ident]
  by_cases spelled : lexeme.spells "package" = true
  next =>
    have passed : Between (Balanced fun _ => true) cursor next :=
      .word taken here (sees_mono here fun _ _ => rfl)
    exact .loose (fun top => inner ⟨top, spelled⟩) passed (Option.some_ne_none _)
  next =>
    have calm : Between (Balanced notPackage) cursor next :=
      .word taken here (by simp [sees_here left, notPackage, spelled])
    exact .calm calm fun absent => absurd absent (Option.some_ne_none _)

theorem word_progress (bracketed : Bracketed n) {before : Before} {lexeme : Lexeme}
    {rest : List Lexeme} (left : cursor.rest = lexeme :: rest) (ident : lexeme.kind = .ident)
    (done : wordItem (n + 1) extent before lexeme cursor = .done found next) :
    Progress extent found cursor next := by
  cases word_done done with
  | imports top spells read =>
    exact .calm (importDecl_calm _ _ _ ((sees_here left _).trans spells) read) (by simp)
  | package top spells read => exact .statement top rfl (throughSemicolon_states read left spells)
  | declares undotted seen read =>
    simp only [Cursor.seesDeclaration, Bool.and_eq_true] at seen
    exact .calm (bracketed.decl _ _ _ (Bool.or_eq_true_iff.mpr (.inr seen.1)) read) (by simp)
  | creates spells read =>
    exact .calm (bracketed.creation _ _ _ ((sees_here left _).trans spells) read) (by simp)
  | keyword inner word taken => exact keyword_progress left ident inner taken
  | uses word read =>
    have name : cursor.sees Lexeme.isName 0 = true := by
      simpa [sees_here left, Lexeme.isName, Lexeme.isKeyword, ident] using word
    exact .calm (chain_calm bracketed.annotation.ignore _ _ _ name read) (by simp)

theorem item_progress (bracketed : Bracketed n) {before : Before}
    (done : item (n + 1) extent before cursor = .done found next) :
    Progress extent found cursor next := by
  obtain ⟨lexeme, rest, left, read⟩ := item_done done
  have here {kind : Kind} (same : lexeme.kind = kind) : cursor.seesKind kind 0 = true := by
    simp [Cursor.seesKind, sees_here left, same]
  cases read with
  | closes closer awaited taken => exact .closed awaited rfl (.take taken (here rfl))
  | encloses pair read last =>
    exact .calm (enclosed_calm bracketed pair _ _ _ (here rfl) read) fun ended => (last.mp ended).2
  | semicolon kind taken =>
    have calm : Between (Balanced notPackage) cursor next :=
      .take taken (sees_mono (here kind) (isCalm_of_kind .semi rfl))
    exact .calm calm fun ended => by_contra fun other => by simp [other] at ended
  | declared kind word read =>
    exact .calm (bracketed.decl _ _ _ (by simp [declares, word, here kind]) read) (by simp)
  | annotated kind read => exact .calm (bracketed.annotation _ _ _ (here kind) read) (by simp)
  | word kind read => exact bracketed.word _ _ _ _ _ _ _ left kind read
  | witness kind angled read => exact witness_progress bracketed (here kind) angled read
  | generic kind fresh read => exact bracketed.generic _ _ _ _ (here kind) read
  | passed opens closes noWord taken =>
    have mark : isMark lexeme.kind = true := by simp [isMark, Kind.isBracket, opens, closes, noWord]
    exact .calm (.take taken (sees_mono (here rfl) (isCalm_of_kind _ mark))) (by simp)

theorem members_bracketed (n : Nat) : Bracketed n := by
  induction n with
  | zero =>
    refine ⟨?_, ?_, ?_, ?_, ?_, .stuck, .stuck, .stuck⟩
    next => exact fun _ _ _ _ _ _ done => absurd done (by simp [scan, stuck_done])
    next => exact fun _ _ _ _ done => absurd done (by simp [scan, stuck_done])
    next => exact fun _ _ _ _ _ done => absurd done (by simp [item, stuck_done])
    next => exact fun _ _ _ _ _ _ _ _ _ done => absurd done (by simp [wordItem, stuck_done])
    next => exact fun _ _ _ _ _ done => absurd done (by simp [genericMember, stuck_done])
  | succ n ih =>
    exact
      { closing := fun _ _ _ _ _ _ => closing_closes ih
        member := fun _ _ _ _ => member_between ih
        item := fun _ _ _ _ _ => item_progress ih
        word := fun _ _ _ _ _ _ _ => word_progress ih
        generic := fun _ _ _ _ => genericMember_progress ih
        annotation := annotationUse_calm ih
        decl := typeDecl_calm ih
        creation := creation_calm ih }

end Items

end Specializer.Grammar
