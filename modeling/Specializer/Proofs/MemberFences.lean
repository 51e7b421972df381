import Specializer.Proofs.MemberLayout
import Specializer.Proofs.TypeFences

set_option autoImplicit false

namespace Specializer

inductive OpensAt (lexemes : List Lexeme) (start : Nat) : Prop
  | word {lexeme : Lexeme} (there : lexemes[start]? = some lexeme) (ident : lexeme.kind = .ident)
      (declares : declarationWords.contains lexeme.text = true)
  | marked {next : Nat} {lexeme : Lexeme} (sign : KindAt lexemes .atSign start)
      (after : After lexemes start next) (there : lexemes[next]? = some lexeme)
      (spelled : lexeme.spells "interface" = true)
  | bracket (opens : KindAt lexemes .lt start)

namespace Grammar

open Read

variable {α β : Type} {lexemes : List Lexeme} {good : α → Prop}

def Gives (lexemes : List Lexeme) (read : Read α) (good : α → Prop) : Prop :=
  Ensures lexemes read fun _ value _ => good value

namespace Gives

theorem pure {value : α} (holds : good value) : Gives lexemes (Pure.pure value) good := by
  intro cursor _ next on done
  obtain ⟨rfl, rfl⟩ := (pure_done _ _ _ _).mp done
  exact ⟨on, holds⟩

theorem bind {first : Read α} {more : α → Read β} {later : β → Prop} (begins : Gives lexemes first good)
    (goesOn : ∀ value, good value → Gives lexemes (more value) later) :
    Gives lexemes (first >>= more) later := by
  intro cursor result next on done
  obtain ⟨value, middle, read, done⟩ := (bind_done _ _ _ _ _).mp done
  obtain ⟨onMiddle, holds⟩ := begins _ _ _ on read
  exact goesOn value holds _ _ _ onMiddle done

theorem map {first : Read α} {make : α → β} {later : β → Prop} (begins : Gives lexemes first good)
    (makes : ∀ value, good value → later (make value)) :
    Gives lexemes (first >>= fun value => Pure.pure (make value)) later :=
  begins.bind fun value holds => pure (makes value holds)

theorem branch {test : Cursor → Bool} {yes no : Read α} (passes : Gives lexemes yes good)
    (fails : Gives lexemes no good) : Gives lexemes (Read.branch test yes no) good := by
  intro cursor value next on done
  rcases (branch_done _ _ _ _ _ _).mp done with ⟨-, done⟩ | ⟨-, done⟩
  · exact passes _ _ _ on done
  · exact fails _ _ _ on done

theorem take : Gives lexemes Read.take fun _ => True := fun _ _ _ on done =>
  ⟨(on.take done).1, trivial⟩

theorem stuck : Gives lexemes (Read.stuck : Read α) good := Ensures.stuck _

theorem fail {what : Expected} : Gives lexemes (Read.fail what) good := nofun

theorem takeName {what : Expected} : Gives lexemes (Read.takeName what) fun _ => True := branch take fail

theorem strict {read : Read α} (gives : Gives lexemes read good) :
    Gives lexemes (Read.strict read) good := fun _ _ _ on done =>
  gives _ _ _ on ((strict_done _ _ _ _).mp done)

end Gives

section Members

variable {skip : Read Unit}

theorem withSteps_gives {read : Nat → Read α} (each : ∀ n, Gives lexemes (read n) good) :
    Gives lexemes (withSteps read) good := withSteps_ensures each

theorem opened_gives {read : Read α} {cursor next : Cursor} {found : Option α}
    (reads : Ensures lexemes read fun start value _ => KindAt lexemes .lt start → good value)
    (on : cursor.On lexemes)
    (choice : (∃ value, cursor.seesKind .lt 0 = true ∧ found = some value ∧
        read cursor = .done value next) ∨ found = none ∧ next = cursor) :
    next.On lexemes ∧ ∀ value ∈ found, good value := by
  rcases choice with ⟨value, seen, rfl, done⟩ | ⟨rfl, rfl⟩
  next =>
    obtain ⟨onNext, holds⟩ := reads _ _ _ on done
    refine ⟨onNext, fun other same => ?_⟩
    cases same
    exact holds (on.kindAt seen)
  next => exact ⟨on, nofun⟩

section Types

variable (meaningful : Meaningful lexemes) (skips : Forward lexemes skip)

include meaningful skips

theorem typeRef_gives (diamond dims : Bool) :
    Gives lexemes (withSteps (typeRef skip diamond dims)) fun ref => (Subtree.ref ref).AllWritten lexemes := by
  intro cursor ref next on done
  obtain ⟨onNext, entered⟩ := typeRef_written meaningful skips diamond dims _ _ _ on done
  exact ⟨onNext, entered.good⟩

theorem explicitArgs_written :
    Ensures lexemes (withSteps (typeArgs skip false)) fun start list _ =>
      KindAt lexemes .lt start → (Subtree.args list).AllWritten lexemes := by
  intro cursor list next on done
  obtain ⟨onNext, given⟩ := typeArgs_written meaningful skips false _ _ _ on done
  exact ⟨onNext, fun opens => (given opens).written⟩

theorem supertypeClauses_written (n : Nat) :
    Gives lexemes (supertypeClauses skip n) fun refs =>
      ∀ ref ∈ refs, (Subtree.ref ref).AllWritten lexemes := by
  induction n with
  | zero => exact .stuck
  | succ n ih =>
    rw [supertypeClauses]
    have listed : Gives lexemes (withSteps (typeList skip .comma)) fun refs =>
        ∀ ref ∈ refs, (Subtree.ref ref).AllWritten lexemes := by
      intro cursor refs next on done
      obtain ⟨onNext, -, each⟩ := withSteps_ensures (typeList_written meaningful skips .comma) _ _ _ on done
      exact ⟨onNext, each⟩
    refine .branch (Gives.take.bind fun _ _ => ?_) (.pure (List.forall_mem_nil _))
    refine listed.strict.bind fun refs first => ih.map fun more rest ref member => ?_
    rcases List.mem_append.mp member with there | there
    next => exact first ref there
    next => exact rest ref there

end Types

theorem importedNames_written (n : Nat) :
    Ensures lexemes (importedNames n) fun start found _ => SegmentsJoined lexemes found.1 ∧
      (found.1 = [] ∨ KindAt lexemes .dot start ∧ ∀ segment ∈ found.1, start < segment.name.index) := by
  induction n with
  | zero => exact .stuck _
  | succ n ih =>
    intro cursor found next on done
    simp only [importedNames, takeName, branch_done, bind_done, fail_done, and_false, or_false,
      pure_done] at done
    rcases done with ⟨seen, _, dotted, dot, ⟨-, _, middle, star, rfl, rfl⟩ |
      ⟨-, name, named, ⟨-, taken⟩, rest, final, read, rfl, rfl⟩⟩ | ⟨-, rfl, rfl⟩
    next =>
      obtain ⟨onDotted, -⟩ := on.take dot
      exact ⟨(onDotted.take star).1, List.forall_mem_nil _, .inl rfl⟩
    next =>
      obtain ⟨onDotted, -, afterDot, -⟩ := on.take dot
      obtain ⟨onNamed, index, afterName, -⟩ := onDotted.take taken
      obtain ⟨onNext, joined, later⟩ := ih _ _ _ onNamed read
      refine ⟨onNext, SegmentsJoined.plain.append joined, .inr ⟨on.kindAt seen, fun segment member => ?_⟩⟩
      rcases List.mem_cons.mp member with rfl | behind
      next =>
        rw [Segment.name]
        omega
      next =>
        rcases later with none | ⟨-, further⟩
        next =>
          rw [none] at behind
          cases behind
        next =>
          have order := further segment behind
          omega
    next => exact ⟨on, List.forall_mem_nil _, .inl rfl⟩

/-- A condition on members that holds of each if it holds of those inside, by the way that members are read. -/
structure Admits (lexemes : List Lexeme) (fine : Member → Prop) : Prop where
  typeUse : ∀ {ref : TypeRef}, (Subtree.ref ref).AllWritten lexemes → fine (.typeUse ref)
  importDecl : ∀ {range : Range} {ref : TypeRef} {isStatic onDemand : Bool},
    (Subtree.ref ref).AllWritten lexemes → fine (.importDecl range ref isStatic onDemand)
  typeDecl : ∀ {range : Range} {keyword name : Name} {params : Option TypeParams}
    {supertypes : List TypeRef} {members : List Member}, OpensAt lexemes range.start →
    (∀ list ∈ params, (Subtree.params list).AllWritten lexemes) →
    (∀ ref ∈ supertypes, (Subtree.ref ref).AllWritten lexemes) → (∀ member ∈ members, fine member) →
      fine (.typeDecl range keyword name params supertypes members)
  methodDecl : ∀ {range : Range} {params : TypeParams} {members : List Member},
    OpensAt lexemes range.start → (Subtree.params params).AllWritten lexemes →
    (∀ member ∈ members, fine member) → fine (.methodDecl range params members)
  creation : ∀ {range : Range} {type : TypeRef} {members : List Member} {constructorArgs : Option TypeArgs},
    (Subtree.ref type).AllWritten lexemes → (∀ member ∈ members, fine member) →
    (∀ list ∈ constructorArgs, (Subtree.args list).AllWritten lexemes) →
      fine (.creation range type members constructorArgs)
  witness : ∀ {range : Range} {args : TypeArgs} {method : Name}, (Subtree.args args).AllWritten lexemes →
    fine (.witness range args method)

variable {fine : Member → Prop} (admits : Admits lexemes fine)

include admits in
theorem witness_fine (meaningful : Meaningful lexemes) (skips : Forward lexemes skip) :
    Ensures lexemes (witness skip) fun start member _ =>
      KindAt lexemes .lt (start + 1) → fine member := by
  intro cursor member next on done
  simp only [witness, takeKind, bind_done, branch_done, strict_done, fail_done, and_false, or_false,
    pure_done] at done
  obtain ⟨_, dotted, dot, list, behind, read, method, final, ⟨-, taken⟩, rfl, rfl⟩ := done
  obtain ⟨onDotted, -, position, -⟩ := on.take dot
  obtain ⟨onBehind, given⟩ := explicitArgs_written meaningful skips _ _ _ onDotted read
  obtain ⟨onNext, -⟩ := onBehind.take taken
  exact ⟨onNext, fun opens => admits.witness (given (position ▸ opens))⟩

include admits in
theorem importDecl_fine (meaningful : Meaningful lexemes) : Gives lexemes importDecl fine := by
  rw [importDecl]
  refine Gives.take.bind fun keyword _ => ?_
  have marked : Gives lexemes (branch (·.seesWord "static" 0) (do let _ ← take; pure true) (pure false))
      fun _ => True := .branch (Gives.take.map fun _ _ => trivial) (.pure trivial)
  refine marked.bind fun isStatic _ => ?_
  intro cursor member next on done
  simp only [takeName, takeKind, branch_done, bind_done, fail_done, and_false, or_false, index_done, past_done,
    pure_done] at done
  obtain ⟨_, _, ⟨rfl, rfl⟩, name, named, ⟨-, taken⟩, ⟨more, onDemand⟩, last, read, _, ended, ⟨-, semicolon⟩,
    _, _, ⟨rfl, rfl⟩, rfl, rfl⟩ := done
  obtain ⟨onNamed, index, position, -⟩ := on.take taken
  rw [← index]
  obtain ⟨onLast, joined, further⟩ := withSteps_ensures importedNames_written _ _ _ onNamed read
  obtain ⟨onNext, -⟩ := onLast.take semicolon
  have written : SegmentsWritten lexemes name.index (.plain name :: more)
      (segmentsEnd (.plain name :: more)) := by
    refine ⟨⟨.plain name, more, rfl, rfl, ?_⟩, SegmentsJoined.plain.append joined⟩
    rw [Segment.last]
    rcases further with rfl | ⟨dot, behind⟩
    next => exact .inl ⟨rfl, rfl⟩
    next =>
      by_cases alone : more = []
      next =>
        subst alone
        exact .inl ⟨rfl, rfl⟩
      next =>
        refine .inr ⟨?_, ?_, alone⟩
        next => exact (show named.position = name.index + 1 by omega) ▸ dot
        next =>
          -- The reference ends with the last of its names, which stands behind that dot.
          have found := List.getLast?_eq_some_getLast alone
          have order := behind _ (List.getLast_mem alone)
          have ends : segmentsEnd (.plain name :: more) = (more.getLast alone).name.index + 1 := by
            rw [segmentsEnd, List.getLast?_cons, found]
            rfl
          omega
  exact ⟨onNext, admits.importDecl (written.ref meaningful (.inl ⟨rfl, rfl⟩))⟩

abbrev AllFine (fine : Member → Prop) (members : List Member) : Prop := ∀ member ∈ members, fine member

abbrev ItemFine (fine : Member → Prop) (item : Item) : Prop := AllFine fine item.1

theorem fine_append {first second : List Member} (left : AllFine fine first) (right : AllFine fine second) :
    AllFine fine (first ++ second) := List.forall_mem_append.mpr ⟨left, right⟩

theorem fine_singleton {member : Member} (holds : fine member) : AllFine fine [member] :=
  List.forall_mem_singleton.mpr holds

theorem enclosed_fine {scan : Extent → Before → Read (List Member)}
    (scans : ∀ extent before, Gives lexemes (scan extent before) (AllFine fine)) (closer : Kind) :
    Gives lexemes (enclosed scan closer) (AllFine fine) :=
  Gives.take.bind fun _ _ => scans _ _

theorem enclosedIf_fine {scan : Extent → Before → Read (List Member)}
    (scans : ∀ extent before, Gives lexemes (scan extent before) (AllFine fine))
    (opener closer : Kind) : Gives lexemes (enclosedIf scan opener closer) (AllFine fine) :=
  .branch (enclosed_fine scans closer) (.pure nofun)

structure MembersFine (lexemes : List Lexeme) (fine : Member → Prop) (n : Nat) : Prop where
  scan : ∀ extent before, Gives lexemes (scan n extent before) (AllFine fine)
  item : ∀ extent before, Gives lexemes (item n extent before) (ItemFine fine)
  word : ∀ extent before lexeme, Gives lexemes (wordItem n extent before lexeme) (ItemFine fine)
  generic : Ensures lexemes (genericMember n) fun start item _ =>
    KindAt lexemes .lt start → ItemFine fine item
  annotation : Gives lexemes (annotationUse n) (AllFine fine)
  declaration : Ensures lexemes (typeDecl n) fun start member _ => OpensAt lexemes start → fine member
  creation : Gives lexemes (creation n) (AllFine fine)

theorem qualifiers_gives (n : Nat) : Gives lexemes (qualifiers n) fun _ => True := by
  induction n with
  | zero => exact .stuck
  | succ n ih =>
    exact .branch (Gives.take.bind fun _ _ => Gives.take.bind fun _ _ => ih) (.pure trivial)

theorem throughSemicolon_gives (n : Nat) : Gives lexemes (throughSemicolon n) fun _ => True := by
  induction n with
  | zero => exact .stuck
  | succ n ih =>
    refine .branch .fail (.branch (Gives.take.map fun _ _ => trivial) ?_)
    exact Gives.take.bind fun _ _ => ih

namespace MembersFine

variable {n : Nat}

theorem scan_step (inside : MembersFine lexemes fine n) (extent : Extent) (before : Before) :
    Gives lexemes (Grammar.scan (n + 1) extent before) (AllFine fine) := by
  intro cursor members next on done
  rcases scan_done done with ⟨-, -, rfl, rfl⟩ | last | ⟨first, after, middle, rest, read, scanned, rfl⟩
  next => exact ⟨on, List.forall_mem_nil _⟩
  next => exact inside.item extent before _ _ _ on last
  next =>
    obtain ⟨onMiddle, left⟩ := inside.item extent before _ _ _ on read
    obtain ⟨onNext, right⟩ := inside.scan extent after _ _ _ onMiddle scanned
    exact ⟨onNext, fine_append left right⟩

theorem annotation_step (inside : MembersFine lexemes fine n) :
    Gives lexemes (annotationUse (n + 1)) (AllFine fine) := by
  rw [annotationUse]
  refine Gives.take.bind fun _ _ => Gives.takeName.bind fun _ _ => ?_
  exact (withSteps_gives qualifiers_gives).bind fun _ _ => enclosedIf_fine inside.scan _ _

section Steps

variable (admits : Admits lexemes fine) (meaningful : Meaningful lexemes)
  (skips : Forward lexemes (annotationUse n).ignore) (inside : MembersFine lexemes fine n)

include admits meaningful skips inside

theorem item_step (extent : Extent) (before : Before) :
    Gives lexemes (Grammar.item (n + 1) extent before) (ItemFine fine) := by
  intro cursor found next on done
  obtain ⟨lexeme, rest, left, read⟩ := item_done done
  have here := on.lexeme left
  cases read with
  | closes closer awaited taken => exact ⟨(on.take taken).1, List.forall_mem_nil _⟩
  | encloses pair read last => exact enclosed_fine inside.scan _ _ _ _ on read
  | semicolon kind taken => exact ⟨(on.take taken).1, List.forall_mem_nil _⟩
  | declared kind word read =>
    obtain ⟨opener, there, spelled⟩ := on.sees word
    have further := (List.getElem?_eq_some_iff.mp there).1
    obtain ⟨onNext, holds⟩ := inside.declaration _ _ _ on read
    have opens : OpensAt lexemes cursor.position :=
      .marked ⟨lexeme, here, kind⟩ (meaningful.after further) there spelled
    exact ⟨onNext, fine_singleton (holds opens)⟩
  | annotated kind read => exact inside.annotation _ _ _ on read
  | word kind read => exact inside.word extent before lexeme _ _ _ on read
  | witness kind angled read =>
    obtain ⟨onNext, holds⟩ := witness_fine admits meaningful skips _ _ _ on read
    obtain ⟨opener, there, opens⟩ := on.sees angled
    exact ⟨onNext, fine_singleton (holds ⟨opener, there, by simpa using opens⟩)⟩
  | generic kind fresh read =>
    obtain ⟨onNext, holds⟩ := inside.generic _ _ _ on read
    exact ⟨onNext, holds ⟨lexeme, here, kind⟩⟩
  | passed opens closes noWord taken => exact ⟨(on.take taken).1, List.forall_mem_nil _⟩

theorem word_step (extent : Extent) (before : Before) (lexeme : Lexeme) :
    Gives lexemes (wordItem (n + 1) extent before lexeme) (ItemFine fine) := by
  intro cursor found next on done
  cases word_done done with
  | imports top spells read =>
    obtain ⟨onNext, holds⟩ := importDecl_fine admits meaningful _ _ _ on read
    exact ⟨onNext, fine_singleton holds⟩
  | package top spells read =>
    exact ⟨(withSteps_gives throughSemicolon_gives _ _ _ on read).1, List.forall_mem_nil _⟩
  | declares undotted seen read =>
    simp only [Cursor.seesDeclaration, Bool.and_eq_true] at seen
    obtain ⟨word, there, opens⟩ := on.sees seen.1
    obtain ⟨ident, declares⟩ := Bool.and_eq_true_iff.mp opens
    obtain ⟨onNext, holds⟩ := inside.declaration _ _ _ on read
    exact ⟨onNext, fine_singleton (holds (.word there (eq_of_beq ident) declares))⟩
  | creates spells read => exact inside.creation _ _ _ on read
  | keyword inner word taken => exact ⟨(on.take taken).1, List.forall_mem_nil _⟩
  | uses word read =>
    obtain ⟨onNext, each⟩ := chain_written meaningful skips _ _ _ on read
    refine ⟨onNext, fun member inside => ?_⟩
    obtain ⟨ref, there, rfl⟩ := List.mem_map.mp inside
    exact admits.typeUse (each ref (by simpa using there))

theorem generic_step :
    Ensures lexemes (genericMember (n + 1)) fun start item _ =>
      KindAt lexemes .lt start → ItemFine fine item := by
  intro cursor found next on done
  rcases generic_done done with ⟨list, middle, members, listed, scanned, rfl⟩ | ⟨name, taken, rfl⟩
  next =>
    obtain ⟨onMiddle, params⟩ := typeParams_written meaningful skips _ _ _ on listed
    obtain ⟨onNext, each⟩ := inside.scan _ _ _ _ _ onMiddle scanned
    exact ⟨onNext, fun opens => fine_singleton
      (admits.methodDecl (.bracket (params opens).here.opens) (params opens) each)⟩
  next => exact ⟨(on.take taken).1, fun _ => List.forall_mem_nil _⟩

theorem declaration_step :
    Ensures lexemes (typeDecl (n + 1)) fun start member _ => OpensAt lexemes start → fine member := by
  intro cursor member next on done
  obtain @⟨opened, worded, named, listed, headed, clauses, keyword, name, params, header, body,
    supertypes, mark, word, declares, lists, heads, extends_, -, encloses⟩ := decl_done done
  have marked : Gives lexemes (branch (·.seesKind .atSign 0) (do let _ ← take; pure ()) (pure ()))
      fun _ => True := .branch (Gives.take.map fun _ _ => trivial) (.pure trivial)
  obtain ⟨onOpened, -⟩ := marked _ _ _ on mark
  obtain ⟨onNamed, -⟩ := Gives.takeName _ _ _ (onOpened.take word).1 declares
  obtain ⟨onListed, ofParams⟩ := opened_gives (typeParams_written meaningful skips) onNamed lists
  obtain ⟨onHeaded, first⟩ := enclosedIf_fine inside.scan _ _ _ _ _ onListed heads
  obtain ⟨onClauses, ofTypes⟩ :=
    withSteps_gives (supertypeClauses_written meaningful skips) _ _ _ onHeaded extends_
  obtain ⟨onNext, rest⟩ := enclosed_fine inside.scan _ _ _ _ onClauses encloses
  exact ⟨onNext, fun opens => admits.typeDecl opens ofParams ofTypes (fine_append first rest)⟩

theorem creation_step : Gives lexemes (Grammar.creation (n + 1)) (AllFine fine) := by
  intro cursor members next on done
  obtain ⟨keyword, worded, constructorArgs, behind, taken, explicit, created⟩ := creation_done done
  obtain ⟨onWorded, -⟩ := on.take taken
  obtain ⟨onBehind, ofArgs⟩ := opened_gives (explicitArgs_written meaningful skips) onWorded explicit
  have typed := typeRef_gives meaningful skips true false
  cases created with
  | nothing => exact ⟨onBehind, List.forall_mem_nil _⟩
  | array primitive second => exact ⟨(onBehind.take second).1, List.forall_mem_nil _⟩
  | plain read =>
    obtain ⟨onNext, ofType⟩ := typed _ _ _ onBehind read
    exact ⟨onNext, fine_singleton (admits.creation ofType (List.forall_mem_nil _) ofArgs)⟩
  | called read opens calls encloses =>
    obtain ⟨onTyped, ofType⟩ := typed _ _ _ onBehind read
    obtain ⟨onClosed, first⟩ := enclosed_fine inside.scan _ _ _ _ onTyped calls
    obtain ⟨onNext, rest⟩ := enclosedIf_fine inside.scan _ _ _ _ _ onClosed encloses
    exact ⟨onNext, fine_singleton (admits.creation ofType (fine_append first rest) ofArgs)⟩

end Steps

end MembersFine

include admits in
theorem members_fine (meaningful : Meaningful lexemes) (n : Nat) : MembersFine lexemes fine n := by
  induction n with
  | zero =>
    exact ⟨fun _ _ => .stuck, fun _ _ => .stuck, fun _ _ _ => .stuck, .stuck _, .stuck, .stuck _, .stuck⟩
  | succ n ih =>
    have skips := (members_laid meaningful n).skips
    exact ⟨ih.scan_step, ih.item_step admits meaningful skips, ih.word_step admits meaningful skips,
      ih.generic_step admits meaningful skips, ih.annotation_step,
      ih.declaration_step admits meaningful skips, ih.creation_step admits meaningful skips⟩

end Members

-- Every way to read a member makes it of types that are written as types are.
theorem written_admits : Admits lexemes fun member => member.subtree.AllWritten lexemes where
  typeUse written := written
  importDecl written := by
    refine .intro trivial fun child inside => ?_
    cases List.mem_singleton.mp inside
    exact written
  typeDecl _ params supertypes members := by
    refine .intro trivial fun child member => ?_
    simp only [Member.subtree, Subtree.children, List.mem_append, List.mem_map] at member
    rcases member with (⟨list, there, rfl⟩ | ⟨ref, there, rfl⟩) | ⟨member, there, rfl⟩
    · exact params list (by simpa using there)
    · exact supertypes ref there
    · exact members member there
  methodDecl _ params members := by
    refine .intro trivial fun child member => ?_
    rcases List.mem_cons.mp member with rfl | inside
    · exact params
    · obtain ⟨other, there, rfl⟩ := List.mem_map.mp inside
      exact members other there
  creation type members list := by
    refine .intro trivial fun child member => ?_
    simp only [Member.subtree, Subtree.children, List.mem_append, List.mem_cons, List.mem_map] at member
    rcases member with (rfl | ⟨member, there, rfl⟩) | ⟨args, there, rfl⟩
    · exact type
    · exact members member there
    · exact list args (by simpa using there)
  witness args := by
    refine .intro trivial fun child inside => ?_
    cases List.mem_singleton.mp inside
    exact args

end Grammar

end Specializer
