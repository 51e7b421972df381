import Specializer.Proofs.MemberReading
import Specializer.Proofs.TypeCapture

set_option autoImplicit false

namespace Specializer.Grammar

open Read

variable {lexemes : List Lexeme}

/-- Nothing is passed over without a look at its names. -/
structure Exposed (lexemes : List Lexeme) : Prop where
  annotations : Unannotated lexemes
  packages : ∀ lexeme ∈ lexemes, lexeme.spells "package" = false
  constructors : ∀ (index : Nat) (first second : Lexeme), lexemes[index]? = some first →
    lexemes[index + 1]? = some second → first.spells "new" = true → second.kind ≠ .lt

theorem exposed_iff : Exposed lexemes ↔
    (∀ lexeme ∈ lexemes, lexeme.kind ≠ .atSign ∧ lexeme.spells "package" = false) ∧
      ∀ pair ∈ lexemes.zip lexemes.tail, pair.1.spells "new" = true → pair.2.kind ≠ .lt := by
  constructor
  · intro exposed
    refine ⟨fun lexeme member =>
      ⟨exposed.annotations lexeme member, exposed.packages lexeme member⟩, ?_⟩
    rintro ⟨first, second⟩ member
    obtain ⟨index, there⟩ := List.mem_iff_getElem?.mp member
    obtain ⟨left, right⟩ := List.getElem?_zip_eq_some.mp there
    rw [List.getElem?_tail] at right
    exact exposed.constructors index first second left right
  · rintro ⟨single, pairs⟩
    refine ⟨fun lexeme member => (single lexeme member).1, fun lexeme member =>
      (single lexeme member).2, fun index first second left right => ?_⟩
    rw [← List.getElem?_tail] at right
    have there : (lexemes.zip lexemes.tail)[index]? = some (first, second) :=
      List.getElem?_zip_eq_some.mpr ⟨left, right⟩
    exact pairs _ (List.mem_of_getElem? there)

instance : Decidable (Exposed lexemes) := decidable_of_iff _ exposed_iff.symm

theorem plain_lexeme {index : Nat} {lexeme : Lexeme} (found : lexemes[index]? = some lexeme)
    (plain : lexeme.kind = .ident → hasPlaceholder lexeme.text = false) : PlainAt lexemes index := by
  rintro name place ⟨stands, has⟩
  rw [Name.Stands, place, found] at stands
  cases stands
  rw [plain rfl] at has
  cases has

theorem plain_spelled {lexeme : Lexeme} {word : String} (spelled : lexeme.spells word = true)
    (plain : hasPlaceholder word.toList = false) : hasPlaceholder lexeme.text = false := by
  simp only [Lexeme.spells, Bool.and_eq_true, beq_iff_eq] at spelled
  rw [spelled.2, plain]

theorem membersRecorded_append (first second : List Member) :
    membersRecorded (first ++ second) = membersRecorded first ++ membersRecorded second := by
  simp [membersRecorded_eq]

section Imports

theorem takeName_catches {what : Expected} {cursor next : Cursor} {name : Name}
    (on : cursor.On lexemes) (done : takeName what cursor = .done name next) :
    next.On lexemes ∧ Caught lexemes cursor.position [name] next.position := by
  simp only [takeName, branch_done, fail_done, and_false, or_false] at done
  exact ⟨(on.take done.2).1, .one on done.2⟩

theorem importedNames_catches (n : Nat) :
    Catches lexemes (importedNames n) fun found => segmentsRecorded found.1 := by
  induction n with
  | zero => exact .stuck _
  | succ n ih =>
    intro cursor found next on done
    simp only [importedNames, branch_done, bind_done, pure_done] at done
    rcases done with ⟨seen, _, dotted, dot, choice⟩ | ⟨-, rfl, rfl⟩
    · obtain ⟨onDotted, -, afterDot, -⟩ := on.take dot
      have behindDot : Caught lexemes cursor.position [] dotted.position :=
        (Caught.none _).behind (on.plainKind seen (by decide)) afterDot
      rcases choice with ⟨star, _, starred, taken, rfl, rfl⟩ |
        ⟨-, name, named, taken, rest, final, more, rfl, rfl⟩
      · obtain ⟨onNext, -, afterStar, -⟩ := onDotted.take taken
        have plain := onDotted.plain star fun lexeme passes ident => by simp [ident] at passes
        exact ⟨onNext, by simpa [segmentsRecorded] using behindDot.behind plain afterStar⟩
      · obtain ⟨onNamed, first⟩ := takeName_catches onDotted taken
        obtain ⟨onNext, later⟩ := ih _ _ _ onNamed more
        refine ⟨onNext, ?_⟩
        simpa [segmentsRecorded] using (behindDot.append first).append later
    · exact ⟨on, by simpa [segmentsRecorded] using Caught.none _⟩

theorem importDecl_catches : CatchesBehind lexemes importDecl Member.recorded := by
  intro cursor member next on done
  simp only [importDecl, takeKind, bind_done, branch_done, fail_done, and_false, or_false,
    index_done, past_done, pure_done] at done
  obtain ⟨keyword, word, taken, static, _, choice, _, behind, ⟨rfl, rfl⟩, name, named, first,
    ⟨more, onDemand⟩, last, read, _, ended, ⟨seen, semicolon⟩, _, _, ⟨rfl, rfl⟩, rfl, rfl⟩ := done
  obtain ⟨onWord, -, afterWord, -⟩ := on.take taken
  have passed : behind.On lexemes ∧ Caught lexemes word.position [] behind.position := by
    rcases choice with ⟨sees, _, middle, taken, rfl, rfl⟩ | ⟨-, rfl, rfl⟩
    · obtain ⟨onBehind, -, position, -⟩ := onWord.take taken
      exact ⟨onBehind, (Caught.none _).behind (onWord.plainWord sees (by decide)) position⟩
    · exact ⟨onWord, .none _⟩
  obtain ⟨onBehind, start⟩ := passed
  obtain ⟨onNamed, named⟩ := takeName_catches onBehind first
  obtain ⟨onLast, rest⟩ := withSteps_ensures importedNames_catches _ _ _ onNamed read
  obtain ⟨onNext, -, afterLast, -⟩ := onLast.take semicolon
  have all := ((start.append named).append rest).behind (onLast.plainKind seen (by decide)) afterLast
  rw [afterWord] at all
  exact ⟨onNext, by simpa [Member.recorded, TypeRef.recorded, segmentsRecorded] using all⟩

end Imports

theorem supertypeClauses_catches (exposed : Exposed lexemes) {skip : Read Unit} (n : Nat) :
    Catches lexemes (supertypeClauses skip n) fun refs => refs.flatMap TypeRef.recorded := by
  induction n with
  | zero => exact .stuck _
  | succ n ih =>
    intro cursor refs next on done
    simp only [supertypeClauses, branch_done, bind_done, strict_done, pure_done] at done
    rcases done with ⟨seen, _, word, taken, first, middle, read, more, final, rest, rfl, rfl⟩ |
      ⟨-, rfl, rfl⟩
    · obtain ⟨onWord, -, position, -⟩ := on.take taken
      have plain : PlainAt lexemes cursor.position := by
        refine on.plain seen fun lexeme passes _ => ?_
        simp only [Lexeme.opensSupertypes, Bool.and_eq_true] at passes
        exact plain_of_words (by decide) passes.2
      obtain ⟨onMiddle, here⟩ :=
        withSteps_ensures (typeList_catches exposed.annotations (by decide)) _ _ _ onWord read
      obtain ⟨onNext, later⟩ := ih _ _ _ onMiddle rest
      rw [position] at here
      refine ⟨onNext, ?_⟩
      simpa using (here.before plain).append later
    · exact ⟨on, .none _⟩

section Scans

abbrev itemRecorded (item : Item) : List Name := membersRecorded item.1

theorem taken_catches {after : Option Before} {cursor next : Cursor} {name : Name}
    (on : cursor.On lexemes) (plain : PlainAt lexemes cursor.position)
    (taken : take cursor = .done name next) :
    next.On lexemes ∧ Caught lexemes cursor.position (itemRecorded ([], after)) next.position := by
  obtain ⟨onNext, -, position, -⟩ := on.take taken
  refine ⟨onNext, ?_⟩
  simpa [itemRecorded, membersRecorded] using (Caught.none _).behind plain position

theorem enclosed_catches {scan : Extent → Before → Read (List Member)}
    (scans : ∀ extent before, Catches lexemes (scan extent before) membersRecorded) (closer : Kind) :
    CatchesBehind lexemes (enclosed scan closer) membersRecorded := by
  intro cursor members next on done
  simp only [enclosed, bind_done] at done
  obtain ⟨opener, opened, taken, read⟩ := done
  obtain ⟨onOpened, -, position, -⟩ := on.take taken
  obtain ⟨onNext, caught⟩ := scans _ _ _ _ _ onOpened read
  rw [position] at caught
  exact ⟨onNext, caught⟩

theorem enclosedIf_catches {scan : Extent → Before → Read (List Member)}
    (scans : ∀ extent before, Catches lexemes (scan extent before) membersRecorded)
    {opener : Kind} (opens : opener ≠ .ident) (closer : Kind) :
    Catches lexemes (enclosedIf scan opener closer) membersRecorded := by
  intro cursor members next on done
  simp only [enclosedIf, branch_done, pure_done] at done
  rcases done with ⟨seen, read⟩ | ⟨-, rfl, rfl⟩
  · obtain ⟨onNext, caught⟩ := enclosed_catches scans closer _ _ _ on read
    exact ⟨onNext, caught.before (on.plainKind seen opens)⟩
  · exact ⟨on, by simpa [membersRecorded] using Caught.none _⟩

structure MembersCatch (lexemes : List Lexeme) (n : Nat) : Prop where
  scan : ∀ extent before, Catches lexemes (scan n extent before) membersRecorded
  item : ∀ extent before, Catches lexemes (item n extent before) itemRecorded
  word : ∀ extent before cursor lexeme item next, cursor.On lexemes →
    lexemes[cursor.position]? = some lexeme →
    wordItem n extent before lexeme cursor = .done item next →
    next.On lexemes ∧ Caught lexemes cursor.position (itemRecorded item) next.position
  generic : CatchesBehind lexemes (genericMember n) itemRecorded
  decl : CatchesBehind lexemes (typeDecl n) Member.recorded
  creation : ∀ cursor members next, cursor.On lexemes → cursor.seesWord "new" 0 = true →
    creation n cursor = .done members next →
    next.On lexemes ∧ Caught lexemes (cursor.position + 1) (membersRecorded members) next.position

namespace MembersCatch

variable {n : Nat} (caught : MembersCatch lexemes n)

include caught

theorem scan_step (extent : Extent) (before : Before) :
    Catches lexemes (Grammar.scan (n + 1) extent before) membersRecorded := by
  intro cursor members next on done
  rcases scan_done done with ⟨-, -, rfl, rfl⟩ | last | ⟨first, after, middle, rest, read, scanned, rfl⟩
  · exact ⟨on, by simpa [membersRecorded] using Caught.none _⟩
  · exact caught.item extent before _ _ _ on last
  · obtain ⟨onMiddle, here⟩ := caught.item extent before _ _ _ on read
    obtain ⟨onNext, later⟩ := caught.scan extent after _ _ _ onMiddle scanned
    exact ⟨onNext, by simpa [membersRecorded_append] using here.append later⟩

theorem generic_step (exposed : Exposed lexemes) :
    CatchesBehind lexemes (genericMember (n + 1)) itemRecorded := by
  intro cursor item next on done
  rcases generic_done done with ⟨params, middle, members, listed, scanned, rfl⟩ | ⟨name, taken, rfl⟩
  · obtain ⟨onMiddle, first⟩ := typeParams_catches exposed.annotations _ _ _ on listed
    obtain ⟨onNext, later⟩ := caught.scan .member .boundary _ _ _ onMiddle scanned
    refine ⟨onNext, ?_⟩
    simpa [itemRecorded, membersRecorded, Member.recorded] using first.append later
  -- No type parameters after all: only the bracket is passed over.
  · obtain ⟨onNext, -, position, -⟩ := on.take taken
    refine ⟨onNext, ?_⟩
    simpa [itemRecorded, membersRecorded, position] using Caught.none _

theorem decl_step (exposed : Exposed lexemes) :
    CatchesBehind lexemes (typeDecl (n + 1)) Member.recorded := by
  intro cursor member next on done
  obtain @⟨opened, worded, named, listed, headed, clauses, keyword, name, params, header, body,
    supertypes, mark, word, declares, lists, heads, extends_, opens, encloses⟩ := decl_done done
  -- No at sign stands here, so the declaration begins with its word.
  simp only [branch_done, pure_done, exposed.annotations.sees on, Bool.false_eq_true, false_and,
    true_and, false_or] at mark
  subst mark
  obtain ⟨onWorded, -, afterWord, -⟩ := on.take word
  obtain ⟨onNamed, ofName⟩ := takeName_catches onWorded declares
  have declared : listed.On lexemes ∧ Caught lexemes named.position
      (params.toList.flatMap TypeParams.recorded) listed.position := by
    rcases lists with ⟨list, seen, rfl, read⟩ | ⟨rfl, rfl⟩
    · obtain ⟨onListed, inner⟩ := typeParams_catches exposed.annotations _ _ _ onNamed read
      exact ⟨onListed, by simpa using inner.before (onNamed.plainKind seen (by decide))⟩
    · exact ⟨onNamed, .none _⟩
  obtain ⟨onListed, ofParams⟩ := declared
  obtain ⟨onHeaded, ofHeader⟩ :=
    enclosedIf_catches caught.scan (by decide) .rpar _ _ _ onListed heads
  obtain ⟨onClauses, ofSupers⟩ :=
    withSteps_ensures (supertypeClauses_catches exposed) _ _ _ onHeaded extends_
  obtain ⟨onNext, ofBody⟩ := enclosed_catches caught.scan .rbrace _ _ _ onClauses encloses
  have all := (((ofName.append ofParams).append ofHeader).append ofSupers).append
    (ofBody.before (onClauses.plainKind opens (by decide)))
  rw [afterWord] at all
  refine ⟨onNext, all.mono fun other member _ => ?_⟩
  -- The header is read before the supertypes but recorded with the body.
  rw [Member.recorded, membersRecorded_append]
  simp only [List.mem_append, List.mem_cons, List.not_mem_nil, or_false] at member ⊢
  tauto

theorem creation_step (exposed : Exposed lexemes) {cursor next : Cursor} {members : List Member}
    (on : cursor.On lexemes) (spelled : cursor.seesWord "new" 0 = true)
    (done : Grammar.creation (n + 1) cursor = .done members next) :
    next.On lexemes ∧ Caught lexemes (cursor.position + 1) (membersRecorded members) next.position := by
  obtain ⟨keyword, worded, constructorArgs, behind, taken, explicit, created⟩ := creation_done done
  obtain ⟨onWorded, -, position, -⟩ := on.take taken
  -- No arguments stand behind `new`, where they would be lost if no class followed them.
  have unangled : worded.seesKind .lt 0 ≠ true := by
    intro seen
    obtain ⟨first, there, word⟩ := on.sees spelled
    obtain ⟨second, follows, angle⟩ := onWorded.sees seen
    rw [Nat.add_zero, position] at follows
    exact exposed.constructors _ first second there follows word (eq_of_beq angle)
  obtain ⟨args, seen, -⟩ | ⟨rfl, rfl⟩ := explicit
  · exact absurd seen unangled
  rw [← position]
  have typed {type : TypeRef} {after : Cursor}
      (read : withSteps (typeRef (annotationUse n).ignore true false) behind = .done type after) :
      after.On lexemes ∧ Caught lexemes behind.position type.recorded after.position :=
    withSteps_ensures (fun k => (types_catch exposed.annotations k).ref true false) _ _ _ onWorded read
  cases created with
  | nothing => exact ⟨onWorded, by simpa [membersRecorded] using Caught.none _⟩
  | array primitive second =>
    obtain ⟨onNext, -, after, -⟩ := onWorded.take second
    have plain : PlainAt lexemes behind.position := by
      refine onWorded.plain primitive fun lexeme passes _ => ?_
      simp only [Lexeme.isPrimitive, Bool.and_eq_true] at passes
      exact plain_of_words (by decide) passes.2
    exact ⟨onNext, by simpa [membersRecorded] using (Caught.none _).behind plain after⟩
  | plain read =>
    obtain ⟨onNext, ofType⟩ := typed read
    exact ⟨onNext, by simpa [membersRecorded, Member.recorded] using ofType⟩
  | called read opens calls encloses =>
    obtain ⟨onTyped, ofType⟩ := typed read
    obtain ⟨onClosed, ofArgs⟩ := enclosed_catches caught.scan .rpar _ _ _ onTyped calls
    obtain ⟨onNext, ofBlock⟩ :=
      enclosedIf_catches caught.scan (by decide) .rbrace _ _ _ onClosed encloses
    have ofBody := (ofArgs.before (onTyped.plainKind opens (by decide))).append ofBlock
    refine ⟨onNext, ?_⟩
    simpa [membersRecorded, Member.recorded, membersRecorded_append] using ofType.append ofBody

theorem word_step (exposed : Exposed lexemes) {extent : Extent} {before : Before}
    {cursor next : Cursor} {lexeme : Lexeme} {item : Item} (on : cursor.On lexemes)
    (found : lexemes[cursor.position]? = some lexeme)
    (done : wordItem (n + 1) extent before lexeme cursor = .done item next) :
    next.On lexemes ∧ Caught lexemes cursor.position (itemRecorded item) next.position := by
  have one {read : Read Member} {member : Member} {after : Option Before}
      (reads : CatchesBehind lexemes read Member.recorded) (plain : PlainAt lexemes cursor.position)
      (done : read cursor = .done member next) :
      next.On lexemes ∧
        Caught lexemes cursor.position (itemRecorded ([member], after)) next.position := by
    obtain ⟨onNext, here⟩ := reads _ _ _ on done
    exact ⟨onNext, by simpa [itemRecorded, membersRecorded] using here.before plain⟩
  -- Each word that is passed over is none of the names: it is spelled like a word of the language.
  cases word_done done with
  | imports top spells read =>
    exact one importDecl_catches (plain_lexeme found fun _ => plain_spelled spells (by decide)) read
  | package top spells read =>
    have none := exposed.packages lexeme (List.mem_of_getElem? found)
    rw [spells] at none
    cases none
  | declares undotted seen read =>
    refine one caught.decl ?_ read
    simp only [Cursor.seesDeclaration, Bool.and_eq_true] at seen
    refine on.plain seen.1 fun lexeme passes _ => ?_
    simp only [Bool.and_eq_true] at passes
    exact plain_of_words (by decide) passes.2
  | creates spells read =>
    have seen : cursor.seesWord "new" 0 = true := by
      have left : cursor.rest[0]? = some lexeme := by
        rw [on.rest]
        simpa using found
      simpa [Cursor.seesWord, Cursor.sees, left] using spells
    obtain ⟨onNext, here⟩ := caught.creation _ _ _ on seen read
    exact ⟨onNext, here.before (plain_lexeme found fun _ => plain_spelled spells (by decide))⟩
  | keyword inner word taken =>
    simp only [Lexeme.isKeyword, Bool.and_eq_true] at word
    exact taken_catches on (plain_lexeme found fun _ => plain_of_words (by decide) word.2) taken
  | @uses ref word read =>
    obtain ⟨onNext, here⟩ := chain_catches exposed.annotations _ _ _ on read
    refine ⟨onNext, ?_⟩
    cases ref <;> simpa [itemRecorded, membersRecorded, Member.recorded] using here

theorem item_step (exposed : Exposed lexemes) (extent : Extent) (before : Before) :
    Catches lexemes (Grammar.item (n + 1) extent before) itemRecorded := by
  intro cursor found next on done
  obtain ⟨lexeme, rest, left, read⟩ := item_done done
  have here := on.lexeme left
  -- Only a word is a name; of any other lexeme, what is read behind it is all there is to catch.
  have plain (other : lexeme.kind ≠ .ident) : PlainAt lexemes cursor.position :=
    plain_lexeme here fun ident => absurd ident other
  have unannotated := exposed.annotations lexeme (List.mem_of_getElem? here)
  cases read with
  | closes closer awaited taken =>
    exact taken_catches on (plain fun ident => by simp [ident, Kind.isCloser] at closer) taken
  | encloses pair read last =>
    obtain ⟨onNext, inner⟩ := enclosed_catches caught.scan _ _ _ _ on read
    exact ⟨onNext, inner.before (plain fun ident => by simp [ident, Kind.closer?] at pair)⟩
  | semicolon kind taken => exact taken_catches on (plain (by simp [kind])) taken
  | declared kind word read => exact absurd kind unannotated
  | annotated kind read => exact absurd kind unannotated
  | word kind read => exact caught.word extent before _ _ _ _ on here read
  | witness kind angled read =>
    obtain ⟨onNext, inner⟩ := witness_catches exposed.annotations on angled read
    refine ⟨onNext, ?_⟩
    simpa [itemRecorded, membersRecorded] using inner.before (plain (by simp [kind]))
  | generic kind fresh read =>
    obtain ⟨onNext, inner⟩ := caught.generic _ _ _ on read
    exact ⟨onNext, inner.before (plain (by simp [kind]))⟩
  | passed opens closes noWord taken => exact taken_catches on (plain noWord) taken

end MembersCatch

theorem members_catch (exposed : Exposed lexemes) (n : Nat) : MembersCatch lexemes n := by
  induction n with
  | zero =>
    refine ⟨fun _ _ => .stuck _, fun _ _ => .stuck _, ?_, .stuck _, .stuck _, ?_⟩
    · intro extent before cursor lexeme item next _ _ done
      exact absurd done (by simp [wordItem, stuck_done])
    · intro cursor members next _ _ done
      exact absurd done (by simp [creation, stuck_done])
  | succ n ih =>
    exact
      { scan := ih.scan_step
        item := ih.item_step exposed
        word := fun _ _ _ _ _ _ => ih.word_step exposed
        generic := ih.generic_step exposed
        decl := ih.decl_step exposed
        creation := fun _ _ _ => ih.creation_step exposed }

def GoesOn (read : Read Item) : Prop :=
  ∀ cursor item next, read cursor = .done item next → item.2 ≠ none

theorem wordItem_goesOn (n : Nat) (extent : Extent) (before : Before) (lexeme : Lexeme) :
    GoesOn (wordItem n extent before lexeme) := by
  intro cursor item next done
  cases n with
  | zero => simp [wordItem, stuck_done] at done
  | succ n => cases word_done done <;> exact Option.some_ne_none _

theorem genericMember_goesOn (n : Nat) : GoesOn (genericMember n) := by
  intro cursor item next done
  cases n with
  | zero => simp [genericMember, stuck_done] at done
  | succ n =>
    rcases generic_done done with ⟨_, _, _, -, -, rfl⟩ | ⟨_, -, rfl⟩ <;>
      exact Option.some_ne_none _

theorem item_template (n : Nat) (before : Before) : GoesOn (item n .template before) := by
  intro cursor found next done
  cases n with
  | zero => simp [item, stuck_done] at done
  | succ n =>
    obtain ⟨lexeme, rest, left, read⟩ := item_done done
    cases read with
    | closes closer awaited taken => cases awaited
    | encloses pair read last => exact fun ends => by simpa using (last.mp ends).2
    | word kind read => exact wordItem_goesOn n .template before lexeme _ _ _ read
    | generic kind fresh read => exact genericMember_goesOn n _ _ _ read
    | semicolon | declared | annotated | witness | passed => simp

theorem scan_template {n : Nat} {before : Before} {cursor next : Cursor} {found : List Member}
    (done : scan n .template before cursor = .done found next) : next.rest = [] := by
  induction n generalizing before cursor next found with
  | zero => simp [scan, stuck_done] at done
  | succ n ih =>
    rcases scan_done done with ⟨ended, -, -, rfl⟩ | last | ⟨_, _, _, _, -, scanned, -⟩
    · exact ended
    · exact absurd rfl (item_template n before _ _ _ last)
    · exact ih scanned

theorem members_caught (exposed : Exposed lexemes) {found : List Member} {next : Cursor}
    (done : members lexemes = .done found next) :
    Caught lexemes 0 (membersRecorded found) lexemes.length := by
  obtain ⟨on, caught⟩ := (members_catch exposed _).scan .template .boundary _ _ _ .begin done
  have rest := on.rest
  rw [scan_template done] at rest
  have reached : lexemes.length ≤ next.position := List.drop_eq_nil_iff.mp rest.symm
  have all : next.position = lexemes.length := Nat.le_antisymm on.bound reached
  exact all ▸ caught

end Scans

end Specializer.Grammar
