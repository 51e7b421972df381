import Specializer.Grammar.Types
import Specializer.Proofs.Reading

set_option autoImplicit false

namespace Specializer

def Segment.bare (segment : Segment) : Segment := .plain segment.name

namespace Grammar

open Read

inductive Phrase
  | segment (segment : Segment)
  | segments (segments : List Segment)
  | dims (count : Nat)
  | ref (ref : TypeRef)
  | arg (arg : TypeArg)
  | entries (args : List TypeArg)
  | args (args : TypeArgs)

/-- The lexemes, from a place on, are the text of the phrase. -/
inductive Denotes : Nat → List Lexeme → Phrase → Prop
  | plain {start : Nat} {name : Lexeme} : Denotes start [name] (.segment (.plain ⟨start, name.text⟩))
  | applied {start : Nat} {name : Lexeme} {text : List Lexeme} {list : TypeArgs}
      (given : Denotes (start + 1) text (.args list)) :
      Denotes start (name :: text) (.segment (.applied ⟨start, name.text⟩ list))
  | last {start : Nat} {text : List Lexeme} {segment : Segment} (one : Denotes start text (.segment segment)) :
      Denotes start text (.segments [segment])
  | dotted {start : Nat} {text more : List Lexeme} {dot name : Lexeme} {segment : Segment}
      {segments : List Segment} (one : Denotes start text (.segment segment)) (dots : dot.kind = .dot)
      (named : name.isName = true)
      (further : Denotes (start + text.length + 1) (name :: more) (.segments segments)) :
      Denotes start (text ++ dot :: name :: more) (.segments (segment :: segments))
  | undimmed {start : Nat} : Denotes start [] (.dims 0)
  | dimmed {start count : Nat} {opener closer : Lexeme} {more : List Lexeme} (opens : opener.kind = .lsqb)
      (closes : closer.kind = .rsqb) (further : Denotes (start + 2) more (.dims count)) :
      Denotes start (opener :: closer :: more) (.dims (count + 1))
  | ref {start count : Nat} {name : Lexeme} {text brackets : List Lexeme} {segments : List Segment}
      (typed : (name.isName || name.isPrimitive) = true)
      (named : Denotes start (name :: text) (.segments segments))
      (dimmed : Denotes (start + (name :: text).length) brackets (.dims count)) :
      Denotes start (name :: (text ++ brackets))
        (.ref (.mk ⟨start, start + (name :: text).length + brackets.length⟩ segments count))
  | exact {start : Nat} {text : List Lexeme} {ref : TypeRef} (given : Denotes start text (.ref ref)) :
      Denotes start text (.arg (.exact ref))
  | wild {start : Nat} {mark : Lexeme} (marks : mark.kind = .qmark) :
      Denotes start [mark] (.arg (.unbounded ⟨start, start + 1⟩))
  | bounded {start : Nat} {mark word : Lexeme} {text : List Lexeme} {kind : BoundKind} {ref : TypeRef}
      (marks : mark.kind = .qmark) (spelled : word.spells kind.word = true)
      (given : Denotes (start + 2) text (.ref ref)) :
      Denotes start (mark :: word :: text) (.arg (.bounded ⟨start, start + 2 + text.length⟩ kind ref))
  | final {start : Nat} {text : List Lexeme} {closer : Lexeme} {arg : TypeArg}
      (one : Denotes start text (.arg arg)) (closes : closer.kind = .gt) :
      Denotes start (text ++ [closer]) (.entries [arg])
  | more {start : Nat} {text rest : List Lexeme} {comma : Lexeme} {arg : TypeArg} {args : List TypeArg}
      (one : Denotes start text (.arg arg)) (separates : comma.kind = .comma)
      (further : Denotes (start + text.length + 1) rest (.entries args)) :
      Denotes start (text ++ comma :: rest) (.entries (arg :: args))
  | args {start : Nat} {opener : Lexeme} {text : List Lexeme} {args : List TypeArg}
      (opens : opener.kind = .lt) (listed : Denotes (start + 1) text (.entries args)) :
      Denotes start (opener :: text) (.args (.mk ⟨start, start + 1 + text.length⟩ args))

section Cursors

variable {place : Nat} {lexeme : Lexeme} {rest : List Lexeme} {kind : Kind}

theorem seesKind_cons : Cursor.seesKind ⟨place, lexeme :: rest⟩ kind 0 = (lexeme.kind == kind) := rfl

theorem take_cons : take ⟨place, lexeme :: rest⟩ = .done ⟨place, lexeme.text⟩ ⟨place + 1, rest⟩ := rfl

variable {α β : Type}

theorem bind_of_done {first : Read α} {more : α → Read β} {cursor middle : Cursor} {value : α}
    (done : first cursor = .done value middle) : (first >>= more) cursor = more value middle := by
  change first.andThen more cursor = _
  rw [andThen, done]

theorem bind_of_miss {first : Read α} {more : α → Read β} {cursor missed : Cursor} {what : Expected}
    (miss : first cursor = .miss what missed) : (first >>= more) cursor = .miss what missed := by
  change first.andThen more cursor = _
  rw [andThen, miss]

theorem optional_of_done {read : Read α} {cursor next : Cursor} {value : α}
    (done : read cursor = .done value next) : Read.optional read cursor = .done (some value) next := by
  simp only [Read.optional, done]

theorem optional_of_miss {read : Read α} {cursor missed : Cursor} {what : Expected}
    (miss : read cursor = .miss what missed) : Read.optional read cursor = .done none cursor := by
  simp only [Read.optional, miss]

theorem branch_yes {test : Cursor → Bool} {yes no : Read α} {cursor : Cursor} (passes : test cursor = true) :
    branch test yes no cursor = yes cursor := by
  rw [branch, if_pos passes]

theorem branch_no {test : Cursor → Bool} {yes no : Read α} {cursor : Cursor} (fails : test cursor = false) :
    branch test yes no cursor = no cursor := by
  rw [branch, fails, if_neg Bool.false_ne_true]

end Cursors

def Unlike (kinds : List Kind) (rest : List Lexeme) : Prop := ∀ lexeme ∈ rest.head?, lexeme.kind ∉ kinds

section Reads

variable {skip : Read Unit} {place : Nat} {rest : List Lexeme} {kinds : List Kind} {kind : Kind}

theorem Unlike.seesKind (unlike : Unlike kinds rest) (member : kind ∈ kinds) :
    Cursor.seesKind ⟨place, rest⟩ kind 0 = false := by
  cases rest with
  | nil => rfl
  | cons lexeme rest =>
    rw [seesKind_cons, beq_eq_false_iff_ne]
    rintro rfl
    exact unlike lexeme rfl member

theorem Unlike.seesDotName (unlike : Unlike kinds rest) (member : Kind.dot ∈ kinds) :
    Cursor.seesDotName ⟨place, rest⟩ = false := by
  rw [Cursor.seesDotName, unlike.seesKind member, Bool.false_and]

theorem seesWord_other {lexeme : Lexeme} (other : lexeme.kind ≠ .ident) (word : String) :
    Cursor.seesWord ⟨place, lexeme :: rest⟩ word 0 = false := by
  simp [Cursor.seesWord, Cursor.sees, Lexeme.spells, other]

def Phrase.IsRead (skip : Read Unit) (start : Nat) (text : List Lexeme) : Phrase → Prop
  | .segment one => ∃ name behind, text = name :: behind ∧ ∀ n rest, 4 * behind.length ≤ n →
      Unlike [.lt] rest → appliedOr ⟨start, name.text⟩ (typeArgs skip false n) ⟨start + 1, behind ++ rest⟩ =
        .done one ⟨start + text.length, rest⟩
  | .segments all => ∀ n rest, 4 * text.length ≤ n → Unlike [.lt, .dot] rest →
      typeSegments skip false n ⟨start, text ++ rest⟩ = .done all ⟨start + text.length, rest⟩
  | .dims count => ∀ n rest, 4 * text.length + 1 ≤ n → Unlike [.lsqb] rest →
      dimensions n ⟨start, text ++ rest⟩ = .done count ⟨start + text.length, rest⟩
  | .ref type => ∀ n rest, 4 * text.length + 2 ≤ n → Unlike [.lt, .dot, .lsqb] rest →
      typeRef skip false true n ⟨start, text ++ rest⟩ = .done type ⟨start + text.length, rest⟩
  | .arg one => ∀ n rest, 4 * text.length + 3 ≤ n → Unlike [.lt, .dot, .lsqb, .ident] rest →
      typeArg skip n ⟨start, text ++ rest⟩ = .done one ⟨start + text.length, rest⟩
  | .entries list => ∀ n rest, 4 * text.length ≤ n →
      typeArgList skip n ⟨start, text ++ rest⟩ = .done list ⟨start + text.length, rest⟩
  | .args list => ∀ n rest, 4 * text.length ≤ n →
      typeArgs skip false n ⟨start, text ++ rest⟩ = .done list ⟨start + text.length, rest⟩

theorem Unlike.mono {fewer : List Kind} (unlike : Unlike kinds rest) (sub : fewer ⊆ kinds) : Unlike fewer rest :=
  fun lexeme head member => unlike lexeme head (sub member)

theorem unlike_cons {lexeme : Lexeme} (other : lexeme.kind ∉ kinds) : Unlike kinds (lexeme :: rest) := by
  rintro _ ⟨⟩
  exact other

theorem ident_of_typed {lexeme : Lexeme} (typed : (lexeme.isName || lexeme.isPrimitive) = true) :
    lexeme.kind = .ident := by
  rcases Bool.or_eq_true_iff.mp typed with word | word <;>
    simp only [Lexeme.isName, Lexeme.isPrimitive, Bool.and_eq_true, beq_iff_eq] at word <;> exact word.1

namespace Denotes

variable {start : Nat} {text : List Lexeme}

theorem ref_first {ref : TypeRef} (denotes : Denotes start text (.ref ref)) :
    ∃ name behind, text = name :: behind ∧ name.kind = .ident := by
  cases denotes with
  | ref typed => exact ⟨_, _, rfl, ident_of_typed typed⟩

theorem args_first {list : TypeArgs} (denotes : Denotes start text (.args list)) :
    ∃ opener behind, text = opener :: behind ∧ opener.kind = .lt := by
  cases denotes with
  | args opens => exact ⟨_, _, rfl, opens⟩

theorem arg_first {arg : TypeArg} (denotes : Denotes start text (.arg arg)) :
    ∃ first behind, text = first :: behind ∧ first.kind ≠ .gt := by
  cases denotes with
  | exact given =>
    obtain ⟨name, behind, rfl, ident⟩ := given.ref_first
    exact ⟨name, behind, rfl, by simp [ident]⟩
  | wild marks => exact ⟨_, _, rfl, by simp [marks]⟩
  | bounded marks => exact ⟨_, _, rfl, by simp [marks]⟩

theorem entries_first {args : List TypeArg} (denotes : Denotes start text (.entries args)) (rest : List Lexeme) :
    Unlike [.gt] (text ++ rest) := by
  cases denotes with
  | final one =>
    obtain ⟨first, behind, rfl, other⟩ := one.arg_first
    exact unlike_cons (by simpa using other)
  | more one =>
    obtain ⟨first, behind, rfl, other⟩ := one.arg_first
    exact unlike_cons (by simpa using other)

end Denotes

theorem step {steps n : Nat} (enough : steps ≤ n) (some : 0 < steps) : ∃ m, n = m + 1 :=
  ⟨n - 1, by omega⟩

section Steps

variable {start : Nat} {text more : List Lexeme}

theorem plain_read {name : Lexeme} :
    (Phrase.segment (.plain ⟨start, name.text⟩)).IsRead skip start [name] := by
  refine ⟨_, [], rfl, fun n rest _ unlike => ?_⟩
  rw [appliedOr, List.nil_append, branch_no (unlike.seesKind (by simp))]
  rfl

theorem applied_read {name : Lexeme} {list : TypeArgs} (given : Denotes (start + 1) text (.args list))
    (reads : (Phrase.args list).IsRead skip (start + 1) text) :
    (Phrase.segment (.applied ⟨start, name.text⟩ list)).IsRead skip start (name :: text) := by
  refine ⟨name, text, rfl, fun n rest enough _ => ?_⟩
  obtain ⟨opener, more, rfl, opens⟩ := given.args_first
  rw [appliedOr, branch_yes (by rw [List.cons_append, seesKind_cons, opens]; rfl), bind_of_done (reads n rest enough)]
  simp [pure, yield, Nat.add_comm, Nat.add_left_comm]

theorem last_read {segment : Segment} (reads : (Phrase.segment segment).IsRead skip start text) :
    (Phrase.segments [segment]).IsRead skip start text := by
  obtain ⟨name, behind, rfl, reads⟩ := reads
  intro n rest enough unlike
  obtain ⟨n, rfl⟩ := step enough (by simp)
  simp only [List.length_cons] at enough
  rw [typeSegments, List.cons_append, bind_of_done take_cons,
    bind_of_done (reads n rest (by omega) (unlike.mono (by simp))), qualified,
    branch_no (unlike.seesDotName (by simp))]
  rfl

theorem dotted_read {dot name : Lexeme} {segment : Segment} {segments : List Segment} (dots : dot.kind = .dot)
    (named : name.isName = true) (reads : (Phrase.segment segment).IsRead skip start text)
    (readsMore : (Phrase.segments segments).IsRead skip (start + text.length + 1) (name :: more)) :
    (Phrase.segments (segment :: segments)).IsRead skip start (text ++ dot :: name :: more) := by
  obtain ⟨first, behind, rfl, reads⟩ := reads
  intro n rest enough unlike
  obtain ⟨n, rfl⟩ := step enough (by simp)
  simp only [List.length_append, List.length_cons] at enough
  have here := reads n (dot :: name :: more ++ rest) (by omega) (unlike_cons (by simp [dots]))
  have later := readsMore n rest (by simp only [List.length_cons]; omega) unlike
  have goesOn (place : Nat) : Cursor.seesDotName ⟨place, dot :: name :: (more ++ rest)⟩ = true := by
    simp [Cursor.seesDotName, Cursor.seesKind, Cursor.sees, dots, named]
  simp only [List.append_assoc, List.cons_append] at here later ⊢
  rw [typeSegments, bind_of_done take_cons, bind_of_done here, qualified, branch_yes (goesOn _),
    bind_of_done take_cons, bind_of_done later]
  simp only [pure, yield, List.length_append, List.length_cons]
  congr 2
  omega

theorem undimmed_read : (Phrase.dims 0).IsRead skip start [] := by
  intro n rest enough unlike
  obtain ⟨n, rfl⟩ := step enough (Nat.succ_pos _)
  rw [dimensions, List.nil_append, branch_no (by rw [unlike.seesKind (by simp), Bool.false_and])]
  rfl

theorem dimmed_read {count : Nat} {opener closer : Lexeme} (opens : opener.kind = .lsqb)
    (closes : closer.kind = .rsqb) (reads : (Phrase.dims count).IsRead skip (start + 2) more) :
    (Phrase.dims (count + 1)).IsRead skip start (opener :: closer :: more) := by
  intro n rest enough unlike
  obtain ⟨n, rfl⟩ := step enough (Nat.succ_pos _)
  simp only [List.length_cons] at enough
  have later := reads n rest (by omega) unlike
  rw [dimensions, List.cons_append, List.cons_append,
    branch_yes (by simp [Cursor.seesKind, Cursor.sees, opens, closes]), bind_of_done take_cons,
    bind_of_done take_cons, bind_of_done later]
  simp only [pure, yield, List.length_cons]
  congr 2
  omega

theorem ref_read {count : Nat} {name : Lexeme} {brackets : List Lexeme} {segments : List Segment}
    (typed : (name.isName || name.isPrimitive) = true)
    (dimmed : Denotes (start + (name :: text).length) brackets (.dims count))
    (reads : (Phrase.segments segments).IsRead skip start (name :: text))
    (readsDims : (Phrase.dims count).IsRead skip (start + (name :: text).length) brackets) :
    (Phrase.ref (.mk ⟨start, start + (name :: text).length + brackets.length⟩ segments count)).IsRead skip start
      (name :: (text ++ brackets)) := by
  intro n rest enough unlike
  obtain ⟨n, rfl⟩ := step enough (Nat.succ_pos _)
  simp only [List.length_append, List.length_cons] at enough
  obtain ⟨n, rfl⟩ := step (show 1 ≤ n by omega) Nat.one_pos
  -- Neither the brackets nor what follows is read as a continuation of the name.
  have behind : Unlike [.lt, .dot] (brackets ++ rest) := by
    cases dimmed with
    | undimmed => exact unlike.mono (by simp)
    | dimmed opens => exact unlike_cons (by simp [opens])
  have unmarked : typeAnnotations skip (n + 1) ⟨start, name :: (text ++ (brackets ++ rest))⟩ =
      .done () ⟨start, name :: (text ++ (brackets ++ rest))⟩ := by
    rw [typeAnnotations, branch_no (by simp [seesKind_cons, ident_of_typed typed])]
    rfl
  have first := reads (n + 1) (brackets ++ rest) (by simp only [List.length_cons]; omega) behind
  have later := readsDims (n + 1) rest (by omega) (unlike.mono (by simp))
  simp only [List.cons_append, List.append_assoc] at first ⊢
  have place : start + (name :: (text ++ brackets)).length =
      start + (name :: text).length + brackets.length := by
    rw [← List.cons_append, List.length_append, Nat.add_assoc]
  rw [typeRef, bind_of_done unmarked, branch_yes (by simpa [Cursor.sees] using typed),
    bind_of_done (show Read.index _ = .done start _ from rfl), bind_of_done first, if_pos rfl,
    bind_of_done later, place]
  rfl

theorem exact_read {ref : TypeRef} (given : Denotes start text (.ref ref))
    (reads : (Phrase.ref ref).IsRead skip start text) : (Phrase.arg (.exact ref)).IsRead skip start text := by
  intro n rest enough unlike
  obtain ⟨n, rfl⟩ := step enough (Nat.succ_pos _)
  have unasked : Cursor.seesKind ⟨start, text ++ rest⟩ .qmark 0 = false := by
    obtain ⟨name, behind, rfl, ident⟩ := given.ref_first
    simp [seesKind_cons, ident]
  rw [typeArg, branch_no unasked, bind_of_done (reads n rest (by omega) (unlike.mono (by simp)))]
  rfl

theorem wild_read {mark : Lexeme} (marks : mark.kind = .qmark) :
    (Phrase.arg (.unbounded ⟨start, start + 1⟩)).IsRead skip start [mark] := by
  intro n rest enough unlike
  obtain ⟨n, rfl⟩ := step enough (Nat.succ_pos _)
  have unbounded (word : String) : Cursor.seesWord ⟨start + 1, rest⟩ word 0 = false := by
    cases rest with
    | nil => rfl
    | cons lexeme rest => exact seesWord_other (fun ident => unlike lexeme rfl (by simp [ident])) word
  rw [typeArg, List.cons_append, branch_yes (by simp [seesKind_cons, marks]), bind_of_done take_cons,
    List.nil_append, branch_no (unbounded _), branch_no (unbounded _)]
  rfl

theorem bounded_read {mark word : Lexeme} {kind : BoundKind} {ref : TypeRef} (marks : mark.kind = .qmark)
    (spelled : word.spells kind.word = true) (reads : (Phrase.ref ref).IsRead skip (start + 2) text) :
    (Phrase.arg (.bounded ⟨start, start + 2 + text.length⟩ kind ref)).IsRead skip start (mark :: word :: text) := by
  intro n rest enough unlike
  obtain ⟨n, rfl⟩ := step enough (Nat.succ_pos _)
  simp only [List.length_cons] at enough
  obtain ⟨n, rfl⟩ := step (show 1 ≤ n by omega) Nat.one_pos
  have read := reads n rest (by omega) (unlike.mono (by simp))
  have inside : boundedArg skip start kind (n + 1) ⟨start + 1, word :: (text ++ rest)⟩ =
      .done (.bounded ⟨start, start + 2 + text.length⟩ kind ref) ⟨start + 2 + text.length, rest⟩ := by
    rw [boundedArg, bind_of_done take_cons, bind_of_done read]
    rfl
  rw [typeArg, List.cons_append, branch_yes (by simp [seesKind_cons, marks]), bind_of_done take_cons,
    List.cons_append]
  have place : start + (mark :: word :: text).length = start + 2 + text.length := by
    simp only [List.length_cons]
    omega
  rw [place, ← inside]
  cases kind with
  | upper => exact branch_yes spelled
  | lower =>
    rw [branch_no, branch_yes]
    · exact spelled
    · simp only [Cursor.seesWord, Cursor.sees, Lexeme.spells, Bool.and_eq_true, beq_iff_eq] at spelled ⊢
      simp [spelled.2, BoundKind.word]

theorem final_read {closer : Lexeme} {arg : TypeArg} (closes : closer.kind = .gt)
    (reads : (Phrase.arg arg).IsRead skip start text) :
    (Phrase.entries [arg]).IsRead skip start (text ++ [closer]) := by
  intro n rest enough
  obtain ⟨n, rfl⟩ := step enough (by simp)
  simp only [List.length_append, List.length_singleton] at enough
  rw [List.append_assoc, List.singleton_append, typeArgList,
    bind_of_done (reads n _ (by omega) (unlike_cons (by simp [closes]))), separated,
    branch_no (by simp [seesKind_cons, closes]), branch_yes (by simp [seesKind_cons, closes]),
    bind_of_done take_cons]
  simp only [pure, yield, List.length_append, List.length_singleton, Nat.add_assoc]

theorem more_read {comma : Lexeme} {arg : TypeArg} {args : List TypeArg} (separates : comma.kind = .comma)
    (reads : (Phrase.arg arg).IsRead skip start text)
    (readsMore : (Phrase.entries args).IsRead skip (start + text.length + 1) more) :
    (Phrase.entries (arg :: args)).IsRead skip start (text ++ comma :: more) := by
  intro n rest enough
  obtain ⟨n, rfl⟩ := step enough (by simp only [List.length_append, List.length_cons]; omega)
  simp only [List.length_append, List.length_cons] at enough
  rw [List.append_assoc, List.cons_append, typeArgList,
    bind_of_done (reads n _ (by omega) (unlike_cons (by simp [separates]))), separated,
    branch_yes (by simp [seesKind_cons, separates]), bind_of_done take_cons,
    bind_of_done (readsMore n rest (by omega))]
  simp only [pure, yield, List.length_append, List.length_cons]
  congr 2
  omega

theorem args_read {opener : Lexeme} {args : List TypeArg}
    (listed : Denotes (start + 1) text (.entries args))
    (reads : (Phrase.entries args).IsRead skip (start + 1) text) :
    (Phrase.args (.mk ⟨start, start + 1 + text.length⟩ args)).IsRead skip start (opener :: text) := by
  intro n rest enough
  obtain ⟨n, rfl⟩ := step enough (by simp)
  simp only [List.length_cons] at enough
  refine (whole_done _ _ _ _ _).mpr ?_
  have place : start + (opener :: text).length = start + 1 + text.length := by
    rw [List.length_cons, Nat.add_assoc, Nat.add_comm 1]
  have unclosed : Cursor.seesKind ⟨start + 1, text ++ rest⟩ .gt 0 = false :=
    (listed.entries_first rest).seesKind (by simp)
  rw [List.cons_append, bind_of_done take_cons,
    bind_of_done ((branch_no unclosed).trans (reads n rest (by omega))), place]
  rfl

end Steps

-- By induction on how the text is put together; each part leaves enough steps for those it has.
theorem Denotes.read {start : Nat} {text : List Lexeme} {phrase : Phrase} (denotes : Denotes start text phrase) :
    phrase.IsRead skip start text := by
  induction denotes with
  | plain => exact plain_read
  | applied given ih => exact applied_read given ih
  | last _ ih => exact last_read ih
  | dotted _ dots named _ ih ihMore => exact dotted_read dots named ih ihMore
  | undimmed => exact undimmed_read
  | dimmed opens closes _ ih => exact dimmed_read opens closes ih
  | ref typed _ dimmed ih ihDims => exact ref_read typed dimmed ih ihDims
  | exact given ih => exact exact_read given ih
  | wild marks => exact wild_read marks
  | bounded marks spelled _ ih => exact bounded_read marks spelled ih
  | final _ closes ih => exact final_read closes ih
  | more _ separates _ ih ihMore => exact more_read separates ih ihMore
  | args _ listed ih => exact args_read listed ih

end Reads

section Chains

/-- The lexemes, from a place on, are a name, qualified or not, with type arguments behind its last part. -/
inductive GenericName : Nat → List Lexeme → List Segment → Prop
  | last {start : Nat} {name : Lexeme} {text : List Lexeme} {list : TypeArgs} (named : name.isName = true)
      (given : Denotes (start + 1) text (.args list)) :
      GenericName start (name :: text) [.applied ⟨start, name.text⟩ list]
  | dotted {start : Nat} {name dot : Lexeme} {text : List Lexeme} {segments : List Segment}
      (named : name.isName = true) (dots : dot.kind = .dot) (further : GenericName (start + 2) text segments) :
      GenericName start (name :: dot :: text) (.plain ⟨start, name.text⟩ :: segments)

variable {skip : Read Unit} {place start : Nat} {text rest : List Lexeme}

theorem chainSegment_plain {lexeme : Lexeme} (name : Name) (other : lexeme.kind ≠ .lt) :
    chainSegment skip name ⟨place, lexeme :: rest⟩ = .done (.plain name) ⟨place, lexeme :: rest⟩ := by
  have unopened : Cursor.seesKind ⟨place, lexeme :: rest⟩ .lt 0 = false := by simp [seesKind_cons, other]
  have once : appliedOr name (expressionArgs skip) ⟨place, lexeme :: rest⟩ =
      .done (.plain name) ⟨place, lexeme :: rest⟩ := branch_no unopened
  rw [chainSegment, bind_of_done (optional_of_done once)]
  rfl

theorem Denotes.withSteps {list : TypeArgs} (given : Denotes start text (.args list)) :
    withSteps (typeArgs skip false) ⟨start, text ++ rest⟩ = .done list ⟨start + text.length, rest⟩ := by
  apply given.read
  simp only [Cursor.steps, List.length_append]
  omega

theorem Denotes.seesLt {list : TypeArgs} (given : Denotes start text (.args list)) :
    Cursor.seesKind ⟨start, text ++ rest⟩ .lt 0 = true := by
  obtain ⟨opener, behind, rfl, opens⟩ := given.args_first
  simp [seesKind_cons, opens]

theorem chainSegment_kept {list : TypeArgs} (given : Denotes start text (.args list)) (name : Name)
    (follows : Cursor.followsType ⟨start + text.length, rest⟩ = true) :
    chainSegment skip name ⟨start, text ++ rest⟩ = .done (.applied name list) ⟨start + text.length, rest⟩ := by
  have args : expressionArgs skip ⟨start, text ++ rest⟩ = .done list ⟨start + text.length, rest⟩ := by
    rw [expressionArgs, whole_done, bind_of_done given.withSteps, branch_yes follows]
    rfl
  have once : appliedOr name (expressionArgs skip) ⟨start, text ++ rest⟩ =
      .done (.applied name list) ⟨start + text.length, rest⟩ := by
    rw [appliedOr, branch_yes given.seesLt, bind_of_done args]
    rfl
  rw [chainSegment, bind_of_done (optional_of_done once)]
  rfl

-- In front of anything else they are given up.
theorem chainSegment_given_up {list : TypeArgs} (given : Denotes start text (.args list)) (name : Name)
    (follows : Cursor.followsType ⟨start + text.length, rest⟩ = false) :
    chainSegment skip name ⟨start, text ++ rest⟩ = .done (.plain name) ⟨start, text ++ rest⟩ := by
  have args : expressionArgs skip ⟨start, text ++ rest⟩ = .miss .typeArguments ⟨start, text ++ rest⟩ := by
    simp only [expressionArgs, whole, bind_of_done given.withSteps, branch_no follows, miss]
  have once : appliedOr name (expressionArgs skip) ⟨start, text ++ rest⟩ =
      .miss .typeArguments ⟨start, text ++ rest⟩ := by
    rw [appliedOr, branch_yes given.seesLt, bind_of_miss args]
  rw [chainSegment, bind_of_done (optional_of_miss once)]
  rfl

theorem GenericName.read {segments found : List Segment} (name : GenericName start text segments) {n : Nat}
    {next : Cursor} (done : chainSegments skip n ⟨start, text ++ rest⟩ = .done found next) :
    (Cursor.followsType ⟨start + text.length, rest⟩ = true → ∃ more, found = segments ++ more) ∧
      (Cursor.followsType ⟨start + text.length, rest⟩ = false → found = segments.map Segment.bare) := by
  induction name generalizing n found with
  | @last start name text list named given =>
    cases n with
    | zero => simp [chainSegments, stuck_done] at done
    | succ n =>
      rw [chainSegments, List.cons_append, bind_of_done take_cons] at done
      have place : start + (name :: text).length = start + 1 + text.length := by
        rw [List.length_cons, Nat.add_assoc, Nat.add_comm 1]
      rw [place]
      refine ⟨fun follows => ?_, fun follows => ?_⟩
      next =>
        rw [bind_of_done (chainSegment_kept given _ follows)] at done
        simp only [qualified, branch_done, bind_done, pure_done] at done
        rcases done with ⟨-, _, _, -, more, _, -, rfl, -⟩ | ⟨-, rfl, -⟩
        next => exact ⟨more, rfl⟩
        next => exact ⟨[], rfl⟩
      next =>
        rw [bind_of_done (chainSegment_given_up given _ follows)] at done
        obtain ⟨opener, behind, rfl, opens⟩ := given.args_first
        rw [qualified, branch_no (by simp [Cursor.seesDotName, seesKind_cons, opens]), pure_done] at done
        exact done.1
  | @dotted start name dot text segments named dots further ih =>
    cases n with
    | zero => simp [chainSegments, stuck_done] at done
    | succ n =>
      -- The dot is part of the name only if a name follows it, as it does in front of arguments.
      have goesOn : Cursor.seesDotName ⟨start + 1, dot :: (text ++ rest)⟩ = true := by
        cases further with
        | last named | dotted named =>
          simp [Cursor.seesDotName, Cursor.seesKind, Cursor.sees, dots, named]
      rw [chainSegments, List.cons_append, List.cons_append, bind_of_done take_cons,
        bind_of_done (chainSegment_plain _ (by simp [dots])), qualified, branch_yes goesOn,
        bind_of_done take_cons] at done
      obtain ⟨later, middle, chained, last⟩ := (bind_done _ _ _ _ _).mp done
      obtain ⟨rfl, rfl⟩ := (pure_done _ _ _ _).mp last
      have place : start + (name :: dot :: text).length = start + 2 + text.length := by
        simp only [List.length_cons]
        omega
      obtain ⟨kept, lost⟩ := ih chained
      rw [place]
      refine ⟨fun follows => ?_, fun follows => ?_⟩
      next =>
        obtain ⟨more, rfl⟩ := kept follows
        exact ⟨more, rfl⟩
      next =>
        rw [lost follows]
        rfl

theorem GenericName.applied {segments : List Segment} (name : GenericName start text segments) :
    ∃ last list, Segment.applied last list ∈ segments := by
  induction name with
  | last => exact ⟨_, _, List.mem_singleton_self _⟩
  | dotted _ _ _ ih =>
    obtain ⟨last, list, member⟩ := ih
    exact ⟨last, list, List.mem_cons_of_mem _ member⟩

theorem GenericName.relevant {segments : List Segment} (name : GenericName start text segments) :
    segments.any Segment.isRelevant = true := by
  obtain ⟨last, list, member⟩ := name.applied
  exact List.any_eq_true.mpr ⟨_, member, rfl⟩

theorem GenericName.chain {segments : List Segment} {found : Option TypeRef} {next : Cursor}
    (name : GenericName start text segments) (done : chain skip ⟨start, text ++ rest⟩ = .done found next) :
    (Cursor.followsType ⟨start + text.length, rest⟩ = true →
      ∃ more stop, found = some (.mk ⟨start, stop⟩ (segments ++ more) 0)) ∧
    (Cursor.followsType ⟨start + text.length, rest⟩ = false →
      (∃ segment ∈ segments, hasPlaceholder segment.name.text = true) →
        ∃ stop, found = some (.mk ⟨start, stop⟩ (segments.map Segment.bare) 0)) := by
  simp only [Grammar.chain, bind_done, index_done, past_done, pure_done] at done
  obtain ⟨_, _, ⟨rfl, rfl⟩, all, middle, chained, _, last, ⟨rfl, rfl⟩, rfl, -⟩ := done
  obtain ⟨kept, lost⟩ := name.read chained
  refine ⟨fun follows => ?_, fun follows has => ?_⟩
  next =>
    obtain ⟨more, rfl⟩ := kept follows
    exact ⟨more, last.position, if_pos (by rw [List.any_append, name.relevant, Bool.true_or])⟩
  next =>
    obtain ⟨segment, member, has⟩ := has
    have relevant : (segments.map Segment.bare).any Segment.isRelevant = true := by
      rw [List.any_map, List.any_eq_true]
      exact ⟨segment, member, has⟩
    rw [lost follows]
    exact ⟨last.position, if_pos relevant⟩

end Chains

end Grammar

end Specializer
