import Specializer.Proofs.Applications

set_option autoImplicit false

namespace Specializer

/-- Names applied one to the next, and the last of them to what stands innermost. -/
def nestedLexemes : List (List Char) → List Char → List Lexeme
  | [], inmost => [⟨.ident, inmost⟩]
  | name :: rest, inmost => ⟨.ident, name⟩ :: ⟨.lt, ['<']⟩ :: (nestedLexemes rest inmost ++ [⟨.gt, ['>']⟩])

def nestedText (names : List (List Char)) (inmost : List Char) : List Char :=
  (nestedLexemes names inmost).flatMap Lexeme.text

def nestedRef (start : Nat) : List (List Char) → List Char → TypeRef
  | [], inmost => .mk ⟨start, start + 1⟩ [.plain ⟨start, inmost⟩] 0
  | name :: rest, inmost =>
    let inner := nestedRef (start + 2) rest inmost
    .mk ⟨start, inner.range.stop + 1⟩
      [.applied ⟨start, name⟩ (.mk ⟨start + 1, inner.range.stop + 1⟩ [.exact inner])] 0

section Decoding

variable {lexemes : List Lexeme} {inmost : List Char} {start : Nat}

theorem nestedText_nil (inmost : List Char) : nestedText [] inmost = inmost := by
  simp [nestedText, nestedLexemes]

theorem nestedText_cons (name : List Char) (rest : List (List Char)) (inmost : List Char) :
    nestedText (name :: rest) inmost = name ++ ('<' :: (nestedText rest inmost ++ ['>'])) := by
  simp [nestedText, nestedLexemes]

theorem nestedRef_range (start : Nat) (names : List (List Char)) (inmost : List Char) :
    (nestedRef start names inmost).range = ⟨start, start + (nestedLexemes names inmost).length⟩ := by
  induction names generalizing start with
  | nil => rfl
  | cons name rest ih =>
    change Range.mk start ((nestedRef (start + 2) rest inmost).range.stop + 1) = _
    rw [ih, nestedLexemes, Range.mk.injEq]
    refine ⟨rfl, ?_⟩
    simp only [List.length_cons, List.length_append, List.length_nil]
    omega

theorem getElem?_of_front {front : List Lexeme} {place : Nat} {lexeme : Lexeme}
    (written : front <+: lexemes.drop start) (there : front[place]? = some lexeme) :
    lexemes[start + place]? = some lexeme := by
  obtain ⟨rest, whole⟩ := written
  have inside := (List.getElem?_eq_some_iff.mp there).1
  rw [← List.getElem?_drop, ← whole, List.getElem?_append_left inside, there]

theorem nested_written {name : List Char} {rest : List (List Char)}
    (written : nestedLexemes (name :: rest) inmost <+: lexemes.drop start) :
    lexemes[start]? = some ⟨.ident, name⟩ ∧ lexemes[start + 1]? = some ⟨.lt, ['<']⟩ ∧
      nestedLexemes rest inmost <+: lexemes.drop (start + 2) ∧
      lexemes[start + 2 + (nestedLexemes rest inmost).length]? = some ⟨.gt, ['>']⟩ := by
  have first : (nestedLexemes (name :: rest) inmost)[0]? = some ⟨.ident, name⟩ := rfl
  refine ⟨getElem?_of_front written first, getElem?_of_front written rfl, ?_, ?_⟩
  next =>
    obtain ⟨behind, whole⟩ := written
    refine ⟨[⟨.gt, ['>']⟩] ++ behind, ?_⟩
    rw [← List.drop_drop, ← whole]
    simp [nestedLexemes]
  next =>
    have last : (nestedLexemes (name :: rest) inmost)[2 + (nestedLexemes rest inmost).length]? =
        some ⟨.gt, ['>']⟩ := by
      rw [Nat.add_comm]
      simp [nestedLexemes]
    rw [Nat.add_assoc]
    exact getElem?_of_front written last

theorem nested_begins {names : List (List Char)} (written : nestedLexemes names inmost <+: lexemes.drop start) :
    KindAt lexemes .ident start := by
  cases names with
  | nil =>
    have only : (nestedLexemes [] inmost)[0]? = some ⟨.ident, inmost⟩ := rfl
    exact ⟨_, getElem?_of_front written only, rfl⟩
  | cons name rest => exact ⟨_, (nested_written written).1, rfl⟩

theorem KindAt.after {kind : Kind} {place : Nat} (there : KindAt lexemes kind (place + 1))
    (solid : kind.isTrivia = false) : After lexemes place (place + 1) := by
  obtain ⟨lexeme, found, rfl⟩ := there
  exact ⟨Nat.lt_succ_self _, ⟨lexeme, found, solid⟩, fun between above below _ => by omega⟩

def Ends (lexemes : List Lexeme) (ref : TypeRef) (stop : Nat) : Prop :=
  ref.range.stop = stop ∨ KindAt lexemes .gt stop ∧
    ∃ right, After lexemes (ref.range.stop - 1) right ∧ (KindAt lexemes .gt right ∨ KindAt lexemes .comma right)

theorem Ends.whole {ref : TypeRef} {first : Segment} {rest : List Segment}
    (ends : Ends lexemes ref (first.last + 1))
    (goesOn : rest = [] ∧ ref.dims = 0 ∧ ref.range.stop = first.last + 1 ∨
      ∃ next, After lexemes first.last next ∧ next < ref.range.stop ∧
        (KindAt lexemes .dot next ∧ rest ≠ [] ∨ KindAt lexemes .lsqb next ∧ ref.dims ≠ 0)) :
    rest = [] ∧ ref.dims = 0 ∧ ref.range.stop = first.last + 1 := by
  rcases goesOn with alone | ⟨next, after, inside, goesOn⟩
  next => exact alone
  next =>
    have behind := after.behind
    rcases ends with stop | ⟨closes, -⟩
    next => omega
    next =>
      cases (closes.after rfl).unique after
      rcases goesOn with ⟨dot, -⟩ | ⟨bracket, -⟩
      next => cases closes.unique dot
      next => cases closes.unique bracket

theorem TypeRef.eq_mk (ref : TypeRef) : ref = .mk ref.range ref.segments ref.dims := by
  cases ref
  rfl

theorem first_name {ref : TypeRef} {text : List Char} {first : Segment} {rest : List Segment}
    (sound : (Subtree.ref ref).Sound lexemes) (same : ref.segments = first :: rest)
    (index : first.name.index = ref.range.start) (there : lexemes[ref.range.start]? = some ⟨.ident, text⟩) :
    first.name = ⟨ref.range.start, text⟩ := by
  have named : first.name ∈ (Subtree.ref ref).names := by
    rw [Subtree.names, same]
    exact List.mem_cons_self
  have stands := sound.here.stands _ named
  rw [Name.Stands, index, there, Option.some.injEq, Lexeme.mk.injEq] at stands
  rw [← index, stands.2]

theorem applied_opens {ref : TypeRef} {name : Name} {list : TypeArgs} {rest : List Segment}
    (written : (Subtree.ref ref).AllWritten lexemes) (sound : (Subtree.ref ref).Sound lexemes)
    (same : ref.segments = .applied name list :: rest) :
    After lexemes name.index list.range.start ∧ KindAt lexemes .lt list.range.start ∧
      list.range.start < ref.range.stop := by
  have given : Segment.applied name list ∈ ref.segments := same ▸ List.mem_cons_self
  have child : Subtree.args list ∈ (Subtree.ref ref).children :=
    List.mem_map_of_mem (List.mem_filterMap.mpr ⟨_, given, rfl⟩)
  have inCode : (Subtree.ref ref).InCode := trivial
  have range := Subtree.below_range inCode sound (.single child)
  obtain ⟨nonempty, -, -⟩ := (sound.child child).here.bounded
  simp only [Subtree.range_ref, Subtree.range_args] at range nonempty
  exact ⟨written.here.opens _ given list rfl, (written.child child).here.opens, by omega⟩

theorem list_nested {list : TypeArgs} {names : List (List Char)}
    (written : (Subtree.args list).AllWritten lexemes) (sound : (Subtree.args list).Sound lexemes)
    (spelled : nestedLexemes names inmost <+: lexemes.drop (list.range.start + 1))
    (closes : KindAt lexemes .gt (list.range.start + 1 + (nestedLexemes names inmost).length))
    (entry : ∀ ref : TypeRef, (Subtree.ref ref).AllWritten lexemes → (Subtree.ref ref).Sound lexemes →
      ref.range.start = list.range.start + 1 →
      Ends lexemes ref (ref.range.start + (nestedLexemes names inmost).length) →
      ref = nestedRef ref.range.start names inmost) :
    list.args = [.exact (nestedRef (list.range.start + 1) names inmost)] ∧
      list.range.stop = list.range.start + 1 + (nestedLexemes names inmost).length + 1 := by
  have ident := nested_begins spelled
  have next := ident.after rfl
  rcases written.here.entries with ⟨-, after⟩ | fenced
  next =>
    have end_ := written.here.closes
    rw [after.unique next] at end_
    cases ident.unique end_
  next =>
    cases shape : list.args with
    | nil =>
      rw [shape] at fenced
      cases fenced
    | cons arg others =>
      rw [shape, List.map_cons] at fenced
      obtain ⟨place, cell, separates⟩ := fenced.first
      have begins : arg.range.start = list.range.start + 1 := by
        rcases cell.before with start | ⟨mark, after, isMark, -⟩
        next => exact start.unique next
        next =>
          rw [after.unique next] at isMark
          cases ident.unique isMark
      have child : arg.subtree ∈ (Subtree.args list).children := by
        rw [Subtree.children, shape]
        exact List.mem_cons_self
      cases arg with
      | unbounded range | bounded range kind ref =>
        have question : KindAt lexemes .qmark range.start := (written.child child).here
        rw [show range.start = list.range.start + 1 from begins] at question
        cases ident.unique question
      | exact ref =>
        have start : ref.range.start = list.range.start + 1 := begins
        have limit : KindAt lexemes .gt place ∨ KindAt lexemes .comma place :=
          separates.imp_left fun last => last.2.2
        have same := entry ref (written.child child) (sound.child child) start
          (.inr ⟨start ▸ closes, place, cell.behind, limit⟩)
        have range := nestedRef_range ref.range.start names inmost
        rw [← same] at range
        have stop : ref.range.stop = list.range.start + 1 + (nestedLexemes names inmost).length := by
          rw [range, start]
        have nonempty : ref.range.start < ref.range.stop := cell.nonempty
        -- The closing bracket stands right behind the entry, so no comma does.
        have last : place = ref.range.stop := by
          refine cell.behind.unique ?_
          have one : ref.range.stop - 1 + 1 = ref.range.stop := by omega
          rw [← stop, ← one] at closes
          exact one ▸ closes.after rfl
        rw [last, stop] at separates
        rcases separates with ⟨none, right, -⟩ | comma
        next =>
          refine ⟨?_, by omega⟩
          rw [List.map_eq_nil_iff.mp none, same, start]
        next => cases closes.unique comma

theorem Ends.not_applied {ref : TypeRef} {name : Name} {list : TypeArgs} {rest : List Segment}
    (ends : Ends lexemes ref (name.index + 1)) (written : (Subtree.ref ref).AllWritten lexemes)
    (sound : (Subtree.ref ref).Sound lexemes) (same : ref.segments = .applied name list :: rest) : False := by
  obtain ⟨after, opens, inside⟩ := applied_opens written sound same
  have behind : name.index < list.range.start := after.behind
  rcases ends with stop | ⟨closes, -⟩
  next => omega
  next =>
    rw [← (closes.after rfl).unique after] at opens
    cases closes.unique opens

theorem Ends.not_plain {ref : TypeRef} {name : Name} {rest : List Segment} {stop : Nat}
    (ends : Ends lexemes ref stop) (beyond : name.index + 1 < stop)
    (opens : KindAt lexemes .lt (name.index + 1))
    (goesOn : rest = [] ∧ ref.dims = 0 ∧ ref.range.stop = name.index + 1 ∨
      ∃ next, After lexemes name.index next ∧ next < ref.range.stop ∧
        (KindAt lexemes .dot next ∧ rest ≠ [] ∨ KindAt lexemes .lsqb next ∧ ref.dims ≠ 0)) : False := by
  have after := opens.after rfl
  rcases goesOn with ⟨-, -, last⟩ | ⟨next, further, -, goesOn⟩
  next =>
    -- The reference would be an entry in which nothing separates it from what follows.
    rcases ends with stop | ⟨-, right, behind, separates⟩
    next => omega
    next =>
      rw [last, Nat.add_sub_cancel] at behind
      rw [← after.unique behind] at separates
      rcases separates with closes | comma
      next => cases opens.unique closes
      next => cases opens.unique comma
  next =>
    rw [← after.unique further] at goesOn
    rcases goesOn with ⟨dot, -⟩ | ⟨bracket, -⟩
    next => cases opens.unique dot
    next => cases opens.unique bracket

theorem eq_nestedRef {ref : TypeRef} {text : List Char} {rest : List (List Char)} {list : TypeArgs}
    (segments : ref.segments = [.applied ⟨ref.range.start, text⟩ list]) (dims : ref.dims = 0)
    (args : list.args = [.exact (nestedRef (ref.range.start + 2) rest inmost)])
    (opens : list.range.start = ref.range.start + 1)
    (closes : list.range.stop = ref.range.start + 2 + (nestedLexemes rest inmost).length + 1)
    (stop : ref.range.stop = list.range.stop) : ref = nestedRef ref.range.start (text :: rest) inmost := by
  have inner : (nestedRef (ref.range.start + 2) rest inmost).range.stop =
      ref.range.start + 2 + (nestedLexemes rest inmost).length :=
    congrArg Range.stop (nestedRef_range (ref.range.start + 2) rest inmost)
  have end_ : list.range.stop = (nestedRef (ref.range.start + 2) rest inmost).range.stop + 1 := by
    rw [closes, inner]
  have listed : list = .mk
      ⟨ref.range.start + 1, (nestedRef (ref.range.start + 2) rest inmost).range.stop + 1⟩
      [.exact (nestedRef (ref.range.start + 2) rest inmost)] := by
    rw [← opens, ← end_, ← args]
    cases list
    rfl
  have around : ref.range =
      ⟨ref.range.start, (nestedRef (ref.range.start + 2) rest inmost).range.stop + 1⟩ :=
    congrArg (Range.mk ref.range.start) (stop.trans end_)
  rw [ref.eq_mk, segments, dims, listed, around]
  rfl

theorem ref_nested {ref : TypeRef} {names : List (List Char)} (written : (Subtree.ref ref).AllWritten lexemes)
    (sound : (Subtree.ref ref).Sound lexemes)
    (spelled : nestedLexemes names inmost <+: lexemes.drop ref.range.start)
    (ends : Ends lexemes ref (ref.range.start + (nestedLexemes names inmost).length)) :
    ref = nestedRef ref.range.start names inmost := by
  -- By the names from the outermost on; the argument of each is the reference that the others make.
  induction names generalizing ref with
  | nil =>
    have there : lexemes[ref.range.start + 0]? = some ⟨.ident, inmost⟩ :=
      getElem?_of_front spelled (show (nestedLexemes [] inmost)[0]? = some ⟨.ident, inmost⟩ from rfl)
    obtain ⟨first, more, same, index, goesOn⟩ := written.here.begins
    have named := first_name sound same index there
    cases first with
    | plain name =>
      cases named
      obtain ⟨rfl, dims, stop⟩ := ends.whole goesOn
      rw [ref.eq_mk, same, dims, nestedRef]
      congr 1
      exact congrArg (Range.mk ref.range.start) stop
    | applied name list =>
      cases named
      exact (ends.not_applied written sound same).elim
  | cons text rest ih =>
    obtain ⟨there, second, inner, final⟩ := nested_written spelled
    have lt : KindAt lexemes .lt (ref.range.start + 1) := ⟨_, second, rfl⟩
    have gt : KindAt lexemes .gt (ref.range.start + 2 + (nestedLexemes rest inmost).length) := ⟨_, final, rfl⟩
    have length : (nestedLexemes (text :: rest) inmost).length = (nestedLexemes rest inmost).length + 3 := by
      rw [nestedLexemes, List.length_cons, List.length_cons, List.length_append, List.length_singleton]
    rw [length] at ends
    obtain ⟨first, more, same, index, goesOn⟩ := written.here.begins
    have named := first_name sound same index there
    cases first with
    | plain name =>
      cases named
      exact (ends.not_plain (by simp only; omega) lt goesOn).elim
    | applied name list =>
      cases named
      obtain ⟨after, -, -⟩ := applied_opens written sound same
      have opens : list.range.start = ref.range.start + 1 := after.unique (lt.after rfl)
      have next : list.range.start + 1 = ref.range.start + 2 := congrArg Nat.succ opens
      have child : Subtree.args list ∈ (Subtree.ref ref).children :=
        List.mem_map_of_mem (List.mem_filterMap.mpr ⟨_, same ▸ List.mem_cons_self, rfl⟩)
      rw [← next] at inner gt
      obtain ⟨single, closes⟩ := list_nested (written.child child) (sound.child child) inner gt
        fun entry all well start => ih all well (start ▸ inner)
      rw [next] at single closes
      have behind : (Segment.applied ⟨ref.range.start, text⟩ list).last + 1 =
          ref.range.start + ((nestedLexemes rest inmost).length + 3) := by
        simp only [Segment.last]
        omega
      rw [← behind] at ends
      obtain ⟨rfl, dims, stop⟩ := ends.whole goesOn
      refine eq_nestedRef same dims single opens closes ?_
      rw [stop, behind, closes]
      omega

end Decoding

namespace Edit

variable {texts : List (List Char)} {edits : List Edit}

theorem sort_snoc {edit : Edit} (first : ∀ other ∈ edits, edit.start < other.start) :
    sort (edits ++ [edit]) = edit :: sort edits := by
  induction edits with
  | nil => rfl
  | cons other rest ih =>
    have behind := first other List.mem_cons_self
    have later : le other edit = false := by
      simp only [le, if_neg (Int.ne_of_gt behind), decide_eq_false_iff_not]
      omega
    change insertBy le other (sort (rest ++ [edit])) = edit :: insertBy le other (sort rest)
    rw [ih fun other member => first other (List.mem_cons_of_mem _ member), insertBy, later]
    rfl

theorem positionwise_snoc {low high : Nat} (bound : low ≤ high)
    (inside : ∀ edit ∈ edits, edit.start < edit.stop ∧ edit.stop ≤ (high : Int)) :
    positionwise texts edits low (high + 1) = positionwise texts edits low high ++ texts.getD high [] := by
  have none (index : Nat) (beyond : high ≤ index) : emitted edits index = [] := by
    refine emitted_eq_nil fun edit member start => ?_
    have place := inside edit member
    omega
  have free : covered edits high = false := by
    refine List.any_eq_false.mpr fun edit member => ?_
    have place := inside edit member
    simp only [Bool.and_eq_true, decide_eq_true_eq]
    omega
  have here : standing texts edits high = texts.getD high [] := by
    rw [standing, none high (Nat.le_refl _), free]
    rfl
  have count : high + 1 - low = (high - low) + 1 := by omega
  have last : low + (high - low) = high := by omega
  rw [positionwise, positionwise, none (high + 1) (Nat.le_succ _), none high (Nat.le_refl _), count,
    List.range'_concat, List.flatMap_append, List.flatMap_singleton, Nat.one_mul, last, here,
    List.append_nil, List.append_nil]

end Edit

namespace Setting

structure Displays (setting : Setting) (range : Range) (edits : List Edit) (text : List Char) : Prop where
  inside : ∀ edit ∈ edits, (range.start : Int) ≤ edit.start ∧ edit.start < edit.stop ∧
    edit.stop ≤ (range.stop : Int)
  before : (Edit.sort edits).Pairwise Edit.Before
  shown : Edit.positionwise setting.texts (Edit.sort edits) range.start range.stop = text

variable {setting : Setting} {range : Range} {edits : List Edit} {text new : List Char} {start stop : Nat}

theorem Displays.render (displays : setting.Displays range edits text) (bound : range.start ≤ range.stop) :
    setting.render range edits = ⟨[], .ok text⟩ := by
  have rendered := (@Edit.render_positionwise setting.texts _ _ _ bound (fun edit member =>
    displays.inside edit ((Edit.sort_perm edits).mem_iff.mp member)) displays.before).2
  rw [displays.shown] at rendered
  rw [Setting.render, rendered]
  rfl

theorem Displays.front (displays : setting.Displays ⟨start + 1, stop⟩ edits text) (bound : start + 1 ≤ stop) :
    setting.Displays ⟨start, stop⟩ (edits ++ [⟨start, start + 1, new⟩]) (new ++ text) := by
  have inside : ∀ edit ∈ edits, ((start + 1 : Nat) : Int) ≤ edit.start ∧ edit.start < edit.stop ∧
      edit.stop ≤ (stop : Int) := displays.inside
  have behind : ∀ other ∈ edits, (start : Int) < other.start := by
    intro other member
    have place := inside other member
    omega
  -- The edit of the name comes last in the list and first in the text.
  have sorted : Edit.sort (edits ++ [⟨start, start + 1, new⟩]) = ⟨start, start + 1, new⟩ :: Edit.sort edits :=
    Edit.sort_snoc behind
  have later : ∀ other ∈ Edit.sort edits, ((start + 1 : Nat) : Int) ≤ other.start := fun other member =>
    (inside other ((Edit.sort_perm edits).mem_iff.mp member)).1
  refine ⟨fun edit member => ?_, ?_, ?_⟩
  next =>
    simp only
    rcases List.mem_append.mp member with inner | outer
    next =>
      have place := inside edit inner
      omega
    next =>
      cases List.mem_singleton.mp outer
      simp only
      omega
  next =>
    rw [sorted]
    exact List.pairwise_cons.mpr ⟨later, displays.before⟩
  next =>
    have shown : Edit.positionwise setting.texts (Edit.sort edits) (start + 1) stop = text := displays.shown
    rw [sorted, ← shown]
    exact Edit.positionwise_cons (Nat.le_succ _) bound later

theorem Displays.bracketed (displays : setting.Displays ⟨start + 1, stop⟩ edits text) (bound : start + 1 ≤ stop)
    (opens : (lexemesOf setting.tokens)[start]? = some ⟨.lt, ['<']⟩)
    (closes : (lexemesOf setting.tokens)[stop]? = some ⟨.gt, ['>']⟩) :
    setting.Displays ⟨start, stop + 1⟩ edits ('<' :: (text ++ ['>'])) := by
  have inside : ∀ edit ∈ edits, ((start + 1 : Nat) : Int) ≤ edit.start ∧ edit.start < edit.stop ∧
      edit.stop ≤ (stop : Int) := displays.inside
  have among {edit : Edit} (member : edit ∈ Edit.sort edits) :=
    inside edit ((Edit.sort_perm edits).mem_iff.mp member)
  refine ⟨fun edit member => ?_, displays.before, ?_⟩
  next =>
    have place := inside edit member
    simp only
    omega
  next =>
    have shown : Edit.positionwise setting.texts (Edit.sort edits) (start + 1) stop = text := displays.shown
    have first : Edit.standing setting.texts (Edit.sort edits) start = ['<'] := by
      rw [Edit.standing_ahead, texts_at opens]
      intro other member
      have place := among member
      omega
    change Edit.positionwise setting.texts (Edit.sort edits) start (stop + 1) = _
    rw [Edit.positionwise_step (by omega), first,
      Edit.positionwise_snoc bound fun edit member => (among member).2,
      shown, texts_at closes]
    rfl

theorem displays_removed (start : Nat) {stop : Nat} (bound : start < stop) :
    setting.Displays ⟨start, stop⟩ [⟨start, stop, []⟩] [] := by
  refine ⟨fun edit member => ?_, List.pairwise_singleton _ _, ?_⟩
  next =>
    cases List.mem_singleton.mp member
    simp only
    omega
  next =>
    change Edit.positionwise setting.texts [⟨start, stop, []⟩] start stop = []
    rw [Edit.positionwise_cons (Nat.le_of_lt bound) (Nat.le_refl _) (List.forall_mem_nil _),
      Edit.positionwise_end]
    rfl

theorem displays_name {name : Name} (stands : name.Stands (lexemesOf setting.tokens)) :
    setting.Displays name.range [] name.text := by
  refine ⟨nofun, .nil, ?_⟩
  change Edit.positionwise setting.texts [] name.index (name.index + 1) = name.text
  rw [Edit.positionwise_step (Nat.lt_succ_self _), Edit.positionwise_end,
    Edit.standing_ahead (List.forall_mem_nil _),
    texts_at stands]
  exact List.append_nil _

section Levels

variable {scope : Scope Slot} {owner : Option (List Char)} {inScope : List SlotType} {slot : Slot}
  {value : SlotType} {old inmost : List Char} {arg : TypeArg} {entry : Entries}

-- A name with one placeholder and one argument takes the value that the argument tells.
theorem refEdits_told (known : scope.values setting.binding = .ok inScope) {name : Name} {place : Range}
    (one : segmentCount name.text = 1) (other : Slot.ofText? name.text = none)
    (filled : substituteInOrder name.text [value] = some new)
    (made : setting.argEntry (some inScope) scope 0 arg = ⟨[], .ok entry⟩)
    (told : entry.values = [some value]) (derived : entry.derived = true) :
    setting.refEdits owner scope (.mk range [.applied name (.mk place [arg])] 0) =
      ⟨[], .ok ⟨setting.listEdits place entry ++ [replace name new], some [value]⟩⟩ := by
  have has : hasPlaceholder name.text = true := hasPlaceholder_of_count (Nat.le_of_eq one.symm)
  have whole : entry.append .none = entry := by
    simp [Entries.append, Entries.none]
  have listed : setting.argEdits (some inScope) scope 0 [arg] = ⟨[], .ok entry⟩ := by
    rw [argEdits, Traced.bind_silent made, argEdits, Traced.bind_silent (Traced.pure_silent _), whole]
    rfl
  have values : entry.resolve inScope = value :: inScope.drop 1 := by simp [Entries.resolve, told]
  have spelled : substituteInOrder name.text (entry.resolve inScope) = some new := by
    rw [values, ← substituteInOrder_take, one, List.take_succ_cons, List.take_zero, filled]
  rw [refEdits_single other (segmentEdits_explicit has known (List.cons_ne_nil _ _) listed derived spelled),
    values, one, List.take_succ_cons, List.take_zero]

theorem nested_inmost (known : scope.values setting.binding = .ok inScope) (one : segmentCount old = 1)
    (other : Slot.ofText? old = none) (placeholder : Slot.ofText? inmost = some slot)
    (bound : setting.binding.get? slot = some value) (filled : substituteInOrder old [value] = some new)
    (spelled : nestedLexemes [old] inmost <+: (lexemesOf setting.tokens).drop start) :
    ∃ edits, setting.refEdits owner scope (nestedRef start [old] inmost) = ⟨[], .ok ⟨edits, some [value]⟩⟩ ∧
      setting.Displays (nestedRef start [old] inmost).range edits
        (if value.isPrimitive then new else nestedText [new] inmost) := by
  have at_ (index : Nat) {lexeme : Lexeme} (there : (nestedLexemes [old] inmost)[index]? = some lexeme) :=
    getElem?_of_front spelled there
  have stands : Name.Stands (lexemesOf setting.tokens) ⟨start + 2, inmost⟩ := at_ 2 rfl
  by_cases primitive : value.isPrimitive = true
  next =>
    have bare : (nestedRef (start + 2) [] inmost).slot? = some slot := placeholder
    have made : setting.argEntry (some inScope) scope 0 (.exact (nestedRef (start + 2) [] inmost)) =
        ⟨[], .ok (.drop value)⟩ := argEntry_primitive bare bound primitive
    refine ⟨_, refEdits_told known one other filled made rfl rfl, ?_⟩
    have removal : setting.listEdits ⟨start + 1, start + 4⟩ (.drop value) =
        [⟨(start + 1 : Nat), (start + 4 : Nat), []⟩] := by
      -- The name stands in front of the list, so no blanks go with it.
      have solid : setting.isBlankAt start = false := notBlank_of_solid ⟨_, at_ 0 rfl, rfl⟩
      simp [listEdits, Entries.drop, reduce, solid]
    rw [if_pos primitive, nestedRef_range]
    change setting.Displays ⟨start, start + 4⟩ (setting.listEdits ⟨start + 1, start + 4⟩ (.drop value) ++ _) _
    have gone : setting.Displays ⟨start + 1, start + 4⟩ [⟨(start + 1 : Nat), (start + 4 : Nat), []⟩] [] :=
      displays_removed (start + 1) (by omega)
    have shown : setting.Displays ⟨start, start + 4⟩
        ([⟨(start + 1 : Nat), (start + 4 : Nat), []⟩] ++ [replace ⟨start, old⟩ new]) (new ++ []) :=
      gone.front (by omega)
    rw [removal]
    rwa [List.append_nil] at shown
  next =>
    have generic := Bool.eq_false_iff.mpr primitive
    have made : setting.argEntry (some inScope) scope 0 (.exact (nestedRef (start + 2) [] inmost)) =
        ⟨[], .ok (.keep [some value] true inmost [])⟩ := argEntry_generic placeholder bound generic stands
    refine ⟨_, refEdits_told known one other filled made rfl rfl, ?_⟩
    rw [if_neg primitive, nestedText_cons, nestedText_nil]
    have alone : setting.Displays ⟨start + 2, start + 3⟩ [] inmost := displays_name stands
    exact (alone.bracketed (by omega) (at_ 1 rfl) (at_ 3 rfl)).front (by omega)

-- A name around: what is inside it is displayed as before, between its brackets.
theorem nested_around (known : scope.values setting.binding = .ok inScope) {names : List (List Char)}
    (one : segmentCount old = 1) (other : Slot.ofText? old = none) (nonempty : names ≠ [])
    (others : ∀ name ∈ names, Slot.ofText? name = none) (filled : substituteInOrder old [value] = some new)
    (spelled : nestedLexemes (old :: names) inmost <+: (lexemesOf setting.tokens).drop start)
    (visited : setting.refEdits none scope (nestedRef (start + 2) names inmost) =
      ⟨[], .ok ⟨edits, some [value]⟩⟩)
    (displays : setting.Displays (nestedRef (start + 2) names inmost).range edits text) :
    ∃ edits, setting.refEdits owner scope (nestedRef start (old :: names) inmost) =
        ⟨[], .ok ⟨edits, some [value]⟩⟩ ∧
      setting.Displays (nestedRef start (old :: names) inmost).range edits
        (new ++ ('<' :: (text ++ ['>']))) := by
  obtain ⟨-, opens, -, closes⟩ := nested_written spelled
  have range := nestedRef_range (start + 2) names inmost
  have stop : (nestedRef (start + 2) names inmost).range.stop =
      start + 2 + (nestedLexemes names inmost).length := congrArg Range.stop range
  -- What is inside has a list itself, so it is no placeholder alone.
  have notBare : setting.bareValue (nestedRef (start + 2) names inmost) = ⟨[], .ok none⟩ := by
    obtain ⟨next, rest, rfl⟩ := List.exists_cons_of_ne_nil nonempty
    rw [bareValue, nestedRef]
    simp only [bareSlot, others next List.mem_cons_self]
    rfl
  have rendered := displays.render (by rw [range]; simp only; omega)
  have made : setting.argEntry (some inScope) scope 0 (.exact (nestedRef (start + 2) names inmost)) =
      ⟨[], .ok (.keep [some value] true text edits)⟩ := by
    rw [argEntry_exact, refEntry, Traced.bind_silent notBare]
    simp only [keepEntry]
    rw [Traced.bind_silent visited, Traced.bind_silent rendered]
    rfl
  refine ⟨_, refEdits_told known one other filled made rfl rfl, ?_⟩
  have inside : setting.Displays ⟨start + 1 + 1, (nestedRef (start + 2) names inmost).range.stop⟩ edits
      text := by
    rw [stop]
    rwa [range] at displays
  rw [← stop] at closes
  exact (inside.bracketed (by omega) opens closes).front (by omega)

theorem nested_displayed (known : scope.values setting.binding = .ok inScope) {olds news : List (List Char)}
    (each : ∀ name ∈ olds ++ [old], segmentCount name = 1 ∧ Slot.ofText? name = none)
    (placeholder : Slot.ofText? inmost = some slot) (bound : setting.binding.get? slot = some value)
    (outer : List.Forall₂ (fun name new => substituteInOrder name [value] = some new) olds news)
    (filled : substituteInOrder old [value] = some new)
    (spelled : nestedLexemes (olds ++ [old]) inmost <+: (lexemesOf setting.tokens).drop start) :
    ∃ edits, setting.refEdits owner scope (nestedRef start (olds ++ [old]) inmost) =
        ⟨[], .ok ⟨edits, some [value]⟩⟩ ∧
      setting.Displays (nestedRef start (olds ++ [old]) inmost).range edits
        (if value.isPrimitive then nestedText news new else nestedText (news ++ [new]) inmost) := by
  -- What is around a reference takes its place behind two more lexemes, and as the argument of a
  -- template.
  induction outer generalizing owner start with
  | nil =>
    obtain ⟨one, other⟩ := each old List.mem_cons_self
    rw [List.nil_append, nestedText_nil]
    exact nested_inmost known one other placeholder bound filled spelled
  | @cons first firstNew olds news here _ ih =>
    obtain ⟨one, other⟩ := each first List.mem_cons_self
    have inner : ∀ name ∈ olds ++ [old], segmentCount name = 1 ∧ Slot.ofText? name = none :=
      fun name member => each name (List.mem_cons_of_mem _ member)
    obtain ⟨edits, visited, displays⟩ := @ih (start + 2) none inner (nested_written spelled).2.2.1
    obtain ⟨all, made, shown⟩ := @nested_around _ _ _ _ _ _ owner _ _ _ _ known _ one other
      (List.append_ne_nil_of_right_ne_nil _ (List.cons_ne_nil _ _)) (fun name member => (inner name member).2)
      here spelled visited displays
    refine ⟨all, made, ?_⟩
    by_cases primitive : value.isPrimitive = true
    next =>
      rw [if_pos primitive] at shown ⊢
      rwa [nestedText_cons]
    next =>
      rw [if_neg primitive] at shown ⊢
      change setting.Displays _ all (nestedText (firstNew :: (news ++ [new])) inmost)
      rwa [nestedText_cons]

end Levels

end Setting

theorem filled_each {names : List (List Char)} (value : SlotType)
    (each : ∀ name ∈ names, segmentCount name = 1) :
    ∃ news, List.Forall₂ (fun name new => substituteInOrder name [value] = some new ∧ Woven name [value] new)
      names news := by
  induction names with
  | nil => exact ⟨[], .nil⟩
  | cons name rest ih =>
    obtain ⟨news, others⟩ := ih fun name member => each name (List.mem_cons_of_mem _ member)
    have one := each name List.mem_cons_self
    obtain ⟨new, filled, woven⟩ := @substituteInOrder_some name [value] (by simp [one])
    rw [one] at woven
    exact ⟨new :: news, .cons ⟨filled, woven⟩ others⟩

/-- A reference to a template of a template and so on down to a placeholder: every name takes the value of
the placeholder. If that is primitive the innermost list goes and no other, else all lists stay as they
are. Nothing is noticed, whatever is in scope and whatever the reference is an argument of. -/
theorem refs_nested {source : List Char} {tokens : List Token} {tree : Tree} {binding : Binding}
    {ref : TypeRef} {names : List (List Char)} {inmost : List Char} {slot : Slot} {value : SlotType}
    (parsed : parse source = .ok (tokens, tree)) (below : (Subtree.unit tree).Below (.ref ref))
    (spelled : ((lexemesOf tokens).drop ref.range.start).take (ref.range.stop - ref.range.start) =
      nestedLexemes names inmost)
    (nonempty : names ≠ []) (each : ∀ name ∈ names, segmentCount name = 1 ∧ Slot.ofText? name = none)
    (placeholder : Slot.ofText? inmost = some slot) (bound : binding.get? slot = some value) :
    ∃ (outer : List (List Char)) (last text : List Char),
      List.Forall₂ (fun name new => Woven name [value] new) names (outer ++ [last]) ∧
      text = (if value.isPrimitive then nestedText outer last else nestedText (outer ++ [last]) inmost) ∧
      (∀ owner scope, (∀ slot ∈ scope.order, (binding.get? slot).isSome = true) →
        ∃ found, Setting.refEdits ⟨tokens, binding⟩ owner scope ref = ⟨[], .ok found⟩ ∧
          Setting.render ⟨tokens, binding⟩ ref.range found.edits = ⟨[], .ok text⟩) ∧
      ∀ edits, (Setting.edits ⟨tokens, binding⟩ tree).result = .ok edits →
        (∀ param, (Subtree.unit tree).Below (.param param) → (Subtree.param param).Below (.ref ref) →
          Setting.Retains ⟨tokens, binding⟩ (.param param)) →
        ∃ own, Setting.render ⟨tokens, binding⟩ ref.range own = ⟨[], .ok text⟩ ∧
          Setting.Arrives ⟨tokens, binding⟩ (.unit tree) (.ref ref) own edits := by
  have sound := parse_sound parsed
  have docs := parseTokens_docs (parse_ok parsed).2
  have written := parseTokens_written (parse_ok parsed).2
  have within := sound.at_below below
  obtain ⟨filled, -, solid⟩ := within.here.bounded
  have order : ref.range.start ≤ ref.range.stop := Nat.le_of_lt filled
  have long : ref.range.stop - 1 < (lexemesOf tokens).length := by
    obtain ⟨lexeme, there, -⟩ := solid
    exact (List.getElem?_eq_some_iff.mp there).1
  have length : ref.range.start + (nestedLexemes names inmost).length = ref.range.stop := by
    rw [← spelled, List.length_take, List.length_drop]
    omega
  have front : nestedLexemes names inmost <+: (lexemesOf tokens).drop ref.range.start :=
    spelled ▸ List.take_prefix _ _
  have same := ref_nested (written.at_below below) within front (.inl length.symm)
  -- The innermost name with a list is set apart: its list is the one that a primitive value takes
  -- away.
  obtain ⟨olds, old, rfl⟩ : ∃ olds old, names = olds ++ [old] :=
    ⟨_, _, (List.dropLast_append_getLast nonempty).symm⟩
  obtain ⟨outer, ofOlds⟩ := @filled_each olds value fun name member =>
    (each name (List.mem_append_left _ member)).1
  obtain ⟨one, -⟩ := each old (List.mem_append_right _ List.mem_cons_self)
  obtain ⟨last, ofOld, woven⟩ := @substituteInOrder_some old [value] (by simp [one])
  rw [one] at woven
  have shown (owner : Option (List Char)) (scope : Scope Slot)
      (all : ∀ slot ∈ scope.order, (binding.get? slot).isSome = true) :
      ∃ found, Setting.refEdits ⟨tokens, binding⟩ owner scope ref = ⟨[], .ok found⟩ ∧
        Setting.render ⟨tokens, binding⟩ ref.range found.edits = ⟨[], .ok
          (if value.isPrimitive then nestedText outer last else nestedText (outer ++ [last]) inmost)⟩ := by
    obtain ⟨inScope, known⟩ := @Setting.values_known ⟨tokens, binding⟩ scope all
    obtain ⟨edits, visited, displays⟩ := @Setting.nested_displayed ⟨tokens, binding⟩ _ ref.range.start _ owner
      _ _ _ _ _ known _ _ each placeholder bound (ofOlds.imp fun _ _ => And.left) ofOld front
    rw [← same] at visited displays
    exact ⟨_, visited, displays.render order⟩
  refine ⟨outer, last, _, ?_, rfl, shown, fun edits made retained => ?_⟩
  next => exact List.rel_append (ofOlds.imp fun _ _ => And.right) (.cons woven .nil)
  next =>
    obtain ⟨slots, manner, way⟩ := Subtree.way_of_below below [] .alone
    -- A reference with a list is never left out on its own, so its edits arrive among those of the
    -- tree.
    have lasting : (Subtree.ref ref).Lasting := by
      rw [same, Subtree.Lasting]
      cases olds <;> rfl
    obtain ⟨known, own, ended, arrives⟩ := @Setting.edits_arrive ⟨tokens, binding⟩ _ _ _ _ _ docs sound made
      way trivial lasting retained
    obtain ⟨found, visited, rendered⟩ := shown manner.owner? _ (Setting.scopeOf_bound known)
    refine ⟨own, ?_, arrives⟩
    rw [Setting.visit, Traced.bind_silent visited] at ended
    cases Traced.pure_ok.mp ended
    exact rendered

theorem refs_nested_int :
    ∃ tokens tree edits ref,
      parse "class A { KTypeFoo<KTypeBar<KType>> x; }".toList = .ok (tokens, tree) ∧
        (Setting.edits ⟨tokens, ⟨.int, none⟩⟩ tree).result = .ok edits ∧
        (Subtree.unit tree).Below (.ref ref) ∧
        ((lexemesOf tokens).drop ref.range.start).take (ref.range.stop - ref.range.start) =
          nestedLexemes ["KTypeFoo".toList, "KTypeBar".toList] "KType".toList ∧
        ∃ own, Setting.render ⟨tokens, ⟨.int, none⟩⟩ ref.range own = ⟨[], .ok "IntFoo<IntBar>".toList⟩ ∧
          Setting.Arrives ⟨tokens, ⟨.int, none⟩⟩ (.unit tree) (.ref ref) own edits := by
  obtain ⟨⟨tokens, tree⟩, parsed, passes⟩ := ok_of_any
    (show (parse "class A { KTypeFoo<KTypeBar<KType>> x; }".toList).toOption.any
      (fun read => (Setting.edits ⟨read.1, ⟨.int, none⟩⟩ read.2).result.toOption.any
        fun _ => (Subtree.unit read.2).children.any fun decl => decl.children.any fun part =>
          part.kind == .typeRef && decide
            (((lexemesOf read.1).drop part.range.start).take (part.range.stop - part.range.start) =
              nestedLexemes ["KTypeFoo".toList, "KTypeBar".toList] "KType".toList) &&
            (Setting.rendering ⟨read.1, ⟨.int, none⟩⟩ [] part).result.toOption.any
              fun text => text == "IntFoo<IntBar>".toList) = true
      by decide +kernel)
  obtain ⟨edits, made, found⟩ := ok_of_any passes
  simp only [List.any_eq_true, Bool.and_eq_true, beq_iff_eq, decide_eq_true_eq] at found
  obtain ⟨decl, top, part, step, ⟨isRef, spelled⟩, shows⟩ := found
  obtain ⟨field, rfl⟩ : ∃ field, part = .ref field := by
    cases part <;> first | cases isRef; done | exact ⟨_, rfl⟩
  obtain ⟨shown, rendered, same⟩ := ok_of_any shows
  have below : (Subtree.unit tree).Below (.ref field) := .head top (.single step)
  -- A field stands inside of no type parameter, so nothing around it can be dropped.
  have retained (param : TypeParam) (above : (Subtree.unit tree).Below (.param param))
      (around : (Subtree.param param).Below (.ref field)) :
      Setting.Retains ⟨tokens, ⟨.int, none⟩⟩ (.param param) :=
    absurd around (Subtree.field_free (parse_sound parsed) top step .refl above)
  obtain ⟨outer, last, text, -, -, anywhere, whole⟩ := @refs_nested _ _ _ ⟨.int, none⟩ _ _ _ .key .int parsed
    below spelled (List.cons_ne_nil _ _) (by decide +kernel) (by decide +kernel) rfl
  obtain ⟨found, visited, displayed⟩ := anywhere none (Setting.scopeOf ⟨tokens, ⟨.int, none⟩⟩ [])
    (Setting.scopeOf_bound (List.forall_mem_nil _))
  rw [Setting.rendering, Traced.bind_ok] at rendered
  obtain ⟨drawn, ofRef, rendered⟩ := rendered
  have visits := @Setting.visit_ref ⟨tokens, ⟨.int, none⟩⟩ [] _ _ .alone (congrArg Traced.result visited)
  cases visits.symm.trans ofRef
  rw [Subtree.range_ref, displayed] at rendered
  cases rendered
  cases beq_iff_eq.mp same
  exact ⟨tokens, tree, edits, field, parsed, made, below, spelled, whole edits made retained⟩

end Specializer
