import Specializer.Proofs.Arrivals
import Specializer.Proofs.DeclScopes
import Specializer.Proofs.Heads
import Specializer.Proofs.WordPattern

set_option autoImplicit false

namespace Specializer

namespace DocScope

variable {tokens : List Token} {doc start : Nat} {heads rest : List Numbered} {first : Numbered}

theorem mem_significantAfter {item : Numbered} : item ∈ significantAfter tokens doc ↔
    tokens[item.1]? = some item.2 ∧ doc < item.1 ∧ item.2.isTrivia = false := by
  simp only [significantAfter, List.mem_filter, Bool.and_eq_true, decide_eq_true_eq, Bool.not_eq_true']
  refine and_congr_left fun _ => ?_
  rw [List.mem_mapIdx]
  constructor
  · rintro ⟨index, inside, rfl⟩
    exact List.getElem?_eq_getElem inside
  · intro found
    obtain ⟨inside, same⟩ := List.getElem?_eq_some_iff.mp found
    exact ⟨item.1, inside, Prod.ext rfl same⟩

theorem significantAfter_increasing (tokens : List Token) (doc : Nat) :
    (significantAfter tokens doc).Pairwise fun a b => a.1 < b.1 := by
  refine List.Pairwise.filter _ (List.pairwise_iff_getElem.mpr fun i j _ _ less => ?_)
  simpa using less

theorem listed_next (split : significantAfter tokens doc = heads ++ first :: rest) {next : Nat}
    (after : After (lexemesOf tokens) first.1 next) : rest.head?.map Prod.fst = some next := by
  -- The list has places in order, and between the two there is nothing that carries meaning.
  have increasing := split ▸ significantAfter_increasing tokens doc
  obtain ⟨-, later, across⟩ := List.pairwise_append.mp increasing
  obtain ⟨behind, later⟩ := List.pairwise_cons.mp later
  have listed (item : Numbered) : item ∈ heads ++ first :: rest ↔
      tokens[item.1]? = some item.2 ∧ doc < item.1 ∧ item.2.isTrivia = false := by
    rw [← split]
    exact mem_significantAfter
  have here := (listed first).mp (by simp)
  obtain ⟨lexeme, there, meaning⟩ := after.solid
  obtain ⟨token, found, rfl⟩ := lexemesOf_some there
  have member := (listed (next, token)).mpr ⟨found, Nat.lt_trans here.2.1 after.behind, meaning⟩
  have order := after.behind
  rcases List.mem_append.mp member with inHeads | member
  · have before := across _ inHeads first List.mem_cons_self
    omega
  · rcases List.mem_cons.mp member with same | inRest
    · rw [← same] at order
      exact absurd order (Nat.lt_irrefl _)
    · cases rest with
      | nil => cases inRest
      | cons second more =>
        rcases List.mem_cons.mp inRest with same | further
        · rw [← same]
          rfl
        · have between := (List.pairwise_cons.mp later).1 _ further
          have solid := (listed second).mp (by simp)
          refine absurd ⟨second.2.toLexeme, ?_, solid.2.2⟩
            (after.first second.1 (behind second List.mem_cons_self) between)
          rw [lexemesOf, List.getElem?_map, solid.1]
          rfl

theorem declares_not_modifier {lexeme : Lexeme} (declares : declarationWords.contains lexeme.text = true) :
    lexeme.isModifier = false := by
  have disjoint : ∀ word ∈ declarationWords, modifiers.contains word = false := by decide
  rw [Lexeme.isModifier, disjoint lexeme.text (by simpa using declares), Bool.and_false]

theorem declarationStart_opens (split : significantAfter tokens doc = heads ++ rest)
    (opens : OpensAt (lexemesOf tokens) start) (begins : rest.head?.map Prod.fst = some start) {n : Nat}
    (enough : rest.length < n) : Apart rest ∧ declarationStart n rest = some start := by
  obtain ⟨n, rfl⟩ := Nat.exists_eq_add_of_lt enough
  cases rest with
  | nil => cases begins
  | cons first rest =>
    cases begins
    obtain ⟨found, -, -⟩ := mem_significantAfter.mp (split ▸ List.mem_append_right heads List.mem_cons_self)
    have here : (lexemesOf tokens)[first.1]? = some first.2.toLexeme := by
      rw [lexemesOf, List.getElem?_map, found]
      rfl
    have ends (other : first.2.isModifier = false) (unsigned : first.2.kind ≠ .atSign) :
        declarationStart ((first :: rest).length + n + 1) (first :: rest) = some first.1 := by
      rw [declarationStart.eq_def]
      simp [other, unsigned]
    -- A word or a bracket ends the search; an at sign does because of the word behind it.
    cases opens with
    | word there ident declares =>
      rw [here] at there
      cases there
      exact ⟨by rintro _ ⟨⟩; simp [ident], ends (declares_not_modifier declares) (by simp [ident])⟩
    | bracket opens =>
      obtain ⟨lexeme, there, kind⟩ := opens
      rw [here] at there
      cases there
      exact ⟨by rintro _ ⟨⟩; simp [kind], ends (not_modifier (by simp [kind])) (by simp [kind])⟩
    | marked sign after there spelled =>
      obtain ⟨lexeme, standing, signs⟩ := sign
      rw [here] at standing
      cases standing
      refine ⟨by rintro _ ⟨⟩; simp [signs], ?_⟩
      have second := listed_next split after
      cases rest with
      | nil => cases second
      | cons second more =>
        cases second
        obtain ⟨found, -, -⟩ := mem_significantAfter.mp
          (split ▸ List.mem_append_right heads (List.mem_cons_of_mem _ List.mem_cons_self))
        rw [lexemesOf, List.getElem?_map, found] at there
        cases there
        have other := @not_modifier first (by simp [signs])
        simp [declarationStart, other, signs, spelled]

end DocScope

namespace Setting

variable {setting : Setting} {slots : List Slot} {scope : Scope Slot} {doc : Nat} {tree : Tree}
  {edits found : List Edit}

/-- The edits have the comment filled where the given slots are declared: each word that holds several
placeholders, and not more than there are values, takes the values by position. -/
def FillsDoc (setting : Setting) (slots : List Slot) (doc : Nat) (edits : List Edit) : Prop :=
  ∃ parts news, DocText.Cut (setting.docText doc) parts ∧
    List.Forall₂ (fun word new => 2 ≤ segmentCount word →
      segmentCount word ≤ (setting.binding.order slots).length →
        setting.binding.Positioned slots word new) parts news ∧
    DocText.fill setting.binding (some (setting.binding.inScope slots)) (setting.docText doc) =
      .ok news.flatten ∧
    ∀ edit, edit ∈ edits ∧ edit.Covers doc ↔
      news.flatten ≠ setting.docText doc ∧ edit = ⟨doc, doc + 1, news.flatten⟩

section Words

variable {values : List SlotType} {word new : List Char}

theorem single_of_plural {slot : Slot} (named : DocText.plural? word = some slot) : segmentCount word = 1 := by
  have same := List.find?_some named
  rw [← eq_of_beq same]
  cases slot <;> decide

theorem single_of_bare {slot : Slot} (named : Slot.ofText? word = some slot) : segmentCount word = 1 := by
  obtain rfl := DocText.ofText?_iff.mp named
  cases slot <;> decide

theorem fillRun_positioned (follows : scope.Follows setting.binding slots)
    (bound : scope.values setting.binding = .ok values)
    (made : DocText.fillRun setting.binding (some values) word = .ok new) (several : 2 ≤ segmentCount word)
    (enough : segmentCount word ≤ (setting.binding.order slots).length) :
    setting.binding.Positioned slots word new := by
  have has : hasPlaceholder word = true := by
    by_contra plain
    rw [segmentCount_eq_zero.mpr (Bool.eq_false_iff.mpr plain)] at several
    omega
  have length : (setting.binding.order slots).length = values.length := by
    simpa [follows.order] using congrArg List.length (Scope.values_bound bound)
  obtain ⟨filled, substituted⟩ : ∃ filled, substituteInOrder word values = some filled := by
    rw [← Option.isSome_iff_exists, substituteInOrder_isSome, decide_eq_true_iff]
    omega
  -- Several placeholders make neither a plural nor a bare placeholder.
  have same : new = filled := by
    rw [DocText.fillRun, if_pos has, DocText.fillWord] at made
    split at made
    next named =>
      have one := single_of_plural named
      omega
    next =>
      split at made
      next named =>
        have one := single_of_bare named
        omega
      next =>
        rw [if_neg (by omega), substituted] at made
        exact (Except.ok.inj made).symm
  exact same ▸ follows.positioned bound substituted

end Words

theorem docEdit_fills (follows : scope.Follows setting.binding slots)
    (made : setting.docEdit scope doc = .ok found)
    (only : ∀ edit, edit ∈ edits ∧ edit.Covers doc ↔ edit ∈ found) : setting.FillsDoc slots doc edits := by
  simp only [docEdit, bind_eq_ok, pure_eq_ok] at made
  obtain ⟨values, bound, new, filled, rfl⟩ := made
  have inScope : values = setting.binding.inScope slots := by
    obtain rfl : scope = setting.scopeOf slots := by
      obtain ⟨order⟩ := scope
      exact congrArg Scope.mk follows.order
    exact values_inScope bound
  have whole := filled
  rw [DocText.fill, bind_eq_ok] at filled
  obtain ⟨news, each, same⟩ := filled
  obtain rfl := pure_eq_ok.mp same
  refine ⟨_, news, DocText.cut_runs _, ?_, inScope ▸ whole, fun edit => ?_⟩
  · exact (mapM_eq_ok each).imp fun word new made => fillRun_positioned follows bound made
  · rw [only]
    split
    next same => simp [docText, same]
    next other => simpa [docText] using fun _ => other

theorem docEdits_each (made : setting.docEdits tree edits = .ok found) (listed : doc ∈ tree.docs)
    (kept : isReplaced edits doc = false) :
    ∃ own, setting.docEdit (DocScope.find setting.tokens
        (declScopesOf (Scope.outermost setting.binding) tree.members) (Scope.outermost setting.binding) doc) doc =
          .ok own ∧
      ∀ edit, edit ∈ found ∧ edit.Covers doc ↔ edit ∈ own := by
  simp only [docEdits, bind_eq_ok, pure_eq_ok] at made
  obtain ⟨lists, each, rfl⟩ := made
  have each := mapM_eq_ok each
  have member : doc ∈ tree.docs.filter fun doc => !isReplaced edits doc :=
    List.mem_filter.mpr ⟨listed, by simp [kept]⟩
  obtain ⟨own, there, made⟩ := exists_of_forall₂ each.flip member
  refine ⟨own, made, fun edit => ⟨?_, fun inOwn => ?_⟩⟩
  · rintro ⟨inFound, start, stop⟩
    obtain ⟨list, inLists, inList⟩ := List.mem_flatten.mp inFound
    obtain ⟨other, -, made'⟩ := exists_of_forall₂ each inLists
    -- Comments are apart from each other, so an edit that covers this one is its own.
    have same : other = doc := by
      rcases docEdit_ok made' with rfl | ⟨only, rfl, edits⟩
      · cases inList
      · cases List.mem_singleton.mp inList
        have first := edits.start
        have last := edits.stop
        omega
    rw [same, made] at made'
    exact (Except.ok.inj made').symm ▸ inList
  · refine ⟨List.mem_flatten_of_mem there inOwn, ?_⟩
    rcases docEdit_ok made with rfl | ⟨only, rfl, edits⟩
    · cases inOwn
    · cases List.mem_singleton.mp inOwn
      have first := edits.start
      have last := edits.stop
      exact ⟨by omega, by omega⟩

structure Finds (setting : Setting) (tree : Tree) (doc : Nat) (target : Option Nat) (scope : Scope Slot) :
    Prop where
  behind : ∀ decl, (Subtree.unit tree).Below decl → decl.IsDecl → target = some decl.range.start →
    ∃ slots, (Subtree.unit tree).Innermost decl slots ∧ scope.Follows setting.binding slots
  around : (∀ decl, (Subtree.unit tree).Below decl → decl.IsDecl → target ≠ some decl.range.start) →
    (∃ decl slots, (Subtree.unit tree).Encloses doc decl ∧ (Subtree.unit tree).Innermost decl slots ∧
      scope.Follows setting.binding slots) ∨
    (∀ decl, (Subtree.unit tree).Below decl → decl.IsDecl → decl.range.start ≤ doc → ¬ doc < decl.range.stop) ∧
      scope.Follows setting.binding []

theorem find_finds {lexemes : List Lexeme} {decls : List DeclScope}
    (scopes : setting.Scopes [] (tree.members.map Member.subtree) decls)
    (sound : (Subtree.unit tree).Sound lexemes) :
    setting.Finds tree doc
      (DocScope.declarationStart (setting.tokens.length + 1) (DocScope.significantAfter setting.tokens doc))
      (DocScope.find setting.tokens decls (Scope.outermost setting.binding) doc) := by
  rw [DocScope.find]
  generalize DocScope.declarationStart (setting.tokens.length + 1)
    (DocScope.significantAfter setting.tokens doc) = target
  constructor
  · rintro decl below isDecl rfl
    obtain ⟨found, slots, taken, innermost, follows⟩ := scopes.find_decl sound below isDecl
    simp only [taken]
    exact ⟨slots, innermost, follows⟩
  · intro nowhere
    have none := scopes.find_none sound (fun decl below isDecl same => nowhere decl below isDecl same.symm)
    simp only [none]
    rcases scopes.last_around sound with ⟨found, decl, slots, last, encloses, innermost, follows⟩ | ⟨empty, outside⟩
    · refine .inl ⟨decl, slots, encloses, innermost, ?_⟩
      rw [last]
      exact follows
    · refine .inr ⟨outside, ?_⟩
      rw [empty]
      exact Scope.outermost_follows

theorem edits_fills (sound : (Subtree.unit tree).Sound (lexemesOf setting.tokens))
    (docs : tree.docs = docComments setting.tokens) (made : (setting.edits tree).result = .ok edits)
    (listed : doc ∈ docComments setting.tokens)
    (free : ∀ edit ∈ edits, edit.Covers doc → edit.start = doc ∧ edit.stop = doc + 1) :
    ∃ scope, setting.Finds tree doc
        (DocScope.declarationStart (setting.tokens.length + 1) (DocScope.significantAfter setting.tokens doc))
        scope ∧
      ∀ slots, scope.Follows setting.binding slots → setting.FillsDoc slots doc edits := by
  obtain ⟨inCode, inDocs, visited, filled, all⟩ := edits_parts made
  -- Edits of the code that stand for one token stand for a name.
  have apart : ∀ edit ∈ inCode, ¬ edit.Covers doc := by
    intro edit member covers
    obtain ⟨start, stop⟩ := free edit (all.mem_iff.mpr (List.mem_append_left _ member)) covers
    obtain ⟨top, there, inner, treats, inside⟩ := (membersEdits_treats visited).2 edit member
    have child := Subtree.sound_member sound there
    obtain ⟨lower, below, -, name, own, same, -⟩ := treats_single treats (Subtree.inCode_member top) child inside
      (by omega)
    have stands := (child.at_below below).here.stands name own
    obtain ⟨token, found, kind⟩ := (mem_indices _ _ _).mp listed
    have index : name.index = doc := by omega
    rw [Name.Stands, index, lexemesOf, List.getElem?_map, found] at stands
    rw [beq_iff_eq] at kind
    have ident := congrArg Lexeme.kind (Option.some.inj stands)
    rw [kind] at ident
    cases ident
  have kept : isReplaced (Edit.sort inCode) doc = false := by
    rw [Bool.eq_false_iff]
    intro replaced
    obtain ⟨edit, last, reaches⟩ := (Option.any_eq_true _ _).mp replaced
    have member := List.mem_filter.mp (List.mem_of_getLast? last)
    have early := of_decide_eq_true member.2
    have late := of_decide_eq_true reaches
    exact apart edit ((Edit.sort_perm _).mem_iff.mp member.1) ⟨early, by omega⟩
  obtain ⟨own, change, only⟩ := docEdits_each filled (docs ▸ listed) kept
  refine ⟨_, find_finds (declScopes_unit sound visited) sound, fun slots follows => ?_⟩
  refine docEdit_fills follows change fun edit => ?_
  rw [← only, all.mem_iff, List.mem_append]
  constructor
  · rintro ⟨code | comment, covers⟩
    · exact absurd covers (apart edit code)
    · exact ⟨comment, covers⟩
  · rintro ⟨comment, covers⟩
    exact ⟨.inr comment, covers⟩

end Setting

/-- A comment takes the order of values of the declaration that begins behind modifiers and annotations. Where
nothing is declared behind the last of these, it takes that of the innermost declaration around it, or that of
the outside if there is none; but not where a dot goes on with the name of an annotation, and no lexeme of the
sort that is allowed there stands behind it. -/
theorem edits_doc_order {source : List Char} {tokens : List Token} {tree : Tree} {binding : Binding}
    {edits : List Edit} (parsed : parse source = .ok (tokens, tree))
    (made : (Setting.edits ⟨tokens, binding⟩ tree).result = .ok edits) {doc : Nat}
    (listed : doc ∈ docComments tokens)
    (free : ∀ edit ∈ edits, edit.Covers doc → edit.start = doc ∧ edit.stop = doc + 1)
    {named : Lexeme → Prop} {heads rest : List DocScope.Numbered}
    (split : DocScope.significantAfter tokens doc = heads ++ rest)
    (formed : DocScope.Heads named (DocScope.lexemes heads)) :
    (∀ decl, (Subtree.unit tree).Below decl → decl.IsDecl →
      rest.head?.map Prod.fst = some decl.range.start →
        ∃ slots, (Subtree.unit tree).Innermost decl slots ∧
          Setting.FillsDoc ⟨tokens, binding⟩ slots doc edits) ∧
    ((∀ decl, (Subtree.unit tree).Below decl → decl.IsDecl →
        rest.head?.map Prod.fst ≠ some decl.range.start) →
      DocScope.Longest named (DocScope.lexemes heads) (DocScope.lexemes rest) →
      ¬ DocScope.Dotted named (DocScope.lexemes heads) (DocScope.lexemes rest) →
        (∃ decl slots, (Subtree.unit tree).Encloses doc decl ∧ (Subtree.unit tree).Innermost decl slots ∧
          Setting.FillsDoc ⟨tokens, binding⟩ slots doc edits) ∨
        (∀ decl, (Subtree.unit tree).Below decl → decl.IsDecl → decl.range.start ≤ doc →
          ¬ doc < decl.range.stop) ∧ Setting.FillsDoc ⟨tokens, binding⟩ [] doc edits) := by
  have sound := parse_sound parsed
  obtain ⟨-, read⟩ := parse_ok parsed
  obtain ⟨scope, finds, fills⟩ :=
    @Setting.edits_fills ⟨tokens, binding⟩ doc tree edits sound (parseTokens_docs read) made listed free
  -- The search may go over as many tokens as there are in the text.
  have enough : (heads ++ rest).length < tokens.length + 1 := by
    rw [← split]
    refine Nat.lt_succ_of_le ((List.length_filter_le _ _).trans ?_)
    simp
  rw [show DocScope.significantAfter (Setting.mk tokens binding).tokens doc = heads ++ rest from split] at finds
  constructor
  · intro decl below isDecl begins
    have opens := parseTokens_opened read decl below isDecl
    obtain ⟨apart, -⟩ := DocScope.declarationStart_opens split opens begins (Nat.lt_succ_self _)
    obtain ⟨m, more, same⟩ := DocScope.declarationStart_heads formed apart enough
    obtain ⟨-, stops⟩ := DocScope.declarationStart_opens split opens begins more
    obtain ⟨slots, innermost, follows⟩ := finds.behind decl below isDecl (same.trans stops)
    exact ⟨slots, innermost, fills slots follows⟩
  · intro nowhere longest clear
    -- Where the search ends, nothing is declared, and so what is around the comment decides.
    have unfound : ∀ decl, (Subtree.unit tree).Below decl → decl.IsDecl →
        DocScope.declarationStart (tokens.length + 1) (heads ++ rest) ≠ some decl.range.start := by
      intro decl below isDecl
      rcases DocScope.declarationStart_longest formed longest clear enough with none | last
      · rw [none]
        nofun
      · rw [last]
        exact nowhere decl below isDecl
    rcases finds.around unfound with ⟨decl, slots, encloses, innermost, follows⟩ | ⟨outside, follows⟩
    · exact .inl ⟨decl, slots, encloses, innermost, fills slots follows⟩
    · exact .inr ⟨outside, fills [] follows⟩

theorem DocScope.Heads.first {named : Lexeme → Prop} {lexeme : Lexeme} {rest : List Lexeme}
    (heads : Heads named (lexeme :: rest)) :
    lexeme.isModifier = true ∧ Heads named rest ∨ lexeme.kind = .atSign := by
  generalize same : lexeme :: rest = text at heads
  cases heads with
  | nil => cases same
  | modifier modifies more =>
    cases same
    exact .inl ⟨modifies, more⟩
  | marked signs =>
    cases same
    exact .inr signs

theorem DocScope.longest_modifiers {named : Lexeme → Prop} {heads rest : List Lexeme}
    (modifiers : ∀ lexeme ∈ heads, lexeme.isModifier = true)
    (ends : ∀ lexeme ∈ rest.head?, lexeme.isModifier = false ∧ lexeme.kind ≠ .atSign) :
    Longest named heads rest := by
  intro more further split longer
  induction heads with
  | nil =>
    cases more with
    | nil => rfl
    | cons lexeme more =>
      obtain ⟨other, unsigned⟩ := ends lexeme (by simp [split])
      rcases longer.first with ⟨modifies, -⟩ | sign
      · rw [other] at modifies
        cases modifies
      · exact absurd sign unsigned
  | cons word heads ih =>
    rcases longer.first with ⟨-, behind⟩ | sign
    · exact ih (fun lexeme member => modifiers lexeme (List.mem_cons_of_mem _ member)) behind
    · have modifies := modifiers word List.mem_cons_self
      simp [Lexeme.isModifier, sign] at modifies

theorem DocScope.Dotted.dot {named : Lexeme → Prop} {heads rest : List Lexeme}
    (dotted : Dotted named heads rest) : rest.head?.map Lexeme.kind = some .dot := by
  obtain ⟨-, -, -, -, dot, next, more, -, -, -, -, -, rfl, dots⟩ := dotted
  exact congrArg some dots

theorem edits_of_any (source : List Char) (binding : Binding) (check : List Token → Tree → List Edit → Bool)
    (passes : (parse source).toOption.any (fun read =>
      (Setting.edits ⟨read.1, binding⟩ read.2).result.toOption.any (check read.1 read.2)) = true) :
    ∃ tokens tree edits, parse source = .ok (tokens, tree) ∧
      (Setting.edits ⟨tokens, binding⟩ tree).result = .ok edits ∧ check tokens tree edits = true := by
  obtain ⟨⟨tokens, tree⟩, parsed, made⟩ := ok_of_any passes
  obtain ⟨edits, made, checked⟩ := ok_of_any made
  exact ⟨tokens, tree, edits, parsed, made, checked⟩

def Documents (doc : Nat) (text : String) (tokens : List Token) (edits : List Edit) : Prop :=
  doc ∈ docComments tokens ∧ (⟨doc, doc + 1, text.toList⟩ : Edit) ∈ edits ∧
    ∀ edit ∈ edits, edit.Covers doc → edit.start = doc ∧ edit.stop = doc + 1

instance (doc : Nat) (text : String) (tokens : List Token) (edits : List Edit) :
    Decidable (Documents doc text tokens edits) :=
  decidable_of_iff (doc ∈ docComments tokens ∧ (⟨doc, doc + 1, text.toList⟩ : Edit) ∈ edits ∧
      ∀ edit ∈ edits, edit.start ≤ doc ∧ (doc : Int) < edit.stop → edit.start = doc ∧ edit.stop = doc + 1)
    Iff.rfl

-- Behind the first comment stands a method, with annotations and a modifier in front of it, behind the second a
-- field. The third comment takes the order of a class, since the name of the annotation goes on with any lexeme.
theorem edits_doc_order_samples :
    (∃ tokens tree edits heads rest decl slots,
      parse "class A<VType, KType> { /** KTypeVTypeX */ @B.C(1) public <KType> void m(); }".toList =
          .ok (tokens, tree) ∧
        (Setting.edits ⟨tokens, ⟨.int, some .long⟩⟩ tree).result = .ok edits ∧
        Documents 12 "/** IntLongX */" tokens edits ∧
        DocScope.significantAfter tokens 12 = heads ++ rest ∧
        DocScope.Heads (fun lexeme => lexeme.kind = .ident) (DocScope.lexemes heads) ∧
        (Subtree.unit tree).Below decl ∧ decl.IsDecl ∧ rest.head?.map Prod.fst = some decl.range.start ∧
        (Subtree.unit tree).Innermost decl slots ∧
        Setting.FillsDoc ⟨tokens, ⟨.int, some .long⟩⟩ slots 12 edits) ∧
    (∃ tokens tree edits heads rest,
      parse "class A<VType, KType> { /** KTypeVTypeX */ public int x; }".toList = .ok (tokens, tree) ∧
        (Setting.edits ⟨tokens, ⟨.int, some .long⟩⟩ tree).result = .ok edits ∧
        Documents 12 "/** LongIntX */" tokens edits ∧
        DocScope.significantAfter tokens 12 = heads ++ rest ∧
        DocScope.Heads (fun lexeme => lexeme.kind = .ident) (DocScope.lexemes heads) ∧
        DocScope.Longest (fun lexeme => lexeme.kind = .ident) (DocScope.lexemes heads) (DocScope.lexemes rest) ∧
        ¬ DocScope.Dotted (fun lexeme => lexeme.kind = .ident) (DocScope.lexemes heads)
          (DocScope.lexemes rest) ∧
        ((∃ decl slots, (Subtree.unit tree).Encloses 12 decl ∧ (Subtree.unit tree).Innermost decl slots ∧
            Setting.FillsDoc ⟨tokens, ⟨.int, some .long⟩⟩ slots 12 edits) ∨
          (∀ decl, (Subtree.unit tree).Below decl → decl.IsDecl → decl.range.start ≤ 12 →
            ¬ 12 < decl.range.stop) ∧ Setting.FillsDoc ⟨tokens, ⟨.int, some .long⟩⟩ [] 12 edits)) ∧
    ∃ tokens tree edits heads rest decl slots,
      parse "class KTypeVTypeA<KType, VType> { /** KTypeVTypeX */ @A . ; class KTypeVTypeB<VType, KType> { } }".toList =
          .ok (tokens, tree) ∧
        (Setting.edits ⟨tokens, ⟨.int, some .long⟩⟩ tree).result = .ok edits ∧
        Documents 12 "/** LongIntX */" tokens edits ∧
        DocScope.significantAfter tokens 12 = heads ++ rest ∧
        DocScope.Dotted (fun lexeme => lexeme.kind = .ident) (DocScope.lexemes (heads.take 2))
          (DocScope.lexemes (heads.drop 2 ++ rest)) ∧
        DocScope.Heads (fun _ => True) (DocScope.lexemes heads) ∧
        rest.head?.map Prod.fst = some decl.range.start ∧ (Subtree.unit tree).Innermost decl slots ∧
        Setting.FillsDoc ⟨tokens, ⟨.int, some .long⟩⟩ slots 12 edits := by
  refine ⟨?_, ?_, ?_⟩
  · obtain ⟨tokens, tree, edits, parsed, made, checked⟩ := edits_of_any
      "class A<VType, KType> { /** KTypeVTypeX */ @B.C(1) public <KType> void m(); }".toList ⟨.int, some .long⟩
      (fun tokens tree edits => decide (Documents 12 "/** IntLongX */" tokens edits) &&
        DocScope.lexemes ((DocScope.significantAfter tokens 12).take 8) ==
          [⟨.atSign, ['@']⟩, ⟨.ident, ['B']⟩, ⟨.dot, ['.']⟩, ⟨.ident, ['C']⟩, ⟨.lpar, ['(']⟩, ⟨.number, ['1']⟩,
            ⟨.rpar, [')']⟩, ⟨.ident, "public".toList⟩] &&
        ((DocScope.significantAfter tokens 12).drop 8).head?.map Prod.fst == some 24 &&
        (Subtree.unit tree).children.any fun decl => decl.children.any fun method =>
          method.kind == .methodDecl && method.range.start == 24) (by decide +kernel)
    simp only [Bool.and_eq_true, beq_iff_eq, decide_eq_true_eq, List.any_eq_true] at checked
    obtain ⟨⟨⟨documents, spelled⟩, begins⟩, decl, isDecl, method, isMethod, kind, start⟩ := checked
    have below : (Subtree.unit tree).Below method := .head isDecl (.single isMethod)
    have formed : DocScope.Heads (fun lexeme => lexeme.kind = .ident)
        (DocScope.lexemes ((DocScope.significantAfter tokens 12).take 8)) := by
      rw [spelled]
      have qualified : DocScope.Qualified (fun lexeme => lexeme.kind = .ident) [⟨.dot, ['.']⟩, ⟨.ident, ['C']⟩] :=
        .cons rfl rfl .nil
      have inner : DocScope.Rounds [⟨.number, ['1']⟩] := .plain (by decide) (by decide) .nil
      have given : DocScope.Given (⟨.lpar, ['(']⟩ :: ([⟨.number, ['1']⟩] ++ [⟨.rpar, [')']⟩])) :=
        .list rfl inner rfl
      have word : Lexeme.isModifier ⟨.ident, "public".toList⟩ = true := by decide
      exact .marked rfl rfl rfl qualified given (.modifier word .nil)
    have split := (List.take_append_drop 8 (DocScope.significantAfter tokens 12)).symm
    rw [← start] at begins
    obtain ⟨slots, innermost, fills⟩ :=
      (edits_doc_order parsed made documents.1 documents.2.2 split formed).1 method below (.inr kind) begins
    exact ⟨tokens, tree, edits, _, _, method, slots, parsed, made, documents, split, formed, below, .inr kind, begins,
      innermost, fills⟩
  · obtain ⟨tokens, tree, edits, parsed, made, checked⟩ := edits_of_any
      "class A<VType, KType> { /** KTypeVTypeX */ public int x; }".toList ⟨.int, some .long⟩
      (fun tokens _ edits => decide (Documents 12 "/** LongIntX */" tokens edits) &&
        DocScope.lexemes ((DocScope.significantAfter tokens 12).take 1) == [⟨.ident, "public".toList⟩] &&
        DocScope.lexemes ((DocScope.significantAfter tokens 12).drop 1) == [⟨.ident, "int".toList⟩,
          ⟨.ident, ['x']⟩, ⟨.semi, [';']⟩, ⟨.rbrace, ['\x7d']⟩] &&
        ((DocScope.significantAfter tokens 12).drop 1).head?.map Prod.fst == some 16 &&
        (lexemesOf tokens)[16]? == some ⟨.ident, "int".toList⟩) (by decide +kernel)
    simp only [Bool.and_eq_true, beq_iff_eq, decide_eq_true_eq] at checked
    obtain ⟨⟨⟨⟨documents, front⟩, field⟩, begins⟩, there⟩ := checked
    have word : Lexeme.isModifier ⟨.ident, "public".toList⟩ = true := by decide
    have formed : DocScope.Heads (fun lexeme => lexeme.kind = .ident)
        (DocScope.lexemes ((DocScope.significantAfter tokens 12).take 1)) := by
      rw [front]
      exact .modifier word .nil
    have longest : DocScope.Longest (fun lexeme => lexeme.kind = .ident)
        (DocScope.lexemes ((DocScope.significantAfter tokens 12).take 1))
        (DocScope.lexemes ((DocScope.significantAfter tokens 12).drop 1)) := by
      rw [front, field]
      refine DocScope.longest_modifiers (by simpa using word) fun lexeme first => ?_
      cases first
      exact ⟨by decide, nofun⟩
    have clear : ¬ DocScope.Dotted (fun lexeme => lexeme.kind = .ident)
        (DocScope.lexemes ((DocScope.significantAfter tokens 12).take 1))
        (DocScope.lexemes ((DocScope.significantAfter tokens 12).drop 1)) := by
      rw [front, field]
      exact fun dotted => nomatch dotted.dot
    have split := (List.take_append_drop 1 (DocScope.significantAfter tokens 12)).symm
    have nowhere : ∀ decl, (Subtree.unit tree).Below decl → decl.IsDecl →
        ((DocScope.significantAfter tokens 12).drop 1).head?.map Prod.fst ≠ some decl.range.start := by
      intro decl below isDecl starts
      have opens := parseTokens_opened (parse_ok parsed).2 decl below isDecl
      rw [← Option.some.inj (begins.symm.trans starts)] at opens
      cases opens with
      | word found ident declares =>
        cases there.symm.trans found
        exact absurd declares (by decide)
      | marked sign | bracket sign =>
        obtain ⟨lexeme, found, kind⟩ := sign
        cases there.symm.trans found
        cases kind
    have around := (edits_doc_order parsed made documents.1 documents.2.2 split formed).2 nowhere longest clear
    exact ⟨tokens, tree, edits, _, _, parsed, made, documents, split, formed, longest, clear, around⟩
  · obtain ⟨tokens, tree, edits, parsed, made, checked⟩ := edits_of_any
      "class KTypeVTypeA<KType, VType> { /** KTypeVTypeX */ @A . ; class KTypeVTypeB<VType, KType> { } }".toList
      ⟨.int, some .long⟩
      (fun tokens tree edits => decide (Documents 12 "/** LongIntX */" tokens edits) &&
        DocScope.lexemes ((DocScope.significantAfter tokens 12).take 4) ==
          [⟨.atSign, ['@']⟩, ⟨.ident, ['A']⟩, ⟨.dot, ['.']⟩, ⟨.semi, [';']⟩] &&
        ((DocScope.significantAfter tokens 12).drop 4).head?.map Prod.fst == some 21 &&
        (Subtree.unit tree).children.any fun outer => outer.children.any fun decl =>
          decl.kind == .typeDecl && decl.range.start == 21) (by decide +kernel)
    simp only [Bool.and_eq_true, beq_iff_eq, decide_eq_true_eq, List.any_eq_true] at checked
    obtain ⟨⟨⟨documents, spelled⟩, begins⟩, outer, isOuter, decl, isDecl, kind, start⟩ := checked
    have below : (Subtree.unit tree).Below decl := .head isOuter (.single isDecl)
    have formed : DocScope.Heads (fun _ => True)
        (DocScope.lexemes ((DocScope.significantAfter tokens 12).take 4)) := by
      rw [spelled]
      have qualified : DocScope.Qualified (fun _ => True) [⟨.dot, ['.']⟩, ⟨.semi, [';']⟩] :=
        .cons rfl trivial .nil
      exact .marked rfl rfl rfl qualified .nothing .nil
    have dotted : DocScope.Dotted (fun lexeme => lexeme.kind = .ident)
        (DocScope.lexemes (((DocScope.significantAfter tokens 12).take 4).take 2))
        (DocScope.lexemes (((DocScope.significantAfter tokens 12).take 4).drop 2 ++
          (DocScope.significantAfter tokens 12).drop 4)) := by
      simp only [DocScope.lexemes, List.map_append, List.map_take, List.map_drop] at spelled ⊢
      rw [spelled]
      exact ⟨[], ⟨.atSign, ['@']⟩, ⟨.ident, ['A']⟩, [], ⟨.dot, ['.']⟩, ⟨.semi, [';']⟩, _, rfl, .nil, rfl, rfl, .nil,
        rfl, rfl⟩
    have split := (List.take_append_drop 4 (DocScope.significantAfter tokens 12)).symm
    rw [← start] at begins
    obtain ⟨slots, innermost, fills⟩ :=
      (edits_doc_order parsed made documents.1 documents.2.2 split formed).1 decl below (.inl kind) begins
    exact ⟨tokens, tree, edits, _, _, decl, slots, parsed, made, documents, split, dotted, formed, begins, innermost,
      fills⟩

end Specializer
