import Specializer.DocScope

set_option autoImplicit false

namespace Specializer.DocScope

inductive Rounds : List Lexeme → Prop
  | nil : Rounds []
  | plain {lexeme : Lexeme} {rest : List Lexeme} (opens : lexeme.kind ≠ .lpar) (closes : lexeme.kind ≠ .rpar)
      (more : Rounds rest) : Rounds (lexeme :: rest)
  | enclosed {opener closer : Lexeme} {inner rest : List Lexeme} (opens : opener.kind = .lpar)
      (inside : Rounds inner) (closes : closer.kind = .rpar) (more : Rounds rest) :
      Rounds (opener :: (inner ++ closer :: rest))

inductive Qualified (named : Lexeme → Prop) : List Lexeme → Prop
  | nil : Qualified named []
  | cons {dot name : Lexeme} {rest : List Lexeme} (dots : dot.kind = .dot) (holds : named name)
      (more : Qualified named rest) : Qualified named (dot :: name :: rest)

inductive Given : List Lexeme → Prop
  | nothing : Given []
  | list {opener closer : Lexeme} {inner : List Lexeme} (opens : opener.kind = .lpar) (inside : Rounds inner)
      (closes : closer.kind = .rpar) : Given (opener :: (inner ++ [closer]))

/-- Modifiers and annotations, one behind the other. -/
inductive Heads (named : Lexeme → Prop) : List Lexeme → Prop
  | nil : Heads named []
  | modifier {word : Lexeme} {rest : List Lexeme} (modifies : word.isModifier = true)
      (more : Heads named rest) : Heads named (word :: rest)
  | marked {sign name : Lexeme} {quals args rest : List Lexeme} (signs : sign.kind = .atSign)
      (ident : name.kind = .ident) (other : name.spells "interface" = false) (qualified : Qualified named quals)
      (given : Given args) (more : Heads named rest) : Heads named (sign :: name :: (quals ++ (args ++ rest)))

/-- The last annotation has a name only, and the rest would go on with a dot and one more lexeme. -/
def Dotted (named : Lexeme → Prop) (heads rest : List Lexeme) : Prop :=
  ∃ front sign name quals dot next more, heads = front ++ sign :: name :: quals ∧ Heads named front ∧
    sign.kind = .atSign ∧ name.kind = .ident ∧ Qualified named quals ∧ rest = dot :: next :: more ∧
      dot.kind = .dot

/-- No longer part of the text has modifiers and annotations only. -/
def Longest (named : Lexeme → Prop) (heads rest : List Lexeme) : Prop :=
  ∀ more further, rest = more ++ further → Heads named (heads ++ more) → more = []

def lexemes (tokens : List Numbered) : List Lexeme := tokens.map fun token => token.2.toLexeme

section Brackets

variable {inner rest text : List Numbered} {token : Numbered}

@[simp] theorem lexemes_cons : lexemes (token :: rest) = token.2.toLexeme :: lexemes rest := rfl

@[simp] theorem lexemes_append : lexemes (inner ++ rest) = lexemes inner ++ lexemes rest := List.map_append

theorem closeParens_cons (depth : Nat) :
    closeParens depth (token :: rest) =
      let left := match token.2.kind with
        | .lpar => depth + 1
        | .rpar => depth - 1
        | _ => depth
      if left = 0 then rest else closeParens left rest := rfl

theorem closeParens_opener (opens : token.2.kind = .lpar) (depth : Nat) :
    closeParens depth (token :: rest) = closeParens (depth + 1) rest := by
  rw [closeParens_cons]
  simp [opens]

theorem closeParens_closer (closes : token.2.kind = .rpar) (depth : Nat) :
    closeParens (depth + 1) (token :: rest) = if depth = 0 then rest else closeParens depth rest := by
  rw [closeParens_cons]
  simp [closes]

theorem closeParens_plain (opens : token.2.kind ≠ .lpar) (closes : token.2.kind ≠ .rpar) (depth : Nat) :
    closeParens (depth + 1) (token :: rest) = closeParens (depth + 1) rest := by
  rw [closeParens_cons]
  split <;> first | contradiction | simp

theorem closeParens_rounds (rounds : Rounds (lexemes inner)) (depth : Nat) :
    closeParens (depth + 1) (inner ++ rest) = closeParens (depth + 1) rest := by
  generalize same : lexemes inner = text at rounds
  induction rounds generalizing inner rest depth with
  | nil =>
    cases List.map_eq_nil_iff.mp same
    rfl
  | plain opens closes _ ih =>
    obtain ⟨token, inner, rfl, rfl, rfl⟩ := List.map_eq_cons_iff.mp same
    rw [List.cons_append, closeParens_plain opens closes, ih depth rfl]
  | enclosed opens _ closes _ ihInner ihRest =>
    obtain ⟨opener, tail, rfl, rfl, split⟩ := List.map_eq_cons_iff.mp same
    obtain ⟨inner, tail, rfl, rfl, behind⟩ := List.map_eq_append_iff.mp split
    obtain ⟨closer, behind, rfl, rfl, rfl⟩ := List.map_eq_cons_iff.mp behind
    rw [List.cons_append, closeParens_opener opens, List.append_assoc, ihInner _ rfl, List.cons_append,
      closeParens_closer closes, if_neg (Nat.succ_ne_zero _), ihRest _ rfl]

theorem closeParens_add (first second : Nat) (text : List Numbered) :
    closeParens (first + 1 + (second + 1)) text = closeParens (first + 1) (closeParens (second + 1) text) := by
  induction text generalizing second with
  | nil => rfl
  | cons token rest ih =>
    by_cases opens : token.2.kind = .lpar
    · rw [closeParens_opener opens, closeParens_opener opens]
      exact ih (second + 1)
    · by_cases closes : token.2.kind = .rpar
      · rw [closeParens_closer closes second, ← Nat.add_assoc, closeParens_closer closes,
          if_neg (by omega)]
        cases second with
        | zero => rfl
        | succ second => exact ih second
      · rw [closeParens_plain opens closes, ← ih second, ← Nat.add_assoc, closeParens_plain opens closes]

-- Either the bracket is never closed before the end, or what is between has brackets in pairs.
theorem closeParens_splits (text : List Numbered) :
    closeParens 1 text = [] ∨ ∃ inner closer rest, text = inner ++ closer :: rest ∧ Rounds (lexemes inner) ∧
      closer.2.kind = .rpar ∧ closeParens 1 text = rest := by
  cases text with
  | nil => exact .inl rfl
  | cons token text =>
    by_cases opens : token.2.kind = .lpar
    · have twice : closeParens 1 (token :: text) = closeParens 1 (closeParens 1 text) := by
        rw [closeParens_opener opens]
        exact closeParens_add 0 0 text
      rcases closeParens_splits text with left | ⟨inner, closer, behind, split, rounds, closes, left⟩
      · exact .inl (by rw [twice, left]; rfl)
      · have shorter : behind.length < text.length := by simp [split]; omega
        rcases closeParens_splits behind with none | ⟨inner', closer', rest, split', rounds', closes', left'⟩
        · exact .inl (by rw [twice, left, none])
        · refine .inr ⟨token :: (inner ++ closer :: inner'), closer', rest, by simp [split, split'], ?_,
            closes', by rw [twice, left, left']⟩
          rw [lexemes_cons, lexemes_append, lexemes_cons]
          exact .enclosed opens rounds closes rounds'
    · by_cases closes : token.2.kind = .rpar
      · exact .inr ⟨[], token, text, rfl, .nil, closes, by rw [closeParens_closer closes, if_pos rfl]⟩
      · rw [closeParens_plain opens closes]
        refine (closeParens_splits text).imp_right ?_
        rintro ⟨inner, closer, rest, rfl, rounds, closes', left⟩
        exact ⟨token :: inner, closer, rest, rfl, .plain opens closes rounds, closes', left⟩
termination_by text.length

end Brackets

section Search

variable {named : Lexeme → Prop} {heads rest quals args : List Numbered} {token sign name : Numbered} {n : Nat}

def Apart (rest : List Numbered) : Prop := ∀ token ∈ rest.head?, token.2.kind ≠ .dot ∧ token.2.kind ≠ .lpar

theorem skipQualifiers_qualified (qualified : Qualified named (lexemes quals)) :
    skipQualifiers (quals ++ rest) = skipQualifiers rest := by
  generalize same : lexemes quals = text at qualified
  induction qualified generalizing quals with
  | nil =>
    cases List.map_eq_nil_iff.mp same
    rfl
  | cons dots _ _ ih =>
    obtain ⟨dot, tail, rfl, rfl, split⟩ := List.map_eq_cons_iff.mp same
    obtain ⟨name, tail, rfl, rfl, behind⟩ := List.map_eq_cons_iff.mp split
    rw [List.cons_append, List.cons_append, skipQualifiers, if_pos (by simp [dots]), ih behind]

theorem skipQualifiers_clear (clear : ∀ dot next more, rest = dot :: next :: more → dot.2.kind ≠ .dot) :
    skipQualifiers rest = rest := by
  rw [skipQualifiers.eq_def]
  split
  next dot name rest => rw [if_neg (by simpa using clear dot name rest rfl)]
  next => rfl

theorem skipQualifiers_apart (other : ∀ token ∈ rest.head?, token.2.kind ≠ .dot) :
    skipQualifiers rest = rest :=
  skipQualifiers_clear fun dot _ _ split => other dot (by rw [split]; rfl)

theorem skipArguments_apart (other : ∀ token ∈ rest.head?, token.2.kind ≠ .lpar) :
    skipArguments rest = rest := by
  rw [skipArguments, if_neg]
  rw [Option.any_eq_true]
  rintro ⟨token, head, opens⟩
  exact other token head (by simpa using opens)

theorem skipArguments_opener (opens : token.2.kind = .lpar) :
    skipArguments (token :: rest) = closeParens 1 rest := by
  rw [skipArguments, if_pos (by simp [opens]), closeParens_opener opens]

theorem skip_marked (qualified : Qualified named (lexemes quals)) (given : Given (lexemes args))
    (apart : args = [] → Apart rest) :
    skipArguments (skipQualifiers (quals ++ (args ++ rest))) = rest := by
  rw [skipQualifiers_qualified qualified]
  generalize same : lexemes args = text at given
  cases given with
  | nothing =>
    cases List.map_eq_nil_iff.mp same
    have plain := apart rfl
    rw [List.nil_append, skipQualifiers_apart fun token head => (plain token head).1,
      skipArguments_apart fun token head => (plain token head).2]
  | list opens inside closes =>
    obtain ⟨opener, tail, rfl, rfl, split⟩ := List.map_eq_cons_iff.mp same
    obtain ⟨inner, tail, rfl, rfl, behind⟩ := List.map_eq_append_iff.mp split
    obtain ⟨closer, tail, rfl, rfl, none⟩ := List.map_eq_cons_iff.mp behind
    cases List.map_eq_nil_iff.mp none
    rw [List.cons_append, skipQualifiers_apart (by rintro _ ⟨⟩; simp [opens]), skipArguments_opener opens,
      List.append_assoc, closeParens_rounds inside, List.cons_append, closeParens_closer closes, if_pos rfl]
    rfl

-- An annotation that has a name only is left behind, or all of the text with a bracket that is never closed.
theorem skip_last (qualified : Qualified named (lexemes quals))
    (clear : ∀ dot next more, rest = dot :: next :: more → dot.2.kind ≠ .dot)
    (unclosed : ∀ opener inner closer more, rest = opener :: (inner ++ closer :: more) →
      opener.2.kind = .lpar → Rounds (lexemes inner) → closer.2.kind ≠ .rpar) :
    skipArguments (skipQualifiers (quals ++ rest)) = [] ∨
      skipArguments (skipQualifiers (quals ++ rest)) = rest := by
  rw [skipQualifiers_qualified qualified, skipQualifiers_clear clear]
  cases rest with
  | nil => exact .inl rfl
  | cons token rest =>
    by_cases opens : token.2.kind = .lpar
    · rw [skipArguments_opener opens]
      refine (closeParens_splits rest).imp_right ?_
      rintro ⟨inner, closer, more, rfl, rounds, closes, -⟩
      exact absurd closes (unclosed token inner closer more rfl opens rounds)
    · exact .inr (skipArguments_apart (by rintro _ ⟨⟩; exact opens))

theorem declarationStart_nil : declarationStart n [] = none := by
  cases n <;> rfl

theorem declarationStart_cons :
    declarationStart (n + 1) (token :: rest) =
      if token.2.isModifier then declarationStart n rest
      else if token.2.kind != .atSign then some token.1
      else
        match rest with
        | [] => some token.1
        | name :: rest =>
          if name.2.kind != .ident || name.2.spells "interface" then some token.1
          else declarationStart n (skipArguments (skipQualifiers rest)) := rfl

theorem declarationStart_modifier (modifies : token.2.isModifier = true) :
    declarationStart (n + 1) (token :: rest) = declarationStart n rest := by
  rw [declarationStart_cons]
  exact if_pos modifies

theorem not_modifier (other : token.2.kind ≠ .ident) : token.2.isModifier = false := by
  simp [Lexeme.isModifier, other]

theorem declarationStart_marked (signs : sign.2.kind = .atSign) (ident : name.2.kind = .ident)
    (other : name.2.spells "interface" = false) :
    declarationStart (n + 1) (sign :: name :: rest) =
      declarationStart n (skipArguments (skipQualifiers rest)) := by
  have plain := @not_modifier sign (by simp [signs])
  simp [declarationStart_cons, plain, signs, ident, other]

theorem heads_apart (formed : Heads named (lexemes heads)) (some : heads ≠ []) : Apart (heads ++ rest) := by
  obtain ⟨token, tail, rfl⟩ := List.exists_cons_of_ne_nil some
  rintro _ ⟨⟩
  rw [lexemes_cons] at formed
  generalize lexemes tail = text at formed
  cases formed with
  | modifier modifies =>
    simp only [Lexeme.isModifier, Bool.and_eq_true, beq_iff_eq] at modifies
    simp [modifies.1]
  | marked signs => simp [signs]

theorem declarationStart_other (longest : Longest named [] (lexemes rest)) (enough : rest.length < n) :
    declarationStart n rest = none ∨ declarationStart n rest = rest.head?.map Prod.fst := by
  obtain ⟨n, rfl⟩ := Nat.exists_eq_add_of_lt enough
  cases rest with
  | nil => exact .inl rfl
  | cons token rest =>
    have other : token.2.isModifier = false := by
      rw [Bool.eq_false_iff]
      intro modifies
      have none := longest [token.2.toLexeme] (lexemes rest) rfl (.modifier modifies .nil)
      cases none
    right
    rw [declarationStart_cons]
    simp only [other, Bool.false_eq_true, if_false]
    split
    next => rfl
    next signs =>
      split
      next => rfl
      next name rest =>
        rw [if_pos]
        · rfl
        · rw [← Bool.not_eq_false]
          intro plain
          simp only [Bool.or_eq_false_iff, bne_eq_false_iff_eq, Bool.not_eq_true] at plain signs
          have none := longest [token.2.toLexeme, name.2.toLexeme] (lexemes rest) rfl
            (.marked signs plain.1 plain.2 .nil .nothing .nil)
          cases none

theorem annotation_parts {first second : Lexeme} {front middle behind : List Lexeme}
    (same : lexemes heads = first :: second :: (front ++ (middle ++ behind))) :
    ∃ sign name quals args tail, heads = sign :: name :: (quals ++ (args ++ tail)) ∧ sign.2.toLexeme = first ∧
      name.2.toLexeme = second ∧ lexemes quals = front ∧ lexemes args = middle ∧ lexemes tail = behind := by
  obtain ⟨sign, list, rfl, isFirst, same⟩ := List.map_eq_cons_iff.mp same
  obtain ⟨name, list, rfl, isSecond, same⟩ := List.map_eq_cons_iff.mp same
  obtain ⟨quals, list, rfl, isFront, same⟩ := List.map_eq_append_iff.mp same
  obtain ⟨args, tail, rfl, isMiddle, isBehind⟩ := List.map_eq_append_iff.mp same
  exact ⟨sign, name, quals, args, tail, rfl, isFirst, isSecond, isFront, isMiddle, isBehind⟩

theorem declarationStart_heads (formed : Heads named (lexemes heads)) (apart : Apart rest)
    (enough : (heads ++ rest).length < n) :
    ∃ m, rest.length < m ∧ declarationStart n (heads ++ rest) = declarationStart m rest := by
  generalize same : lexemes heads = text at formed
  induction formed generalizing heads n with
  | nil =>
    cases List.map_eq_nil_iff.mp same
    exact ⟨n, enough, rfl⟩
  | modifier modifies _ ih =>
    obtain ⟨word, tail, rfl, rfl, rfl⟩ := List.map_eq_cons_iff.mp same
    obtain ⟨n, rfl⟩ := Nat.exists_eq_add_of_lt enough
    rw [List.cons_append, declarationStart_modifier modifies]
    exact ih (by simp at enough ⊢; omega) rfl
  | marked signs ident other qualified given more ih =>
    obtain ⟨sign, name, quals, args, tail, rfl, rfl, rfl, rfl, rfl, rfl⟩ := annotation_parts same
    obtain ⟨n, rfl⟩ := Nat.exists_eq_add_of_lt enough
    have left : skipArguments (skipQualifiers (quals ++ (args ++ (tail ++ rest)))) = tail ++ rest := by
      refine skip_marked qualified given fun _ => ?_
      rcases List.eq_nil_or_concat tail with rfl | ⟨_, _, rfl⟩
      · exact apart
      · exact heads_apart more (by simp)
    simp only [List.cons_append, List.append_assoc]
    rw [declarationStart_marked signs ident other, left]
    exact ih (by simp at enough ⊢; omega) rfl

theorem declarationStart_last (signs : sign.2.kind = .atSign) (ident : name.2.kind = .ident)
    (other : name.2.spells "interface" = false) (qualified : Qualified named (lexemes quals))
    (longest : Longest named (lexemes (sign :: name :: quals)) (lexemes rest))
    (clear : ¬ Dotted named (lexemes (sign :: name :: quals)) (lexemes rest)) (enough : rest.length < n) :
    declarationStart (n + 1) (sign :: name :: (quals ++ rest)) = none ∨
      declarationStart (n + 1) (sign :: name :: (quals ++ rest)) = rest.head?.map Prod.fst := by
  rw [declarationStart_marked signs ident other]
  have left := @skip_last named rest quals qualified (fun dot next behind split dots => clear ?_) ?_
  · rcases left with left | left
    · exact .inl (by rw [left, declarationStart_nil])
    · rw [left]
      have stops : Longest named [] (lexemes rest) := by
        intro longer further split formed
        apply longest longer further split
        simpa using Heads.marked signs ident other qualified .nothing formed
      exact declarationStart_other stops enough
  · exact ⟨[], sign.2.toLexeme, name.2.toLexeme, lexemes quals, dot.2.toLexeme, next.2.toLexeme,
      lexemes behind, by simp, .nil, signs, ident, qualified, by rw [split]; rfl, dots⟩
  · intro opener inner closer behind split opens rounds closes
    have longer := longest (opener.2.toLexeme :: (lexemes inner ++ [closer.2.toLexeme])) (lexemes behind)
      (by simp [split]) ?_
    · cases longer
    · simpa using Heads.marked signs ident other qualified (.list opens rounds closes) .nil

-- The search has come to the end of the modifiers and annotations or, behind a bracket that is never closed,
-- to that of the text.
theorem declarationStart_longest (formed : Heads named (lexemes heads))
    (longest : Longest named (lexemes heads) (lexemes rest)) (clear : ¬ Dotted named (lexemes heads) (lexemes rest))
    (enough : (heads ++ rest).length < n) :
    declarationStart n (heads ++ rest) = none ∨
      declarationStart n (heads ++ rest) = rest.head?.map Prod.fst := by
  generalize same : lexemes heads = text at formed
  -- By the modifiers and annotations in front, which the search passes one by one; the last
  -- decides.
  induction formed generalizing heads n with
  | nil =>
    cases List.map_eq_nil_iff.mp same
    exact declarationStart_other longest enough
  | modifier modifies more ih =>
    obtain ⟨word, tail, rfl, rfl, rfl⟩ := List.map_eq_cons_iff.mp same
    obtain ⟨n, rfl⟩ := Nat.exists_eq_add_of_lt enough
    rw [List.cons_append, declarationStart_modifier modifies]
    refine ih ?_ ?_ (by simp at enough ⊢; omega) rfl
    · intro longer further split formed
      exact longest longer further split (.modifier modifies formed)
    · rintro ⟨front, sign, name, quals, dot, next, behind, split, formed, further⟩
      refine clear ⟨_ :: front, sign, name, quals, dot, next, behind, ?_, .modifier modifies formed, further⟩
      rw [lexemes_cons, split]
      rfl
  | marked signs ident other qualified given more ih =>
    obtain ⟨sign, name, quals, args, tail, rfl, rfl, rfl, rfl, rfl, rfl⟩ := annotation_parts same
    obtain ⟨n, rfl⟩ := Nat.exists_eq_add_of_lt enough
    have within {longer : List Lexeme} (formed : Heads named (lexemes tail ++ longer)) :
        Heads named (lexemes (sign :: name :: (quals ++ (args ++ tail))) ++ longer) := by
      simpa using Heads.marked signs ident other qualified given formed
    -- Only behind the last annotation can a dot or a bracket be taken for a part of it.
    by_cases bare : args = [] ∧ tail = []
    · obtain ⟨rfl, rfl⟩ := bare
      simp only [List.append_nil, List.cons_append] at longest clear ⊢
      exact declarationStart_last signs ident other qualified longest clear (by simp at enough ⊢; omega)
    · simp only [List.cons_append, List.append_assoc]
      rw [declarationStart_marked signs ident other, skip_marked qualified given fun none =>
        heads_apart more fun empty => bare ⟨none, empty⟩]
      refine ih ?_ ?_ (by simp at enough ⊢; omega) rfl
      · intro longer further split formed
        exact longest longer further split (within formed)
      · rintro ⟨front, sign', name', quals', dot, next, behind, split, formed, further⟩
        refine clear ⟨_, sign', name', quals', dot, next, behind, ?_,
          .marked signs ident other qualified given formed, further⟩
        simp [split]

end Search

end Specializer.DocScope
