import Specializer.Proofs.Grounds
import Specializer.Proofs.MemberSteps

set_option autoImplicit false

namespace Specializer

variable {tokens : List Token}

theorem significant_token {k : Nat} (inside : k < (significantLexemes tokens).length) :
    ∃ token, tokens[placeIn tokens k]? = some token ∧
      (significantLexemes tokens)[k]? = some token.toLexeme := by
  have there := List.getElem?_eq_getElem inside
  obtain ⟨token, standing, same⟩ := lexemesOf_some ((significant_relocates tokens).same k _ there)
  exact ⟨token, standing, by rw [there, same]⟩

namespace Grammar

theorem conclude_within {lexemes : List Lexeme} {failure : Failure}
    (failed : conclude (members lexemes) = .error failure) : failure.Within lexemes := by
  have ends := members_ends lexemes
  cases outcome : members lexemes with
  | done =>
    rw [outcome] at failed
    cases failed
  | stuck =>
    rw [outcome] at ends
    exact ends.elim
  | miss what missed =>
    rw [outcome] at ends failed
    cases failed
    exact Cursor.On.failure_within ends what
  | fail other =>
    rw [outcome] at ends failed
    cases failed
    exact ends

theorem conclude_nonempty {lexemes : List Lexeme} {failure : Failure}
    (failed : conclude (members lexemes) = .error failure) : lexemes ≠ [] := by
  rintro rfl
  cases failed

end Grammar

theorem membersOf_ends : Grammar.membersOf tokens ≠ .stuck := by
  rw [Grammar.membersOf_eq]
  have ends := Grammar.members_ends (significantLexemes tokens)
  cases outcome : Grammar.members (significantLexemes tokens) with
  | done | miss | fail => nofun
  | stuck =>
    rw [outcome] at ends
    exact ends.elim

theorem parseTokens_error {fault : Fault} (failed : parseTokens tokens = .error fault) :
    ∃ failure, Grammar.conclude (Grammar.members (significantLexemes tokens)) = .error failure ∧
      fault = (failure.relocate (placeIn tokens)).fault tokens := by
  rw [parseTokens_eq] at failed
  split at failed
  next failure concluded =>
    cases failed
    exact ⟨failure, concluded, rfl⟩
  next => cases failed

theorem fault_located {fault : Fault} (failed : parseTokens tokens = .error fault) :
    (fault.code = .unexpectedToken ∨ fault.code = .unbalancedBracket) ∧
      ∃ token ∈ tokens, fault.span = some token.span := by
  obtain ⟨failure, concluded, rfl⟩ := parseTokens_error failed
  have within := Grammar.conclude_within concluded
  cases failure with
  | unbalanced k =>
    obtain ⟨token, there, -⟩ := significant_token within
    refine ⟨.inr rfl, token, List.mem_of_getElem? there, ?_⟩
    simp only [Grammar.Failure.relocate, Grammar.Failure.fault, Fault.span, there, Option.map_some]
  | expected what place =>
    cases place with
    | some k =>
      obtain ⟨token, there, -⟩ := significant_token (within k rfl)
      refine ⟨.inl rfl, token, List.mem_of_getElem? there, ?_⟩
      simp only [Grammar.Failure.relocate, Grammar.Failure.fault, Fault.span, there, Option.map_some]
    | none =>
      -- The end of the template is said to be its last token.
      cases last : tokens.getLast? with
      | none =>
        rw [List.getLast?_eq_none_iff] at last
        subst last
        exact absurd rfl (Grammar.conclude_nonempty concluded)
      | some token =>
        refine ⟨.inl rfl, token, List.mem_of_getLast? last, ?_⟩
        simp only [Grammar.Failure.relocate, Grammar.Failure.fault, Fault.span, last, Option.map_some,
          Option.map_none]

namespace Setting

variable {setting : Setting} {root : Subtree}

theorem Founded.located {fault : Fault} (founded : setting.Founded root fault)
    (unsupported : fault.code.entry.category = .unsupported) : Located setting.tokens fault.span := by
  cases fault with
  | surplusSegments | placeholderArguments => exact founded.1
  | _ => cases unsupported

theorem Noted.located {notice : Notice} (noted : setting.Noted notice) :
    Located setting.tokens notice.issue.span := by
  cases notice with
  | foreignArguments => exact noted.1
  | primitiveArgument => exact noted

end Setting

/-- A parse of any tokens comes to an end without asking for more than there are, with a tree or with a
failure that has the span of a token. Under any binding, what the rules for the tree reject or note spans
tokens of the template. -/
theorem parseTokens_located (tokens : List Token) :
    Grammar.membersOf tokens ≠ .stuck ∧
      ((∃ tree, parseTokens tokens = .ok tree) ∨
        ∃ fault, parseTokens tokens = .error fault ∧
          (fault.code.label = "TE1003" ∨ fault.code.label = "TE1004") ∧
          ∃ token ∈ tokens, fault.span = some token.span) ∧
      ∀ tree, parseTokens tokens = .ok tree → ∀ binding,
        (∀ fault, (Setting.edits ⟨tokens, binding⟩ tree).result = .error fault →
          fault.code.entry.category = .unsupported → Located tokens fault.span) ∧
        ∀ notice ∈ (Setting.edits ⟨tokens, binding⟩ tree).notices,
          Located tokens notice.issue.span := by
  refine ⟨membersOf_ends, ?_, fun tree parsed binding => ?_⟩
  · cases parsed : parseTokens tokens with
    | ok tree => exact .inl ⟨tree, rfl⟩
    | error fault =>
      obtain ⟨code, there⟩ := fault_located parsed
      exact .inr ⟨fault, rfl, code.imp (congrArg Code.label) (congrArg Code.label), there⟩
  · have anchored := anchored_of_sound (parseTokens_sound parsed) (parseTokens_joined parsed)
    have grounded : Setting.Grounded ⟨tokens, binding⟩ (.unit tree)
        (Setting.edits ⟨tokens, binding⟩ tree) := Setting.edits_grounded anchored
    exact ⟨fun fault failed => (grounded.failed fault failed).located, fun notice noted =>
      (grounded.noted notice noted).located⟩

theorem parseTokens_located_samples :
    (∃ tokens fault, tokenize "class A ".toList = .ok tokens ∧ parseTokens tokens = .error fault ∧
        ∃ token ∈ tokens, fault.span = some token.span) ∧
      ∃ tokens tree notice, tokenize "class A { KTypeB<C> x; }".toList = .ok tokens ∧
        parseTokens tokens = .ok tree ∧
        notice ∈ (Setting.edits ⟨tokens, ⟨.int, none⟩⟩ tree).notices ∧
        Located tokens notice.issue.span := by
  constructor
  · obtain ⟨tokens, lexed, fails⟩ := ok_of_any (show (tokenize "class A ".toList).toOption.any
      (fun tokens => failsWith (fun _ => true) (parseTokens tokens)) = true by decide +kernel)
    obtain ⟨fault, failed, -⟩ := error_of_failsWith fails
    obtain ⟨-, ⟨tree, parsed⟩ | ⟨other, again, -, located⟩, -⟩ := parseTokens_located tokens
    · cases parsed.symm.trans failed
    · cases again.symm.trans failed
      exact ⟨tokens, fault, lexed, failed, located⟩
  · obtain ⟨tokens, lexed, parses⟩ := ok_of_any
      (show (tokenize "class A { KTypeB<C> x; }".toList).toOption.any (fun tokens =>
        (parseTokens tokens).toOption.any fun tree =>
          (Setting.edits ⟨tokens, ⟨.int, none⟩⟩ tree).notices.head?.isSome) = true by decide +kernel)
    obtain ⟨tree, parsed, notes⟩ := ok_of_any parses
    obtain ⟨notice, first⟩ := Option.isSome_iff_exists.mp notes
    have noted := List.mem_of_head? first
    obtain ⟨-, -, under⟩ := parseTokens_located tokens
    exact ⟨tokens, tree, notice, lexed, parsed, noted, (under tree parsed _).2 notice noted⟩

end Specializer
