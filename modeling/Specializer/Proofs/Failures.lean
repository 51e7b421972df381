import Specializer.Job
import Specializer.Proofs.Grounds

set_option autoImplicit false

namespace Specializer

theorem Fault.message_made (fault : Fault) :
    fault.code.message fault.args = .ok (fault.code.fill fault.args) := by
  cases fault <;> rfl

theorem Notice.message_made (notice : Notice) :
    notice.issue.code.message notice.issue.args = .ok (notice.issue.code.fill notice.issue.args) := by
  cases notice <;> rfl

namespace Binding

variable {binding : Binding} {slotCount : Nat} {fault : Fault}

theorem check_ok : binding.check slotCount = .ok () ↔ (binding.value.isSome = true ↔ 2 ≤ slotCount) := by
  rw [check]
  cases binding.value with
  | some value =>
    by_cases one : slotCount < 2
    · simp [one]
    · simp [one, Nat.le_of_not_lt one]
  | none => by_cases one : slotCount < 2 <;> simp [one]

theorem check_category (failed : binding.check slotCount = .error fault) :
    fault.code.entry.category = .binding := by
  rw [check] at failed
  split at failed
  · split at failed <;> cases failed
    rfl
  · split at failed <;> cases failed
    rfl

theorem forSlots_error {key : String} {value : Option String}
    (made : ofNames key value = .ok binding) :
    forSlots slotCount key value = .error fault ↔ binding.check slotCount = .error fault := by
  simp only [ofNames, bind_eq_ok, pure_eq_ok] at made
  obtain ⟨first, ofKey, second, ofValue, rfl⟩ := made
  have same : forSlots slotCount key value =
      (⟨first, second⟩ : Binding).check slotCount >>= fun _ => pure ⟨first, second⟩ := by
    simp only [forSlots, ofKey, ofValue]
    rfl
  rw [same, bind_eq_error]
  exact ⟨fun failed => failed.elim id nofun, .inl⟩

end Binding

theorem bindings_fit {slotCount : Nat} {keyTypes valueTypes : List SlotType} {binding : Binding}
    (member : binding ∈ bindings slotCount keyTypes valueTypes) :
    binding.check slotCount = .ok () := by
  rw [bindings] at member
  split at member
  next one =>
    obtain ⟨key, -, rfl⟩ := List.mem_map.mp member
    exact if_pos one
  next two =>
    obtain ⟨key, -, inner⟩ := List.mem_flatMap.mp member
    obtain ⟨value, -, rfl⟩ := List.mem_map.mp inner
    exact if_neg two

namespace Template

variable {source : List Char} {filename : String} {template : Template} {binding : Binding}
  {fault : Fault}

/-- The binding has a value for the second slot exactly if the template has one. -/
def Fits (template : Template) (binding : Binding) : Prop :=
  binding.value.isSome = true ↔ 2 ≤ template.slotCount

/-- The faults of a specialization under a binding that fits: an identifier with more placeholders than
there are slots, a placeholder with type arguments, and edits that overlap or stray. -/
inductive Rejects (template : Template) : Fault → Prop
  | surplus {token : Token} (member : token ∈ template.tokens) (ident : token.kind = .ident)
      (more : template.slotCount < segmentCount token.text) (slots : Nat) (span : Option Span) :
      Rejects template (.surplusSegments token.text (segmentCount token.text) slots span)
  | arguments {name : List Char} (applied : Applied template.tokens (.unit template.tree) name)
      (span : Option Span) : Rejects template (.placeholderArguments name span)
  | overlap (first second : Edit) : Rejects template (.overlap first second)
  | stray (edit : Edit) (start stop : Int) : Rejects template (.strayEdit edit start stop)

theorem slotCount_mentioned (template : Template) :
    Mentioned template.tokens .value ∧ template.slotCount = 2 ∨
      ¬ Mentioned template.tokens .value ∧ template.slotCount = 1 := by
  have second : Mentioned template.tokens .value ↔ (template.tokens.any fun token =>
      (token.kind == .ident || token.kind == .docComment) &&
        (segments token.text).contains .value) = true := by
    simp [Mentioned]
  rw [slotCount, second]
  split
  next uses => exact .inl ⟨uses, rfl⟩
  next free => exact .inr ⟨free, rfl⟩

theorem slots_eq (fits : template.Fits binding) : binding.slots = template.slotCount := by
  have two : template.slotCount = 1 ∨ template.slotCount = 2 :=
    (slotCount_mentioned template).elim (fun there => .inr there.2) fun free => .inl free.2
  rw [Fits] at fits
  rw [Binding.slots, Scope.outermost]
  cases bound : binding.value.isSome with
  | true =>
    have := fits.mp bound
    simp only [if_true, List.length_cons, List.length_nil]
    omega
  | false =>
    have : ¬ 2 ≤ template.slotCount := fun more => by simp [fits.mpr more] at bound
    simp only [Bool.false_eq_true, if_false, List.length_cons, List.length_nil]
    omega

theorem founded_rejects (fits : template.Fits binding)
    (founded : Setting.Founded ⟨template.tokens, binding⟩ (.unit template.tree) fault) :
    template.Rejects fault := by
  cases fault with
  | surplusSegments name count slots span =>
    obtain ⟨-, ⟨token, member, ident, rfl⟩, rfl, more⟩ := founded
    rw [show Setting.binding _ = binding from rfl, slots_eq fits] at more
    exact .surplus member ident more slots span
  | placeholderArguments name span => exact .arguments founded.2 span
  | overlap first second => exact .overlap first second
  | strayEdit edit start stop => exact .stray edit start stop
  | missingValue slot =>
    -- The first slot always has a value, and the second has one if the template names it.
    obtain ⟨missing, mentioned⟩ := founded
    cases slot with
    | key => cases missing
    | value =>
      obtain ⟨-, two⟩ | ⟨free, -⟩ := slotCount_mentioned template
      · have bound := fits.mpr (Nat.le_of_eq two.symm)
        rw [show binding.value = none from missing] at bound
        cases bound
      · exact absurd mentioned free
  | _ => exact founded.elim

theorem specialize_unfit (failed : binding.check template.slotCount = .error fault) :
    template.specialize binding = ⟨[], .error fault⟩ := by
  show ((Traced.lift (binding.check template.slotCount)).andThen fun _ => _).andThen _ = _
  rw [failed]
  rfl

theorem specialize_grounded (read : Template.read source filename = .ok template)
    (fits : template.Fits binding) :
    Setting.Grounded ⟨template.tokens, binding⟩ (.unit template.tree) (template.specialize binding) := by
  obtain ⟨-, parsed⟩ := read_ok read
  have checked : Setting.Grounded ⟨template.tokens, binding⟩ (.unit template.tree)
      (Traced.lift (binding.check template.slotCount)) := by
    rw [Binding.check_ok.mpr fits]
    exact .lift nofun fun _ _ => trivial
  have collected : Setting.Grounded ⟨template.tokens, binding⟩ (.unit template.tree)
      (template.edits binding) := checked.bind fun _ _ _ => Setting.edits_grounded (parse_anchored parsed)
  exact collected.bind fun edits _ _ => .lift (fun _ => Setting.render_founded) fun _ _ => trivial

theorem specialize_rejects (read : Template.read source filename = .ok template)
    (fits : template.Fits binding) (failed : (template.specialize binding).result = .error fault) :
    template.Rejects fault :=
  founded_rejects fits ((specialize_grounded read fits).failed fault failed)

theorem Rejects.category (rejects : template.Rejects fault) :
    fault.code.entry.category ≠ .binding := by
  cases rejects <;> exact nofun

theorem unfit_refused (unfit : ¬ template.Fits binding) :
    ∃ fault, binding.check template.slotCount = .error fault := by
  cases checked : binding.check template.slotCount with
  | ok _ => exact absurd (Binding.check_ok.mp checked) unfit
  | error fault => exact ⟨fault, rfl⟩

theorem specialize_unfit_iff :
    (template.specialize binding).result = .error fault ∧ ¬ template.Fits binding ↔
      binding.check template.slotCount = .error fault := by
  cases checked : binding.check template.slotCount with
  | ok _ => simp [Fits, Binding.check_ok.mp checked]
  | error other =>
    have unfit : ¬ template.Fits binding := fun fits => by
      rw [Binding.check_ok.mpr fits] at checked
      cases checked
    simp [specialize_unfit checked, unfit]

theorem specialize_binding_iff (read : Template.read source filename = .ok template) :
    (template.specialize binding).result = .error fault ∧ fault.code.entry.category = .binding ↔
      binding.check template.slotCount = .error fault := by
  refine ⟨fun ⟨failed, ofBinding⟩ => specialize_unfit_iff.mp ⟨failed, fun fits => ?_⟩, fun failed => ?_⟩
  · exact (specialize_rejects read fits failed).category ofBinding
  · exact ⟨(specialize_unfit_iff.mpr failed).1, Binding.check_category failed⟩

/-- Nothing is looked up in vain: the names of the tree and its documentation comments stand among the
tokens, every gap of a wording has its argument, and a name said to be erased has been spelled. -/
structure Complete (template : Template) (run : Traced (List Char)) : Prop where
  names : ∀ part, (Subtree.unit template.tree).Below part →
    ∀ name ∈ part.names, name.Stands (lexemesOf template.tokens)
  docs : ∀ doc ∈ template.tree.docs, doc < template.tokens.length
  faults : ∀ fault, run.result = .error fault → ∃ text, fault.code.message fault.args = .ok text
  notices : ∀ notice ∈ run.notices,
    ∃ text, notice.issue.code.message notice.issue.args = .ok text
  erased : ∀ name erased span, .foreignArguments name erased span ∈ run.notices →
    substituteInOrder name (List.replicate (segmentCount name) .generic) = some erased

theorem specialize_complete (read : Template.read source filename = .ok template) (binding : Binding) :
    template.Complete (template.specialize binding) := by
  obtain ⟨-, parsed⟩ := read_ok read
  have sound := parse_sound parsed
  refine ⟨fun part below => (sound.at_below below).here.stands, fun doc member => ?_,
    fun fault _ => ⟨_, fault.message_made⟩, fun notice _ => ⟨_, notice.message_made⟩,
    fun name erased span noted => ?_⟩
  · obtain ⟨lexeme, there, -⟩ := (sound.child (Subtree.doc_child member)).here.bounded
    obtain ⟨token, standing, -⟩ := lexemesOf_some there
    exact (List.getElem?_eq_some_iff.mp standing).1
  · by_cases fits : template.Fits binding
    · exact ((specialize_grounded read fits).noted _ noted).2
    · obtain ⟨fault, failed⟩ := unfit_refused fits
      rw [specialize_unfit failed] at noted
      cases noted

/-- How a specialization can fail. It fails for its binding exactly if the binding does not fit the
slots, as making that binding for the template does, and then it has noted nothing; else it fails for an
identifier with too many placeholders, for a placeholder with arguments, or for its edits, and for
nothing that it looks up. Listed bindings fit. -/
theorem specialize_failures (read : Template.read source filename = .ok template) (binding : Binding) :
    ((∃ fault, (template.specialize binding).result = .error fault ∧
        fault.code.entry.category = .binding) ↔ ¬ template.Fits binding) ∧
      (∀ key value, Binding.ofNames key value = .ok binding → ∀ fault,
        template.bind key value = .error fault ↔
          (template.specialize binding).result = .error fault ∧
            fault.code.entry.category = .binding) ∧
      (¬ template.Fits binding → (template.specialize binding).notices = []) ∧
      (template.Fits binding → ∀ fault, (template.specialize binding).result = .error fault →
        template.Rejects fault) ∧
      template.Complete (template.specialize binding) ∧
      ∀ keyTypes valueTypes, ∀ listed ∈ bindings template.slotCount keyTypes valueTypes,
        listed.check template.slotCount = .ok () := by
  refine ⟨⟨fun ⟨fault, fails⟩ => ?_, fun unfit => ?_⟩, fun key value made fault => ?_, fun unfit => ?_,
    fun fits fault => specialize_rejects read fits, specialize_complete read binding,
    fun _ _ _ => bindings_fit⟩
  · exact (specialize_unfit_iff.mpr ((specialize_binding_iff read).mp fails)).2
  · obtain ⟨fault, failed⟩ := unfit_refused unfit
    exact ⟨fault, (specialize_binding_iff read).mpr failed⟩
  · rw [specialize_binding_iff read, Template.bind, Binding.forSlots_error made]
  · obtain ⟨fault, failed⟩ := unfit_refused unfit
    rw [specialize_unfit failed]

theorem specialize_failures_applied :
    ∃ template, Template.read "class KTypeA<KType> { KType<B> x; }".toList "A.java" = .ok template ∧
      (∃ fault, (template.specialize ⟨.int, none⟩).result = .error fault ∧
        fault.code = .placeholderArguments ∧ template.Rejects fault) ∧
      ¬ template.Fits ⟨.int, some .long⟩ ∧ (template.specialize ⟨.int, some .long⟩).notices = [] ∧
      template.bind "int" (some "long") = .error (.surplusValue .long) ∧
      (template.specialize ⟨.int, some .long⟩).result = .error (.surplusValue .long) := by
  obtain ⟨template, read, passes⟩ := ok_of_any
    (show (Template.read "class KTypeA<KType> { KType<B> x; }".toList "A.java").toOption.any
      (fun template => decide (template.slotCount = 1) &&
        failsWith (fun fault => decide (fault.code = .placeholderArguments))
          (template.specialize ⟨.int, none⟩).result &&
        failsWith (fun fault => decide (fault = .surplusValue .long))
          (template.bind "int" (some "long"))) = true by decide +kernel)
  simp only [Bool.and_eq_true, decide_eq_true_eq] at passes
  obtain ⟨⟨one, fails⟩, refuses⟩ := passes
  obtain ⟨fault, failed, code⟩ := error_of_failsWith fails
  obtain ⟨other, refused, same⟩ := error_of_failsWith refuses
  cases of_decide_eq_true same
  have fits : template.Fits ⟨.int, none⟩ := by simp [Fits, one]
  have unfit : ¬ template.Fits ⟨.int, some .long⟩ := by simp [Fits, one]
  obtain ⟨-, -, -, rejects, -⟩ := specialize_failures read ⟨.int, none⟩
  obtain ⟨-, alike, silent, -⟩ := specialize_failures read ⟨.int, some .long⟩
  have made : Binding.ofNames "int" (some "long") = .ok ⟨.int, some .long⟩ := by decide +kernel
  exact ⟨template, read, ⟨fault, failed, of_decide_eq_true code, rejects fits fault failed⟩, unfit,
    silent unfit, refused, ((alike "int" (some "long") made _).mp refused).1⟩

end Template

end Specializer
