import Specializer.CommandLine.Run
import Specializer.Proofs.BatchEffects
import Specializer.Proofs.Planning

set_option autoImplicit false

namespace Specializer

namespace Job

variable {tree : FileTree} {jobs : List Job} {job : Job}

theorem run_plain (plain : ∀ path ∈ job.output, ¬ path.HasNull) :
    ∃ result, (run tree job).2 = .ok result := by
  rcases run_cases tree job with ⟨stopped, -⟩ | ⟨text, path, -, target, -, ends⟩
  next => exact ⟨_, by rw [stopped]⟩
  next =>
    have named := @FileTree.save_fault tree path (Utf8.encode text) (plain path target)
    generalize (tree.save path (Utf8.encode text)).fault = fault at ends named
    generalize (run tree job).2 = ended at ends
    cases ends with
    | written => exact ⟨_, rfl⟩
    | badPath => exact absurd rfl named
    | unwritten => exact ⟨_, rfl⟩

theorem runAll_plain (plain : ∀ job ∈ jobs, ∀ path ∈ job.output, ¬ path.HasNull) :
    ∃ results, runAll tree jobs = .ok ((runEach tree jobs).1, results) := by
  have each : ∃ results : List JobResult, (runEach tree jobs).2 = results.map .ok := by
    induction jobs generalizing tree with
    | nil => exact ⟨[], rfl⟩
    | cons job rest ih =>
      obtain ⟨result, first⟩ := @run_plain tree job (plain job List.mem_cons_self)
      obtain ⟨results, later⟩ := @ih (run tree job).1 fun job member =>
        plain job (List.mem_cons_of_mem _ member)
      exact ⟨result :: results, by rw [runEach, first, later, List.map_cons]⟩
  obtain ⟨results, ended⟩ := each
  refine ⟨results, ?_⟩
  have all : (results.map Except.ok : List (Except BadPath JobResult)).mapM id = .ok results := by
    rw [List.mapM_map]
    simpa using @mapM_ok _ _ BadPath Except.ok id results fun _ _ => rfl
  rw [runAll, ended, all]
  rfl

theorem runAll_concerns {after : FileTree} {results : List JobResult}
    (ended : runAll tree jobs = .ok (after, results)) : List.Forall₂ Concerns jobs results := by
  have each := runEach_concerns tree jobs
  rw [runAll_ok ended, List.forall₂_map_right_iff] at each
  exact each.imp fun _ result concerns => concerns result rfl

end Job

namespace CommandLine

def written (results : List JobResult) : Nat :=
  results.countP fun result => result.ok && result.output.isSome

def failures (results : List JobResult) : Nat := results.countP fun result => !result.ok

def grade (results : List JobResult) : Nat :=
  if 0 < failures results then 2
  else if results.any fun result => result.report.hasWarnings then 1 else 0

theorem grade_cons (result : JobResult) (rest : List JobResult) :
    grade (result :: rest) = max result.exitCode (grade rest) := by
  have count : failures (result :: rest) = failures rest + if result.ok then 0 else 1 := by
    rw [failures, List.countP_cons]
    cases result.ok <;> rfl
  rw [grade, grade, count, List.any_cons, JobResult.exitCode, Report.exitCode, JobResult.ok]
  cases result.error <;> grind

theorem worst_grade (results : List JobResult) (code : Nat) :
    results.foldl (fun code result => max code result.exitCode) code = max code (grade results) := by
  induction results generalizing code with
  | nil => simp [grade, failures]
  | cons result rest ih => rw [List.foldl_cons, ih, grade_cons, Nat.max_assoc]

theorem written_failures {results : List JobResult}
    (placed : ∀ result ∈ results, result.ok = true → result.output.isSome = true) :
    written results + failures results = results.length := by
  have same : written results = results.countP JobResult.ok := by
    apply List.countP_congr
    intro result member
    simpa using placed result member
  rw [same, List.length_eq_countP_add_countP JobResult.ok, failures]
  simp

/-- The outcome of a batch says of its results how many wrote a file and how many failed, which are all,
and its exit code is that of the worst. -/
structure Tallies (root : Path) (results : List JobResult) (outcome : Outcome) : Prop where
  all : written results + failures results = results.length
  summary : ∃ reports, outcome.errors = reports ++ ("Wrote " ++ toString (written results) ++
    " file(s) to " ++ root.description ++
    (if failures results = 0 then "" else ", " ++ toString (failures results) ++ " failed") ++ "\n")
  exitCode : outcome.exitCode =
    if 0 < failures results then 2
    else if results.any fun result => result.report.hasWarnings then 1 else 0

variable {tree : FileTree} {templates : List Path} {options : BatchOptions} {root : Path}

section Covered

variable {parts : List Plan} (covers : List.Forall₂ (Plan.Covers tree options) templates parts)

include covers

theorem concat_failed : ∀ result ∈ (Plan.concat parts).failures, result.ok = false := by
  intro result member
  obtain ⟨part, inside, failed⟩ := Plan.mem_concat_failures.mp member
  obtain ⟨path, -, covered⟩ := exists_of_forall₂ covers inside
  exact covered.failed result failed

theorem concat_placed (given : options.outputRoot = some root) :
    ∀ job ∈ (Plan.concat parts).jobs, ∃ out, job.output = some out ∧
      (out.HasNull → root.HasNull ∨ ∃ path ∈ templates, path.HasNull) := by
  intro job member
  obtain ⟨part, inside, planned⟩ := Plan.mem_concat_jobs.mp member
  obtain ⟨path, listed, covered⟩ := exists_of_forall₂ covers inside
  obtain ⟨out, target, cause⟩ := covered.placed given job planned
  refine ⟨out, target, fun null => ?_⟩
  apply (cause null).imp_right
  intro own
  exact ⟨path, listed, own⟩

theorem runBatch_ends (planned : Plan.ofTemplates tree options templates = .ok (.concat parts))
    (given : options.outputRoot = some root) (plain : ∀ path ∈ templates, ¬ path.HasNull)
    (plainRoot : ¬ root.HasNull) :
    ∃ outcome, runBatch tree templates root options = .ok outcome := by
  have writable : ∀ job ∈ (Plan.concat parts).jobs, ∀ path ∈ job.output, ¬ path.HasNull := by
    intro job member path target null
    obtain ⟨out, same, cause⟩ := concat_placed covers given job member
    rw [Option.mem_def, same] at target
    cases target
    rcases cause null with inRoot | ⟨template, listed, inTemplate⟩
    next => exact plainRoot inRoot
    next => exact plain template listed inTemplate
  obtain ⟨ran, run⟩ := @Job.runAll_plain tree _ writable
  rw [runBatch, planned]
  simp only [bind, Except.bind, run]
  exact ⟨_, rfl⟩

theorem runBatch_tallies {outcome : Outcome} (given : options.outputRoot = some root)
    (planned : Plan.ofTemplates tree options templates = .ok (.concat parts))
    (ended : runBatch tree templates root options = .ok outcome) :
    ∃ ran, Job.runAll tree (Plan.concat parts).jobs = .ok (outcome.tree, ran) ∧
      List.Forall₂ Job.Concerns (Plan.concat parts).jobs ran ∧
      Tallies root ((Plan.concat parts).failures ++ ran) outcome := by
  simp only [runBatch, planned, bind_eq_ok, pure_eq_ok] at ended
  obtain ⟨plan, same, ⟨after, ran⟩, run, rfl⟩ := ended
  cases same
  have concerns := Job.runAll_concerns run
  refine ⟨ran, run, concerns, ⟨?_, ⟨_, rfl⟩, ?_⟩⟩
  next =>
    apply written_failures
    intro result member well
    rcases List.mem_append.mp member with early | late
    next =>
      rw [concat_failed covers result early] at well
      cases well
    next =>
      obtain ⟨job, inside, concern⟩ := exists_of_forall₂ concerns late
      obtain ⟨out, target, -⟩ := concat_placed covers given job inside
      rw [concern.output, target]
      rfl
  next => exact (worst_grade _ 0).trans (Nat.zero_max _)

end Covered

/-- The account of a batch. It can be planned exactly if no path of a template has a null character. Then
the plan is that of the templates one by one: a template that cannot be read has one failure, and each
binding of any other has a job or a failure, in order. If the root of the outputs has no null character
either, the batch has an outcome; and any outcome counts each result of the plan and of its jobs once, as
written or as failed, and grades them by the worst. -/
theorem runBatch_accounts (tree : FileTree) (options : BatchOptions) (templates : List Path) :
    ((∃ plan, Plan.ofTemplates tree options templates = .ok plan) ↔
        ∀ path ∈ templates, ¬ path.HasNull) ∧
      ∀ plan, Plan.ofTemplates tree options templates = .ok plan →
        (∃ parts, plan = .concat parts ∧ List.Forall₂ (Plan.Covers tree options) templates parts) ∧
        ∀ root, options.outputRoot = some root →
          (¬ root.HasNull → ∃ outcome, runBatch tree templates root options = .ok outcome) ∧
          ∀ outcome, runBatch tree templates root options = .ok outcome →
            ∃ ran, Job.runAll tree plan.jobs = .ok (outcome.tree, ran) ∧
              List.Forall₂ Job.Concerns plan.jobs ran ∧ Tallies root (plan.failures ++ ran) outcome := by
  constructor
  next =>
    constructor
    next =>
      rintro ⟨plan, made⟩
      exact Plan.ofTemplates_plain made
    next =>
      intro plain
      obtain ⟨parts, made, -⟩ := @Plan.ofTemplates_covers tree options templates plain
      exact ⟨_, made⟩
  next =>
    intro plan made
    -- A plan that was made is the one that the covering result describes.
    have plain := Plan.ofTemplates_plain made
    obtain ⟨parts, planned, covers⟩ := @Plan.ofTemplates_covers tree options templates plain
    rw [planned] at made
    cases made
    refine ⟨⟨parts, rfl, covers⟩, fun root given => ⟨?_, fun outcome ended => ?_⟩⟩
    next => exact runBatch_ends covers planned given plain
    next => exact runBatch_tallies covers given planned ended

-- Three results: one binding has its file, the other would have the same one, and a template is missing.
theorem runBatch_accounts_clash :
    ∃ tree options plan outcome, tree = (⟨.ofString "/work", [(["work".toList, "A.java".toList],
          .file (Utf8.encode "class KTypeSet<VType, KType> { }".toList))]⟩ : FileTree) ∧
      options = (⟨.here, some (.ofString "out"), [.int, .byte], [.long]⟩ : BatchOptions) ∧
      Plan.ofTemplates tree options [.ofString "A.java", .ofString "B.java"] = .ok plan ∧
      plan.jobs.length = 1 ∧ plan.failures.length = 2 ∧
      runBatch tree [.ofString "A.java", .ofString "B.java"] (.ofString "out") options = .ok outcome ∧
      outcome.exitCode = 2 ∧
      ∃ results, results.length = 3 ∧ Tallies (.ofString "out") results outcome := by
  have planned : (Plan.ofTemplates ⟨.ofString "/work", [(["work".toList, "A.java".toList],
        .file (Utf8.encode "class KTypeSet<VType, KType> { }".toList))]⟩
      ⟨.here, some (.ofString "out"), [.int, .byte], [.long]⟩
      [.ofString "A.java", .ofString "B.java"]).toOption.any (fun plan =>
        decide (plan.jobs.length = 1) && decide (plan.failures.length = 2) &&
          plan.failures.all fun result => !result.ok) = true := by decide +kernel
  obtain ⟨plan, made, passes⟩ := ok_of_any planned
  simp only [Bool.and_eq_true, decide_eq_true_eq] at passes
  obtain ⟨⟨one, two⟩, failed⟩ := passes
  obtain ⟨-, accounts⟩ := runBatch_accounts _ _ _
  obtain ⟨-, ended⟩ := accounts plan made
  obtain ⟨some, tallied⟩ := ended (.ofString "out") rfl
  obtain ⟨outcome, run⟩ := some (by decide)
  obtain ⟨ran, -, concerns, tallies⟩ := tallied outcome run
  refine ⟨_, _, plan, outcome, rfl, rfl, made, one, two, run, ?_, _, ?_, tallies⟩
  next =>
    have early : failures plan.failures = 2 := by
      rw [failures, List.countP_eq_length.mpr (List.all_eq_true.mp failed), two]
    have some : 0 < failures (plan.failures ++ ran) := by
      rw [failures, List.countP_append, ← failures, early]
      omega
    rw [tallies.exitCode, if_pos some]
  next =>
    have count := concerns.length_eq
    rw [List.length_append]
    omega

end CommandLine

end Specializer
