import Specializer.Proofs.BadPaths
import Specializer.Proofs.JobResults

set_option autoImplicit false

namespace Specializer

def BatchOptions.outputOf (options : BatchOptions) (template : Template) (path : Path) (binding : Binding) :
    Option Path :=
  options.outputRoot.bind fun root =>
    (outputPath template binding path options.sourceRoot root).toOption

namespace Plan

/-- What a plan has for a binding: a job, or a failure for want of an output. -/
inductive Entry
  | job (task : Job)
  | clash (result : JobResult)

namespace Entry

def binding : Entry → Option Binding
  | .job task => some task.binding
  | .clash result => result.binding

def job? : Entry → Option Job
  | .job task => some task
  | .clash _ => none

def failure? : Entry → Option JobResult
  | .job _ => none
  | .clash result => some result

end Entry

def ofEntries (entries : List Entry) : Plan :=
  ⟨entries.filterMap Entry.job?, entries.filterMap Entry.failure?⟩

theorem ofJob_append (job : Job) (entries : List Entry) :
    (ofJob job).append (ofEntries entries) = ofEntries (.job job :: entries) := rfl

theorem ofFailure_append (result : JobResult) (entries : List Entry) :
    (ofFailure result).append (ofEntries entries) = ofEntries (.clash result :: entries) := rfl

structure Clashes (template : Template) (outputOf : Binding → Option Path) (result : JobResult)
    (other : Job) : Prop where
  output : ∃ binding path, result.binding = some binding ∧ result.output = some path ∧
    outputOf binding = some path ∧ other.output = some path ∧
    result.report.items = [⟨.error, "TE5004", "output " ++ path.description ++ " for (" ++
      binding.description ++ ") collides with (" ++ other.binding.description ++ ")", none,
      template.filename, some binding.description⟩]
  template : result.template = template.filename
  text : result.text = none

/-- The entries for the bindings of a template, behind the jobs that it has already: one for each, a job
with an output that no other job has, or a clash with a job before it. -/
structure Settles (template : Template) (outputOf : Binding → Option Path) (earlier : List Job)
    (listed : List Binding) (entries : List Entry) : Prop where
  each : entries.map Entry.binding = listed.map some
  jobs : ∀ job, .job job ∈ entries → job.template = template ∧ job.output = outputOf job.binding
  distinct : ((earlier ++ entries.filterMap Entry.job?).filterMap Job.output).Nodup
  clashes : ∀ before result after, entries = before ++ .clash result :: after →
    ∃ other, (other ∈ earlier ∨ .job other ∈ before) ∧ Clashes template outputOf result other

variable {template : Template} {outputOf : Binding → Option Path} {earlier : List Job}
  {binding : Binding} {listed : List Binding} {entries : List Entry} {taken : List (Path × Binding)}

theorem Settles.job
    (later : Settles template outputOf (earlier ++ [⟨template, binding, outputOf binding⟩]) listed
      entries) :
    Settles template outputOf earlier (binding :: listed)
      (.job ⟨template, binding, outputOf binding⟩ :: entries) := by
  constructor
  next => simp [Entry.binding, later.each]
  next =>
    intro job member
    rcases List.mem_cons.mp member with same | behind
    next =>
      cases same
      exact ⟨rfl, rfl⟩
    next => exact later.jobs job behind
  next => simpa [Entry.job?, List.filterMap_cons] using later.distinct
  next =>
    intro before result after cut
    cases before with
    | nil => cases cut
    | cons first before =>
      obtain ⟨rfl, rest⟩ := List.cons.inj cut
      obtain ⟨other, place, clashes⟩ := later.clashes before result after rest
      refine ⟨other, ?_, clashes⟩
      -- The output that clashes is that of an earlier job, which may be this one.
      rcases place with known | between
      next =>
        rcases List.mem_append.mp known with before | last
        next => exact .inl before
        next =>
          cases List.mem_singleton.mp last
          exact .inr List.mem_cons_self
      next => exact .inr (List.mem_cons_of_mem _ between)

theorem Settles.clash {result : JobResult} {other : Job} (of : result.binding = some binding)
    (member : other ∈ earlier) (clashes : Clashes template outputOf result other)
    (later : Settles template outputOf earlier listed entries) :
    Settles template outputOf earlier (binding :: listed) (.clash result :: entries) := by
  constructor
  next => simp [Entry.binding, of, later.each]
  next =>
    intro job inside
    rcases List.mem_cons.mp inside with same | behind
    next => cases same
    next => exact later.jobs job behind
  next => simpa [Entry.job?, List.filterMap_cons] using later.distinct
  next =>
    intro before found after cut
    cases before with
    | nil =>
      cases cut
      exact ⟨other, .inl member, clashes⟩
    | cons first before =>
      obtain ⟨rfl, rest⟩ := List.cons.inj cut
      obtain ⟨other, place, clashes⟩ := later.clashes before found after rest
      exact ⟨other, place.imp_right (List.mem_cons_of_mem _), clashes⟩

def Takes (earlier : List Job) (taken : List (Path × Binding)) : Prop :=
  ∀ path, match taken.lookup path with
    | some binding => ∃ job ∈ earlier, job.output = some path ∧ job.binding = binding
    | none => ∀ job ∈ earlier, job.output ≠ some path

theorem Takes.add {job : Job} {more : List (Path × Binding)} (takes : Takes earlier taken)
    (own : ∀ path, job.output = some path → more.lookup path = some job.binding)
    (others : ∀ path, job.output ≠ some path → more.lookup path = taken.lookup path) :
    Takes (earlier ++ [job]) more := by
  intro path
  by_cases target : job.output = some path
  next =>
    rw [own path target]
    exact ⟨job, by simp, target, rfl⟩
  next =>
    have here := takes path
    rw [others path target]
    cases found : taken.lookup path with
    | some binding =>
      rw [found] at here
      obtain ⟨holder, member, there⟩ := here
      exact ⟨holder, List.mem_append_left _ member, there⟩
    | none =>
      rw [found] at here
      intro holder member
      rcases List.mem_append.mp member with before | last
      next => exact here holder before
      next =>
        cases List.mem_singleton.mp last
        exact target

theorem Takes.job {job : Job} {path : Path} (takes : Takes earlier taken)
    (target : job.output = some path) : Takes (earlier ++ [job]) ((path, job.binding) :: taken) := by
  refine takes.add (fun other same => ?_) fun other beside => ?_
  next =>
    cases target.symm.trans same
    simp
  next =>
    have differ : other ≠ path := fun same => beside (same ▸ target)
    rw [List.lookup_cons, beq_false_of_ne differ]

theorem Takes.unnamed {job : Job} (takes : Takes earlier taken) (target : job.output = none) :
    Takes (earlier ++ [job]) taken :=
  takes.add (by simp [target]) fun _ _ => rfl

theorem distinct_snoc {job : Job} (distinct : (earlier.filterMap Job.output).Nodup)
    (free : ∀ path, job.output = some path → ∀ other ∈ earlier, other.output ≠ some path) :
    ((earlier ++ [job]).filterMap Job.output).Nodup := by
  rw [List.filterMap_append, List.nodup_append]
  refine ⟨distinct, ?_, ?_⟩
  next => cases target : job.output <;> simp [target]
  next =>
    intro path before path' last
    rintro rfl
    obtain ⟨other, member, theirs⟩ := List.mem_filterMap.mp before
    obtain ⟨_, single, own⟩ := List.mem_filterMap.mp last
    cases List.mem_singleton.mp single
    exact free path own other member theirs

theorem collision_filled (path options other : String) :
    Code.fill .outputCollision (Fault.collision path options other).args =
      "output " ++ path ++ " for (" ++ options ++ ") collides with (" ++ other ++ ")" := by
  simp [Code.fill, Code.entry, Fault.args, Part.fill, String.join, Argument.plain, List.lookup_cons]

theorem failure_clashes {path : Path} {other : Job} (own : outputOf binding = some path)
    (theirs : other.output = some path) :
    ∃ result, failure template.filename (some binding) (some path)
        (.collision path.description binding.description other.binding.description) =
          ofFailure result ∧
      result.binding = some binding ∧ Clashes template outputOf result other := by
  refine ⟨_, rfl, rfl, ⟨⟨binding, path, rfl, rfl, own, theirs, ?_⟩, rfl, rfl⟩⟩
  rw [← collision_filled]
  rfl

theorem ofBindings_settles {outputs : Binding → Except Fault (Option Path)}
    (known : ∀ binding ∈ listed, outputs binding = .ok (outputOf binding)) (takes : Takes earlier taken)
    (distinct : (earlier.filterMap Job.output).Nodup) :
    ∃ entries, ofBindings template outputs taken listed = ofEntries entries ∧
      Settles template outputOf earlier listed entries := by
  -- What is taken and the jobs that took it grow together, so the statement is for any of them.
  induction listed generalizing earlier taken with
  | nil => exact ⟨[], rfl, rfl, nofun, by simpa using distinct, by simp⟩
  | cons binding rest ih =>
    have others := fun other member => known other (List.mem_cons_of_mem _ member)
    let job : Job := ⟨template, binding, outputOf binding⟩
    rw [ofBindings, known binding List.mem_cons_self]
    cases own : outputOf binding with
    | none =>
      have target : job.output = none := own
      have still := @distinct_snoc _ job distinct fun path same => nomatch target.symm.trans same
      obtain ⟨entries, made, settles⟩ := ih others (takes.unnamed target) still
      refine ⟨_, ?_, settles.job⟩
      simp only [made, own, ofJob_append]
    | some path =>
      have target : job.output = some path := own
      have here := takes path
      simp only
      cases found : taken.lookup path with
      | some other =>
        rw [found] at here
        obtain ⟨holder, member, there, rfl⟩ := here
        obtain ⟨result, failed, about, clashes⟩ := @failure_clashes template _ _ _ _ own there
        obtain ⟨entries, made, settles⟩ := ih others takes distinct
        refine ⟨_, ?_, settles.clash about member clashes⟩
        simp only [failed, made, ofFailure_append]
      | none =>
        rw [found] at here
        have free (own : Path) (same : job.output = some own) : ∀ other ∈ earlier, other.output ≠ some own :=
          Option.some.inj (target.symm.trans same) ▸ here
        obtain ⟨entries, made, settles⟩ := ih others (takes.job target) (distinct_snoc distinct free)
        have same : job.binding = binding := rfl
        rw [same] at made
        refine ⟨_, ?_, settles.job⟩
        rw [made, own, ofJob_append]

variable {tree : FileTree} {options : BatchOptions} {path : Path} {templates : List Path}

/-- What a plan has for a template: one failure without a binding, or an entry for each binding. -/
inductive Covers (tree : FileTree) (options : BatchOptions) (path : Path) : Plan → Prop
  | unread {fault : Fault} {result : JobResult}
      (failed : Template.load tree path = .error (.reported fault))
      (template : result.template = path.description) (binding : result.binding = none)
      (output : result.output = none)
      (report : result.report = (Report.empty none path.description none).addFault fault) :
      Covers tree options path (ofFailure result)
  | settled {template : Template} {entries : List Entry}
      (loaded : Template.load tree path = .ok template)
      (settles : Settles template (options.outputOf template path) []
        (bindings template.slotCount options.keyTypes options.valueTypes) entries) :
      Covers tree options path (ofEntries entries)

theorem outputOf_known {template : Template} (loaded : Template.load tree path = .ok template)
    {binding : Binding} (fits : template.Fits binding) :
    (options.outputRoot.mapM fun root =>
      outputPath template binding path options.sourceRoot root) =
        .ok (options.outputOf template path binding) := by
  rw [BatchOptions.outputOf]
  cases options.outputRoot with
  | none => rfl
  | some root =>
    obtain ⟨source, read⟩ := load_read loaded
    obtain ⟨values, -, named⟩ := template.outputPath_named read fits path options.sourceRoot root
    simp only [Option.mapM_some, named, Option.bind_some]
    rfl

theorem outputs_known {template : Template} (loaded : Template.load tree path = .ok template) :
    ∀ binding ∈ bindings template.slotCount options.keyTypes options.valueTypes,
      (options.outputRoot.mapM fun root =>
        outputPath template binding path options.sourceRoot root) =
          .ok (options.outputOf template path binding) :=
  fun _ listed => outputOf_known loaded (Binding.check_ok.mp (bindings_fit listed))

theorem ofTemplate_covers (plain : ¬ path.HasNull) :
    ∃ part, ofTemplate tree options path = .ok part ∧ Covers tree options path part := by
  cases loaded : Template.load tree path with
  | error fault =>
    cases fault with
    | badPath bad => exact absurd (load_badPath.mp loaded).1 plain
    | reported fault =>
      refine ⟨failure path.description none none fault, ?_, .unread loaded rfl rfl rfl rfl⟩
      rw [ofTemplate, loaded]
  | ok template =>
    obtain ⟨entries, made, settles⟩ := @ofBindings_settles template _ [] _ [] _ (outputs_known loaded)
      (by simp [Takes]) .nil
    refine ⟨_, ?_, .settled loaded settles⟩
    rw [ofTemplate, loaded]
    exact congrArg Except.ok made

theorem Settles.job_listed {job : Job} (settles : Settles template outputOf earlier listed entries)
    (member : .job job ∈ entries) : job.binding ∈ listed := by
  have inside : Entry.binding (.job job) ∈ listed.map some := settles.each ▸ List.mem_map_of_mem member
  simpa [Entry.binding] using inside

theorem mem_jobs {job : Job} : job ∈ (ofEntries entries).jobs ↔ .job job ∈ entries := by
  simp only [ofEntries, List.mem_filterMap]
  constructor
  next =>
    rintro ⟨entry, member, same⟩
    cases entry <;> cases same
    exact member
  next =>
    intro member
    exact ⟨_, member, rfl⟩

theorem mem_failures {result : JobResult} :
    result ∈ (ofEntries entries).failures ↔ .clash result ∈ entries := by
  simp only [ofEntries, List.mem_filterMap]
  constructor
  next =>
    rintro ⟨entry, member, same⟩
    cases entry <;> cases same
    exact member
  next =>
    intro member
    exact ⟨_, member, rfl⟩

theorem Covers.failed {part : Plan} (covers : Covers tree options path part) :
    ∀ result ∈ part.failures, result.ok = false := by
  intro result member
  cases covers with
  | unread failed template binding output report =>
    cases List.mem_singleton.mp member
    simp [JobResult.ok, report, Report.addFault_hasErrors]
  | settled loaded settles =>
    obtain ⟨before, after, cut⟩ := List.append_of_mem (mem_failures.mp member)
    obtain ⟨other, -, clashes⟩ := settles.clashes before result after cut
    obtain ⟨binding, out, -, -, -, -, items⟩ := clashes.output
    simp [JobResult.ok, Report.hasErrors, items]

theorem Covers.placed {part : Plan} {root : Path} (covers : Covers tree options path part)
    (given : options.outputRoot = some root) :
    ∀ job ∈ part.jobs, ∃ out, job.output = some out ∧ (out.HasNull → root.HasNull ∨ path.HasNull) := by
  intro job member
  cases covers with
  | unread => cases member
  | settled loaded settles =>
    have inside := mem_jobs.mp member
    obtain ⟨source, read⟩ := load_read loaded
    have fits := Binding.check_ok.mp (bindings_fit (settles.job_listed inside))
    obtain ⟨values, -, named⟩ :=
      Template.outputPath_named read fits path options.sourceRoot root
    refine ⟨_, ?_, outputPath_hasNull read fits named⟩
    rw [(settles.jobs job inside).2, BatchOptions.outputOf, given, Option.bind_some, named]
    rfl

def concat (parts : List Plan) : Plan := parts.foldr append empty

theorem mem_concat_jobs {job : Job} {parts : List Plan} :
    job ∈ (concat parts).jobs ↔ ∃ part ∈ parts, job ∈ part.jobs := by
  induction parts with
  | nil => simp [concat, empty]
  | cons part rest ih =>
    have split : (concat (part :: rest)).jobs = part.jobs ++ (concat rest).jobs := rfl
    simp [split, ih]

theorem mem_concat_failures {result : JobResult} {parts : List Plan} :
    result ∈ (concat parts).failures ↔ ∃ part ∈ parts, result ∈ part.failures := by
  induction parts with
  | nil => simp [concat, empty]
  | cons part rest ih =>
    have split : (concat (part :: rest)).failures = part.failures ++ (concat rest).failures := rfl
    simp [split, ih]

theorem ofTemplates_covers (plain : ∀ path ∈ templates, ¬ path.HasNull) :
    ∃ parts, ofTemplates tree options templates = .ok (concat parts) ∧
      List.Forall₂ (Covers tree options) templates parts := by
  induction templates with
  | nil => exact ⟨[], rfl, .nil⟩
  | cons path rest ih =>
    obtain ⟨part, first, covers⟩ := @ofTemplate_covers tree options _ (plain path List.mem_cons_self)
    obtain ⟨parts, later, each⟩ := ih fun path member => plain path (List.mem_cons_of_mem _ member)
    refine ⟨part :: parts, ?_, .cons covers each⟩
    rw [ofTemplates, first, later]
    rfl

theorem ofTemplates_plain {plan : Plan} (made : ofTemplates tree options templates = .ok plan) :
    ∀ path ∈ templates, ¬ path.HasNull := by
  induction templates generalizing plan with
  | nil => exact nofun
  | cons path rest ih =>
    simp only [ofTemplates, bind_eq_ok] at made
    obtain ⟨part, first, more, later, -⟩ := made
    intro other member
    rcases List.mem_cons.mp member with rfl | behind
    next =>
      intro null
      rw [ofTemplate, load_badPath.mpr ⟨null, rfl⟩] at first
      cases first
    next => exact ih later other behind

end Plan

end Specializer
