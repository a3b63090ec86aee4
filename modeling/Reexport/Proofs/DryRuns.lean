import Reexport.Proofs.Writes

/-!
# Dry runs and patterns

All that a run finds out is known before its first turn, and no turn changes what a later
one plans. So a dry run reports what a run that writes reports, as long as nothing is
refused, and patterns only choose which modules have a turn.

Results:

* `tried_dry`: the turn of a dry run, from the turn of a run that writes.
* `turns_dry`: all turns of a dry run.
* `dry_runs_and_patterns_filter`: the two together.
-/

namespace Reexport

/-- A record as it is when the file is not written. -/
def DirectiveRecord.unwritten (r : DirectiveRecord) : DirectiveRecord :=
  { r with status := if r.status = .rewritten then .wouldRewrite else r.status }

/-- An outcome as it is when the file is not written. -/
def FileOutcome.unwritten : FileOutcome → FileOutcome
  | .written => .wouldChange
  | outcome => outcome

namespace Job

/-- The job as a dry run, or as a run that writes. -/
def withDryRun (job : Job) (dryRun : Bool) : Job :=
  { job with settings.dryRun := dryRun }

/-- The job without patterns for the modules to rewrite. -/
def everywhere (job : Job) : Job :=
  { job with settings.included := [] }

/-! ## One turn -/

/-- What comes of a turn if `disk` is not changed. -/
def Attempt.unwritten (disk : Disk) : Attempt → Attempt
  | .done applied => .done ⟨applied.outcome.unwritten, applied.planned, disk⟩
  | .idle => .idle
  | .failed p _ => .failed p disk

section Unwritten

variable (disk : Disk) (m : Module) (resolved : Resolved) (attempt : Attempt)

@[simp] theorem unwritten_problem? : (attempt.unwritten disk).problem? = attempt.problem? := by
  cases attempt <;> rfl

@[simp] theorem unwritten_rendered : (attempt.unwritten disk).rendered = attempt.rendered := by
  cases attempt <;> rfl

@[simp] theorem unwritten_outcome? :
    (attempt.unwritten disk).outcome? = attempt.outcome?.map FileOutcome.unwritten := by
  cases attempt <;> rfl

@[simp] theorem unwritten_status : (attempt.unwritten disk).status = .wouldRewrite := by
  unfold Attempt.status
  rw [unwritten_outcome?, if_neg]
  cases attempt.outcome? with
  | none => simp
  | some outcome => cases outcome <;> simp [FileOutcome.unwritten]

@[simp] theorem unwritten_reason? : (attempt.unwritten disk).reason? = attempt.reason? := by
  cases attempt with
  | idle => rfl
  | failed p after => rfl
  | done applied =>
    obtain ⟨outcome, planned, after⟩ := applied
    cases outcome <;> rfl

theorem record_unwritten (manifest source : String) (d : Directive) (status : Status)
    (list? : Option String) :
    record m manifest source (attempt.unwritten disk) d status list? =
      (record m manifest source attempt d status list?).unwritten := by
  cases status with
  | replaced names withheld =>
    simp only [record, DirectiveRecord.unwritten, plainRecord, unwritten_status, unwritten_reason?]
    by_cases hwritten : attempt.outcome? = some .written
    · simp [Attempt.status, hwritten]
    · simp [Attempt.status, hwritten]
  | _ => rfl

theorem records_unwritten (manifest source : String) : ∀ (plans : List (Directive × Status))
    (lists : List String), records m manifest source (attempt.unwritten disk) plans lists =
      (records m manifest source attempt plans lists).map DirectiveRecord.unwritten := by
  intro plans
  induction plans with
  | nil => intro lists; rfl
  | cons plan rest ih =>
    intro lists
    obtain ⟨d, status⟩ := plan
    simp only [records]
    split_ifs
    · rw [List.map_cons, ih, record_unwritten]
    · rw [List.map_cons, ih, record_unwritten]

theorem told_unwritten : told m resolved (attempt.unwritten disk) =
    (told m resolved attempt).map DirectiveRecord.unwritten := by
  unfold told
  split
  · rw [records_unwritten, unwritten_rendered]
  · rfl

theorem fileRecord?_unwritten : fileRecord? m (attempt.unwritten disk) =
    (fileRecord? m attempt).map fun r => ⟨r.path, r.outcome.unwritten⟩ := by
  simp [fileRecord?, Option.map_map, Function.comp_def]

/-- Counts that differ at most in how many files were written. -/
def SameButWritten (a b : Stats) : Prop := { a with filesWritten := b.filesWritten } = b

theorem countTurn_unwritten {a b : Stats} (h : SameButWritten a b) :
    SameButWritten (countTurn m resolved a (attempt.unwritten disk)) (countTurn m resolved b attempt) := by
  obtain ⟨a1, a2, a3, a4, a5, a6⟩ := a
  obtain ⟨b1, b2, b3, b4, b5, b6⟩ := b
  simp only [SameButWritten, Stats.mk.injEq, and_true] at h
  obtain ⟨rfl, rfl, rfl, rfl, rfl⟩ := h
  unfold SameButWritten countTurn
  rw [unwritten_outcome?]
  cases attempt.outcome? with
  | none => rfl
  | some outcome => cases outcome <;> rfl

end Unwritten

/-- The same turn in a dry run: nothing is written, and all else is the same unless the file
    is refused. -/
theorem tried_dry {real dry : Rewriter} {course course' : Rewriter.Course} {m : Module} {resolved : Resolved}
    {disk now : Disk}
    (hreal : real.dryRun = false) (hclear : real.interrupted = false) (hdry : dry.dryRun = true)
    (hwidth : dry.maxWidth = real.maxWidth)
    (hnone : ∀ path message, (tried real course m resolved now).problem? ≠ some (.unwritable path message)) :
    tried dry course' m resolved disk = (tried real course m resolved now).unwritten disk := by
  have hturn := tried_turn real course m resolved now
  have hturn' := tried_turn dry course' m resolved disk
  generalize tried real course m resolved now = written at hturn hnone ⊢
  generalize tried dry course' m resolved disk = planned at hturn' ⊢
  cases hturn with
  | idle h =>
    cases hturn' with
    | idle => rfl
    | stale ready => exact absurd ready (h _ _)
    | planned ready => exact absurd ready (h _ _)
    | interrupted _ _ hno => rw [hdry] at hno; cases hno
    | written _ _ hno => rw [hdry] at hno; cases hno
    | refused _ _ hno => rw [hdry] at hno; cases hno
  | planned _ _ hyes => rw [hreal] at hyes; cases hyes
  | interrupted _ _ _ hyes => rw [hclear] at hyes; cases hyes
  | refused => exact absurd rfl (hnone _ _)
  | @stale manifest source offset ready plan =>
    rw [← hwidth] at plan
    cases hturn' with
    | idle h => exact absurd ready (h _ _)
    | stale ready' plan' =>
      cases ready.manifest.symm.trans ready'.manifest
      cases ready.source.symm.trans ready'.source
      cases plan.symm.trans plan'
      rfl
    | planned ready' plan' =>
      cases ready.source.symm.trans ready'.source
      cases plan.symm.trans plan'
    | interrupted _ _ hno => rw [hdry] at hno; cases hno
    | written _ _ hno => rw [hdry] at hno; cases hno
    | refused _ _ hno => rw [hdry] at hno; cases hno
  | @written manifest source planned place ready plan =>
    rw [← hwidth] at plan
    cases hturn' with
    | idle h => exact absurd ready (h _ _)
    | stale ready' plan' =>
      cases ready.source.symm.trans ready'.source
      cases plan.symm.trans plan'
    | planned ready' plan' =>
      cases ready.source.symm.trans ready'.source
      cases plan.symm.trans plan'
      rfl
    | interrupted _ _ hno => rw [hdry] at hno; cases hno
    | written _ _ hno => rw [hdry] at hno; cases hno
    | refused _ _ hno => rw [hdry] at hno; cases hno

/-! ## All turns -/

section Turns

variable {real dry : Rewriter} {courses courses' : ModuleId → Rewriter.Course} {tree : ModuleTree}
  {resolved : List Resolved}

/-- The turns of a dry run are all taken on the same disk. -/
theorem turns_eq_map (hdry : dry.dryRun = true) (disk : Disk) : ∀ (ids : List ModuleId),
    turns dry courses' tree resolved ids disk =
      ids.map fun id => (id, tried dry (courses' id) (tree.get id) (resolved.getD id default) disk) := by
  intro ids
  induction ids with
  | nil => rfl
  | cons id rest ih => rw [turns, List.map_cons, tried_quiet_disk _ _ _ _ _ (.inl hdry), ih]

/-- The turns of a dry run, from those of a run that writes. -/
theorem turns_dry (hreal : real.dryRun = false) (hclear : real.interrupted = false)
    (hdry : dry.dryRun = true) (hwidth : dry.maxWidth = real.maxWidth) (disk : Disk) :
    ∀ (ids : List ModuleId) {now : Disk},
    (∀ turn ∈ turns real courses tree resolved ids now, ∀ path message,
      turn.2.problem? ≠ some (.unwritable path message)) →
    turns dry courses' tree resolved ids disk =
      (turns real courses tree resolved ids now).map fun turn => (turn.1, turn.2.unwritten disk) := by
  intro ids
  induction ids with
  | nil => intro now _; rfl
  | cons id rest ih =>
    intro now hnone
    obtain ⟨hfirst, hrest⟩ := List.forall_mem_cons.1 hnone
    rw [turns, turns, List.map_cons, tried_quiet_disk _ _ _ _ _ (.inl hdry), ih hrest,
      tried_dry hreal hclear hdry hwidth hfirst]

theorem stats_dry (disk : Disk) (ts : List (ModuleId × Attempt)) : ∀ {a b : Stats}, SameButWritten a b →
    SameButWritten
      ((ts.map fun turn => (turn.1, turn.2.unwritten disk)).foldl (fun stats turn =>
        countTurn (tree.get turn.1) (resolved.getD turn.1 default) stats turn.2) a)
      (ts.foldl (fun stats turn =>
        countTurn (tree.get turn.1) (resolved.getD turn.1 default) stats turn.2) b) := by
  induction ts with
  | nil => intro a b h; exact h
  | cons turn rest ih =>
    intro a b h
    exact ih (countTurn_unwritten disk (tree.get turn.1) (resolved.getD turn.1 default) turn.2 h)

/-- The manifest of a module and the text that its turn plans for it. -/
def plannedText? (m : Module) : Attempt → Option (String × String)
  | .done applied => some (m.manifest.getD "", applied.planned.text)
  | .idle | .failed .. => none

/-- The texts that turns plan, with the manifests that they are for. -/
def plannedTexts (tree : ModuleTree) (ts : List (ModuleId × Attempt)) : List (String × String) :=
  ts.filterMap fun turn => plannedText? (tree.get turn.1) turn.2

theorem plannedTexts_dry (tree : ModuleTree) (disk : Disk) (ts : List (ModuleId × Attempt)) :
    plannedTexts tree (ts.map fun turn => (turn.1, turn.2.unwritten disk)) = plannedTexts tree ts := by
  unfold plannedTexts
  rw [List.filterMap_map]
  refine List.filterMap_congr fun turn _ => ?_
  obtain ⟨id, attempt⟩ := turn
  cases attempt <;> rfl

/-- In a run that may write, a file with a planned text is written. -/
theorem files_real (hreal : real.dryRun = false) (hclear : real.interrupted = false) :
    ∀ (ids : List ModuleId) (now : Disk),
    ((turns real courses tree resolved ids now).filterMap fun turn => fileRecord? (tree.get turn.1) turn.2) =
      (plannedTexts tree (turns real courses tree resolved ids now)).map (⟨·.1, .written⟩) := by
  intro ids
  induction ids with
  | nil => intro now; rfl
  | cons id rest ih =>
    intro now
    have hone : fileRecord? (tree.get id) (tried real (courses id) (tree.get id) (resolved.getD id default) now) =
        (plannedText? (tree.get id) (tried real (courses id) (tree.get id) (resolved.getD id default) now)).map
          (⟨·.1, .written⟩) := by
      have hturn := tried_turn real (courses id) (tree.get id) (resolved.getD id default) now
      generalize tried real (courses id) (tree.get id) (resolved.getD id default) now = attempt at hturn ⊢
      cases hturn with
      | planned _ _ hyes => rw [hreal] at hyes; cases hyes
      | interrupted _ _ _ hyes => rw [hclear] at hyes; cases hyes
      | _ => rfl
    rw [turns, plannedTexts, List.filterMap_cons, List.filterMap_cons, hone, ih]
    cases plannedText? (tree.get id) (tried real (courses id) (tree.get id) (resolved.getD id default) now) <;> rfl

/-- What is planned for a file is what the file holds at the end. -/
theorem readText_planned (hreal : real.dryRun = false) (hclear : real.interrupted = false)
    {start : Disk} (hfaithful : Survey.Faithful start tree) (ids : List ModuleId) :
    ∀ t ∈ plannedTexts tree (turns real courses tree resolved ids start),
      (diskAfter start (turns real courses tree resolved ids start)).readText t.1 = .ok t.2 := by
  intro t ht
  obtain ⟨⟨id, attempt⟩, hturn, hplanned⟩ := List.mem_filterMap.1 ht
  have hwritten : attempt.outcome? = some .written := by
    obtain ⟨disk, -, htried⟩ := turn_of_mem hfaithful ids (Kept.refl start) hturn
    simp only at htried
    have hcases := tried_turn real (courses id) (tree.get id) (resolved.getD id default) disk
    rw [← htried] at hcases
    cases hcases with
    | written => rfl
    | planned _ _ hyes => rw [hreal] at hyes; cases hyes
    | interrupted _ _ _ hyes => rw [hclear] at hyes; cases hyes
    | _ => cases hplanned
  obtain ⟨manifest, source, planned, place, hwrote⟩ :=
    wrote_of_outcome hfaithful (Kept.refl start) hturn hwritten
  obtain ⟨disk, rfl⟩ : ∃ disk, attempt = .done ⟨.written, planned, disk⟩ := hwrote.done
  have hmanifest : (tree.get id).manifest = some manifest := hwrote.ready.manifest
  simp only [plannedText?, hmanifest, Option.getD_some, Option.some.injEq] at hplanned
  subst hplanned
  exact Disk.readText_of_named (kept_turns hfaithful ids (Kept.refl start) manifest place hwrote.named)
    (node?_of_wrote hfaithful (Kept.refl start) hturn hwrote)

end Turns

/-! ## Records of edits that are not written -/

theorem mem_records {m : Module} {manifest source : String} {attempt : Attempt} {r : DirectiveRecord} :
    ∀ {plans : List (Directive × Status)} {lists : List String},
    r ∈ records m manifest source attempt plans lists →
    ∃ d status list?, (d, status) ∈ plans ∧ r = record m manifest source attempt d status list? := by
  intro plans
  induction plans with
  | nil => intro lists h; cases h
  | cons plan rest ih =>
    intro lists h
    obtain ⟨d, status⟩ := plan
    rw [records] at h
    split_ifs at h
    all_goals
      rcases List.mem_cons.1 h with rfl | h
      · exact ⟨d, status, _, List.mem_cons_self, rfl⟩
      · obtain ⟨d', status', list?, hmem, heq⟩ := ih h
        exact ⟨d', status', list?, List.mem_cons_of_mem _ hmem, heq⟩

theorem tells_of_told {m : Module} {resolved : Resolved} {attempt : Attempt} {r : DirectiveRecord}
    (h : r ∈ told m resolved attempt) : ∃ d ∈ m.directives, Tells m d r := by
  unfold told at h
  split at h
  · rename_i manifest source hmanifest hsource
    obtain ⟨d, status, list?, hmem, rfl⟩ := mem_records h
    exact ⟨d, (List.of_mem_zip hmem).1, (record_told hmanifest source attempt d status list?).tells⟩
  · cases h

/-- A directive that would be rewritten has a plan that is carried out, and the record gives the
    reason of the turn. -/
theorem wouldRewrite_of_told {m : Module} {resolved : Resolved} {attempt : Attempt} {r : DirectiveRecord}
    (h : r ∈ told m resolved attempt) (hstatus : r.status = .wouldRewrite) :
    ∃ d names withheld, (d, Status.replaced names withheld) ∈ m.directives.zip resolved.plans ∧
      attempt.status = .wouldRewrite ∧ r.reason = attempt.reason? := by
  unfold told at h
  split at h
  · obtain ⟨d, status, list?, hmem, rfl⟩ := mem_records h
    cases status with
    | replaced names withheld => exact ⟨d, names, withheld, hmem, hstatus, rfl⟩
    | _ => cases hstatus
  · cases h

section Tree

variable {tree : ModuleTree} (hwf : tree.WellFormed)
  (hread : ∀ id, (tree.get id).directives ≠ [] → ∃ manifest source,
    (tree.get id).manifest = some manifest ∧ (tree.get id).source = some source)

include hwf hread

/-- A module with a plan that is carried out has edits. -/
theorem ready_of_replaced {id : ModuleId} {d : Directive} {names withheld : List String}
    (hmem : (d, Status.replaced names withheld) ∈
      (tree.get id).directives.zip (Resolution.resolvedAt tree id).plans) :
    ∃ manifest source, Ready (tree.get id) (Resolution.resolvedAt tree id) manifest source := by
  obtain ⟨manifest, source, hmanifest, hsource⟩ := hread id (List.ne_nil_of_mem (List.of_mem_zip hmem).1)
  obtain ⟨index, hindex⟩ := List.mem_iff_getElem?.1 (List.of_mem_zip hmem).2
  have hid : id < tree.size := by
    by_contra hid
    have hnone : (default : Resolved).plans = [] := rfl
    rw [Resolution.resolvedAt_of_size_le (by simpa using hid), hnone] at hindex
    simp at hindex
  have hplans : List.Forall₂ Resolution.PlanFor (tree.get id).directives
      (Resolution.resolvedAt tree id).plans := by
    rw [Resolution.resolvedAt_eq_record hwf hid]
    exact (Resolution.effectsOf_effectsAt hwf hid).plans
  have hplan := List.forall₂_zip hplans hmem
  unfold Resolution.PlanFor at hplan
  cases hform : d.form with
  | ambiguous why => simp [hform] at hplan
  | explicit pins => simp [hform] at hplan
  | wildcard path star =>
    refine ⟨manifest, source, hmanifest, hsource, List.ne_nil_of_mem (a := ⟨star, names⟩) ?_⟩
    exact List.mem_filterMap.2 ⟨_, hmem, by simp [edit?, hform]⟩

/-- In a run that may write, a directive that is not rewritten has a reported reason. -/
theorem reason_reported {real : Rewriter} {course : Rewriter.Course} (hreal : real.dryRun = false)
    (hclear : real.interrupted = false) {id : ModuleId} {now : Disk} {r : DirectiveRecord}
    (h : r ∈ told (tree.get id) (Resolution.resolvedAt tree id)
      (tried real course (tree.get id) (Resolution.resolvedAt tree id) now)) (hstatus : r.status = .wouldRewrite) :
    ∃ p, (tried real course (tree.get id) (Resolution.resolvedAt tree id) now).problem? = some p ∧
      r.reason = some p.message := by
  obtain ⟨d, names, withheld, hmem, htried, hreason⟩ := wouldRewrite_of_told h hstatus
  obtain ⟨manifest, source, hready⟩ := ready_of_replaced hwf hread hmem
  have hturn := tried_turn real course (tree.get id) (Resolution.resolvedAt tree id) now
  rw [hreason]
  generalize tried real course (tree.get id) (Resolution.resolvedAt tree id) now = attempt at hturn htried ⊢
  cases hturn with
  | idle h => exact absurd hready (h _ _)
  | stale => exact ⟨_, rfl, rfl⟩
  | refused => exact ⟨_, rfl, rfl⟩
  | written => cases htried
  | planned _ _ hyes => rw [hreal] at hyes; cases hyes
  | interrupted _ _ _ hyes => rw [hclear] at hyes; cases hyes

end Tree

/-! ## Whole runs -/

/-- A dry run and a run that writes say the same, apart from what is written; `texts` are the
    texts that the dry run plans. -/
structure Mirrors (texts : List (String × String)) (dry real : Outcome) : Prop where
  problems : dry.report.problems = real.report.problems
  collisions : dry.report.collisions = real.report.collisions
  stats : { dry.report.stats with filesWritten := real.report.stats.filesWritten } = real.report.stats
  directives : dry.report.directives = real.report.directives.map DirectiveRecord.unwritten
  /-- Only stale edits, which both report, are left out by a run that writes. -/
  left : ∀ r ∈ real.report.directives, r.status = .wouldRewrite →
    ∃ p ∈ real.report.problems, r.reason = some p.message
  planned : dry.report.files = texts.map (⟨·.1, .wouldChange⟩)
  written : real.report.files = texts.map (⟨·.1, .written⟩)
  texts : ∀ t ∈ texts, real.disk.readText t.1 = .ok t.2

/-- The part of a list that belongs to modules in scope, in the same order. -/
def ScopePart {α : Type} (walked : Walked) (belongs : ModuleId → α → Prop) (full part : List α) : Prop :=
  ∃ owned : List (ModuleId × α), (∀ x ∈ owned, belongs x.1 x.2) ∧ full = owned.map Prod.snd ∧
    part = (owned.filter fun x => inScope walked (walked.surveyed.tree.get x.1)).map Prod.snd

theorem scopePart_of_flatMap {α : Type} {walked : Walked} {belongs : ModuleId → α → Prop}
    {f : ModuleId → List α} {ids : List ModuleId} (hf : ∀ id, ∀ x ∈ f id, belongs id x) :
    ScopePart walked belongs (ids.flatMap f)
      ((ids.filter fun id => inScope walked (walked.surveyed.tree.get id)).flatMap f) := by
  refine ⟨ids.flatMap fun id => (f id).map (Prod.mk id), ?_, ?_, ?_⟩
  · intro x hx
    obtain ⟨id, -, hx⟩ := List.mem_flatMap.1 hx
    obtain ⟨y, hy, rfl⟩ := List.mem_map.1 hx
    exact hf id y hy
  · rw [List.map_flatMap]
    exact List.flatMap_congr fun id _ => by simp [List.map_map, Function.comp_def]
  · induction ids with
    | nil => rfl
    | cons id rest ih =>
      rw [List.flatMap_cons, List.filter_append, List.map_append, ← ih, List.filter_cons, List.filter_map]
      by_cases hin : inScope walked (walked.surveyed.tree.get id) = true
      · simp [hin, Function.comp_def, List.map_map]
      · simp [hin, Function.comp_def]

variable {job : Job} {courses courses' : ModuleId → Rewriter.Course} {disk : Disk}

theorem walk_everywhere {walked : Walked} (hwalk : job.walk disk = .ok walked) :
    job.everywhere.walk disk = .ok ⟨[], walked.surveyed⟩ := by
  obtain ⟨survey, hsurvey, -, hrun⟩ := walk_eq_ok_iff.1 hwalk
  exact walk_eq_ok_iff.2 ⟨survey, hsurvey, rfl, hrun⟩

theorem turnsOf_eq_map (job : Job) (courses : ModuleId → Rewriter.Course) (walked : Walked) (disk : Disk) :
    (job.withDryRun true).turnsOf courses walked disk = (scope walked).map fun id =>
      (id, tried (job.withDryRun true).rewriter (courses id) (walked.surveyed.tree.get id)
        (Resolution.resolvedAt walked.surveyed.tree id) disk) :=
  turns_eq_map rfl disk (scope walked)

/-- The turns of the dry run of a job, if the run that writes is refused nothing. -/
theorem turnsOf_dry (hclear : job.interrupted = false) {walked : Walked}
    (hnone : ∀ turn ∈ (job.withDryRun false).turnsOf courses walked disk, ∀ path message,
      turn.2.problem? ≠ some (.unwritable path message)) :
    (job.withDryRun true).turnsOf courses' walked disk =
      ((job.withDryRun false).turnsOf courses walked disk).map fun turn => (turn.1, turn.2.unwritten disk) := by
  have hdry : (job.withDryRun true).rewriter.dryRun = true := rfl
  have hreal : (job.withDryRun false).rewriter.dryRun = false := rfl
  exact turns_dry hreal hclear hdry rfl disk (scope walked) hnone

theorem run_mirrors (hclear : job.interrupted = false) {walked : Walked}
    (hwalk : job.walk disk = .ok walked) {dry real : Outcome}
    (hdry : (job.withDryRun true).runIn courses' disk = .ok dry)
    (hreal : (job.withDryRun false).runIn courses disk = .ok real)
    (hnone : ∀ path message, Problem.unwritable path message ∉ real.report.problems) :
    Mirrors (plannedTexts walked.surveyed.tree ((job.withDryRun true).turnsOf courses' walked disk)) dry real := by
  have hwf := (walk_keeps hwalk).1.wellFormed
  have hfaithful := (walk_keeps hwalk).2
  have hwalk₁ : (job.withDryRun true).walk disk = .ok walked := hwalk
  have hwalk₂ : (job.withDryRun false).walk disk = .ok walked := hwalk
  obtain ⟨-, _, rfl, hproblems, hcollisions, hdirectives, hfiles, hstats⟩ := run_turns hwalk₁ hdry
  obtain ⟨hdisk', _, rfl, hproblems', hcollisions', hdirectives', hfiles', hstats'⟩ :=
    run_turns hwalk₂ hreal
  have hrefused : ∀ turn ∈ (job.withDryRun false).turnsOf courses walked disk, ∀ path message,
      turn.2.problem? ≠ some (.unwritable path message) := by
    intro turn hturn path message hproblem
    apply hnone path message
    rw [hproblems', reportAfter_problems, List.mem_append]
    refine .inr (List.mem_flatMap.2 ⟨turn, hturn, ?_⟩)
    simp [hproblem]
  have hturns : (job.withDryRun true).turnsOf courses' walked disk = _ := turnsOf_dry hclear hrefused
  have hwritten : (((job.withDryRun false).turnsOf courses walked disk).filterMap fun turn =>
      fileRecord? (walked.surveyed.tree.get turn.1) turn.2) =
      (plannedTexts walked.surveyed.tree ((job.withDryRun false).turnsOf courses walked disk)).map
        (⟨·.1, .written⟩) :=
    files_real (show (job.withDryRun false).rewriter.dryRun = false from rfl) hclear (scope walked) disk
  have htexts := plannedTexts_dry walked.surveyed.tree disk ((job.withDryRun false).turnsOf courses walked disk)
  refine ⟨?_, ?_, ?_, ?_, ?_, ?_, ?_, ?_⟩
  · rw [hproblems, hproblems', reportAfter_problems, reportAfter_problems, hturns, List.flatMap_map]
    simp only [unwritten_problem?]
    rfl
  · rw [hcollisions, hcollisions', reportAfter_collisions, reportAfter_collisions, hturns,
      List.flatMap_map]
    rfl
  · rw [hstats, hstats', reportAfter_stats, reportAfter_stats, hturns]
    exact stats_dry disk _ rfl
  · rw [hdirectives, hdirectives', reportAfter_directives, reportAfter_directives, hturns,
      List.flatMap_map, List.map_append, List.map_flatMap]
    simp only [told_unwritten]
    rfl
  · intro r hr hstatus
    rw [hdirectives', reportAfter_directives, List.mem_append] at hr
    rcases hr with hr | hr
    · cases hr
    · obtain ⟨turn, hturn, hr⟩ := List.mem_flatMap.1 hr
      obtain ⟨now, -, htried⟩ := turn_of_mem hfaithful (scope walked) (Kept.refl disk) hturn
      rw [htried] at hr
      obtain ⟨p, hp, hreason⟩ := reason_reported hwf (walk_read hwalk) rfl hclear hr hstatus
      refine ⟨p, ?_, hreason⟩
      rw [hproblems', reportAfter_problems, List.mem_append]
      refine .inr (List.mem_flatMap.2 ⟨turn, hturn, ?_⟩)
      rw [htried, List.mem_append, Option.mem_toList]
      exact .inr hp
  · rw [hfiles, reportAfter_files, hturns, htexts, List.filterMap_map]
    simp only [Function.comp_def, fileRecord?_unwritten]
    rw [← List.map_filterMap, hwritten, List.map_map]
    rfl
  · rw [hfiles', reportAfter_files, hwritten, hturns, htexts]
    rfl
  · rw [hturns, htexts, hdisk']
    exact readText_planned rfl hclear hfaithful (scope walked)

/-- A run reports the collisions of the modules in scope. -/
theorem run_collisions {walked : Walked} (hwalk : job.walk disk = .ok walked) {outcome : Outcome}
    (hrun : job.runIn courses disk = .ok outcome) : outcome.report.collisions =
      (scope walked).flatMap fun id => (Resolution.resolvedAt walked.surveyed.tree id).collisions := by
  obtain ⟨-, _, rfl, -, hcollisions, -⟩ := run_turns hwalk hrun
  have hids : (job.turnsOf courses walked disk).map Prod.fst = scope walked := map_fst_turns _ _ _ _ _ _
  rw [hcollisions, reportAfter_collisions, ← hids, List.flatMap_map]
  rfl

theorem scope_everywhere (surveyed : Surveyed) : scope ⟨[], surveyed⟩ = surveyed.tree.postOrder :=
  List.filter_eq_self.2 fun _ _ => inScope_of_included rfl _

/-- Everything about the modules in scope of a dry run, from the dry run without patterns. -/
theorem run_scopePart {walked : Walked} (hwalk : job.walk disk = .ok walked) {full part : Outcome}
    (hpart : (job.withDryRun true).runIn courses disk = .ok part)
    (hfull : (job.everywhere.withDryRun true).runIn courses' disk = .ok full) :
    ScopePart walked (fun id r => ∃ d ∈ (walked.surveyed.tree.get id).directives,
        Tells (walked.surveyed.tree.get id) d r) full.report.directives part.report.directives ∧
      ScopePart walked (fun id c => c ∈ (Resolution.resolvedAt walked.surveyed.tree id).collisions ∧
        c.module = (walked.surveyed.tree.get id).qualifiedName)
        full.report.collisions part.report.collisions := by
  have hwf := (walk_keeps hwalk).1.wellFormed
  have hwalk₁ : (job.withDryRun true).walk disk = .ok walked := hwalk
  have heverywhere := walk_everywhere hwalk
  have hwalk₂ : (job.everywhere.withDryRun true).walk disk = .ok ⟨[], walked.surveyed⟩ := heverywhere
  obtain ⟨-, _, rfl, -, -, hdirectives, -⟩ := run_turns hwalk₁ hpart
  obtain ⟨-, _, rfl, -, -, hdirectives', -⟩ := run_turns hwalk₂ hfull
  constructor
  · rw [hdirectives, hdirectives', reportAfter_directives, reportAfter_directives, turnsOf_eq_map,
      turnsOf_eq_map, scope_everywhere, List.flatMap_map, List.flatMap_map]
    exact scopePart_of_flatMap fun id r hr => tells_of_told hr
  · rw [run_collisions hwalk₁ hpart, run_collisions hwalk₂ hfull, scope_everywhere]
    exact scopePart_of_flatMap fun id c hc => ⟨hc, (Resolution.collision_known hwf hc).inModule⟩

/-- **Dry runs and patterns are filters.** A job that writes can be done dry, and as long as
    nothing is refused both report the same, apart from what is written, and each file that is
    written holds the text that the dry run plans for it. A dry run with patterns can be done
    without them, and reports just what that run reports about the modules in scope. -/
theorem dry_runs_and_patterns_filter (job : Job) (courses courses' : ModuleId → Rewriter.Course) (disk : Disk)
    (hclear : job.interrupted = false) :
    (∀ real, (job.withDryRun false).runIn courses disk = .ok real →
      ∃ walked dry, job.walk disk = .ok walked ∧ (job.withDryRun true).runIn courses' disk = .ok dry ∧
        ((∀ path message, Problem.unwritable path message ∉ real.report.problems) →
          Mirrors (plannedTexts walked.surveyed.tree ((job.withDryRun true).turnsOf courses' walked disk))
            dry real)) ∧
    (∀ part, (job.withDryRun true).runIn courses' disk = .ok part →
      ∃ walked full, job.walk disk = .ok walked ∧
        (job.everywhere.withDryRun true).runIn courses' disk = .ok full ∧
        ScopePart walked (fun id r => ∃ d ∈ (walked.surveyed.tree.get id).directives,
          Tells (walked.surveyed.tree.get id) d r) full.report.directives part.report.directives ∧
        ScopePart walked (fun id c => c ∈ (Resolution.resolvedAt walked.surveyed.tree id).collisions ∧
          c.module = (walked.surveyed.tree.get id).qualifiedName)
          full.report.collisions part.report.collisions) := by
  refine ⟨fun real hreal => ?_, fun part hpart => ?_⟩
  · obtain ⟨walked, hwalk, -⟩ := runIn_eq_ok_iff.1 hreal
    have hdry : (job.withDryRun true).runIn courses' disk = .ok _ := runIn_eq_ok_iff.2 ⟨walked, hwalk, rfl⟩
    exact ⟨walked, _, hwalk, hdry, run_mirrors hclear hwalk hdry hreal⟩
  · obtain ⟨walked, hwalk, -⟩ := runIn_eq_ok_iff.1 hpart
    have heverywhere := walk_everywhere (show job.walk disk = .ok walked from hwalk)
    have hfull : (job.everywhere.withDryRun true).runIn courses' disk = .ok _ :=
      runIn_eq_ok_iff.2 ⟨_, heverywhere, rfl⟩
    exact ⟨walked, _, hwalk, hfull, run_scopePart hwalk hpart hfull⟩

/-- In scope of the narrow job there is only `crate::c`. -/
theorem eq_of_inScope_quarrel {id : ModuleId} (hid : id < quarrelTree.size)
    (hin : inScope narrowWalk (quarrelTree.get id) = true) : id = 3 := by
  have hmem : id ∈ scope narrowWalk :=
    List.mem_filter.2 ⟨(walk_keeps walk_quarrel).1.wellFormed.mem_postOrder hid, hin⟩
  rw [scope_quarrel] at hmem
  exact List.mem_singleton.1 hmem

theorem quarrel_reported :
    (quarrelTree.get 3).qualifiedName = "crate::c" ∧
      (Resolution.resolvedAt quarrelTree 3).collisions = [] ∧
      (quarrelTree.postOrder.flatMap fun id => (Resolution.resolvedAt quarrelTree id).collisions).map (·.name) =
        ["x"] := by
  decide +kernel

/-- On the tangle a run writes one file and a dry run plans it. Where two modules quarrel, a dry
    run with patterns reports neither the collision nor other directives than those of the one
    module in scope. -/
theorem dry_runs_and_patterns_filter_tangle :
    (usual.interrupted = false ∧ ∃ real dry, usual.run tangle = .ok real ∧
      (usual.withDryRun true).run tangle = .ok dry ∧ real.disk = tangleOnce ∧
      dry.report.problems = [.cycle "src/b.rs" 1 "super::c::*"] ∧
      dry.report.directives = real.report.directives.map DirectiveRecord.unwritten) ∧
    narrow.interrupted = false ∧ ∃ part full, (narrow.withDryRun true).run quarrel = .ok part ∧
      (narrow.everywhere.withDryRun true).run quarrel = .ok full ∧
      (∃ r ∈ part.report.directives, "x" ∈ r.withheld) ∧
      (∀ r ∈ part.report.directives, r.module = "crate::c" ∧ r ∈ full.report.directives) ∧
      part.report.collisions = [] ∧ full.report.collisions.map (·.name) = ["x"] := by
  constructor
  · obtain ⟨real, hreal⟩ : ∃ real, usual.run tangle = .ok real :=
      ⟨_, runIn_eq_ok_iff.2 ⟨_, walk_tangle, rfl⟩⟩
    obtain ⟨hdisk, hproblems⟩ := run_tangle hreal
    obtain ⟨walked, dry, -, hdry, hmirrors⟩ :=
      (dry_runs_and_patterns_filter usual (fun _ => .smooth) (fun _ => .smooth) tangle rfl).1 real hreal
    have hsame := hmirrors (by rw [hproblems]; simp)
    exact ⟨rfl, real, dry, hreal, hdry, hdisk, hsame.problems.trans hproblems, hsame.directives⟩
  · have hwalk : (narrow.withDryRun true).walk quarrel = .ok narrowWalk := walk_quarrel
    obtain ⟨part, hpart⟩ : ∃ part, (narrow.withDryRun true).run quarrel = .ok part :=
      ⟨_, runIn_eq_ok_iff.2 ⟨_, hwalk, rfl⟩⟩
    obtain ⟨walked, full, hwalk', hfull, hdirectives, hcollisions⟩ :=
      (dry_runs_and_patterns_filter narrow (fun _ => .smooth) (fun _ => .smooth) quarrel rfl).2 part hpart
    obtain rfl := Except.ok.inj (walk_quarrel.symm.trans hwalk')
    obtain ⟨hname, hnone, hcolliding⟩ := quarrel_reported
    refine ⟨rfl, part, full, hpart, hfull, withheld_quarrel hwalk hpart, ?_, ?_, ?_⟩
    · obtain ⟨owned, hbelongs, hwhole, hscoped⟩ := hdirectives
      intro r hr
      rw [hscoped] at hr
      obtain ⟨⟨id, _⟩, hmem, rfl⟩ := List.mem_map.1 hr
      obtain ⟨howned, hin⟩ := List.mem_filter.1 hmem
      obtain ⟨d, hd, htells⟩ := hbelongs _ howned
      have hid : id < quarrelTree.size := by
        by_contra hid
        rw [ModuleTree.get_of_size_le (by simpa using hid)] at hd
        cases hd
      obtain rfl := eq_of_inScope_quarrel hid hin
      exact ⟨htells.module.trans hname, by rw [hwhole]; exact List.mem_map_of_mem howned⟩
    · obtain ⟨owned, hbelongs, -, hscoped⟩ := hcollisions
      rw [hscoped, List.map_eq_nil_iff, List.filter_eq_nil_iff]
      rintro ⟨id, c⟩ howned hin
      obtain ⟨hc, -⟩ := hbelongs _ howned
      obtain rfl := eq_of_inScope_quarrel (Resolution.lt_of_mem_collisions hc) hin
      rw [hnone] at hc
      cases hc
    · have heverywhere := walk_everywhere walk_quarrel
      have hwalk₂ : (narrow.everywhere.withDryRun true).walk quarrel = .ok ⟨[], narrowWalk.surveyed⟩ :=
        heverywhere
      rw [run_collisions hwalk₂ hfull, scope_everywhere]
      exact hcolliding

end Job

end Reexport
