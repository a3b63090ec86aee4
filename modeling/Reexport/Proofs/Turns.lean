import Reexport.Proofs.CleanExit

/-!
# The turns of a run

A run takes the modules in scope one after the other, and each has one turn. In its turn
a module is idle, or its edits are stale, only planned, written or refused: refused if the
manifest does not hold the scanned text any more or a stage of its write fails. What a
turn does to the disk and adds to the report follows from which of these it is, so both
can be read off the list of turns.

Results:

* `tried_turn`: what can come of a turn.
* `rewriteModule_eq`: what a turn adds to an outcome.
* `run_turns`: the disk and the report of a run, from its turns.
-/

namespace Reexport.Job

/-! ## One turn -/

/-- The edits that the plans of a module ask for. -/
def editsFor (m : Module) (resolved : Resolved) : List Edit :=
  edits (m.directives.zip resolved.plans)

/-- A module with a text and with edits. -/
structure Ready (m : Module) (resolved : Resolved) (manifest source : String) : Prop where
  manifest : m.manifest = some manifest
  source : m.source = some source
  edits : editsFor m resolved ≠ []

/-- What is said about an edit whose star is gone. -/
def staleProblem (manifest source : String) (offset : Nat) : Problem :=
  .ambiguous manifest (Text.lineAt source.toList offset) "*" "re-export no longer holds a wildcard"

/-- What can come of the turn of a module. -/
inductive Turn (rewriter : Rewriter) (course : Rewriter.Course) (m : Module) (resolved : Resolved)
    (disk : Disk) : Attempt → Prop where
  | idle (h : ∀ manifest source, ¬ Ready m resolved manifest source) :
      Turn rewriter course m resolved disk .idle
  | stale {manifest source : String} {offset : Nat} (ready : Ready m resolved manifest source)
      (plan : planEdits source (editsFor m resolved) rewriter.maxWidth = .error offset) :
      Turn rewriter course m resolved disk (.failed (staleProblem manifest source offset) disk)
  | planned {manifest source : String} {planned : Planned} (ready : Ready m resolved manifest source)
      (plan : planEdits source (editsFor m resolved) rewriter.maxWidth = .ok planned)
      (dry : rewriter.dryRun = true) :
      Turn rewriter course m resolved disk (.done ⟨.wouldChange, planned, disk⟩)
  | interrupted {manifest source : String} {planned : Planned} (ready : Ready m resolved manifest source)
      (plan : planEdits source (editsFor m resolved) rewriter.maxWidth = .ok planned)
      (dry : rewriter.dryRun = false) (stop : rewriter.interrupted = true) :
      Turn rewriter course m resolved disk (.done ⟨.interrupted, planned, disk⟩)
  | written {manifest source : String} {planned : Planned} {place : Disk.Place}
      (ready : Ready m resolved manifest source)
      (plan : planEdits source (editsFor m resolved) rewriter.maxWidth = .ok planned)
      (dry : rewriter.dryRun = false) (stop : rewriter.interrupted = false)
      (read : disk.readText manifest = .ok source) (smooth : course.Smooth disk manifest)
      (named : disk.locate false manifest = .ok place) (leads : disk.LeadsToFile place) :
      Turn rewriter course m resolved disk
        (.done ⟨.written, planned, disk.put place (.file (.text planned.text))⟩)
  | refused {manifest source : String} {planned : Planned} {message : String}
      (ready : Ready m resolved manifest source)
      (plan : planEdits source (editsFor m resolved) rewriter.maxWidth = .ok planned)
      (dry : rewriter.dryRun = false) (stop : rewriter.interrupted = false)
      (cause : disk.readText manifest ≠ .ok source ∨ ¬ course.Smooth disk manifest) :
      Turn rewriter course m resolved disk (.failed (.unwritable manifest message) disk)

section Turn

variable (rewriter : Rewriter) (course : Rewriter.Course) (m : Module) (resolved : Resolved) (disk : Disk)

theorem attempt_turn {manifest source : String} (ready : Ready m resolved manifest source) :
    Turn rewriter course m resolved disk (attempt rewriter course disk manifest source (editsFor m resolved)) := by
  have hsome : (editsFor m resolved).isEmpty = false := by simpa using ready.edits
  simp only [attempt, hsome, Bool.false_eq_true, if_false, Rewriter.applyIn]
  cases hplan : planEdits source (editsFor m resolved) rewriter.maxWidth with
  | error offset => exact .stale ready hplan
  | ok planned =>
    -- a list is longer than a star, so the file always changes
    simp only [planEdits_text_ne hplan ready.edits, if_false]
    cases hdry : rewriter.dryRun with
    | true => exact .planned ready hplan hdry
    | false =>
      cases hstop : rewriter.interrupted with
      | true => exact .interrupted ready hplan hdry hstop
      | false =>
        simp only [Bool.false_eq_true, if_false]
        rcases Rewriter.exchangeIn_cases course disk manifest source planned.text with
          ⟨place, hread, hsmooth, hnamed, hleads, heq⟩ | ⟨hcause, message, heq⟩
        · rw [heq]
          exact .written ready hplan hdry hstop hread hsmooth hnamed hleads
        · rw [heq]
          exact .refused ready hplan hdry hstop hcause

/-- What can come of a turn. -/
theorem tried_turn : Turn rewriter course m resolved disk (tried rewriter course m resolved disk) := by
  unfold tried
  split
  · rename_i manifest source hmanifest hsource
    by_cases hedits : editsFor m resolved = []
    · have hidle : attempt rewriter course disk manifest source (edits (m.directives.zip resolved.plans)) = .idle := by
        rw [show edits (m.directives.zip resolved.plans) = [] from hedits]
        rfl
      rw [hidle]
      exact .idle fun _ _ ready => ready.edits hedits
    · exact attempt_turn rewriter course m resolved disk ⟨hmanifest, hsource, hedits⟩
  · rename_i hnone
    exact .idle fun manifest source ready => hnone manifest source ready.manifest ready.source

section Cases

variable {rewriter course m resolved disk} {attempt : Attempt} (h : Turn rewriter course m resolved disk attempt)

include h

/-- A turn that fails leaves the disk alone. -/
theorem Turn.disk_of_problem {p : Problem} (hproblem : attempt.problem? = some p) :
    attempt.disk disk = disk := by
  cases h with
  | stale => rfl
  | refused => rfl
  | _ => cases hproblem

/-- A turn only writes where that is allowed and no stage fails. -/
theorem Turn.of_written (hwritten : attempt.outcome? = some .written) :
    rewriter.dryRun = false ∧ rewriter.interrupted = false ∧
      ∃ manifest, m.manifest = some manifest ∧ course.Smooth disk manifest := by
  cases h with
  | written ready _ dry stop _ smooth => exact ⟨dry, stop, _, ready.manifest, smooth⟩
  | _ => cases hwritten

variable {manifest source : String} {planned : Planned} (ready : Ready m resolved manifest source)
  (plan : planEdits source (editsFor m resolved) rewriter.maxWidth = .ok planned)
  (dry : rewriter.dryRun = false) (stop : rewriter.interrupted = false)

include ready plan dry stop

/-- Where edits may be written, the manifest is written, or it does not hold the scanned text or a
    stage fails. -/
theorem Turn.written_or_refused :
    (disk.readText manifest = .ok source ∧ course.Smooth disk manifest ∧
      ∃ after, attempt = .done ⟨.written, planned, after⟩) ∨
    ((disk.readText manifest ≠ .ok source ∨ ¬ course.Smooth disk manifest) ∧
      ∃ message, attempt.problem? = some (.unwritable manifest message)) := by
  cases h with
  | idle hidle => exact absurd ready (hidle _ _)
  | stale ready' plan' =>
    obtain rfl := Option.some.inj (ready.source.symm.trans ready'.source)
    cases plan.symm.trans plan'
  | planned _ _ dry' => cases dry.symm.trans dry'
  | interrupted _ _ _ stop' => cases stop.symm.trans stop'
  | written ready' plan' _ _ read smooth =>
    obtain rfl := Option.some.inj (ready.manifest.symm.trans ready'.manifest)
    obtain rfl := Option.some.inj (ready.source.symm.trans ready'.source)
    obtain rfl := Except.ok.inj (plan.symm.trans plan')
    exact .inl ⟨read, smooth, _, rfl⟩
  | refused ready' _ _ _ cause =>
    obtain rfl := Option.some.inj (ready.manifest.symm.trans ready'.manifest)
    obtain rfl := Option.some.inj (ready.source.symm.trans ready'.source)
    exact .inr ⟨cause, _, rfl⟩

end Cases

/-- In a dry run and in a run that is interrupted a turn leaves the disk alone. -/
theorem tried_quiet_disk (hquiet : rewriter.dryRun = true ∨ rewriter.interrupted = true) :
    (tried rewriter course m resolved disk).disk disk = disk := by
  have hturn := tried_turn rewriter course m resolved disk
  generalize tried rewriter course m resolved disk = attempt at hturn ⊢
  cases hturn with
  | written _ _ dry stop => simp [dry, stop] at hquiet
  | _ => rfl

/-- The manifest of a module and what became of it in its turn. -/
def fileRecord? (attempt : Attempt) : Option FileRecord :=
  attempt.outcome?.map (⟨m.manifest.getD "", ·⟩)

/-- The counts after a turn. -/
def countTurn (stats : Stats) (attempt : Attempt) : Stats :=
  let found := { stats with directivesFound := stats.directivesFound + m.directives.length }
  attempt.outcome?.elim found (countFile found (editsFor m resolved).length)

/-- The report after a turn. -/
def reportTurn (report : Report) (attempt : Attempt) : Report :=
  { report with
    collisions := report.collisions ++ resolved.collisions
    problems := report.problems ++ (findings m resolved ++ attempt.problem?.toList)
    stats := countTurn m resolved report.stats attempt
    files := report.files ++ (fileRecord? m attempt).toList
    directives := report.directives ++ told m resolved attempt }

/-- What is remarked on a turn. -/
def logTurn (attempt : Attempt) : List String :=
  if attempt.outcome? = some .written then ["Rewrote " ++ m.manifest.getD ""] else []

theorem foldl_addCollision (cs : List Collision) : ∀ (report : Report),
    cs.foldl Report.addCollision report =
      { report with
        collisions := report.collisions ++ cs
        problems := report.problems ++ cs.map (·.problem) } := by
  induction cs with
  | nil => intro report; simp
  | cons c rest ih =>
    intro report
    rw [List.foldl_cons, ih]
    simp [Report.addCollision, Report.addProblem]

/-- A turn adds to an outcome what came of it, and nothing else. -/
theorem rewriteModule_eq (before : Outcome) :
    rewriteModule rewriter course m resolved before =
      let attempt := tried rewriter course m resolved before.disk
      ⟨reportTurn m resolved before.report attempt, attempt.disk before.disk,
        before.log ++ logTurn m attempt⟩ := by
  unfold rewriteModule reportTurn countTurn findings fileRecord? told tried logTurn
  rw [foldl_addCollision]
  cases m.manifest with
  | none => simp [Report.addProblems, Attempt.problem?, Attempt.outcome?, Attempt.disk]
  | some manifest =>
    cases m.source with
    | none => simp [Report.addProblems, Attempt.problem?, Attempt.outcome?, Attempt.disk]
    | some source =>
      obtain ⟨found, hfound⟩ : ∃ found, attempt rewriter course before.disk manifest source
          (edits (m.directives.zip resolved.plans)) = found := ⟨_, rfl⟩
      simp only [rewriteManifest, editsFor, Report.addProblems, hfound]
      cases found.outcome? with
      | none => simp [addFile]
      | some outcome => simp [addFile]

end Turn

/-! ## All turns -/

section Turns

variable (rewriter : Rewriter) (courses : ModuleId → Rewriter.Course) (tree : ModuleTree)
  (resolved : List Resolved)

/-- The turns of modules, one after the other: whose turn it was, and what came of it. -/
def turns : List ModuleId → Disk → List (ModuleId × Attempt)
  | [], _ => []
  | id :: rest, disk =>
    let attempt := tried rewriter (courses id) (tree.get id) (resolved.getD id default) disk
    (id, attempt) :: turns rest (attempt.disk disk)

/-- The disk after turns. -/
def diskAfter (disk : Disk) (turns : List (ModuleId × Attempt)) : Disk :=
  turns.foldl (fun disk turn => turn.2.disk disk) disk

/-- The report after turns. -/
def reportAfter (report : Report) (turns : List (ModuleId × Attempt)) : Report :=
  turns.foldl (fun report turn =>
    reportTurn (tree.get turn.1) (resolved.getD turn.1 default) report turn.2) report

theorem rewriteAll_turns : ∀ (ids : List ModuleId) (before : Outcome),
    (rewriteAll rewriter courses tree resolved ids before).disk =
        diskAfter before.disk (turns rewriter courses tree resolved ids before.disk) ∧
      (rewriteAll rewriter courses tree resolved ids before).report =
        reportAfter tree resolved before.report (turns rewriter courses tree resolved ids before.disk) := by
  intro ids
  induction ids with
  | nil => intro before; exact ⟨rfl, rfl⟩
  | cons id rest ih =>
    intro before
    rw [rewriteAll_cons, rewriteModule_eq]
    exact ih _

theorem map_fst_turns : ∀ (ids : List ModuleId) (disk : Disk),
    (turns rewriter courses tree resolved ids disk).map Prod.fst = ids := by
  intro ids
  induction ids with
  | nil => intro disk; rfl
  | cons id rest ih => intro disk; rw [turns, List.map_cons, ih]

variable (report : Report) (ts : List (ModuleId × Attempt))

theorem reportAfter_collisions : (reportAfter tree resolved report ts).collisions =
    report.collisions ++ ts.flatMap fun turn => (resolved.getD turn.1 default).collisions := by
  induction ts generalizing report with
  | nil => simp [reportAfter]
  | cons turn rest ih =>
    rw [reportAfter, List.foldl_cons, ← reportAfter, ih]
    simp [reportTurn]

theorem reportAfter_problems : (reportAfter tree resolved report ts).problems =
    report.problems ++ ts.flatMap fun turn =>
      findings (tree.get turn.1) (resolved.getD turn.1 default) ++ turn.2.problem?.toList := by
  induction ts generalizing report with
  | nil => simp [reportAfter]
  | cons turn rest ih =>
    rw [reportAfter, List.foldl_cons, ← reportAfter, ih]
    simp [reportTurn]

theorem reportAfter_directives : (reportAfter tree resolved report ts).directives =
    report.directives ++ ts.flatMap fun turn =>
      told (tree.get turn.1) (resolved.getD turn.1 default) turn.2 := by
  induction ts generalizing report with
  | nil => simp [reportAfter]
  | cons turn rest ih =>
    rw [reportAfter, List.foldl_cons, ← reportAfter, ih]
    simp [reportTurn]

theorem reportAfter_files : (reportAfter tree resolved report ts).files =
    report.files ++ ts.filterMap fun turn => fileRecord? (tree.get turn.1) turn.2 := by
  induction ts generalizing report with
  | nil => simp [reportAfter]
  | cons turn rest ih =>
    rw [reportAfter, List.foldl_cons, ← reportAfter, ih]
    cases hrecord : fileRecord? (tree.get turn.1) turn.2 <;> simp [reportTurn, hrecord]

theorem reportAfter_stats : (reportAfter tree resolved report ts).stats =
    ts.foldl (fun stats turn =>
      countTurn (tree.get turn.1) (resolved.getD turn.1 default) stats turn.2) report.stats := by
  induction ts generalizing report with
  | nil => rfl
  | cons turn rest ih =>
    rw [reportAfter, List.foldl_cons, ← reportAfter, ih]
    rfl

end Turns

/-! ## A whole run -/

/-- The turns of a run from what it found on a disk. -/
def turnsOf (job : Job) (courses : ModuleId → Rewriter.Course) (walked : Walked) (disk : Disk) :
    List (ModuleId × Attempt) :=
  turns job.rewriter courses walked.surveyed.tree (resolve walked.surveyed.tree) (scope walked) disk

variable {job : Job} {courses : ModuleId → Rewriter.Course} {disk : Disk} {walked : Walked}
  {outcome : Outcome}

/-- A module in scope has one plan for each directive. -/
theorem plans_of_scope (hwalk : job.walk disk = .ok walked) {id : ModuleId} (hid : id ∈ scope walked) :
    List.Forall₂ Resolution.PlanFor (walked.surveyed.tree.get id).directives
      (Resolution.resolvedAt walked.surveyed.tree id).plans := by
  have hwf := (walk_keeps hwalk).1.wellFormed
  have hlt := hwf.postOrder_lt (List.mem_filter.1 hid).1
  rw [Resolution.resolvedAt_eq_record hwf hlt]
  exact (Resolution.effectsOf_effectsAt hwf hlt).plans

/-- A run leaves behind the disk after its turns, and reports on them after the survey. -/
theorem run_turns (hwalk : job.walk disk = .ok walked) (hrun : job.runIn courses disk = .ok outcome) :
    outcome.disk = diskAfter disk (job.turnsOf courses walked disk) ∧
      ∃ report, report = reportAfter walked.surveyed.tree (resolve walked.surveyed.tree)
          (job.surveyOutcome walked disk).report (job.turnsOf courses walked disk) ∧
        outcome.report.problems = report.problems ∧ outcome.report.collisions = report.collisions ∧
        outcome.report.directives = report.directives ∧ outcome.report.files = report.files ∧
        outcome.report.stats = report.stats := by
  obtain ⟨walked', hwalk', rfl⟩ := runIn_eq_ok_iff.1 hrun
  rw [hwalk] at hwalk'
  cases hwalk'
  obtain ⟨hdisk, hreport⟩ := rewriteAll_turns job.rewriter courses walked.surveyed.tree
    (resolve walked.surveyed.tree) (scope walked) (job.surveyOutcome walked disk)
  refine ⟨hdisk, _, hreport, ?_⟩
  exact ⟨rfl, rfl, rfl, rfl, rfl⟩

end Reexport.Job
