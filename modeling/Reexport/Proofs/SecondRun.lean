import Reexport.Job
import Reexport.Proofs.Exchanges
import Reexport.Proofs.Rerun
import Reexport.Proofs.Surveyed

/-!
# Running a job again

A job changes something exactly if carrying out the plans of some module in scope
would change the text of its manifest: the first such manifest still holds the text
that was scanned, so it is written. After a job the root is still a directory, so the
job can be run again, and what it finds then decides whether it changes anything.

Results:

* `run_idle_iff`: when a job changes nothing.
* `run_again`: a job can be run again.
* `second_run_idle_iff`: when the second run of a job changes nothing, and what stands
  behind it if it does.
-/

namespace Reexport.Job

/-! ## One manifest -/

theorem planEdits_nil (text : String) (width : Nat) :
    planEdits text [] width = .ok ⟨text, []⟩ := by
  simp [planEdits, Edit.backwards, Edit.applyAll, bind, Except.bind, pure, Except.pure]

section Attempt

open Rewriter (Course)

variable (rewriter : Rewriter) (course : Course) (disk : Disk) (manifest source : String)
  (edits : List Edit)

/-- Edits that leave the text as it is, or are stale, change nothing. -/
theorem attempt_quiet (h : ∀ planned, planEdits source edits rewriter.maxWidth = .ok planned →
      planned.text = source) :
    (attempt rewriter course disk manifest source edits).disk disk = disk ∧
      ∀ outcome, (attempt rewriter course disk manifest source edits).outcome? = some outcome →
        outcome = .unchanged := by
  unfold attempt
  by_cases hempty : edits.isEmpty = true
  · rw [if_pos hempty]
    exact ⟨rfl, fun outcome ho => by cases ho⟩
  · rw [if_neg hempty, Rewriter.applyIn]
    cases hplan : planEdits source edits rewriter.maxWidth with
    | error offset => exact ⟨rfl, fun outcome ho => by cases ho⟩
    | ok planned =>
      simp only [h planned hplan, if_true]
      exact ⟨rfl, fun outcome ho => by cases ho; rfl⟩

variable {rewriter source edits} {planned : Planned}

/-- Edits that change the text are written if the file still holds it and no stage fails. -/
theorem attempt_due (hplan : planEdits source edits rewriter.maxWidth = .ok planned)
    (hne : planned.text ≠ source) (hdry : rewriter.dryRun = false)
    (hinterrupted : rewriter.interrupted = false) (hread : disk.readText manifest = .ok source) :
    ∃ place, disk.locate false manifest = .ok place ∧
      attempt rewriter .smooth disk manifest source edits =
        .done ⟨.written, planned, disk.put place (.file (.text planned.text))⟩ := by
  have hedits : edits.isEmpty = false := by
    rw [List.isEmpty_eq_false_iff]
    rintro rfl
    rw [planEdits_nil] at hplan
    cases hplan
    exact hne rfl
  obtain ⟨place, hnamed, -, -⟩ := Disk.named_of_readText hread
  have hexchanged := Rewriter.exchangeIn_of_smooth (Rewriter.smooth_smooth disk manifest) source
    planned.text
  rw [hread, hnamed] at hexchanged
  refine ⟨place, hnamed, ?_⟩
  simp only [attempt, hedits, Bool.false_eq_true, if_false, Rewriter.applyIn, hplan, hne, hdry,
    hinterrupted, hexchanged, if_true]
  rfl

variable (rewriter source edits)

/-- The disk is left alone, or a file is put in the place of a file. -/
theorem attempt_disk :
    (attempt rewriter course disk manifest source edits).disk disk = disk ∨
      ∃ place content, disk.LeadsToFile place ∧
        (attempt rewriter course disk manifest source edits).disk disk =
          disk.put place (.file content) := by
  unfold attempt
  by_cases hempty : edits.isEmpty = true
  · rw [if_pos hempty]
    exact .inl rfl
  · rw [if_neg hempty, Rewriter.applyIn]
    cases hplan : planEdits source edits rewriter.maxWidth with
    | error offset => exact .inl rfl
    | ok planned =>
      simp only
      split_ifs
      · exact .inl rfl
      · exact .inl rfl
      · exact .inl rfl
      · rcases Rewriter.exchangeIn_cases course disk manifest source planned.text with
          ⟨place, -, -, -, hleads, heq⟩ | ⟨-, message, heq⟩
        · rw [heq]
          exact .inr ⟨place, _, hleads, rfl⟩
        · rw [heq]
          exact .inl rfl

end Attempt

/-! ## One module -/

/-- Carrying out the plans of a module would change the text of its manifest. -/
def Due (width : Nat) (m : Module) (resolved : Resolved) : Prop :=
  ∃ source planned, m.manifest.isSome = true ∧ m.source = some source ∧
    planEdits source (edits (m.directives.zip resolved.plans)) width = .ok planned ∧
    planned.text ≠ source

/-- How many files were changed, and how many of these were written. -/
def fileCounts (outcome : Outcome) : Nat × Nat :=
  (outcome.report.stats.filesChanged, outcome.report.stats.filesWritten)

theorem collisions_stats (cs : List Collision) : ∀ (report : Report),
    (cs.foldl Report.addCollision report).stats = report.stats := by
  induction cs with
  | nil => intro report; rfl
  | cons c rest ih => intro report; rw [List.foldl_cons, ih]; rfl

variable (rewriter : Rewriter) (course : Rewriter.Course) (m : Module) (resolved : Resolved)
  (before : Outcome)

/-- What becomes of the disk and of the counts is what comes of the attempt on the
    manifest. -/
theorem rewriteModule_cases :
    ((rewriteModule rewriter course m resolved before).disk = before.disk ∧
      fileCounts (rewriteModule rewriter course m resolved before) = fileCounts before ∧
      (m.manifest = none ∨ m.source = none)) ∨
    ∃ manifest source found, m.manifest = some manifest ∧ m.source = some source ∧
      found = attempt rewriter course before.disk manifest source (edits (m.directives.zip resolved.plans)) ∧
      (rewriteModule rewriter course m resolved before).disk = found.disk before.disk ∧
      ((found.outcome? = none ∨ found.outcome? = some .unchanged) ∧
          fileCounts (rewriteModule rewriter course m resolved before) = fileCounts before ∨
        (∃ outcome, found.outcome? = some outcome ∧ outcome ≠ .unchanged) ∧
          (fileCounts before).1 < (fileCounts (rewriteModule rewriter course m resolved before)).1) := by
  unfold rewriteModule fileCounts
  cases hmanifest : m.manifest with
  | none => exact .inl ⟨rfl, by simp [Report.addProblems, collisions_stats], .inl rfl⟩
  | some manifest =>
    cases hsource : m.source with
    | none => exact .inl ⟨rfl, by simp [Report.addProblems, collisions_stats], .inr rfl⟩
    | some source =>
      refine .inr ⟨manifest, source, _, rfl, rfl, rfl, rfl, ?_⟩
      simp only [rewriteManifest]
      generalize attempt rewriter course before.disk manifest source _ = found
      cases hout : found.outcome? with
      | none => simp [addFile, Report.addProblems, collisions_stats]
      | some outcome =>
        cases outcome <;> simp [addFile, countFile, Report.addProblems, collisions_stats]

theorem rewriteModule_quiet (h : ¬ Due rewriter.maxWidth m resolved) :
    (rewriteModule rewriter course m resolved before).disk = before.disk ∧
      fileCounts (rewriteModule rewriter course m resolved before) = fileCounts before := by
  rcases rewriteModule_cases rewriter course m resolved before with
    ⟨hdisk, hcounts, -⟩ | ⟨manifest, source, found, hmanifest, hsource, rfl, hdisk, hcounts⟩
  · exact ⟨hdisk, hcounts⟩
  · obtain ⟨hsame, hout⟩ := attempt_quiet rewriter course before.disk manifest source
      (edits (m.directives.zip resolved.plans)) fun planned hplan => by
        by_contra hne
        exact h ⟨source, planned, by rw [hmanifest]; rfl, hsource, hplan, hne⟩
    refine ⟨by rw [hdisk, hsame], ?_⟩
    rcases hcounts with ⟨-, hcounts⟩ | ⟨⟨outcome, ho, hne⟩, -⟩
    · exact hcounts
    · exact absurd (hout outcome ho) hne

theorem rewriteModule_due (hdry : rewriter.dryRun = false) (hinterrupted : rewriter.interrupted = false)
    (hread : ∀ source, m.source = some source →
      ∃ path, m.manifest = some path ∧ before.disk.readText path = .ok source)
    (h : Due rewriter.maxWidth m resolved) :
    (fileCounts before).1 < (fileCounts (rewriteModule rewriter .smooth m resolved before)).1 := by
  obtain ⟨source, planned, hsome, hsource, hplan, hne⟩ := h
  obtain ⟨path, hpath, htext⟩ := hread source hsource
  rcases rewriteModule_cases rewriter .smooth m resolved before with
    ⟨-, -, hnone | hnone⟩ | ⟨manifest, source', found, hmanifest, hsource', rfl, -, hcounts⟩
  · rw [hpath] at hnone
    cases hnone
  · rw [hsource] at hnone
    cases hnone
  · rw [hpath] at hmanifest
    cases hmanifest
    rw [hsource] at hsource'
    cases hsource'
    obtain ⟨place, -, hdone⟩ := attempt_due before.disk path hplan hne hdry hinterrupted htext
    rcases hcounts with ⟨hquiet, -⟩ | ⟨-, hlt⟩
    · rw [hdone] at hquiet
      simp [Attempt.outcome?] at hquiet
    · exact hlt

theorem rewriteModule_mono :
    (fileCounts before).1 ≤ (fileCounts (rewriteModule rewriter course m resolved before)).1 := by
  rcases rewriteModule_cases rewriter course m resolved before with
    ⟨-, hcounts, -⟩ | ⟨-, -, -, -, -, -, -, ⟨-, hcounts⟩ | ⟨-, hlt⟩⟩
  · exact Nat.le_of_eq (congrArg Prod.fst hcounts).symm
  · exact Nat.le_of_eq (congrArg Prod.fst hcounts).symm
  · exact Nat.le_of_lt hlt

theorem rewriteModule_dir {path : String} {place : Disk.Place}
    (h : before.disk.find path = .ok (place, .dir)) :
    (rewriteModule rewriter course m resolved before).disk.find path = .ok (place, .dir) := by
  rcases rewriteModule_cases rewriter course m resolved before with
    ⟨hdisk, -, -⟩ | ⟨manifest, source, found, -, -, rfl, hdisk, -⟩
  · rw [hdisk, h]
  · rw [hdisk]
    rcases attempt_disk rewriter course before.disk manifest source (edits (m.directives.zip resolved.plans)) with
      hsame | ⟨replaced, content, hleads, hput⟩
    · rw [hsame, h]
    · rw [hput]
      exact Disk.find_dir_put hleads content h

theorem collisions_problems (cs : List Collision) : ∀ (report : Report),
    (cs.foldl Report.addCollision report).problems = report.problems ++ cs.map (·.problem) := by
  induction cs with
  | nil => intro report; simp
  | cons c rest ih =>
    intro report
    rw [List.foldl_cons, ih]
    simp [Report.addCollision, Report.addProblem]

/-- The problems that the names and directives of a module give rise to. -/
def findings (m : Module) (resolved : Resolved) : List Problem :=
  resolved.collisions.map (·.problem) ++ resolved.shadowed.map (·.problem) ++
    match m.manifest, m.source with
    | some _, some _ => (m.directives.zip resolved.plans).filterMap fun (d, status) => status.problem? d
    | _, _ => []

/-- Without edits a manifest is left alone, and there are no other problems. -/
theorem rewriteModule_idle (h : edits (m.directives.zip resolved.plans) = []) :
    (rewriteModule rewriter course m resolved before).disk = before.disk ∧
      (rewriteModule rewriter course m resolved before).report.problems =
        before.report.problems ++ findings m resolved := by
  unfold rewriteModule findings
  cases hmanifest : m.manifest with
  | none => simp [Report.addProblems, collisions_problems]
  | some manifest =>
    cases hsource : m.source with
    | none => simp [Report.addProblems, collisions_problems]
    | some source =>
      simp [rewriteManifest, h, attempt, Attempt.disk, Attempt.problem?, Attempt.outcome?, addFile,
        Report.addProblems, collisions_problems]

variable {rewriter course m resolved}

theorem rewriteModule_done {manifest source : String} {applied : Applied}
    (hmanifest : m.manifest = some manifest) (hsource : m.source = some source)
    (h : attempt rewriter course before.disk manifest source (edits (m.directives.zip resolved.plans)) =
      .done applied) :
    (rewriteModule rewriter course m resolved before).disk = applied.disk ∧
      (rewriteModule rewriter course m resolved before).report.problems =
        before.report.problems ++ findings m resolved := by
  simp [rewriteModule, findings, hmanifest, hsource, rewriteManifest, h, Attempt.disk,
    Attempt.problem?, Attempt.outcome?, addFile, Report.addProblems, collisions_problems]

/-! ## All modules in scope -/

section Scope

variable (rewriter : Rewriter) (courses : ModuleId → Rewriter.Course) (tree : ModuleTree)
  (resolved : List Resolved)

/-- Modules rewritten one after the other. -/
def rewriteAll (ids : List ModuleId) (before : Outcome) : Outcome :=
  ids.foldl (fun outcome id =>
    rewriteModule rewriter (courses id) (tree.get id) (resolved.getD id default) outcome) before

theorem rewriteAll_cons (id : ModuleId) (rest : List ModuleId) (before : Outcome) :
    rewriteAll rewriter courses tree resolved (id :: rest) before =
      rewriteAll rewriter courses tree resolved rest
        (rewriteModule rewriter (courses id) (tree.get id) (resolved.getD id default) before) := rfl

theorem rewriteAll_quiet : ∀ (ids : List ModuleId) (before : Outcome),
    (∀ id ∈ ids, ¬ Due rewriter.maxWidth (tree.get id) (resolved.getD id default)) →
    (rewriteAll rewriter courses tree resolved ids before).disk = before.disk ∧
      fileCounts (rewriteAll rewriter courses tree resolved ids before) = fileCounts before := by
  intro ids
  induction ids with
  | nil => intro before _; exact ⟨rfl, rfl⟩
  | cons id rest ih =>
    intro before hnot
    obtain ⟨hdisk, hcounts⟩ := rewriteModule_quiet rewriter (courses id) (tree.get id) (resolved.getD id default)
      before (hnot id List.mem_cons_self)
    obtain ⟨hdisk', hcounts'⟩ := ih (rewriteModule rewriter (courses id) (tree.get id) (resolved.getD id default)
      before) fun other hother => hnot other (List.mem_cons_of_mem _ hother)
    exact ⟨hdisk'.trans hdisk, hcounts'.trans hcounts⟩

theorem rewriteAll_mono : ∀ (ids : List ModuleId) (before : Outcome),
    (fileCounts before).1 ≤ (fileCounts (rewriteAll rewriter courses tree resolved ids before)).1 := by
  intro ids
  induction ids with
  | nil => intro before; exact Nat.le_refl _
  | cons id rest ih =>
    intro before
    exact Nat.le_trans (rewriteModule_mono rewriter _ _ _ before) (ih _)

theorem rewriteAll_dir {path : String} {place : Disk.Place} : ∀ (ids : List ModuleId) (before : Outcome),
    before.disk.find path = .ok (place, .dir) →
    (rewriteAll rewriter courses tree resolved ids before).disk.find path = .ok (place, .dir) := by
  intro ids
  induction ids with
  | nil => intro before h; exact h
  | cons id rest ih => intro before h; exact ih _ (rewriteModule_dir rewriter _ _ _ before h)

theorem rewriteAll_idle : ∀ (ids : List ModuleId) (before : Outcome),
    (∀ id ∈ ids, edits ((tree.get id).directives.zip (resolved.getD id default).plans) = []) →
    (rewriteAll rewriter courses tree resolved ids before).disk = before.disk ∧
      (rewriteAll rewriter courses tree resolved ids before).report.problems = before.report.problems ++
        ids.flatMap fun id => findings (tree.get id) (resolved.getD id default) := by
  intro ids
  induction ids with
  | nil => intro before _; simp [rewriteAll]
  | cons id rest ih =>
    intro before hnone
    obtain ⟨hdisk, hproblems⟩ := rewriteModule_idle rewriter (courses id) (tree.get id) (resolved.getD id default)
      before (hnone id List.mem_cons_self)
    obtain ⟨hdisk', hproblems'⟩ := ih (rewriteModule rewriter (courses id) (tree.get id) (resolved.getD id default)
      before) fun other hother => hnone other (List.mem_cons_of_mem _ hother)
    rw [rewriteAll_cons]
    refine ⟨hdisk'.trans hdisk, ?_⟩
    rw [hproblems', hproblems, List.flatMap_cons, List.append_assoc]

/-- The first module that is due finds the disk as it was scanned. -/
theorem rewriteAll_due (hdry : rewriter.dryRun = false) (hinterrupted : rewriter.interrupted = false) :
    ∀ (ids : List ModuleId) (before : Outcome), Survey.Faithful before.disk tree →
    (∃ id ∈ ids, Due rewriter.maxWidth (tree.get id) (resolved.getD id default)) →
    (fileCounts before).1 < (fileCounts (rewriteAll rewriter (fun _ => .smooth) tree resolved ids before)).1 := by
  intro ids
  induction ids with
  | nil => rintro before _ ⟨id, hid, -⟩; cases hid
  | cons id rest ih =>
    rintro before hfaithful ⟨other, hmem, hother⟩
    by_cases hdue : Due rewriter.maxWidth (tree.get id) (resolved.getD id default)
    · have hlt := rewriteModule_due rewriter (tree.get id) _ before hdry hinterrupted (hfaithful id) hdue
      exact Nat.lt_of_lt_of_le hlt (rewriteAll_mono rewriter _ tree resolved rest _)
    · obtain ⟨hdisk, hcounts⟩ := rewriteModule_quiet rewriter .smooth (tree.get id) _ before hdue
      have hrest : other ∈ rest := by
        rcases List.mem_cons.1 hmem with rfl | hrest
        · exact absurd hother hdue
        · exact hrest
      have hlt := ih _ (by rw [hdisk]; exact hfaithful) ⟨other, hrest, hother⟩
      rw [hcounts] at hlt
      exact hlt

end Scope

/-! ## A whole run -/

/-- A run that changes nothing and writes nothing. -/
structure Idle (before : Disk) (outcome : Outcome) : Prop where
  disk : outcome.disk = before
  changed : outcome.report.stats.filesChanged = 0
  written : outcome.report.stats.filesWritten = 0

variable {job : Job} {courses : ModuleId → Rewriter.Course}

theorem runIn_eq_ok_iff {disk : Disk} {outcome : Outcome} :
    job.runIn courses disk = .ok outcome ↔ ∃ walked, job.walk disk = .ok walked ∧
      outcome = timed .unmeasured
        (job.rewriteIn courses walked (resolve walked.surveyed.tree) disk) := by
  unfold runIn
  cases job.walk disk with
  | error p => simp [bind, Except.bind]
  | ok walked =>
    simp only [bind, Except.bind, pure, Except.pure, Except.ok.injEq]
    constructor
    · intro h
      exact ⟨walked, rfl, h.symm⟩
    · rintro ⟨walked', rfl, rfl⟩
      rfl

theorem walk_eq_ok_iff {disk : Disk} {walked : Walked} :
    job.walk disk = .ok walked ↔ ∃ survey, job.survey = .ok survey ∧
      Glob.parseAll job.settings.included = .ok walked.included ∧
      survey.run disk = .ok walked.surveyed := by
  unfold walk
  cases Glob.parseAll job.settings.included with
  | error p => simp [bind, Except.bind]
  | ok included =>
    cases job.survey with
    | error p => simp [bind, Except.bind]
    | ok survey =>
      cases hrun : survey.run disk with
      | error p => simp [bind, Except.bind, hrun]
      | ok surveyed =>
        simp only [bind, Except.bind, pure, Except.pure, Except.ok.injEq, hrun]
        constructor
        · rintro rfl
          exact ⟨survey, rfl, rfl, hrun⟩
        · rintro ⟨other, rfl, rfl, hsurveyed⟩
          rw [hrun] at hsurveyed
          cases hsurveyed
          rfl

theorem walk_of_survey {disk : Disk} {survey : Survey} {included : List Glob} {surveyed : Surveyed}
    (hsurvey : job.survey = .ok survey)
    (hincluded : Glob.parseAll job.settings.included = .ok included)
    (hrun : survey.run disk = .ok surveyed) : job.walk disk = .ok ⟨included, surveyed⟩ :=
  walk_eq_ok_iff.2 ⟨survey, hsurvey, hincluded, hrun⟩

theorem walk_keeps {disk : Disk} {walked : Walked} (h : job.walk disk = .ok walked) :
    walked.surveyed.tree.Built ∧ Survey.Faithful disk walked.surveyed.tree := by
  obtain ⟨survey, -, -, hrun⟩ := walk_eq_ok_iff.1 h
  exact Survey.run_keeps hrun

/-- A run ends with what the modules in scope leave behind. -/
theorem run_rewriteAll {disk : Disk} {walked : Walked} {outcome : Outcome}
    (hwalk : job.walk disk = .ok walked) (hrun : job.runIn courses disk = .ok outcome) :
    let after := rewriteAll job.rewriter courses walked.surveyed.tree (resolve walked.surveyed.tree)
      (scope walked) (job.surveyOutcome walked disk)
    outcome.disk = after.disk ∧ fileCounts outcome = fileCounts after ∧
      outcome.report.problems = after.report.problems := by
  obtain ⟨walked', hwalk', rfl⟩ := runIn_eq_ok_iff.1 hrun
  rw [hwalk] at hwalk'
  cases hwalk'
  exact ⟨rfl, rfl, rfl⟩

/-- **When a run changes nothing.** No module in scope has plans that would change the
    text of its manifest. -/
theorem run_idle_iff (hdry : job.settings.dryRun = false) (hinterrupted : job.interrupted = false)
    {disk : Disk} {walked : Walked} {outcome : Outcome} (hwalk : job.walk disk = .ok walked)
    (hrun : job.run disk = .ok outcome) :
    Idle disk outcome ↔ ∀ id ∈ scope walked, ¬ Due job.settings.maxWidth
      (walked.surveyed.tree.get id) (Resolution.resolvedAt walked.surveyed.tree id) := by
  obtain ⟨hdisk, hcounts, -⟩ := run_rewriteAll hwalk hrun
  constructor
  · intro hidle id hid hdue
    have hlt := rewriteAll_due job.rewriter walked.surveyed.tree (resolve walked.surveyed.tree) hdry
      hinterrupted (scope walked) (job.surveyOutcome walked disk) (walk_keeps hwalk).2 ⟨id, hid, hdue⟩
    rw [← hcounts, show (fileCounts outcome).1 = 0 from hidle.changed] at hlt
    exact Nat.not_lt_zero _ hlt
  · intro hnot
    obtain ⟨hsame, hzero⟩ := rewriteAll_quiet job.rewriter _ walked.surveyed.tree
      (resolve walked.surveyed.tree) (scope walked) (job.surveyOutcome walked disk) hnot
    rw [hsame] at hdisk
    rw [hzero] at hcounts
    exact ⟨hdisk, congrArg Prod.fst hcounts, congrArg Prod.snd hcounts⟩

/-- A job can be run again: its root is still a directory. -/
theorem run_again {disk : Disk} {first : Outcome} (hfirst : job.run disk = .ok first) :
    ∃ walked again second, job.walk disk = .ok walked ∧ job.walk first.disk = .ok again ∧
      job.run first.disk = .ok second := by
  obtain ⟨walked, hwalk, -⟩ := runIn_eq_ok_iff.1 hfirst
  obtain ⟨survey, hsurvey, hincluded, hrun⟩ := walk_eq_ok_iff.1 hwalk
  obtain ⟨place, hroot⟩ : ∃ place, disk.find survey.root = .ok (place, .dir) := by
    unfold Survey.run at hrun
    split at hrun
    · exact ⟨_, by assumption⟩
    · cases hrun
  have hroot' : first.disk.find survey.root = .ok (place, .dir) := by
    rw [(run_rewriteAll hwalk hfirst).1]
    exact rewriteAll_dir _ _ _ _ _ _ hroot
  obtain ⟨surveyed, hrun'⟩ : ∃ surveyed, survey.run first.disk = .ok surveyed := by
    unfold Survey.run
    rw [hroot']
    exact ⟨_, rfl⟩
  have hwalk' : job.walk first.disk = .ok ⟨walked.included, surveyed⟩ :=
    walk_eq_ok_iff.2 ⟨survey, hsurvey, hincluded, hrun'⟩
  exact ⟨walked, _, _, hwalk, hwalk', runIn_eq_ok_iff.2 ⟨_, hwalk', rfl⟩⟩

/-! ## Running twice -/

/-- The second survey reads back what the first run was to write. It need not, where a
    link to a directory makes one file the manifest of two modules. -/
structure ReadsBack (walked again : Walked) : Prop where
  carriedOut : Resolution.CarriedOut (fun id => inScope walked (walked.surveyed.tree.get id))
    walked.surveyed.tree again.surveyed.tree
  scope : ∀ id, inScope again (again.surveyed.tree.get id) =
    inScope walked (walked.surveyed.tree.get id)

/-- A manifest is only changed where a wildcard is replaced. -/
theorem Due.replaced {width : Nat} {tree : ModuleTree} {id : ModuleId}
    (h : Due width (tree.get id) (Resolution.resolvedAt tree id)) :
    ∃ index, Resolution.Replaced tree id index := by
  obtain ⟨source, planned, -, -, hplan, hne⟩ := h
  have hedits : edits ((tree.get id).directives.zip (Resolution.resolvedAt tree id).plans) ≠ [] := by
    intro hnil
    rw [hnil, planEdits_nil] at hplan
    cases hplan
    exact hne rfl
  obtain ⟨e, he⟩ := List.exists_mem_of_ne_nil _ hedits
  obtain ⟨⟨d, status⟩, hmem, hedit⟩ := List.mem_filterMap.1 he
  obtain ⟨index, hindex⟩ := List.mem_iff_getElem?.1 (List.of_mem_zip hmem).2
  cases status with
  | replaced names withheld => exact ⟨index, names, withheld, hindex⟩
  | _ => simp [edit?] at hedit

/-- **When the second run of a job changes nothing.** The job can be run again. The
    second run changes nothing exactly if no module in scope has plans then that would
    change the text of its manifest. If it reads back what was to be written and still
    changes something, then the first run took a wildcard to make a circle that
    wildcards alone do not make, and the second run replaces that wildcard. -/
theorem second_run_idle_iff (hdry : job.settings.dryRun = false)
    (hinterrupted : job.interrupted = false) {disk : Disk} {first : Outcome}
    (hfirst : job.run disk = .ok first) :
    ∃ walked again second, job.walk disk = .ok walked ∧ job.walk first.disk = .ok again ∧
      job.run first.disk = .ok second ∧
      (Idle first.disk second ↔ ∀ id ∈ scope again, ¬ Due job.settings.maxWidth
        (again.surveyed.tree.get id) (Resolution.resolvedAt again.surveyed.tree id)) ∧
      (ReadsBack walked again → ¬ Idle first.disk second →
        ∃ id index d target, (walked.surveyed.tree.get id).directives[index]? = some d ∧
          Resolution.target? walked.surveyed.tree id d = some target ∧
          (Resolution.resolvedAt walked.surveyed.tree id).plans[index]? = some .cycle ∧
          ¬ Relation.ReflTransGen (Resolution.Edge walked.surveyed.tree) target id ∧
          Resolution.Replaced again.surveyed.tree id index) := by
  obtain ⟨walked, again, second, hwalk, hwalk', hsecond⟩ := run_again hfirst
  have hidle := run_idle_iff hdry hinterrupted hwalk' hsecond
  refine ⟨walked, again, second, hwalk, hwalk', hsecond, hidle, fun hback hbusy => ?_⟩
  rw [hidle] at hbusy
  push Not at hbusy
  obtain ⟨id, hscope, hdue⟩ := hbusy
  obtain ⟨hpost, hin⟩ := List.mem_filter.1 hscope
  obtain ⟨index, hrep⟩ := hdue.replaced
  have hwf := (walk_keeps hwalk).1.wellFormed
  have hwf' := (walk_keeps hwalk').1.wellFormed
  have hid' := hwf'.postOrder_lt hpost
  have hid : id < walked.surveyed.tree.size := hback.carriedOut.shape.size ▸ hid'
  obtain ⟨d, target, hd, ht, -⟩ := hrep.directive hwf' hid'
  have hwild : d.isWildcard = true := by
    by_contra hno
    rw [Resolution.target?_eq_none _ (by simpa using hno)] at ht
    cases ht
  obtain ⟨-, -, -, hleft⟩ := hback.carriedOut.wildcard hd hwild
  obtain ⟨other, j, d, target, -, hd, ht, hplan, hnot, hagain⟩ :=
    hback.carriedOut.from_cycle hwf hid (hleft (by rw [← hback.scope]; exact hin)) hrep
  exact ⟨other, j, d, target, hd, ht, hplan, hnot, hagain⟩

/-! ## A tangle -/

/-- Modules `a` and `b` pass on `c`, and `c` lists a name of `b`. While `a` is resolved,
    `b` is met with `c` under way, by the name that `c` lists. -/
def tangle : Disk :=
  ⟨[], [
    (["src"], .dir),
    (["src", "lib.rs"], .file (.text "")),
    (["src", "a.rs"], .file (.text "pub use super::c::*;\n")),
    (["src", "b.rs"], .file (.text "pub use super::c::*;\n")),
    (["src", "c.rs"], .file (.text "pub use super::b::x;\n"))]⟩

/-- The tangle after a run. Now `c` is resolved first, and `b` waits for it. -/
def tangleOnce : Disk :=
  tangle.put ["src", "a.rs"] (.file (.text "pub use super::c::{x};\n"))

/-- The job that is told nothing. -/
def usual : Job := .ofSettings .defaults

/-- What the job finds on a disk with these four files. -/
def tangleWalk (disk : Disk) : Walked where
  included := []
  surveyed := Survey.scanAll disk
    ((((ModuleTree.new "src" (some "src/lib.rs")).addChild 0 "a" none (some "src/a.rs")).addChild 0
      "b" none (some "src/b.rs")).addChild 0 "c" none (some "src/c.rs")) []

/-- The tree of modules of a disk with these four files. -/
abbrev tangleTree (disk : Disk) : ModuleTree := (tangleWalk disk).surveyed.tree

theorem survey_of_names {disk : Disk} (hroot : disk.find "src" = .ok (["src"], .dir))
    (hlist : Survey.list ⟨"src", Survey.namedDirs, [], none⟩ disk "src" ["src"] =
      ⟨[.file "a" "src/a.rs", .file "b" "src/b.rs", .file "c" "src/c.rs", .file "lib" "src/lib.rs"], []⟩) :
    Survey.run ⟨"src", Survey.namedDirs, [], none⟩ disk = .ok (tangleWalk disk).surveyed := by
  unfold Survey.run
  rw [hroot]
  simp only [Survey.discoverAll, hlist, tangleWalk]
  rfl

theorem walk_of_names {disk : Disk} (hroot : disk.find "src" = .ok (["src"], .dir))
    (hlist : Survey.list ⟨"src", Survey.namedDirs, [], none⟩ disk "src" ["src"] =
      ⟨[.file "a" "src/a.rs", .file "b" "src/b.rs", .file "c" "src/c.rs", .file "lib" "src/lib.rs"], []⟩) :
    usual.walk disk = .ok (tangleWalk disk) :=
  walk_of_survey rfl rfl (survey_of_names hroot hlist)

theorem names_eq_mergeSort {disk : Disk} {place : Disk.Place} (found : List String)
    (h : disk.entries.filterMap (fun entry => Disk.nameIn? place entry.1) = found) :
    disk.names place = found.mergeSort fun a b => a ≤ b := by
  rw [← h]
  rfl

theorem walk_tangle : usual.walk tangle = .ok (tangleWalk tangle) := by
  have hnames : tangle.names ["src"] = ["a.rs", "b.rs", "c.rs", "lib.rs"] := by
    rw [names_eq_mergeSort ["lib.rs", "a.rs", "b.rs", "c.rs"] (by decide)]
    simp [List.mergeSort]
  apply walk_of_names rfl
  rw [Survey.list, hnames]
  rfl

theorem walk_tangleOnce : usual.walk tangleOnce = .ok (tangleWalk tangleOnce) := by
  have hnames : tangleOnce.names ["src"] = ["a.rs", "b.rs", "c.rs", "lib.rs"] := by
    rw [names_eq_mergeSort ["a.rs", "lib.rs", "b.rs", "c.rs"] (by decide)]
    simp [List.mergeSort]
  apply walk_of_names rfl
  rw [Survey.list, hnames]
  rfl

theorem planEdits_tangle : planEdits "pub use super::c::*;\n" [⟨⟨18, 19⟩, ["x"]⟩] 100 =
    .ok ⟨"pub use super::c::{x};\n", ["{x}"]⟩ := by
  simp only [planEdits, Edit.backwards, List.mergeSort_singleton]
  rfl

theorem attempt_tangle :
    attempt usual.rewriter .smooth tangle "src/a.rs" "pub use super::c::*;\n" [⟨⟨18, 19⟩, ["x"]⟩] =
      .done ⟨.written, ⟨"pub use super::c::{x};\n", ["{x}"]⟩, tangleOnce⟩ := by
  have hread : tangle.readText "src/a.rs" = .ok "pub use super::c::*;\n" := rfl
  have hne : ("pub use super::c::{x};\n" : String) ≠ "pub use super::c::*;\n" := by decide
  have hplan : planEdits "pub use super::c::*;\n" [⟨⟨18, 19⟩, ["x"]⟩] usual.rewriter.maxWidth = _ :=
    planEdits_tangle
  obtain ⟨place, hnamed, hdone⟩ := attempt_due tangle "src/a.rs" hplan hne rfl rfl hread
  have hplace : tangle.locate false "src/a.rs" = .ok ["src", "a.rs"] := rfl
  obtain rfl := Except.ok.inj (hnamed.symm.trans hplace)
  exact hdone

section Tangle

open Resolution

theorem edits_tangle :
    ((tangleTree tangle).get 1).manifest = some "src/a.rs" ∧
      ((tangleTree tangle).get 1).source = some "pub use super::c::*;\n" ∧
      edits (((tangleTree tangle).get 1).directives.zip
        ((resolve (tangleTree tangle)).getD 1 default).plans) = [⟨⟨18, 19⟩, ["x"]⟩] := by
  decide +kernel

theorem edits_tangleOnce :
    ((tangleTree tangleOnce).get 2).manifest = some "src/b.rs" ∧
      ((tangleTree tangleOnce).get 2).source = some "pub use super::c::*;\n" ∧
      edits (((tangleTree tangleOnce).get 2).directives.zip
        (resolvedAt (tangleTree tangleOnce) 2).plans) = [⟨⟨18, 19⟩, ["x"]⟩] := by
  decide +kernel

theorem scope_tangle : scope (tangleWalk tangle) = [1, 2, 3, 0] := by decide +kernel

theorem quiet_tangle : ∀ id ∈ [2, 3, 0],
    edits (((tangleTree tangle).get id).directives.zip ((resolve (tangleTree tangle)).getD id default).plans) =
      [] := by
  decide +kernel

/-- The first run writes one file, and finds one circle. -/
theorem run_tangle {first : Outcome} (hfirst : usual.run tangle = .ok first) :
    first.disk = tangleOnce ∧ first.report.problems = [.cycle "src/b.rs" 1 "super::c::*"] := by
  obtain ⟨hmanifest, hsource, hedits⟩ := edits_tangle
  obtain ⟨hdisk, -, hproblems⟩ := run_rewriteAll walk_tangle hfirst
  have hattempt := attempt_tangle
  rw [← hedits] at hattempt
  obtain ⟨hdisk1, hproblems1⟩ :=
    rewriteModule_done (usual.surveyOutcome (tangleWalk tangle) tangle) hmanifest hsource hattempt
  obtain ⟨hdisk2, hproblems2⟩ := rewriteAll_idle usual.rewriter _ (tangleTree tangle)
    (resolve (tangleTree tangle)) [2, 3, 0] _ quiet_tangle
  rw [scope_tangle, rewriteAll_cons] at hdisk hproblems
  refine ⟨hdisk.trans (hdisk2.trans hdisk1), ?_⟩
  rw [hproblems, hproblems2, hproblems1]
  decide +kernel

theorem inScope_of_included {walked : Walked} (h : walked.included = []) (m : Module) :
    inScope walked m = true := by
  simp [inScope, h]

theorem readsBack_tangle : ReadsBack (tangleWalk tangle) (tangleWalk tangleOnce) where
  carriedOut := by
    have hsize : (tangleTree tangleOnce).size = (tangleTree tangle).size := by decide +kernel
    exact carriedOut_of_lt hsize (by decide +kernel)
  scope := fun id => by rw [inScope_of_included rfl, inScope_of_included rfl]

theorem due_tangleOnce : ¬ ∀ id ∈ scope (tangleWalk tangleOnce), ¬ Due usual.settings.maxWidth
    ((tangleTree tangleOnce).get id) (resolvedAt (tangleTree tangleOnce) id) := by
  obtain ⟨hmanifest, hsource, hedits⟩ := edits_tangleOnce
  intro hnone
  have hplan := planEdits_tangle
  rw [← hedits] at hplan
  exact hnone 2 (by decide +kernel)
    ⟨"pub use super::c::*;\n", ⟨"pub use super::c::{x};\n", ["{x}"]⟩,
      by rw [hmanifest]; rfl, hsource, hplan, by decide⟩

/-- On the tangle the second run of a job changes something, though the first one could
    write all that it was to write. -/
theorem second_run_not_idle :
    usual.settings.dryRun = false ∧ usual.interrupted = false ∧
      ∃ first second, usual.run tangle = .ok first ∧
        first.report.problems = [.cycle "src/b.rs" 1 "super::c::*"] ∧
        usual.run first.disk = .ok second ∧ ¬ Idle first.disk second := by
  obtain ⟨first, hfirst⟩ : ∃ first, usual.run tangle = .ok first :=
    ⟨_, runIn_eq_ok_iff.2 ⟨_, walk_tangle, rfl⟩⟩
  obtain ⟨hdisk, hproblems⟩ := run_tangle hfirst
  obtain ⟨walked, again, second, -, -, hsecond⟩ := run_again hfirst
  refine ⟨rfl, rfl, first, second, hfirst, hproblems, hsecond, ?_⟩
  rw [hdisk] at hsecond ⊢
  rw [run_idle_iff rfl rfl walk_tangleOnce hsecond]
  exact due_tangleOnce

theorem second_run_idle_iff_tangle :
    ∃ first second, usual.run tangle = .ok first ∧ usual.run first.disk = .ok second ∧
      ¬ Idle first.disk second ∧
      ∃ id index d target, ((tangleTree tangle).get id).directives[index]? = some d ∧
        target? (tangleTree tangle) id d = some target ∧
        (resolvedAt (tangleTree tangle) id).plans[index]? = some .cycle ∧
        ¬ Relation.ReflTransGen (Edge (tangleTree tangle)) target id ∧
        Replaced (tangleTree tangleOnce) id index := by
  obtain ⟨first, hfirst⟩ : ∃ first, usual.run tangle = .ok first :=
    ⟨_, runIn_eq_ok_iff.2 ⟨_, walk_tangle, rfl⟩⟩
  obtain ⟨hdisk, -⟩ := run_tangle hfirst
  obtain ⟨walked, again, second, hwalk, hagain, hsecond, hidle, hcycle⟩ :=
    second_run_idle_iff rfl rfl hfirst
  rw [walk_tangle, Except.ok.injEq] at hwalk
  rw [hdisk, walk_tangleOnce, Except.ok.injEq] at hagain
  subst hwalk hagain
  have hbusy : ¬ Idle first.disk second := by
    rw [hidle]
    exact due_tangleOnce
  exact ⟨first, second, hfirst, hsecond, hbusy, hcycle readsBack_tangle hbusy⟩

end Tangle

end Reexport.Job
