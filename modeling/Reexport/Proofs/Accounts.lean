import Reexport.Proofs.ReportedTexts
import Reexport.Proofs.Siblings
import Reexport.Proofs.Units

/-!
# The accounts of a report

A report counts directives and files, lists what became of each of them, and lists problems.
These accounts are kept in different places, but each turn of a run adds to all of them what
belongs together. So they balance after every turn, and at the end of every run, whichever
writes fail in it.

Results:

* `Balanced`: how the accounts of a report belong together.
* `balanced_reportTurn`: they still do after one more turn.
* `accounts_balance`: they do at the end of every run, and a replaced wildcard is told as
  rewritten exactly if its manifest is told as written.
-/

namespace Reexport

open Source Grammar Text

/-! ## Problems and records of one directive -/

/-- What a problem and the record of a directive say in common: the kind of the problem, the
    manifest and the line. -/
structure Remark where
  kind : String
  path : String
  line : Nat
  deriving DecidableEq, Repr

/-- Why an edit is refused whose star is gone. -/
def staleReason : String := "re-export no longer holds a wildcard"

/-- The remark of a problem about a directive that is left as it is. -/
def Problem.remark? (p : Problem) : Option Remark :=
  match p with
  | .ambiguous path line _ reason => if reason = staleReason then none else some ⟨p.kind, path, line⟩
  | .unresolved path line _ | .cycle path line _ | .incomplete path line .. => some ⟨p.kind, path, line⟩
  | _ => none

/-- Whether a problem is a collision. -/
def Problem.isCollision : Problem → Bool
  | .collision .. => true
  | _ => false

/-- The kind of the problem that comes with a record of this status. -/
def RecordStatus.problemKind? : RecordStatus → Option String
  | .ambiguous => some "ambiguous_directive"
  | .unresolved => some "unresolved_target"
  | .cycle => some "reexport_cycle"
  | .incomplete => some "incomplete_target"
  | .rewritten | .wouldRewrite | .pinned => none

/-- The remark of the record of a directive that is left as it is. -/
def DirectiveRecord.remark? (r : DirectiveRecord) : Option Remark :=
  r.status.problemKind?.map (⟨·, r.manifest, r.line⟩)

/-- Whether a record tells that its edit is applied, or would be. -/
def DirectiveRecord.isApplied (r : DirectiveRecord) : Bool :=
  (r.status == .rewritten || r.status == .wouldRewrite) && r.reason.isNone

/-- Whether the file of a manifest is other than before, or would be. -/
def FileOutcome.isChange : FileOutcome → Bool
  | .written | .wouldChange | .interrupted => true
  | .unchanged => false

/-- The accounts of a report belong together. -/
structure Balanced (report : Report) : Prop where
  directivesFound : report.stats.directivesFound = report.directives.length
  filesWritten : report.stats.filesWritten = report.files.countP (·.outcome = .written)
  filesChanged : report.stats.filesChanged = report.files.countP (·.outcome.isChange)
  changed : ∀ f ∈ report.files, f.outcome ≠ .unchanged
  directivesRewritten : report.stats.directivesRewritten = report.directives.countP (·.isApplied)
  /-- Each directive that is left as it is has its problem, and there are no others but those
      about stale edits. -/
  remarks : report.problems.filterMap Problem.remark? =
    report.directives.filterMap DirectiveRecord.remark?
  collisions : report.problems.filter Problem.isCollision = report.collisions.map Collision.problem

/-! ## What a unit says about itself -/

/-- The directives of a unit name it, and no list in it can be mistaken for a stale edit. -/
structure Directive.Homely (d : Directive) (manifest : String) : Prop where
  unit : d.unit = manifest
  reason : ∀ why, d.form = .ambiguous why → why.reason ≠ staleReason

theorem UseTree.reason_of_form {ι : Type} {tree : UseTree ι} {why : Ambiguity}
    (h : tree.form = .ambiguous why) : why.reason ≠ staleReason := by
  unfold UseTree.form at h
  simp only at h
  split at h
  · cases h
  · cases h
  · cases h
    decide
  · cases h
    decide

theorem homely_of_scan {path source : String} {found : Scan} (h : scan path source = .ok found) :
    ∀ d ∈ found.directives, d.Homely path := by
  obtain ⟨lexed, items, -, rfl⟩ := scan_eq_ok h
  intro d hd
  obtain ⟨item, -, hitem⟩ := List.mem_filterMap.1 hd
  obtain ⟨u, first, rfl, -, rfl⟩ := Scan.directive?_eq_some hitem
  refine ⟨rfl, fun why hform => ?_⟩
  cases hmade : u.tree.form with
  | ambiguous why' =>
    have : why' = why := by simpa [Scan.directive, hmade, Form.map] using hform
    rw [← this]
    exact UseTree.reason_of_form hmade
  | _ => simp [Scan.directive, hmade, Form.map] at hform

/-! ## The survey -/

namespace Survey

/-- A problem with the files of a tree. -/
def OfFiles (p : Problem) : Prop := p.remark? = none ∧ p.isCollision = false

variable {survey : Survey} {disk : Disk}

theorem list_ofFiles (dir : String) (place : Disk.Place) :
    ∀ p ∈ (survey.list disk dir place).problems, OfFiles p := by
  intro p hp
  simp only [list, List.mem_flatMap, List.mem_map, exists_exists_and_eq_and] at hp
  obtain ⟨name, -, hp⟩ := hp
  unfold listEntry at hp
  simp only at hp
  split at hp
  · rw [List.mem_singleton.1 hp]
    exact ⟨rfl, rfl⟩
  · split_ifs at hp
    · rw [List.mem_singleton.1 hp]
      exact ⟨rfl, rfl⟩
    · cases hp
    · cases hp

theorem Walks.ofFiles {v : Visit} {cs : List Candidate} {found : Found} (h : Walks survey disk v cs found) :
    ∀ p ∈ found.problems, OfFiles p := by
  induction h with
  | done v => intro p hp; cases hp
  | file _ _ ih => exact ih
  | lost _ _ _ ih => exact List.forall_mem_cons.2 ⟨⟨rfl, rfl⟩, ih⟩
  | round _ _ _ _ ih => exact List.forall_mem_cons.2 ⟨⟨rfl, rfl⟩, ih⟩
  | entered _ _ _ _ _ ihbelow ih =>
    exact List.forall_mem_append.2 ⟨List.forall_mem_append.2 ⟨list_ofFiles _ _, ihbelow⟩, ih⟩

theorem ofFiles_of_scanError? {m : Module} {p : Problem} (h : scanError? disk m = some p) : OfFiles p := by
  unfold scanError? at h
  cases hmanifest : m.manifest with
  | none => simp [hmanifest] at h
  | some path =>
    cases hscan : scanFile disk path with
    | ok scan => simp [hmanifest, hscan] at h
    | error q =>
      simp only [hmanifest, Option.map_some, hscan, Option.some.injEq] at h
      subst h
      unfold scanFile at hscan
      split at hscan
      · cases hscan
        exact ⟨rfl, rfl⟩
      · split at hscan
        · cases hscan
          exact ⟨rfl, rfl⟩
        · cases hscan

theorem run_ofFiles {surveyed : Surveyed} (h : survey.run disk = .ok surveyed) :
    ∀ p ∈ surveyed.problems, OfFiles p := by
  obtain ⟨place, found, label, houtcome⟩ := exists_outcome h
  rw [houtcome.scannedAll.problems]
  refine List.forall_mem_append.2 ⟨List.forall_mem_append.2 ⟨list_ofFiles _ _, houtcome.walks.ofFiles⟩, ?_⟩
  intro p hp
  obtain ⟨id, -, herror⟩ := List.mem_filterMap.1 hp
  exact ofFiles_of_scanError? herror

theorem run_homely {surveyed : Surveyed} (h : survey.run disk = .ok surveyed) {id : ModuleId}
    (hid : id < surveyed.tree.size) {manifest source : String}
    (hmanifest : (surveyed.tree.get id).manifest = some manifest)
    (hsource : (surveyed.tree.get id).source = some source) :
    ∀ d ∈ (surveyed.tree.get id).directives, d.Homely manifest := by
  obtain ⟨place, found, label, houtcome⟩ := exists_outcome h
  have hget := houtcome.scannedAll.get id (List.mem_range.2 hid)
  rw [houtcome.manifest_unscanned] at hmanifest
  rw [hget] at hsource ⊢
  unfold scannedModule at hsource ⊢
  rw [hmanifest] at hsource ⊢
  cases hscan : scanFile disk manifest with
  | ok scan =>
    simp only [Option.map_some, hscan]
    exact homely_of_scan (scan_of_scanFile hscan)
  | error p =>
    simp only [Option.map_some, hscan, (houtcome.fresh id hid).1] at hsource
    cases hsource

end Survey

namespace Job

/-! ## One turn -/

/-- The record of a directive without its new text. -/
def bare (r : DirectiveRecord) : DirectiveRecord := { r with after := none }

/-- Apart from the new texts, records depend on plans and on what came of the edits. -/
theorem map_bare_records (m : Module) (manifest source : String) (attempt : Attempt) :
    ∀ (plans : List (Directive × Status)) (lists : List String),
    (records m manifest source attempt plans lists).map bare =
      plans.map fun p => record m manifest source attempt p.1 p.2 none := by
  have hbare : ∀ (p : Directive × Status) (list? : Option String),
      bare (record m manifest source attempt p.1 p.2 list?) =
        record m manifest source attempt p.1 p.2 none := by
    intro p list?
    cases p.2 <;> rfl
  intro plans
  induction plans with
  | nil => intro lists; rfl
  | cons p rest ih =>
    intro lists
    rw [records]
    split_ifs
    · rw [List.map_cons, List.map_cons, ih, hbare p]
    · rw [List.map_cons, List.map_cons, ih, hbare p]

theorem filterMap_remark?_records (m : Module) (manifest source : String) (attempt : Attempt)
    (plans : List (Directive × Status)) (lists : List String) :
    (records m manifest source attempt plans lists).filterMap DirectiveRecord.remark? =
      plans.filterMap fun p => (record m manifest source attempt p.1 p.2 none).remark? := by
  have h := congrArg (List.filterMap DirectiveRecord.remark?) (map_bare_records m manifest source attempt plans lists)
  rw [List.filterMap_map, List.filterMap_map] at h
  exact h

theorem countP_isApplied_records (m : Module) (manifest source : String) (attempt : Attempt)
    (plans : List (Directive × Status)) (lists : List String) :
    (records m manifest source attempt plans lists).countP (·.isApplied) =
      plans.countP fun p => (record m manifest source attempt p.1 p.2 none).isApplied := by
  have h := congrArg (List.countP (·.isApplied)) (map_bare_records m manifest source attempt plans lists)
  rw [List.countP_map, List.countP_map] at h
  exact h

/-- What a module in scope and its plans are like. -/
structure Orderly (m : Module) (resolved : Resolved) : Prop where
  plans : List.Forall₂ Resolution.PlanFor m.directives resolved.plans
  read : m.directives ≠ [] → ∃ manifest source, m.manifest = some manifest ∧ m.source = some source
  homely : ∀ manifest source, m.manifest = some manifest → m.source = some source →
    ∀ d ∈ m.directives, d.Homely manifest

section Counts

variable (m : Module) (resolved : Resolved) (stats : Stats) (attempt : Attempt)

theorem countTurn_directivesFound : (countTurn m resolved stats attempt).directivesFound =
    stats.directivesFound + m.directives.length := by
  unfold countTurn
  cases attempt.outcome? with
  | none => rfl
  | some outcome => cases outcome <;> rfl

theorem countTurn_filesWritten : (countTurn m resolved stats attempt).filesWritten =
    stats.filesWritten + (fileRecord? m attempt).toList.countP (·.outcome = .written) := by
  unfold countTurn fileRecord?
  cases attempt.outcome? with
  | none => rfl
  | some outcome => cases outcome <;> rfl

theorem countTurn_filesChanged : (countTurn m resolved stats attempt).filesChanged =
    stats.filesChanged + (fileRecord? m attempt).toList.countP (·.outcome.isChange) := by
  unfold countTurn fileRecord?
  cases attempt.outcome? with
  | none => rfl
  | some outcome => cases outcome <;> rfl

end Counts

section Records

variable {d : Directive} {status : Status}

theorem isApplied_record (m : Module) (manifest source : String) (attempt : Attempt) (d : Directive)
    (status : Status) : (record m manifest source attempt d status none).isApplied =
      (status.isReplaced && attempt.reason?.isNone) := by
  cases status with
  | replaced names withheld =>
    have hstatus : attempt.status = .rewritten ∨ attempt.status = .wouldRewrite := by
      unfold Attempt.status
      split_ifs
      · exact .inl rfl
      · exact .inr rfl
    rcases hstatus with hstatus | hstatus <;>
      simp [record, plainRecord, DirectiveRecord.isApplied, Status.isReplaced, hstatus]
  | _ => rfl

theorem edit?_isSome (hplan : Resolution.PlanFor d status) : (edit? d status).isSome = status.isReplaced := by
  cases hreplaced : status.isReplaced with
  | false => rw [edit?_of_not_replaced d hreplaced, Option.isSome_none]
  | true =>
    obtain ⟨names, withheld, rfl⟩ := Resolution.isReplaced_iff.1 hreplaced
    obtain ⟨path, star, hform⟩ := star_of_planFor hplan
    have hstar : d.star? = some star := by simp only [Directive.star?, hform]
    rw [edit?_of_star hstar, Option.isSome_some]

/-- A directive that is left as it is has a problem and a record that agree. -/
theorem remark?_problem? {m : Module} {manifest source : String} {attempt : Attempt}
    (hplan : Resolution.PlanFor d status) (hhome : d.Homely manifest) :
    (status.problem? d).bind Problem.remark? = (record m manifest source attempt d status none).remark? := by
  have hunit := hhome.unit
  cases status with
  | replaced names withheld =>
    have hkind : attempt.status.problemKind? = none := by
      unfold Attempt.status
      split_ifs <;> rfl
    simp [Status.problem?, record, plainRecord, DirectiveRecord.remark?, hkind]
  | ambiguous why =>
    have hform : d.form = .ambiguous why := by
      unfold Resolution.PlanFor at hplan
      cases hform : d.form with
      | ambiguous why' =>
        rw [hform] at hplan
        cases hplan
        rfl
      | wildcard path star => simp [hform] at hplan
      | explicit pins => simp [hform] at hplan
    simp [Status.problem?, Problem.remark?, hhome.reason why hform, record, plainRecord,
      DirectiveRecord.remark?, RecordStatus.problemKind?, Problem.kind, hunit]
  | _ =>
    simp [Status.problem?, Problem.remark?, record, plainRecord, DirectiveRecord.remark?,
      RecordStatus.problemKind?, Problem.kind, hunit]

end Records

section Turn

variable {rewriter : Rewriter} {course : Rewriter.Course} {m : Module} {resolved : Resolved} {disk : Disk}
  {attempt : Attempt}
  (horderly : Orderly m resolved)

include horderly

theorem Orderly.told_length : (told m resolved attempt).length = m.directives.length := by
  rw [← (told_forall₂ resolved horderly.read attempt).length_eq, List.length_zip, ← horderly.plans.length_eq,
    Nat.min_self]

theorem Orderly.length_edits :
    (editsFor m resolved).length = (m.directives.zip resolved.plans).countP (·.2.isReplaced) := by
  rw [editsFor, edits, List.length_filterMap_eq_countP]
  refine List.countP_congr fun p hp => ?_
  rw [edit?_isSome (List.forall₂_zip horderly.plans hp)]

/-- How many records tell that an edit is applied. -/
theorem Orderly.countP_isApplied : (told m resolved attempt).countP (·.isApplied) =
    if attempt.reason?.isNone then (editsFor m resolved).length else 0 := by
  rw [horderly.length_edits]
  cases hdirectives : m.directives with
  | nil =>
    have hlength : (told m resolved attempt).length = m.directives.length := horderly.told_length
    rw [hdirectives, List.length_nil, List.length_eq_zero_iff] at hlength
    simp [hlength]
  | cons first rest =>
    obtain ⟨manifest, source, hmanifest, hsource⟩ := horderly.read (by simp [hdirectives])
    simp only [told, hmanifest, hsource, countP_isApplied_records, isApplied_record, ← hdirectives]
    cases attempt.reason?.isNone <;> simp

theorem Orderly.remarks : (findings m resolved).filterMap Problem.remark? =
    (told m resolved attempt).filterMap DirectiveRecord.remark? := by
  have hcollisions : (resolved.collisions.map (·.problem)).filterMap Problem.remark? = [] := by
    rw [List.filterMap_map]
    exact List.filterMap_eq_nil_iff.2 fun _ _ => rfl
  have hshadowed : (resolved.shadowed.map (·.problem)).filterMap Problem.remark? = [] := by
    rw [List.filterMap_map]
    exact List.filterMap_eq_nil_iff.2 fun _ _ => rfl
  rw [findings, List.filterMap_append, List.filterMap_append, hcollisions, hshadowed, List.nil_append,
    List.nil_append]
  unfold told
  cases hmanifest : m.manifest with
  | none => rfl
  | some manifest =>
    cases hsource : m.source with
    | none => rfl
    | some source =>
      simp only [filterMap_remark?_records, List.filterMap_filterMap]
      refine List.filterMap_congr fun p hp => ?_
      exact remark?_problem? (List.forall₂_zip horderly.plans hp)
        (horderly.homely manifest source hmanifest hsource p.1 (List.of_mem_zip hp).1)

omit horderly in
theorem isCollision_problem? {d : Directive} {status : Status} {p : Problem} (h : status.problem? d = some p) :
    p.isCollision = false := by
  cases status <;> cases h <;> rfl

omit horderly in
theorem filter_isCollision_findings : (findings m resolved).filter Problem.isCollision =
    resolved.collisions.map Collision.problem := by
  have hcollisions : (resolved.collisions.map (·.problem)).filter Problem.isCollision =
      resolved.collisions.map (·.problem) := by
    refine List.filter_eq_self.2 fun p hp => ?_
    obtain ⟨c, -, rfl⟩ := List.mem_map.1 hp
    rfl
  have hothers : ∀ {ps : List Problem}, (∀ p ∈ ps, p.isCollision = false) → ps.filter Problem.isCollision = [] :=
    fun h => List.filter_eq_nil_iff.2 fun p hp => by simp [h p hp]
  have hshadowed : (resolved.shadowed.map (·.problem)).filter Problem.isCollision = [] := by
    refine hothers fun p hp => ?_
    obtain ⟨s, -, rfl⟩ := List.mem_map.1 hp
    rfl
  have hstatuses : ((m.directives.zip resolved.plans).filterMap fun p => p.2.problem? p.1).filter
      Problem.isCollision = [] := by
    refine hothers fun p hp => ?_
    obtain ⟨⟨d, status⟩, -, hp⟩ := List.mem_filterMap.1 hp
    exact isCollision_problem? hp
  rw [findings, List.filter_append, List.filter_append, hcollisions, hshadowed, List.append_nil]
  split
  · rw [hstatuses, List.append_nil]
  · rw [List.filter_nil, List.append_nil]

variable (hturn : Turn rewriter course m resolved disk attempt)

include hturn

omit horderly in
/-- What goes wrong with edits is no collision, and no remark on a directive. -/
theorem Turn.problem (p : Problem) (hp : p ∈ attempt.problem?.toList) :
    p.remark? = none ∧ p.isCollision = false := by
  cases hturn with
  | stale ready plan =>
    obtain rfl := List.mem_singleton.1 hp
    exact ⟨rfl, rfl⟩
  | refused ready plan dry stop read =>
    obtain rfl := List.mem_singleton.1 hp
    exact ⟨rfl, rfl⟩
  | _ => cases hp

omit horderly in
theorem Turn.changed (f : FileRecord) (hf : f ∈ (fileRecord? m attempt).toList) : f.outcome ≠ .unchanged := by
  cases hturn with
  | planned =>
    obtain rfl := List.mem_singleton.1 hf
    exact fun h => by cases h
  | interrupted =>
    obtain rfl := List.mem_singleton.1 hf
    exact fun h => by cases h
  | written =>
    obtain rfl := List.mem_singleton.1 hf
    exact fun h => by cases h
  | _ => cases hf

/-- A turn counts as rewritten the directives whose records tell so. -/
theorem Turn.directivesRewritten (stats : Stats) : (countTurn m resolved stats attempt).directivesRewritten =
    stats.directivesRewritten + (told m resolved attempt).countP (·.isApplied) := by
  rw [horderly.countP_isApplied]
  cases hturn with
  | idle hidle =>
    have hnone : (editsFor m resolved).length = 0 := by
      by_contra hne
      have hedits : editsFor m resolved ≠ [] := fun hnil => hne (by rw [hnil]; rfl)
      obtain ⟨manifest, source, hmanifest, hsource⟩ := horderly.read fun hnil => hedits (by
        rw [editsFor, hnil]
        rfl)
      exact hidle manifest source ⟨hmanifest, hsource, hedits⟩
    simp [countTurn, Attempt.outcome?, hnone]
  | _ => rfl

theorem balanced_reportTurn {report : Report} (h : Balanced report) :
    Balanced (reportTurn m resolved report attempt) := by
  have hproblem := hturn.problem
  refine ⟨?_, ?_, ?_, ?_, ?_, ?_, ?_⟩
  · simp only [reportTurn, List.length_append, horderly.told_length, ← h.directivesFound]
    exact countTurn_directivesFound m resolved report.stats attempt
  · simp only [reportTurn, List.countP_append, ← h.filesWritten]
    exact countTurn_filesWritten m resolved report.stats attempt
  · simp only [reportTurn, List.countP_append, ← h.filesChanged]
    exact countTurn_filesChanged m resolved report.stats attempt
  · simp only [reportTurn, List.forall_mem_append]
    exact ⟨h.changed, hturn.changed⟩
  · simp only [reportTurn, List.countP_append, ← h.directivesRewritten]
    exact hturn.directivesRewritten horderly report.stats
  · have hnone : attempt.problem?.toList.filterMap Problem.remark? = [] :=
      List.filterMap_eq_nil_iff.2 fun p hp => (hproblem p hp).1
    simp only [reportTurn, List.filterMap_append, h.remarks, hnone, List.append_nil]
    rw [horderly.remarks]
  · have hnone : attempt.problem?.toList.filter Problem.isCollision = [] :=
      List.filter_eq_nil_iff.2 fun p hp => by simp [(hproblem p hp).2]
    simp only [reportTurn, List.filter_append, h.collisions, filter_isCollision_findings, hnone, List.append_nil,
      List.map_append]

end Turn

/-! ## Whole runs -/

theorem balanced_reportAfter (rewriter : Rewriter) (courses : ModuleId → Rewriter.Course) {tree : ModuleTree}
    {resolved : List Resolved} :
    ∀ (ts : List (ModuleId × Attempt)) {report : Report}, Balanced report →
    (∀ turn ∈ ts, Orderly (tree.get turn.1) (resolved.getD turn.1 default) ∧
      ∃ disk, Turn rewriter (courses turn.1) (tree.get turn.1) (resolved.getD turn.1 default) disk turn.2) →
    Balanced (reportAfter tree resolved report ts) := by
  intro ts
  induction ts with
  | nil => intro report h _; exact h
  | cons turn rest ih =>
    intro report h hts
    obtain ⟨⟨horderly, disk, hturn⟩, hrest⟩ := List.forall_mem_cons.1 hts
    exact ih (balanced_reportTurn horderly hturn h) hrest

section Run

variable {job : Job} {courses : ModuleId → Rewriter.Course} {disk : Disk} {walked : Walked}
  {outcome : Outcome}

/-- Before anything is rewritten there are only problems with files. -/
theorem balanced_surveyOutcome (hwalk : job.walk disk = .ok walked) :
    Balanced (job.surveyOutcome walked disk).report := by
  obtain ⟨survey, -, -, hsurvey⟩ := walk_eq_ok_iff.1 hwalk
  have hproblems := Survey.run_ofFiles hsurvey
  refine ⟨rfl, rfl, rfl, List.forall_mem_nil _, rfl, ?_, ?_⟩
  · exact List.filterMap_eq_nil_iff.2 fun p hp => (hproblems p hp).1
  · exact List.filter_eq_nil_iff.2 fun p hp => by simp [(hproblems p hp).2]

theorem orderly_of_scope (hwalk : job.walk disk = .ok walked) {id : ModuleId} (hid : id ∈ scope walked) :
    Orderly (walked.surveyed.tree.get id) (Resolution.resolvedAt walked.surveyed.tree id) where
  plans := plans_of_scope hwalk hid
  read := walk_read hwalk id
  homely := by
    obtain ⟨survey, -, -, hsurvey⟩ := walk_eq_ok_iff.1 hwalk
    have hlt := (walk_keeps hwalk).1.wellFormed.postOrder_lt (List.mem_filter.1 hid).1
    intro manifest source
    exact Survey.run_homely hsurvey hlt

/-- A file is only told as written if no stage of its write fails. -/
theorem smooth_of_written (hwalk : job.walk disk = .ok walked) (hrun : job.runIn courses disk = .ok outcome)
    {record : FileRecord} (hrecord : record ∈ outcome.report.files) (hwritten : record.outcome = .written) :
    ∃ id ∈ scope walked, ∃ now, (courses id).Smooth now record.path := by
  obtain ⟨-, _, rfl, -, -, -, hfiles, -⟩ := run_turns hwalk hrun
  rw [hfiles, reportAfter_files, List.mem_append] at hrecord
  rcases hrecord with hrecord | hrecord
  · cases hrecord
  · obtain ⟨⟨id, attempt⟩, hturn, hrecord⟩ := List.mem_filterMap.1 hrecord
    obtain ⟨result, hresult, rfl⟩ := Option.map_eq_some_iff.1 hrecord
    obtain rfl : result = .written := hwritten
    obtain ⟨now, hcame⟩ := turn_of_run hwalk hturn
    obtain ⟨-, -, manifest, hmanifest, hsmooth⟩ := hcame.of_written hresult
    refine ⟨id, mem_scope_of_turn hturn, now, ?_⟩
    simpa only [hmanifest, Option.getD_some] using hsmooth

/-- The manifest of a turn is told as written exactly if the turn writes it. -/
theorem written_iff_mem_files (hnamed : disk.WellNamed) (hwalk : job.walk disk = .ok walked)
    (hrun : job.runIn courses disk = .ok outcome) {turn : ModuleId × Attempt}
    (hturn : turn ∈ job.turnsOf courses walked disk)
    {manifest : String} (hmanifest : (walked.surveyed.tree.get turn.1).manifest = some manifest) :
    ⟨manifest, .written⟩ ∈ outcome.report.files ↔ turn.2.outcome? = some .written := by
  obtain ⟨-, _, rfl, -, -, -, hfiles, -⟩ := run_turns hwalk hrun
  rw [hfiles, reportAfter_files, List.mem_append, List.mem_filterMap]
  constructor
  · rintro (hmem | ⟨other, hother, hrecord⟩)
    · cases hmem
    · obtain ⟨result, hresult, heq⟩ := Option.map_eq_some_iff.1 hrecord
      obtain ⟨hpath, rfl⟩ := FileRecord.mk.inj heq
      obtain ⟨manifest', source, planned, place, hwrote⟩ :=
        wrote_of_outcome (walk_keeps hwalk).2 (Kept.refl disk) hother hresult
      have hmanifest' := hwrote.ready.manifest
      rw [hmanifest', Option.getD_some] at hpath
      subst hpath
      have hwf := (walk_keeps hwalk).1.wellFormed
      have hlt : ∀ {turn : ModuleId × Attempt}, turn ∈ job.turnsOf courses walked disk →
          turn.1 < walked.surveyed.tree.size := fun h =>
        hwf.postOrder_lt (List.mem_filter.1 (mem_scope_of_turn h)).1
      obtain ⟨survey, -, -, hsurvey⟩ := walk_eq_ok_iff.1 hwalk
      obtain ⟨root, found, label, houtcome⟩ := Survey.exists_outcome hsurvey
      have hid : other.1 = turn.1 :=
        houtcome.manifest_inj hnamed (hlt hother) (hlt hturn) hmanifest' hmanifest rfl
      have hnodup : ((job.turnsOf courses walked disk).map Prod.fst).Nodup := by
        rw [turnsOf, map_fst_turns]
        exact ((walk_keeps hwalk).1.filed.postOrder_nodup hwf).filter _
      rw [← List.inj_on_of_nodup_map hnodup hother hturn hid]
      exact hresult
  · intro hwritten
    refine .inr ⟨turn, hturn, ?_⟩
    rw [fileRecord?, hwritten, hmanifest]
    rfl

end Run

/-- **The accounts of a report balance.** The counts of directives and files are the numbers of
    their records, and no file is told as unchanged. Directives count as rewritten if they are
    told as rewritten, or as to be rewritten, without a reason against it. Every directive that
    is left as it is has its problem, of the same kind and at the same place, and apart from
    stale edits there are no other such problems. The problems that are collisions are those of
    the reported collisions. The records are those of the directives of the modules in scope. On a
    disk whose names make paths a replaced wildcard is told as rewritten exactly if its manifest
    is told as written, and otherwise as to be rewritten. -/
theorem accounts_balance {job : Job} {courses : ModuleId → Rewriter.Course} {disk : Disk} {outcome : Outcome}
    (hrun : job.runIn courses disk = .ok outcome) :
    Balanced outcome.report ∧ ∃ walked, job.walk disk = .ok walked ∧
      let tree := walked.surveyed.tree
      outcome.report.directives = (job.turnsOf courses walked disk).flatMap (fun turn =>
        told (tree.get turn.1) (Resolution.resolvedAt tree turn.1) turn.2) ∧
      ∀ turn ∈ job.turnsOf courses walked disk, List.Forall₂ (fun p r => Tells (tree.get turn.1) p.1 r ∧
          (disk.WellNamed → p.2.isReplaced = true → r.status =
            if ⟨r.manifest, .written⟩ ∈ outcome.report.files then .rewritten else .wouldRewrite))
        ((tree.get turn.1).directives.zip (Resolution.resolvedAt tree turn.1).plans)
        (told (tree.get turn.1) (Resolution.resolvedAt tree turn.1) turn.2) := by
  obtain ⟨walked, hwalk, -⟩ := runIn_eq_ok_iff.1 hrun
  obtain ⟨-, report, hreport, hproblems, hcollisions, hdirectives, hfiles, hstats⟩ := run_turns hwalk hrun
  refine ⟨?_, walked, hwalk, ?_, fun turn hturn => ?_⟩
  · have hbalanced : Balanced report := by
      rw [hreport]
      refine balanced_reportAfter job.rewriter courses _ (balanced_surveyOutcome hwalk) fun turn hturn => ?_
      exact ⟨orderly_of_scope hwalk (mem_scope_of_turn hturn), turn_of_run hwalk hturn⟩
    refine ⟨?_, ?_, ?_, ?_, ?_, ?_, ?_⟩
    · rw [hstats, hdirectives]
      exact hbalanced.directivesFound
    · rw [hstats, hfiles]
      exact hbalanced.filesWritten
    · rw [hstats, hfiles]
      exact hbalanced.filesChanged
    · rw [hfiles]
      exact hbalanced.changed
    · rw [hstats, hdirectives]
      exact hbalanced.directivesRewritten
    · rw [hproblems, hdirectives]
      exact hbalanced.remarks
    · rw [hproblems, hcollisions]
      exact hbalanced.collisions
  · rw [hdirectives, hreport, reportAfter_directives]
    rfl
  · have horderly := orderly_of_scope hwalk (mem_scope_of_turn hturn)
    refine (told_forall₂ _ horderly.read turn.2).imp fun p r htold => ⟨htold.tells, fun hnamed hreplaced => ?_⟩
    have hwritten := written_iff_mem_files hnamed hwalk hrun hturn htold.tells.manifest
    rw [htold.carried hreplaced, Attempt.status]
    exact if_congr hwritten.symm rfl rfl

/-- The temporary file cannot be moved. -/
def immovable : Rewriter.Course :=
  ⟨Disk.freeName, fun stage => if stage = .move then some "Permission denied (os error 13)" else none⟩

/-- A run that writes one file and finds one circle, and the same run where no temporary file can
    be moved: then nothing is told as written. -/
theorem accounts_balance_tangle : tangle.WellNamed ∧
    (∃ outcome, usual.run tangle = .ok outcome ∧
      outcome.report.directives.filterMap DirectiveRecord.remark? = [⟨"reexport_cycle", "src/b.rs", 1⟩] ∧
      ∀ turn ∈ usual.turnsOf (fun _ => .smooth) (tangleWalk tangle) tangle,
        List.Forall₂ (fun p r => p.2.isReplaced = true → r.status =
            if ⟨r.manifest, .written⟩ ∈ outcome.report.files then .rewritten else .wouldRewrite)
          (((tangleTree tangle).get turn.1).directives.zip
            (Resolution.resolvedAt (tangleTree tangle) turn.1).plans)
          (told ((tangleTree tangle).get turn.1) (Resolution.resolvedAt (tangleTree tangle) turn.1) turn.2)) ∧
    ∃ outcome, usual.runIn (fun _ => immovable) tangle = .ok outcome ∧
      outcome.report.stats.filesWritten = 0 ∧
      ∀ turn ∈ usual.turnsOf (fun _ => immovable) (tangleWalk tangle) tangle,
        List.Forall₂ (fun p r => p.2.isReplaced = true → r.status = .wouldRewrite)
          (((tangleTree tangle).get turn.1).directives.zip
            (Resolution.resolvedAt (tangleTree tangle) turn.1).plans)
          (told ((tangleTree tangle).get turn.1) (Resolution.resolvedAt (tangleTree tangle) turn.1) turn.2) := by
  have hnamed : tangle.WellNamed := by decide +kernel
  refine ⟨hnamed, ?_, ?_⟩
  · obtain ⟨outcome, hrun⟩ : ∃ outcome, usual.run tangle = .ok outcome :=
      ⟨_, runIn_eq_ok_iff.2 ⟨_, walk_tangle, rfl⟩⟩
    obtain ⟨hbalanced, walked, hwalk, -, hturns⟩ := accounts_balance hrun
    obtain rfl := Except.ok.inj (walk_tangle.symm.trans hwalk)
    refine ⟨outcome, hrun, ?_, fun turn hturn => ?_⟩
    · rw [← hbalanced.remarks, (run_tangle hrun).2]
      rfl
    · exact (hturns turn hturn).imp fun p r h => h.2 hnamed
  · obtain ⟨outcome, hrun⟩ : ∃ outcome, usual.runIn (fun _ => immovable) tangle = .ok outcome :=
      ⟨_, runIn_eq_ok_iff.2 ⟨_, walk_tangle, rfl⟩⟩
    obtain ⟨hbalanced, walked, hwalk, -, hturns⟩ := accounts_balance hrun
    obtain rfl := Except.ok.inj (walk_tangle.symm.trans hwalk)
    have hnone : ∀ record ∈ outcome.report.files, record.outcome ≠ .written := by
      intro record hrecord hwritten
      obtain ⟨-, -, now, hsmooth⟩ := smooth_of_written hwalk hrun hrecord hwritten
      cases hsmooth.passes .move
    refine ⟨outcome, hrun, ?_, fun turn hturn => ?_⟩
    · rw [hbalanced.filesWritten, List.countP_eq_zero]
      intro record hrecord
      simpa using hnone record hrecord
    · refine (hturns turn hturn).imp fun p r h hreplaced => ?_
      rw [h.2 hnamed hreplaced, if_neg fun hmem => hnone _ hmem rfl]

end Job

end Reexport
