import Reexport.Report
import Reexport.Resolution
import Reexport.Survey

/-!
# Jobs

A job surveys a source tree, resolves what its modules export, and replaces the
wildcards of their manifests by lists of names. Problems of single units or
directives go to the report; only an unusable root or pattern ends a job early.

`Job.run` is the whole of it. Its phases, `walk`, `resolve` and `rewrite`, can be
taken one by one. Writes can fail, so `runIn` and `rewriteIn` take the course of the
write of each manifest; `run` and `rewrite` are those where no stage fails.
-/

namespace Reexport

/-- What is to be done. -/
structure Job where
  settings : Settings
  /-- Which directories are modules. -/
  isModuleDir : String → Bool
  /-- Write nothing more. -/
  interrupted : Bool

/-- A job with the usual module boundary. -/
def Job.ofSettings (settings : Settings) : Job := ⟨settings, Survey.namedDirs, false⟩

/-- What a job leaves behind. -/
structure Outcome where
  report : Report
  disk : Disk
  /-- Remarks on its progress. -/
  log : List String
  deriving Repr, Inhabited

/-- A surveyed tree, and which of its modules are to be rewritten. -/
structure Walked where
  /-- Empty means all. -/
  included : List Glob
  surveyed : Surveyed
  deriving Repr, Inhabited

namespace Job

/-! ## Walking -/

/-- How the source tree is surveyed. -/
def survey (job : Job) : Except Problem Survey := do
  let excluded ← Glob.parseAll job.settings.excluded
  return ⟨job.settings.root, job.isModuleDir, excluded, job.settings.maxDepth⟩

/-- Surveys the source tree. Patterns are read first. -/
def walk (job : Job) (disk : Disk) : Except Problem Walked := do
  let included ← Glob.parseAll job.settings.included
  let survey ← job.survey
  return ⟨included, ← survey.run disk⟩

/-- Whether a module is to be rewritten: a pattern matches its path in the tree or
    the path of its manifest below the root. -/
def inScope (walked : Walked) (m : Module) : Bool :=
  walked.included.isEmpty || walked.included.any fun glob =>
    glob.isMatch m.qualifiedName || m.manifest.any fun manifest =>
      glob.isMatch (Path.relativeTo walked.surveyed.tree.rootDir manifest)

/-! ## Rewriting a module -/

/-- What came of the edits of a manifest. -/
inductive Attempt where
  /-- There are none. -/
  | idle
  | done (applied : Applied)
  | failed (p : Problem) (disk : Disk)
  deriving Repr, Inhabited

/-- The edit that a status asks for. -/
def edit? (d : Directive) (status : Status) : Option Edit :=
  match status, d.form with
  | .replaced names _, .wildcard _ star => some ⟨star, names⟩
  | _, _ => none

/-- The edits of a manifest. -/
def edits (plans : List (Directive × Status)) : List Edit :=
  plans.filterMap fun (d, status) => edit? d status

/-- Applies edits to a manifest, if there are any. -/
def attempt (rewriter : Rewriter) (course : Rewriter.Course) (disk : Disk)
    (manifest source : String) (edits : List Edit) : Attempt :=
  if edits.isEmpty then .idle
  else match rewriter.applyIn course disk manifest source edits with
    | (.ok (outcome, planned), after) => .done ⟨outcome, planned, after⟩
    | (.error p, after) => .failed p after

/-- The disk after an attempt on it. -/
def Attempt.disk (attempt : Attempt) (before : Disk) : Disk :=
  match attempt with
  | .done applied => applied.disk
  | .failed _ after => after
  | .idle => before

/-- What went wrong. -/
def Attempt.problem? : Attempt → Option Problem
  | .failed p _ => some p
  | .idle | .done _ => none

/-- What became of the file. -/
def Attempt.outcome? : Attempt → Option FileOutcome
  | .done applied => some applied.outcome
  | .idle | .failed .. => none

/-- The lists for the edits, in their order. -/
def Attempt.rendered : Attempt → List String
  | .done applied => applied.planned.rendered
  | .idle | .failed .. => []

/-- The status of the directives that have edits. -/
def Attempt.status (attempt : Attempt) : RecordStatus :=
  if attempt.outcome? = some .written then .rewritten else .wouldRewrite

/-- Why the edits are not in the file. -/
def Attempt.reason? : Attempt → Option String
  | .failed p _ => some p.message
  | .done applied =>
    if applied.outcome = .interrupted then some "interrupted before the file was written" else none
  | .idle => none

/-- A slice of a text; empty if there is no such slice. -/
def sliceOf (source : String) (start stop : Nat) : String :=
  String.ofList ((Text.slice? start stop source.toList).getD [])

/-- The text of a directive with a list in the place of its star. -/
def directiveWith (source : String) (d : Directive) (list : String) : String :=
  match d.form with
  | .wildcard _ star =>
    sliceOf source d.span.start star.start ++ list ++ sliceOf source star.stop d.span.stop
  | .explicit _ | .ambiguous _ => sliceOf source d.span.start d.span.stop

/-- The record of a directive about which there is nothing more to say. -/
def plainRecord (m : Module) (manifest source : String) (d : Directive) (status : RecordStatus)
    (names : List String) (reason : Option String) : DirectiveRecord where
  manifest := manifest
  module := m.qualifiedName
  line := d.line
  span := d.span
  target := d.tree
  status := status
  names := names
  withheld := []
  reason := reason
  before := sliceOf source d.span.start d.span.stop
  after := none

/-- The record of a directive; `list?` is the list of its edit. -/
def record (m : Module) (manifest source : String) (attempt : Attempt) (d : Directive)
    (status : Status) (list? : Option String) : DirectiveRecord :=
  let plain := plainRecord m manifest source d
  match status with
  | .replaced names withheld =>
    { plain attempt.status names attempt.reason? with
      withheld := withheld
      after := list?.map (directiveWith source d) }
  | .pinned names => plain .pinned names none
  | .ambiguous why => plain .ambiguous [] (some why.reason)
  | .unresolved => plain .unresolved [] none
  | .cycle => plain .cycle [] none
  | .incomplete gap => plain .incomplete [] (some gap.reason)

/-- The records of directives; each one with an edit takes the next list. -/
def records (m : Module) (manifest source : String) (attempt : Attempt) :
    List (Directive × Status) → (lists : List String) → List DirectiveRecord
  | [], _ => []
  | (d, status) :: rest, lists =>
    if (edit? d status).isSome then
      record m manifest source attempt d status lists.head? ::
        records m manifest source attempt rest lists.tail
    else record m manifest source attempt d status none :: records m manifest source attempt rest lists

/-- The counts after a file with so many edits. -/
def countFile (stats : Stats) (edits : Nat) : FileOutcome → Stats
  | .written =>
    { stats with
      filesWritten := stats.filesWritten + 1
      filesChanged := stats.filesChanged + 1
      directivesRewritten := stats.directivesRewritten + edits }
  | .wouldChange =>
    { stats with
      filesChanged := stats.filesChanged + 1
      directivesRewritten := stats.directivesRewritten + edits }
  | .interrupted => { stats with filesChanged := stats.filesChanged + 1 }
  | .unchanged => stats

/-- The report with what became of a file. -/
def addFile (report : Report) (manifest : String) (edits : Nat) : Option FileOutcome → Report
  | none => report
  | some outcome =>
    { report with
      files := report.files ++ [⟨manifest, outcome⟩]
      stats := countFile report.stats edits outcome }

/-- Rewrites the manifest of a module according to the plans for its directives. -/
def rewriteManifest (rewriter : Rewriter) (course : Rewriter.Course) (m : Module)
    (manifest source : String) (plans : List (Directive × Status)) (before : Outcome) : Outcome :=
  let edits := edits plans
  let attempt := attempt rewriter course before.disk manifest source edits
  let report := before.report.addProblems
    ((plans.filterMap fun (d, status) => status.problem? d) ++ attempt.problem?.toList)
  let report := addFile report manifest edits.length attempt.outcome?
  let records := records m manifest source attempt plans attempt.rendered
  ⟨{ report with directives := report.directives ++ records }, attempt.disk before.disk,
    before.log ++ if attempt.outcome? = some .written then ["Rewrote " ++ manifest] else []⟩

/-- Reports what was found out about a module and rewrites its manifest. -/
def rewriteModule (rewriter : Rewriter) (course : Rewriter.Course) (m : Module)
    (resolved : Resolved) (before : Outcome) : Outcome :=
  let report := resolved.collisions.foldl Report.addCollision before.report
  let report := report.addProblems (resolved.shadowed.map (·.problem))
  let report :=
    { report with
      stats.directivesFound := report.stats.directivesFound + m.directives.length }
  let found := { before with report := report }
  match m.manifest, m.source with
  | some manifest, some source =>
    rewriteManifest rewriter course m manifest source (m.directives.zip resolved.plans) found
  | _, _ => found

/-! ## Rewriting a tree -/

/-- The outcome before anything is rewritten. -/
def surveyOutcome (job : Job) (walked : Walked) (disk : Disk) : Outcome :=
  let surveyed := walked.surveyed
  let report := Report.new job.settings.root job.settings.dryRun job.settings.failOnCollision
  ⟨{ report with
      stats.modulesScanned := surveyed.tree.size
      stats.unitsScanned := surveyed.unitsScanned
      problems := surveyed.problems },
    disk,
    ["Found " ++ toString surveyed.tree.size ++ " modules in " ++ toString surveyed.unitsScanned ++
      " units (" ++ toString surveyed.problems.length ++ " unreadable)"]⟩

/-- What was rewritten, in words. -/
def summary (report : Report) : String :=
  "Rewrote " ++ toString report.stats.directivesRewritten ++ " directives in " ++
    toString report.stats.filesChanged ++ " files (" ++ toString report.stats.filesWritten ++
    " written), " ++ toString report.collisions.length ++ " collisions"

/-- How a job rewrites manifests. -/
def rewriter (job : Job) : Rewriter :=
  ⟨job.settings.dryRun, job.settings.maxWidth, job.interrupted⟩

/-- The modules to rewrite, children before parents. -/
def scope (walked : Walked) : List ModuleId :=
  walked.surveyed.tree.postOrder.filter fun id => inScope walked (walked.surveyed.tree.get id)

/-- Rewrites the manifests of all modules in scope; `courses` tells how the write of
    each goes. -/
def rewriteIn (job : Job) (courses : ModuleId → Rewriter.Course) (walked : Walked)
    (resolved : List Resolved) (disk : Disk) : Outcome :=
  let tree := walked.surveyed.tree
  let outcome := (scope walked).foldl
    (fun outcome id =>
      rewriteModule job.rewriter (courses id) (tree.get id) (resolved.getD id default) outcome)
    (job.surveyOutcome walked disk)
  { outcome with
    report := { outcome.report with interrupted := job.interrupted }
    log := outcome.log ++ [summary outcome.report] }

/-- Rewrites the manifests of all modules in scope, where no stage of a write fails. -/
def rewrite (job : Job) (walked : Walked) (resolved : List Resolved) (disk : Disk) : Outcome :=
  job.rewriteIn (fun _ => .smooth) walked resolved disk

/-- How long the phases took. -/
structure Durations where
  walk : Double
  resolve : Double
  rewrite : Double
  deriving DecidableEq, Repr, Inhabited

/-- Durations that were not measured. -/
def Durations.unmeasured : Durations := ⟨.zero, .zero, .zero⟩

/-- The outcome with how long it took. -/
def timed (durations : Durations) (outcome : Outcome) : Outcome :=
  { outcome with
    report.timings :=
      [⟨"walk", durations.walk⟩, ⟨"resolve", durations.resolve⟩, ⟨"rewrite", durations.rewrite⟩] }

/-- Does the job; `courses` tells how the write of each module's manifest goes. -/
def runIn (job : Job) (courses : ModuleId → Rewriter.Course) (disk : Disk) :
    Except Problem Outcome := do
  let walked ← job.walk disk
  return timed .unmeasured (job.rewriteIn courses walked (resolve walked.surveyed.tree) disk)

/-- Does the job, where no stage of a write fails. -/
def run (job : Job) (disk : Disk) : Except Problem Outcome :=
  job.runIn (fun _ => .smooth) disk

end Job

end Reexport
