import Reexport.Export
import Reexport.JsonDoc
import Reexport.Manifest
import Reexport.Settings

/-!
# Reports

What a run found and did, and how it is told: as a JSON document or as text. The
report also decides the exit status.
-/

namespace Reexport

/-- What became of a directive. -/
inductive RecordStatus where
  | rewritten
  /-- Its file was not written. -/
  | wouldRewrite
  | pinned
  | ambiguous
  | unresolved
  | cycle
  | incomplete
  deriving DecidableEq, Repr, Inhabited

namespace RecordStatus

/-- All of them. -/
def all : List RecordStatus :=
  [.rewritten, .wouldRewrite, .pinned, .ambiguous, .unresolved, .cycle, .incomplete]

/-- The name of a status in JSON. -/
def name : RecordStatus → String
  | .rewritten => "rewritten"
  | .wouldRewrite => "would_rewrite"
  | .pinned => "pinned"
  | .ambiguous => "ambiguous"
  | .unresolved => "unresolved"
  | .cycle => "cycle"
  | .incomplete => "incomplete"

/-- The status in words. -/
def label : RecordStatus → String
  | .wouldRewrite => "would rewrite"
  | status => status.name

/-- Whether the directive has, or would have, an explicit list. -/
def isListed : RecordStatus → Bool
  | .rewritten | .wouldRewrite | .pinned => true
  | _ => false

end RecordStatus

/-- One directive and what became of it. -/
structure DirectiveRecord where
  manifest : String
  /-- The module with this directive. -/
  module : String
  line : Nat
  span : Text.Span
  target : String
  status : RecordStatus
  /-- The names of the explicit list. -/
  names : List String
  /-- The names that are left out of it because they collide. -/
  withheld : List String
  reason : Option String
  before : String
  after : Option String
  deriving DecidableEq, Repr, Inhabited

/-- One manifest and what became of it. -/
structure FileRecord where
  path : String
  outcome : FileOutcome
  deriving DecidableEq, Repr, Inhabited

/-- How long a phase took. -/
structure Timing where
  phase : String
  millis : Double
  deriving DecidableEq, Repr, Inhabited

/-- The counts of a run. -/
structure Stats where
  modulesScanned : Nat
  unitsScanned : Nat
  directivesFound : Nat
  directivesRewritten : Nat
  filesChanged : Nat
  filesWritten : Nat
  deriving DecidableEq, Repr, Inhabited

/-- The counts of a run that did nothing. -/
def Stats.zero : Stats := ⟨0, 0, 0, 0, 0, 0⟩

/-- What a run found and did. -/
structure Report where
  root : String
  dryRun : Bool
  failOnCollision : Bool
  interrupted : Bool
  stats : Stats
  collisions : List Collision
  directives : List DirectiveRecord
  files : List FileRecord
  problems : List Problem
  timings : List Timing
  deriving Repr, Inhabited

/-- The exit status of a run. -/
inductive ExitStatus where
  | clean
  | failure
  | warnings
  deriving DecidableEq, Repr, Inhabited

/-- The number of an exit status. -/
def ExitStatus.code : ExitStatus → Nat
  | .clean => 0
  | .failure => 1
  | .warnings => 3

namespace Report

/-- A report without findings. -/
def new (root : String) (dryRun failOnCollision : Bool) : Report :=
  ⟨root, dryRun, failOnCollision, false, .zero, [], [], [], [], []⟩

/-- Adds a problem. -/
def addProblem (report : Report) (p : Problem) : Report :=
  { report with problems := report.problems ++ [p] }

/-- Adds problems. -/
def addProblems (report : Report) (ps : List Problem) : Report :=
  { report with problems := report.problems ++ ps }

/-- Adds a collision, which is a problem as well. -/
def addCollision (report : Report) (c : Collision) : Report :=
  { report.addProblem c.problem with collisions := report.collisions ++ [c] }

/-- The severity of a problem in this report. -/
def severity (report : Report) (p : Problem) : Problem.Severity :=
  p.severity report.failOnCollision

/-- Whether the run failed. -/
def hasFailures (report : Report) : Bool :=
  report.interrupted || report.problems.any fun p => report.severity p == .failure

/-- The exit status: clean only if there is no problem at all. -/
def exitStatus (report : Report) : ExitStatus :=
  if report.hasFailures then .failure
  else if report.problems.isEmpty then .clean
  else .warnings

/-- What is said about findings that a person has to settle. -/
def manualResolution : String := "NEEDS MANUAL RESOLUTION"

/-! ## JSON -/

/-- The document of a byte range. -/
def spanDoc (span : Text.Span) : JsonDoc :=
  .object [("start", .number span.start), ("end", .number span.stop)]

/-- The document of the counts. -/
def statsDoc (stats : Stats) : JsonDoc :=
  .object [
    ("modules_scanned", .number stats.modulesScanned),
    ("units_scanned", .number stats.unitsScanned),
    ("directives_found", .number stats.directivesFound),
    ("directives_rewritten", .number stats.directivesRewritten),
    ("files_changed", .number stats.filesChanged),
    ("files_written", .number stats.filesWritten)]

/-- The document of one source of a collision. -/
def originDoc (o : Origin) : JsonDoc :=
  .object [("origin", .text o.path), ("line", .number o.line), ("via", .text o.via)]

/-- The document of a collision. -/
def collisionDoc (c : Collision) : JsonDoc :=
  .object [
    ("name", .text c.qualifiedName),
    ("module", .text c.module),
    ("resolution", .text manualResolution),
    ("contributors", .array (c.contributors.map originDoc))]

/-- The document of a directive. -/
def directiveDoc (d : DirectiveRecord) : JsonDoc :=
  .object ([
    ("manifest", .text d.manifest),
    ("module", .text d.module),
    ("line", .number d.line),
    ("span", spanDoc d.span),
    ("target", .text d.target),
    ("status", .text d.status.name),
    ("names", .texts d.names),
    ("withheld", .texts d.withheld)] ++
    JsonDoc.field? "reason" d.reason .text ++
    ("before", .text d.before) ::
    JsonDoc.field? "after" d.after .text)

/-- The document of a manifest. -/
def fileDoc (f : FileRecord) : JsonDoc :=
  .object [("path", .text f.path), ("outcome", .text f.outcome.label)]

/-- The document of a problem. -/
def problemDoc (report : Report) (p : Problem) : JsonDoc :=
  .object ([
    ("kind", .text p.kind),
    ("severity", .text (report.severity p).label)] ++
    JsonDoc.field? "path" p.path? .text ++
    JsonDoc.field? "line" p.line? .number ++
    [("message", .text p.message)])

/-- The document of a timing. -/
def timingDoc (t : Timing) : JsonDoc :=
  .object [("phase", .text t.phase), ("millis", .double t.millis)]

/-- The document of a report. -/
def doc (report : Report) : JsonDoc :=
  .object [
    ("root", .text report.root),
    ("dry_run", .boolean report.dryRun),
    ("fail_on_collision", .boolean report.failOnCollision),
    ("interrupted", .boolean report.interrupted),
    ("stats", statsDoc report.stats),
    ("collisions", .array (report.collisions.map collisionDoc)),
    ("directives", .array (report.directives.map directiveDoc)),
    ("files", .array (report.files.map fileDoc)),
    ("errors", .array (report.problems.map report.problemDoc)),
    ("timings", .array (report.timings.map timingDoc))]

/-! ## Text -/

/-- A remark after the root of a dry run. -/
def dryRunMark (dryRun : Bool) : String :=
  if dryRun then " (dry run)" else ""

/-- The lines of the counts. -/
def statsLines (stats : Stats) : List String := [
  "  modules scanned:      " ++ toString stats.modulesScanned,
  "  units scanned:        " ++ toString stats.unitsScanned,
  "  directives found:     " ++ toString stats.directivesFound,
  "  directives rewritten: " ++ toString stats.directivesRewritten,
  "  files changed:        " ++ toString stats.filesChanged,
  "  files written:        " ++ toString stats.filesWritten]

/-- Names with commas between them. -/
def nameList (names : List String) : String := ", ".intercalate names

/-- The lines of a directive. -/
def directiveLines (d : DirectiveRecord) : List String :=
  let list := if d.status.isListed then " \x7b" ++ nameList d.names ++ "\x7d" else ""
  let reason := d.reason.elim "" fun reason => ": " ++ reason
  let withheld :=
    if d.withheld.isEmpty then []
    else ["    withheld " ++ nameList d.withheld ++ " (" ++ manualResolution ++ ")"]
  ("  " ++ d.manifest ++ ":" ++ toString d.line ++ " `" ++ d.target ++ "` " ++ d.status.label ++
    list ++ reason) :: withheld

/-- The lines of a collision. -/
def collisionLines (c : Collision) : List String :=
  ("  " ++ c.qualifiedName ++ " " ++ manualResolution) ::
    c.contributors.map fun o => "    " ++ o.path ++ ":" ++ toString o.line ++ " via " ++ o.via

/-- The line of a problem. -/
def problemLine (report : Report) (p : Problem) : String :=
  "  " ++ (report.severity p).label ++ ": " ++ p.message

/-- A timing in words. -/
def timingText (t : Timing) : String :=
  t.phase ++ ": " ++ t.millis.hundredths ++ " ms"

/-- Lines under a heading, if there are any. -/
def titled (title : String) (lines : List String) : List String :=
  if lines.isEmpty then [] else "" :: (title ++ ":") :: lines

/-- The lines of a report. -/
def lines (report : Report) : List String :=
  ("export-synth report for " ++ report.root ++ dryRunMark report.dryRun) ::
    statsLines report.stats ++
    titled "directives" (report.directives.flatMap directiveLines) ++
    titled "collisions" (report.collisions.flatMap collisionLines) ++
    titled "errors" (report.problems.map report.problemLine) ++
    titled "timings" (report.timings.map fun t => "  " ++ timingText t) ++
    if report.interrupted then ["", "interrupted: remaining files were not written"] else []

/-- Lines, each with its end. -/
def unlines (lines : List String) : String :=
  String.join (lines.map fun line => line ++ "\n")

/-! ## Writing a report -/

/-- A report in some format. -/
def render (report : Report) : ReportFormat → String
  | .json => report.doc.render
  | .text => unlines report.lines

/-- A report as it is written: it ends with a newline. -/
def written (report : Report) (format : ReportFormat) : String :=
  let text := report.render format
  if text.endsWith "\n" then text else text ++ "\n"

end Report

end Reexport
