import Reexport.Proofs.StarSpans
import Reexport.Proofs.Writes

/-!
# What a run writes

A run writes only what it says: the places that differ afterwards are those that manifests
in scope with replaced wildcards name, each is in the report, and each holds the scanned
text with the stars replaced by lists. No place is written twice, whatever links lead to
it. What fails, at whatever stage of its write, leaves the disk alone and does not keep the
other modules from their turns.

Results:

* `rewrote_of_wrote`: what the turn that writes a place leaves there.
* `refused_after_wrote`: who comes to a written place later is refused.
* `run_writes_what_it_says`: all of this for a whole run.
-/

namespace Reexport.Job

open Text
open Disk (Place)

/-! ## A manifest that is written -/

/-- A run puts the new text of a module at the place that its manifest names: the scanned text
    with the star of each replaced wildcard replaced by its list. The report says so. -/
structure Rewrote (job : Job) (disk : Disk) (walked : Walked) (outcome : Outcome) (id : ModuleId)
    (manifest source : String) (place : Place) : Prop where
  inScope : id ∈ scope walked
  belongs : (walked.surveyed.tree.get id).manifest = some manifest
  scanned : (walked.surveyed.tree.get id).source = some source
  read : disk.readText manifest = .ok source
  named : disk.locate false manifest = .ok place
  replaced : ∃ d names withheld, (d, Status.replaced names withheld) ∈
    (walked.surveyed.tree.get id).directives.zip (Resolution.resolvedAt walked.surveyed.tree id).plans
  recorded : ⟨manifest, .written⟩ ∈ outcome.report.files
  holds : ∃ text, outcome.disk.node? place = some (.file (.text text)) ∧
    Edit.stitched? source.toList job.settings.maxWidth 0
        (editsFor (walked.surveyed.tree.get id) (Resolution.resolvedAt walked.surveyed.tree id))
        (byteSize source.toList) = some text.toList

theorem exists_replaced_of_edits {m : Module} {resolved : Resolved} (h : editsFor m resolved ≠ []) :
    ∃ d names withheld, (d, Status.replaced names withheld) ∈ m.directives.zip resolved.plans := by
  obtain ⟨e, he⟩ := List.exists_mem_of_ne_nil _ h
  obtain ⟨⟨d, status⟩, hmem, he⟩ := List.mem_filterMap.1 he
  simp only [edit?] at he
  split at he
  · exact ⟨d, _, _, hmem⟩
  · cases he

/-- The edits of a module, in the order of its directives, are in the order of their stars. -/
theorem editsFor_increase {job : Job} {disk : Disk} {walked : Walked} (hwalk : job.walk disk = .ok walked)
    {id : ModuleId} {source : String} (hsource : (walked.surveyed.tree.get id).source = some source) :
    Edit.Increase
      (editsFor (walked.surveyed.tree.get id) (Resolution.resolvedAt walked.surveyed.tree id)) := by
  obtain ⟨survey, -, -, hrun⟩ := walk_eq_ok_iff.1 hwalk
  obtain ⟨path, found, hscan, hdirectives⟩ := Survey.run_scanned hrun id source hsource
  apply edits_increase
  rw [hdirectives]
  exact scan_stars hscan

/-- The text that edits lead to, if they are in the order of their stars. -/
theorem stitched_of_plan {source : String} {edits : List Edit} {width : Nat} {planned : Planned}
    (hedits : Edit.Increase edits) (hplan : planEdits source edits width = .ok planned) :
    Edit.stitched? source.toList width 0 edits (byteSize source.toList) = some planned.text.toList := by
  obtain ⟨out, hstitched, hout⟩ :=
    Edit.planEdits_of_fresh (Edit.apart_of_increase hedits) width (Edit.fresh_of_planned hplan)
  obtain rfl := Except.ok.inj (hplan.symm.trans hout)
  rw [Edit.forwards_eq_self hedits] at hstitched
  rw [hstitched, String.toList_ofList]

section Run

variable {job : Job} {courses : ModuleId → Rewriter.Course} {disk : Disk} {walked : Walked}
  {outcome : Outcome}

/-- The turn of a run writes `planned` at a place. -/
abbrev WroteIn (job : Job) (walked : Walked) (disk : Disk) : ModuleId × Attempt → String → String → Planned →
    Place → Prop :=
  TurnWrote job.rewriter walked.surveyed.tree (resolve walked.surveyed.tree) disk

theorem mem_scope_of_turn {turn : ModuleId × Attempt} (h : turn ∈ job.turnsOf courses walked disk) :
    turn.1 ∈ scope walked := by
  rw [← map_fst_turns job.rewriter courses walked.surveyed.tree (resolve walked.surveyed.tree)
    (scope walked) disk]
  exact List.mem_map_of_mem h

/-- What came of the turn of a run is what can come of a turn. -/
theorem turn_of_run (hwalk : job.walk disk = .ok walked) {turn : ModuleId × Attempt}
    (hturn : turn ∈ job.turnsOf courses walked disk) : ∃ now, Turn job.rewriter (courses turn.1)
      (walked.surveyed.tree.get turn.1) (Resolution.resolvedAt walked.surveyed.tree turn.1) now turn.2 := by
  obtain ⟨now, -, htried⟩ := turn_of_mem (walk_keeps hwalk).2 (scope walked) (Kept.refl disk) hturn
  refine ⟨now, ?_⟩
  rw [htried]
  exact tried_turn _ _ _ _ _

variable (hwalk : job.walk disk = .ok walked) (hrun : job.runIn courses disk = .ok outcome)

include hwalk hrun

theorem problem_of_turn {turn : ModuleId × Attempt} (hturn : turn ∈ job.turnsOf courses walked disk)
    {p : Problem} (hfailed : turn.2.problem? = some p) : p ∈ outcome.report.problems := by
  obtain ⟨-, _, rfl, hproblems, -⟩ := run_turns hwalk hrun
  rw [hproblems, reportAfter_problems, List.mem_append]
  refine .inr (List.mem_flatMap.2 ⟨turn, hturn, ?_⟩)
  simp [hfailed]

/-- What the turn that writes a place leaves there. -/
theorem rewrote_of_wrote {turn : ModuleId × Attempt} (hturn : turn ∈ job.turnsOf courses walked disk)
    {manifest source : String} {planned : Planned} {place : Place}
    (hwrote : WroteIn job walked disk turn manifest source planned place) :
    Rewrote job disk walked outcome turn.1 manifest source place := by
  have hfaithful := (walk_keeps hwalk).2
  obtain ⟨hdisk, _, rfl, -, -, -, hfiles, -⟩ := run_turns hwalk hrun
  refine ⟨mem_scope_of_turn hturn, hwrote.ready.manifest, hwrote.ready.source,
    readText_of_faithful hfaithful hwrote.ready.manifest hwrote.ready.source, hwrote.named,
    exists_replaced_of_edits hwrote.ready.edits, ?_, planned.text, ?_, ?_⟩
  · rw [hfiles, reportAfter_files, List.mem_append]
    refine .inr (List.mem_filterMap.2 ⟨turn, hturn, ?_⟩)
    simp [fileRecord?, hwrote.outcome, hwrote.ready.manifest]
  · rw [hdisk]
    exact node?_of_wrote hfaithful (Kept.refl disk) hturn hwrote
  · exact stitched_of_plan (editsFor_increase hwalk hwrote.ready.source) hwrote.plan

/-- A place that differs was written in some turn. -/
theorem wrote_of_differs {place : Place} (hdiffers : outcome.disk.node? place ≠ disk.node? place) :
    ∃ turn ∈ job.turnsOf courses walked disk, ∃ manifest source planned,
      WroteIn job walked disk turn manifest source planned place := by
  have hfaithful := (walk_keeps hwalk).2
  obtain ⟨hdisk, -⟩ := run_turns hwalk hrun
  by_contra hnone
  apply hdiffers
  rw [hdisk]
  refine node?_of_not_wrote hfaithful (scope walked) (Kept.refl disk) ?_
  intro turn hturn manifest source planned hwrote
  exact hnone ⟨turn, hturn, manifest, source, planned, hwrote⟩

/-- After a turn that fails a place is as before, unless it was written in another turn. -/
theorem same_after_failure {front rest : List (ModuleId × Attempt)} {turn : ModuleId × Attempt}
    (hsplit : job.turnsOf courses walked disk = front ++ turn :: rest) {p : Problem}
    (hfailed : turn.2.problem? = some p) (place : Place) : outcome.disk.node? place = disk.node? place ∨
      ∃ other ∈ front ++ rest, ∃ manifest source planned,
        WroteIn job walked disk other manifest source planned place := by
  by_cases hsame : outcome.disk.node? place = disk.node? place
  · exact .inl hsame
  · obtain ⟨other, hother, manifest, source, planned, hwrote⟩ := wrote_of_differs hwalk hrun hsame
    refine .inr ⟨other, ?_, manifest, source, planned, hwrote⟩
    have hne : other ≠ turn := by
      rintro rfl
      obtain ⟨written, hdone⟩ := hwrote.done
      rw [hdone] at hfailed
      cases hfailed
    rw [hsplit, List.mem_append, List.mem_cons] at hother
    rw [List.mem_append]
    exact hother.imp_right fun h => h.resolve_left hne

/-- A file that is reported as written was written. -/
theorem rewrote_of_record {record : FileRecord} (hrecord : record ∈ outcome.report.files)
    (hwritten : record.outcome = .written) :
    ∃ id source place, Rewrote job disk walked outcome id record.path source place := by
  have hfaithful := (walk_keeps hwalk).2
  obtain ⟨-, _, rfl, -, -, -, hfiles, -⟩ := run_turns hwalk hrun
  rw [hfiles, reportAfter_files, List.mem_append] at hrecord
  rcases hrecord with hrecord | hrecord
  · cases hrecord
  · obtain ⟨turn, hturn, hrecord⟩ := List.mem_filterMap.1 hrecord
    obtain ⟨result, hresult, rfl⟩ := Option.map_eq_some_iff.1 hrecord
    simp only at hwritten
    subst hwritten
    obtain ⟨manifest, source, planned, place, hwrote⟩ :=
      wrote_of_outcome hfaithful (Kept.refl disk) hturn hresult
    have hmanifest := hwrote.ready.manifest
    refine ⟨turn.1, source, place, ?_⟩
    simp only [hmanifest, Option.getD_some]
    exact rewrote_of_wrote hwalk hrun hturn hwrote

/-- Whoever comes to a written place later is refused. -/
theorem refused_after_wrote {front rest : List (ModuleId × Attempt)} {turn later : ModuleId × Attempt}
    (hsplit : job.turnsOf courses walked disk = front ++ turn :: rest) (hlater : later ∈ rest)
    {manifest source manifest' source' : String} {planned planned' : Planned} {place : Place}
    (hwrote : WroteIn job walked disk turn manifest source planned place)
    (hready : Ready (walked.surveyed.tree.get later.1)
      (Resolution.resolvedAt walked.surveyed.tree later.1) manifest' source')
    (hplan : planEdits source' (editsFor (walked.surveyed.tree.get later.1)
      (Resolution.resolvedAt walked.surveyed.tree later.1)) job.settings.maxWidth = .ok planned')
    (hnamed : disk.locate false manifest' = .ok place) :
    ∃ message, later.2.problem? = some (.unwritable manifest' message) ∧
      .unwritable manifest' message ∈ outcome.report.problems := by
  have hfaithful := (walk_keeps hwalk).2
  have hmem : later ∈ job.turnsOf courses walked disk := by rw [hsplit]; simp [hlater]
  obtain ⟨_, hturn⟩ := turn_of_run hwalk hmem
  -- the first turn writes, so this is no dry run and nothing stops it
  obtain ⟨_, hfirst⟩ := turn_of_run hwalk (show turn ∈ job.turnsOf courses walked disk by rw [hsplit]; simp)
  obtain ⟨dry, stop, -⟩ := hfirst.of_written hwrote.outcome
  rcases hturn.written_or_refused hready hplan dry stop with ⟨-, -, hdone⟩ | ⟨-, message, hproblem⟩
  · have hlast := (wrote_last hfaithful hwrote (scope walked) (Kept.refl disk) front rest hsplit).2
    exact absurd ⟨hready, hplan, hnamed, hdone⟩ (hlast later hlater manifest' source' planned')
  · exact ⟨message, hproblem, problem_of_turn hwalk hrun hmem hproblem⟩

end Run

/-! ## Whole runs -/

/-- Dry runs and runs that are interrupted write nothing. -/
theorem diskAfter_of_quiet {rewriter : Rewriter} {courses : ModuleId → Rewriter.Course} {tree : ModuleTree}
    {resolved : List Resolved}
    (hquiet : rewriter.dryRun = true ∨ rewriter.interrupted = true) : ∀ (ids : List ModuleId) (disk : Disk),
    diskAfter disk (turns rewriter courses tree resolved ids disk) = disk := by
  intro ids
  induction ids with
  | nil => intro disk; rfl
  | cons id rest ih =>
    intro disk
    rw [turns, diskAfter, List.foldl_cons, ← diskAfter, tried_quiet_disk _ _ _ _ _ hquiet]
    exact ih disk

/-- **A run writes only what it says.** Where something differs afterwards, a manifest in scope
    was written that the report names, and it holds its scanned text with the stars of the
    replaced wildcards replaced by lists. All modules in scope have their turns, each on the
    disk that the turns before it leave. A turn that fails, at whatever stage of its write, is
    reported and leaves the disk alone, and after a place has been written every further attempt
    on it fails. A dry run and a run that is interrupted change nothing. -/
theorem run_writes_what_it_says (job : Job) (courses : ModuleId → Rewriter.Course) (disk : Disk)
    (outcome : Outcome) (hrun : job.runIn courses disk = .ok outcome) : ∃ walked, job.walk disk = .ok walked ∧
    (∀ place, outcome.disk.node? place ≠ disk.node? place →
      ∃ id manifest source, Rewrote job disk walked outcome id manifest source place) ∧
    (∀ record ∈ outcome.report.files, record.outcome = .written →
      ∃ id source place, Rewrote job disk walked outcome id record.path source place) ∧
    outcome.disk = diskAfter disk (job.turnsOf courses walked disk) ∧
    (job.turnsOf courses walked disk).map Prod.fst = scope walked ∧
    (∀ front turn rest, job.turnsOf courses walked disk = front ++ turn :: rest →
      Turn job.rewriter (courses turn.1) (walked.surveyed.tree.get turn.1)
        (Resolution.resolvedAt walked.surveyed.tree turn.1) (diskAfter disk front) turn.2 ∧
      (∀ p, turn.2.problem? = some p → p ∈ outcome.report.problems ∧
        diskAfter disk (front ++ [turn]) = diskAfter disk front ∧
        ∀ place, outcome.disk.node? place = disk.node? place ∨
          ∃ other ∈ front ++ rest, ∃ manifest source planned,
            WroteIn job walked disk other manifest source planned place) ∧
      (∀ manifest source planned place, WroteIn job walked disk turn manifest source planned place →
        ∀ later ∈ rest, ∀ manifest' source' planned',
          Ready (walked.surveyed.tree.get later.1)
            (Resolution.resolvedAt walked.surveyed.tree later.1) manifest' source' →
          planEdits source' (editsFor (walked.surveyed.tree.get later.1)
            (Resolution.resolvedAt walked.surveyed.tree later.1)) job.settings.maxWidth = .ok planned' →
          disk.locate false manifest' = .ok place →
          ∃ message, later.2.problem? = some (.unwritable manifest' message) ∧
            .unwritable manifest' message ∈ outcome.report.problems)) ∧
    (job.settings.dryRun = true ∨ job.interrupted = true → outcome.disk = disk) := by
  obtain ⟨walked, hwalk, -⟩ := runIn_eq_ok_iff.1 hrun
  have hfaithful := (walk_keeps hwalk).2
  obtain ⟨hdisk, -⟩ := run_turns hwalk hrun
  refine ⟨walked, hwalk, fun place hdiffers => ?_, fun record => rewrote_of_record hwalk hrun, hdisk,
    map_fst_turns _ _ _ _ _ _, ?_, fun hquiet => ?_⟩
  · obtain ⟨turn, hturn, manifest, source, planned, hwrote⟩ := wrote_of_differs hwalk hrun hdiffers
    exact ⟨turn.1, manifest, source, rewrote_of_wrote hwalk hrun hturn hwrote⟩
  · intro front turn rest hsplit
    have hmem : turn ∈ job.turnsOf courses walked disk := by rw [hsplit]; simp
    obtain ⟨-, htried⟩ := turn_of_split hfaithful (scope walked) (Kept.refl disk) hsplit
    have hturn : Turn job.rewriter (courses turn.1) (walked.surveyed.tree.get turn.1)
        (Resolution.resolvedAt walked.surveyed.tree turn.1) (diskAfter disk front) turn.2 := by
      rw [htried]
      exact tried_turn _ _ _ _ _
    refine ⟨hturn, fun p hfailed => ⟨problem_of_turn hwalk hrun hmem hfailed, ?_, ?_⟩, ?_⟩
    · simpa [diskAfter] using hturn.disk_of_problem hfailed
    · exact same_after_failure hwalk hrun hsplit hfailed
    · intro manifest source planned place hwrote later hlater manifest' source' planned' hready hplan hnamed
      exact refused_after_wrote hwalk hrun hsplit hlater hwrote hready hplan hnamed
  · rw [hdisk]
    exact diskAfter_of_quiet hquiet (scope walked) disk

/-! ## One file under two names -/

/-- The directory `b` is a link to `a`, so that one file is the manifest of two modules. -/
def twins : Disk :=
  ⟨[], [
    (["src"], .dir),
    (["src", "lib.rs"], .file (.text "")),
    (["src", "a"], .dir),
    (["src", "a", "mod.rs"], .file (.text "pub use crate::c::*;\n")),
    (["src", "b"], .link "a"),
    (["src", "c.rs"], .file (.text "pub fn x() {}\n"))]⟩

/-- What a job finds on a disk with these modules. -/
def twinsWalk (disk : Disk) : Walked where
  included := []
  surveyed := Survey.scanAll disk
    ((((ModuleTree.new "src" (some "src/lib.rs")).addChild 0 "a" (some "src/a") (some "src/a/mod.rs")).addChild 0
      "b" (some "src/b") (some "src/b/mod.rs")).addChild 0 "c" none (some "src/c.rs")) []

theorem walk_of_discovered {disk : Disk} (hroot : disk.find "src" = .ok (["src"], .dir))
    (hfound : Survey.discoverAll ⟨"src", Survey.namedDirs, [], none⟩ disk ["src"] =
      (Survey.plantAll (.new "src" (some "src/lib.rs")) 0
        [.mk "a" (some "src/a") (some "src/a/mod.rs") [], .mk "b" (some "src/b") (some "src/b/mod.rs") [],
          .mk "c" none (some "src/c.rs") []], [])) :
    usual.walk disk = .ok (twinsWalk disk) := by
  refine walk_of_survey rfl rfl ?_
  show Survey.run ⟨"src", Survey.namedDirs, [], none⟩ disk = .ok (twinsWalk disk).surveyed
  unfold Survey.run
  rw [hroot]
  simp only [hfound]
  rfl

theorem walk_twins : usual.walk twins = .ok (twinsWalk twins) := by
  have hnames : twins.names ["src"] = ["a", "b", "c.rs", "lib.rs"] := by
    rw [names_eq_mergeSort ["lib.rs", "a", "b", "c.rs"] (by decide)]
    simp [List.mergeSort]
  have hinner : twins.names ["src", "a"] = ["mod.rs"] := by
    rw [names_eq_mergeSort ["mod.rs"] (by decide)]
    simp
  have hlist : Survey.list ⟨"src", Survey.namedDirs, [], none⟩ twins "src" ["src"] =
      ⟨[.dir "a" "src/a", .dir "b" "src/b", .file "c" "src/c.rs", .file "lib" "src/lib.rs"], []⟩ := by
    rw [Survey.list, hnames]
    rfl
  have hfirst : Survey.list ⟨"src", Survey.namedDirs, [], none⟩ twins "src/a" ["src", "a"] =
      ⟨[.file "mod" "src/a/mod.rs"], []⟩ := by
    rw [Survey.list, hinner]
    rfl
  have hsecond : Survey.list ⟨"src", Survey.namedDirs, [], none⟩ twins "src/b" ["src", "a"] =
      ⟨[.file "mod" "src/b/mod.rs"], []⟩ := by
    rw [Survey.list, hinner]
    rfl
  have hcandidates : Survey.candidates ⟨"src", Survey.namedDirs, [], none⟩ 1
      (Survey.belowRoot ⟨[.dir "a" "src/a", .dir "b" "src/b", .file "c" "src/c.rs",
        .file "lib" "src/lib.rs"], []⟩) =
      [⟨"a", some "src/a", none⟩, ⟨"b", some "src/b", none⟩, ⟨"c", none, some "src/c.rs"⟩] := rfl
  have ha : twins.find "src/a" = .ok (["src", "a"], .dir) := rfl
  have hb : twins.find "src/b" = .ok (["src", "a"], .dir) := rfl
  refine walk_of_discovered rfl ?_
  simp only [Survey.discoverAll, hlist]
  rw [show twins.entries.length + 2 = 8 from rfl, Survey.discover, hcandidates]
  simp only [List.map_cons, List.map_nil, ha, hb, hfirst, hsecond]
  rfl

/-- The modules of that disk. -/
abbrev twinsTree : ModuleTree := (twinsWalk twins).surveyed.tree

theorem scope_twins : scope (twinsWalk twins) = [1, 2, 3, 0] := by decide +kernel

theorem edits_twins : ∀ id ∈ [1, 2],
    (twinsTree.get id).manifest = some (if id = 1 then "src/a/mod.rs" else "src/b/mod.rs") ∧
      (twinsTree.get id).source = some "pub use crate::c::*;\n" ∧
      editsFor (twinsTree.get id) (Resolution.resolvedAt twinsTree id) = [⟨⟨18, 19⟩, ["x"]⟩] := by
  decide +kernel

/-- The text that both modules ask for. -/
def twinsPlan : Planned := ⟨"pub use crate::c::\x7bx\x7d;\n", ["\x7bx\x7d"]⟩

theorem plan_twins {id : ModuleId} (hid : id ∈ [1, 2]) : planEdits "pub use crate::c::*;\n"
    (editsFor (twinsTree.get id) (Resolution.resolvedAt twinsTree id)) 100 = .ok twinsPlan := by
  rw [(edits_twins id hid).2.2]
  simp only [planEdits, Edit.backwards, List.mergeSort_singleton]
  rfl

theorem ready_twins {id : ModuleId} (hid : id ∈ [1, 2]) :
    Ready (twinsTree.get id) (Resolution.resolvedAt twinsTree id)
      (if id = 1 then "src/a/mod.rs" else "src/b/mod.rs") "pub use crate::c::*;\n" := by
  obtain ⟨hmanifest, hsource, hedits⟩ := edits_twins id hid
  exact ⟨hmanifest, hsource, by rw [hedits]; simp⟩

/-- The write of module `1` fails when its text is to reach the disk. -/
def diskFull (id : ModuleId) : Rewriter.Course where
  name := Disk.freeName
  fault? := fun stage => if id = 1 ∧ stage = .sync then some "No space left on device (os error 28)" else none

theorem turns_twins (courses : ModuleId → Rewriter.Course) : ∃ first second rest,
    usual.turnsOf courses (twinsWalk twins) twins = (1, first) :: (2, second) :: rest := by
  have hids : (usual.turnsOf courses (twinsWalk twins) twins).map Prod.fst = [1, 2, 3, 0] :=
    (map_fst_turns _ _ _ _ _ _).trans scope_twins
  obtain ⟨⟨_, first⟩, _, hsplit, rfl, hrest⟩ := List.map_eq_cons_iff.1 hids
  obtain ⟨⟨_, second⟩, rest, rfl, rfl, -⟩ := List.map_eq_cons_iff.1 hrest
  exact ⟨first, second, rest, hsplit⟩

/-- Where all goes well the run writes the file under its first name, and is refused under the
    second. Where the first write fails it is the other way round. -/
theorem run_writes_what_it_says_twins :
    (∃ outcome, usual.run twins = .ok outcome ∧
      outcome.disk.node? ["src", "a", "mod.rs"] = some (.file (.text "pub use crate::c::\x7bx\x7d;\n")) ∧
      ⟨"src/a/mod.rs", .written⟩ ∈ outcome.report.files ∧
      ∃ message, .unwritable "src/b/mod.rs" message ∈ outcome.report.problems) ∧
    ∃ outcome, usual.runIn diskFull twins = .ok outcome ∧
      outcome.disk.node? ["src", "a", "mod.rs"] = some (.file (.text "pub use crate::c::\x7bx\x7d;\n")) ∧
      ⟨"src/b/mod.rs", .written⟩ ∈ outcome.report.files ∧
      ∃ message, .unwritable "src/a/mod.rs" message ∈ outcome.report.problems := by
  have hfirst : Ready (twinsTree.get 1) (Resolution.resolvedAt twinsTree 1) "src/a/mod.rs"
      "pub use crate::c::*;\n" := ready_twins (by simp)
  have hsecond : Ready (twinsTree.get 2) (Resolution.resolvedAt twinsTree 2) "src/b/mod.rs"
      "pub use crate::c::*;\n" := ready_twins (by simp)
  have hplan := plan_twins (show 1 ∈ [1, 2] by simp)
  have hplan' := plan_twins (show 2 ∈ [1, 2] by simp)
  have hnamed : twins.locate false "src/a/mod.rs" = .ok ["src", "a", "mod.rs"] := rfl
  have hnamed' : twins.locate false "src/b/mod.rs" = .ok ["src", "a", "mod.rs"] := rfl
  have hread : twins.readText "src/a/mod.rs" = .ok "pub use crate::c::*;\n" := rfl
  have hread' : twins.readText "src/b/mod.rs" = .ok "pub use crate::c::*;\n" := rfl
  have hfaithful := (walk_keeps walk_twins).2
  constructor
  · obtain ⟨outcome, hrun⟩ : ∃ outcome, usual.run twins = .ok outcome :=
      ⟨_, runIn_eq_ok_iff.2 ⟨_, walk_twins, rfl⟩⟩
    obtain ⟨walked, hwalk, -, -, hdisk, -, hall, -⟩ := run_writes_what_it_says _ _ _ outcome hrun
    obtain rfl := Except.ok.inj (walk_twins.symm.trans hwalk)
    obtain ⟨first, second, rest, hsplit⟩ := turns_twins fun _ => .smooth
    have hmem : (1, first) ∈ usual.turnsOf (fun _ => .smooth) (twinsWalk twins) twins := by rw [hsplit]; simp
    obtain ⟨hturn, -, hlater⟩ := hall [] (1, first) _ hsplit
    rcases hturn.written_or_refused hfirst hplan rfl rfl with ⟨-, -, hdone⟩ | ⟨hcause, -⟩
    · have hwrote : WroteIn usual (twinsWalk twins) twins (1, first) _ _ twinsPlan _ :=
        ⟨hfirst, hplan, hnamed, hdone⟩
      obtain ⟨message, -, hproblem⟩ := hlater _ _ _ _ hwrote (2, second) (by simp) _ _ _ hsecond hplan' hnamed'
      exact ⟨outcome, hrun, by rw [hdisk]; exact node?_of_wrote hfaithful (Kept.refl twins) hmem hwrote,
        (rewrote_of_wrote walk_twins hrun hmem hwrote).recorded, message, hproblem⟩
    · rcases hcause with hcause | hcause
      · exact absurd hread hcause
      · exact absurd (Rewriter.smooth_smooth _ _) hcause
  · obtain ⟨outcome, hrun⟩ : ∃ outcome, usual.runIn diskFull twins = .ok outcome :=
      ⟨_, runIn_eq_ok_iff.2 ⟨_, walk_twins, rfl⟩⟩
    obtain ⟨walked, hwalk, -, -, hdisk, -, hall, -⟩ := run_writes_what_it_says _ _ _ outcome hrun
    obtain rfl := Except.ok.inj (walk_twins.symm.trans hwalk)
    obtain ⟨first, second, rest, hsplit⟩ := turns_twins diskFull
    have hmem : (2, second) ∈ usual.turnsOf diskFull (twinsWalk twins) twins := by rw [hsplit]; simp
    obtain ⟨hturn, hfailed, -⟩ := hall [] (1, first) _ hsplit
    obtain ⟨hturn', -, -⟩ := hall [(1, first)] (2, second) rest hsplit
    have hnot : ¬ (diskFull 1).Smooth twins "src/a/mod.rs" := fun hsmooth => by
      cases hsmooth.passes .sync
    have hsmooth' : (diskFull 2).Smooth twins "src/b/mod.rs" :=
      ⟨fun stage => rfl, fun place _ => twins.node?_freeName place.dropLast⟩
    rcases hturn.written_or_refused hfirst hplan rfl rfl with ⟨-, hsmooth, -⟩ | ⟨-, message, hproblem⟩
    · exact absurd hsmooth hnot
    · obtain ⟨hreported, hsame, -⟩ := hfailed _ hproblem
      rw [show diskAfter twins [(1, first)] = twins from hsame] at hturn'
      rcases hturn'.written_or_refused hsecond hplan' rfl rfl with ⟨-, -, hdone⟩ | ⟨hcause, -⟩
      · have hwrote : WroteIn usual (twinsWalk twins) twins (2, second) _ _ twinsPlan _ :=
          ⟨hsecond, hplan', hnamed', hdone⟩
        exact ⟨outcome, hrun, by rw [hdisk]; exact node?_of_wrote hfaithful (Kept.refl twins) hmem hwrote,
          (rewrote_of_wrote walk_twins hrun hmem hwrote).recorded, message, hreported⟩
      · rcases hcause with hcause | hcause
        · exact absurd hread' hcause
        · exact absurd hsmooth' hcause

end Reexport.Job
