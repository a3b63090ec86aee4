import Mathlib.Data.List.Forall2
import Reexport.Proofs.Ambiguity
import Reexport.Proofs.SecondRun
import Reexport.Proofs.Termination

/-!
# What a clean exit means

A job reports on the modules in scope, one record for each of their directives, and its
exit status is clean only if nothing at all is reported. So after a clean exit every
wildcard in scope is carried out. But names can be held back from its list because of a
collision in a module that is not in scope, and that collision is not reported.

Results:

* `planEdits_text_ne`: edits always change a text.
* `run_accounted`: every directive in scope has its record.
* `exit_and_held_back`: what a clean exit says, and which names are held back silently.
* `clean_exit_holds_back`: a clean exit after which a name is held back.
-/

namespace Reexport

open Text

/-! ## Edits change the text -/

namespace Edit

theorem two_le_length_render (newline : List Char) (width : Nat) (names : List String)
    (before after : List Char) : 2 ≤ (render newline width names before after).length := by
  unfold render
  simp only
  split_ifs
  · simp only [oneLine, List.length_cons, List.length_append, List.length_nil]
    omega
  · simp only [wrapped, List.length_cons, List.length_append, List.length_nil]
    omega

theorem two_le_length_rendered? {text : List Char} {width : Nat} {e : Edit} {list : List Char}
    (h : rendered? text width e = some list) : 2 ≤ list.length := by
  obtain ⟨⟨before, after⟩, -, rfl⟩ := Option.map_eq_some_iff.1 h
  exact two_le_length_render _ _ _ _ _

theorem length_le_replaceAt (start : Nat) {list : List Char} (h : 2 ≤ list.length)
    (text : List Char) : text.length ≤ (replaceAt start list text).length := by
  unfold replaceAt
  split
  · rename_i before c after hsplit
    rw [(eq_append_of_split? hsplit).1]
    simp only [List.length_append, List.length_cons]
    omega
  · exact Nat.le_refl _

theorem length_lt_replaceAt {e : Edit} {text list : List Char} {width : Nat}
    (h : rendered? text width e = some list) :
    text.length < (replaceAt e.star.start list text).length := by
  have htwo := two_le_length_rendered? h
  obtain ⟨⟨before, after⟩, haround, -⟩ := Option.map_eq_some_iff.1 h
  unfold around? at haround
  split_ifs at haround with hstar
  obtain ⟨⟨front, back⟩, hsplit, -⟩ := Option.map_eq_some_iff.1 haround
  -- a star stands there, so there is a character to replace
  obtain ⟨c, rest, rfl⟩ : ∃ c rest, back = c :: rest := by
    cases back with
    | cons c rest => exact ⟨c, rest, rfl⟩
    | nil =>
      unfold Span.text? slice? at hstar
      split_ifs at hstar
      simp only [hsplit, Option.bind_eq_bind, Option.bind_some] at hstar
      cases hmiddle : split? (e.star.stop - e.star.start) ([] : List Char) with
      | none => simp [hmiddle] at hstar
      | some p =>
        have hnil := (eq_append_of_split? hmiddle).1
        simp only [hmiddle, Option.bind_some] at hstar
        have : p.1 = ['*'] := by simpa using hstar
        rw [this] at hnil
        cases hnil
  rw [replaceAt, hsplit, (eq_append_of_split? hsplit).1]
  simp only [List.length_append, List.length_cons]
  omega

theorem length_le_applyAll {text : List Char} {width : Nat} : ∀ {edits : List Edit} {out result : List Char},
    applyAll text width edits out = .ok result → out.length ≤ result.length := by
  intro edits
  induction edits with
  | nil =>
    intro out result h
    cases h
    exact Nat.le_refl _
  | cons e rest ih =>
    intro out result h
    rw [applyAll] at h
    cases hlist : rendered? text width e with
    | none => simp [hlist] at h
    | some list =>
      simp only [hlist] at h
      have hfirst := length_le_replaceAt e.star.start (two_le_length_rendered? hlist) out
      exact Nat.le_trans hfirst (ih h)

end Edit

/-- Edits always change a text: a list is longer than a star. -/
theorem planEdits_text_ne {text : String} {edits : List Edit} {width : Nat} {planned : Planned}
    (h : planEdits text edits width = .ok planned) (hne : edits ≠ []) : planned.text ≠ text := by
  simp only [planEdits, bind, Except.bind, pure, Except.pure] at h
  split at h
  · cases h
  · rename_i out happly
    cases h
    cases hback : Edit.backwards edits with
    | nil =>
      have hlength : (Edit.backwards edits).length = edits.length := List.length_mergeSort _
      rw [hback, List.length_nil] at hlength
      exact absurd (List.length_eq_zero_iff.1 hlength.symm) hne
    | cons e rest =>
      rw [hback, Edit.applyAll] at happly
      cases hlist : Edit.rendered? text.toList width e with
      | none => simp [hlist] at happly
      | some list =>
        simp only [hlist] at happly
        have hlt := Edit.length_lt_replaceAt hlist
        have hle := Edit.length_le_applyAll happly
        intro heq
        have hout : (String.ofList out).toList = text.toList := congrArg String.toList heq
        rw [String.toList_ofList] at hout
        have hsize := congrArg List.length hout
        omega

namespace Job

/-! ## Records of a manifest -/

/-- A record is about a directive of a module. -/
structure Tells (m : Module) (d : Directive) (r : DirectiveRecord) : Prop where
  manifest : m.manifest = some r.manifest
  module : r.module = m.qualifiedName
  line : r.line = d.line
  span : r.span = d.span
  target : r.target = d.tree

/-- A record says what became of a plan; `tried` is the status of plans that are carried
    out. -/
structure Told (m : Module) (tried : RecordStatus) (d : Directive) (status : Status)
    (r : DirectiveRecord) : Prop where
  tells : Tells m d r
  carried : status.isReplaced = true → r.status = tried
  withheld : ∀ name, name ∈ r.withheld ↔
    ∃ names withheld, status = .replaced names withheld ∧ name ∈ withheld

theorem record_told {m : Module} {manifest : String} (hmanifest : m.manifest = some manifest)
    (source : String) (attempt : Attempt) (d : Directive) (status : Status) (list? : Option String) :
    Told m attempt.status d status (record m manifest source attempt d status list?) := by
  cases status with
  | replaced names withheld =>
    refine ⟨⟨hmanifest, rfl, rfl, rfl, rfl⟩, fun _ => rfl, fun name => ?_⟩
    simp [record]
  | _ =>
    refine ⟨⟨hmanifest, rfl, rfl, rfl, rfl⟩, ?_, ?_⟩
    · intro hreplaced
      cases hreplaced
    · intro name
      simp [record, plainRecord]

theorem records_told {m : Module} {manifest : String} (hmanifest : m.manifest = some manifest)
    (source : String) (attempt : Attempt) : ∀ (plans : List (Directive × Status)) (lists : List String),
    List.Forall₂ (fun p r => Told m attempt.status p.1 p.2 r) plans
      (records m manifest source attempt plans lists) := by
  intro plans
  induction plans with
  | nil => intro lists; exact .nil
  | cons p rest ih =>
    intro lists
    obtain ⟨d, status⟩ := p
    rw [records]
    split_ifs
    · exact .cons (record_told hmanifest source attempt d status _) (ih _)
    · exact .cons (record_told hmanifest source attempt d status _) (ih _)

/-! ## One module -/

/-- The status of plans that are carried out. -/
def carriedOut (dryRun : Bool) : RecordStatus := if dryRun then .wouldRewrite else .rewritten

/-- Edits are carried out, or there is a problem. -/
theorem attempt_carriedOut {rewriter : Rewriter} (hinterrupted : rewriter.interrupted = false)
    (course : Rewriter.Course) (disk : Disk) (manifest source : String) {edits : List Edit} (hne : edits ≠ [])
    (hproblem : (attempt rewriter course disk manifest source edits).problem? = none) :
    (attempt rewriter course disk manifest source edits).status = carriedOut rewriter.dryRun := by
  have hsome : edits.isEmpty = false := by simpa using hne
  simp only [attempt, hsome, Bool.false_eq_true, if_false, Rewriter.applyIn] at hproblem ⊢
  cases hplan : planEdits source edits rewriter.maxWidth with
  | error offset => simp [hplan, Attempt.problem?] at hproblem
  | ok planned =>
    simp only [hplan, planEdits_text_ne hplan hne, if_false, hinterrupted, Bool.false_eq_true]
      at hproblem ⊢
    cases hdry : rewriter.dryRun with
    | true => rfl
    | false =>
      simp only [hdry, Bool.false_eq_true, if_false] at hproblem ⊢
      rcases Rewriter.exchangeIn_cases course disk manifest source planned.text with
        ⟨place, -, -, -, -, heq⟩ | ⟨-, message, heq⟩
      · rw [heq]
        rfl
      · rw [heq] at hproblem
        cases hproblem

theorem collisions_directives (cs : List Collision) : ∀ (report : Report),
    (cs.foldl Report.addCollision report).directives = report.directives := by
  induction cs with
  | nil => intro report; rfl
  | cons c rest ih => intro report; rw [List.foldl_cons, ih]; rfl

@[simp] theorem addFile_directives (report : Report) (manifest : String) (edits : Nat)
    (outcome : Option FileOutcome) :
    (addFile report manifest edits outcome).directives = report.directives := by
  cases outcome <;> rfl

@[simp] theorem addFile_problems (report : Report) (manifest : String) (edits : Nat)
    (outcome : Option FileOutcome) :
    (addFile report manifest edits outcome).problems = report.problems := by
  cases outcome <;> rfl

section Module

variable (rewriter : Rewriter) (course : Rewriter.Course) (m : Module) (resolved : Resolved)

/-- What comes of the edits of a module. -/
def tried (disk : Disk) : Attempt :=
  match m.manifest, m.source with
  | some manifest, some source =>
    attempt rewriter course disk manifest source (edits (m.directives.zip resolved.plans))
  | _, _ => .idle

/-- The records of the directives of a module. -/
def told (attempt : Attempt) : List DirectiveRecord :=
  match m.manifest, m.source with
  | some manifest, some source =>
    records m manifest source attempt (m.directives.zip resolved.plans) attempt.rendered
  | _, _ => []

theorem rewriteModule_directives (before : Outcome) :
    (rewriteModule rewriter course m resolved before).report.directives =
      before.report.directives ++ told m resolved (tried rewriter course m resolved before.disk) := by
  unfold rewriteModule told tried
  cases m.manifest with
  | none => simp [Report.addProblems, collisions_directives]
  | some manifest =>
    cases m.source with
    | none => simp [Report.addProblems, collisions_directives]
    | some source => simp [rewriteManifest, Report.addProblems, collisions_directives]

theorem rewriteModule_problems (before : Outcome) :
    (rewriteModule rewriter course m resolved before).report.problems =
      before.report.problems ++ findings m resolved ++
        (tried rewriter course m resolved before.disk).problem?.toList := by
  unfold rewriteModule findings tried
  cases m.manifest with
  | none => simp [Report.addProblems, collisions_problems, Attempt.problem?]
  | some manifest =>
    cases m.source with
    | none => simp [Report.addProblems, collisions_problems, Attempt.problem?]
    | some source => simp [rewriteManifest, Report.addProblems, collisions_problems]

variable {m} (hread : m.directives ≠ [] →
  ∃ manifest source, m.manifest = some manifest ∧ m.source = some source)

include hread

theorem told_forall₂ (attempt : Attempt) :
    List.Forall₂ (fun p r => Told m attempt.status p.1 p.2 r) (m.directives.zip resolved.plans)
      (told m resolved attempt) := by
  unfold told
  cases hdirectives : m.directives with
  | nil =>
    split
    · exact .nil
    · exact .nil
  | cons d rest =>
    obtain ⟨manifest, source, hmanifest, hsource⟩ := hread (by simp [hdirectives])
    simp only [hmanifest, hsource]
    exact records_told hmanifest source attempt _ _

theorem tried_carriedOut (hinterrupted : rewriter.interrupted = false) (disk : Disk)
    (hne : edits (m.directives.zip resolved.plans) ≠ [])
    (hproblem : (tried rewriter course m resolved disk).problem? = none) :
    (tried rewriter course m resolved disk).status = carriedOut rewriter.dryRun := by
  obtain ⟨manifest, source, hmanifest, hsource⟩ := hread fun hnil => hne (by rw [hnil]; rfl)
  simp only [tried, hmanifest, hsource] at hproblem ⊢
  exact attempt_carriedOut hinterrupted course disk manifest source hne hproblem

end Module

/-! ## All modules in scope -/

/-- What a report with these problems says about a module: a record for each directive, and
    every finding among the problems. Without problems all edits are carried out. -/
structure Accounted (rewriter : Rewriter) (m : Module) (resolved : Resolved)
    (problems : List Problem) (segment : List DirectiveRecord) : Prop where
  findings : ∀ p ∈ findings m resolved, p ∈ problems
  told : ∃ status, List.Forall₂ (fun p r => Told m status p.1 p.2 r) (m.directives.zip resolved.plans) segment ∧
    (problems = [] → rewriter.interrupted = false → edits (m.directives.zip resolved.plans) ≠ [] →
      status = carriedOut rewriter.dryRun)

theorem rewriteModule_accounted (rewriter : Rewriter) (course : Rewriter.Course) {m : Module}
    (resolved : Resolved) (before : Outcome)
    (hread : m.directives ≠ [] → ∃ manifest source, m.manifest = some manifest ∧ m.source = some source)
    {problems : List Problem}
    (hproblems : ∀ p ∈ (rewriteModule rewriter course m resolved before).report.problems, p ∈ problems) :
    Accounted rewriter m resolved problems (told m resolved (tried rewriter course m resolved before.disk)) := by
  simp only [rewriteModule_problems, List.mem_append] at hproblems
  refine ⟨fun p hp => hproblems p (.inl (.inr hp)), _, told_forall₂ resolved hread _, ?_⟩
  intro hnone hinterrupted hne
  apply tried_carriedOut rewriter course resolved hread hinterrupted before.disk hne
  rw [Option.eq_none_iff_forall_not_mem]
  intro p hp
  have hmem := hproblems p (.inr (by simpa using hp))
  rw [hnone] at hmem
  cases hmem

section Scope

variable (rewriter : Rewriter) (courses : ModuleId → Rewriter.Course) (tree : ModuleTree)
  (resolved : List Resolved)

theorem mem_rewriteAll_problems {p : Problem} : ∀ (ids : List ModuleId) {before : Outcome},
    p ∈ before.report.problems → p ∈ (rewriteAll rewriter courses tree resolved ids before).report.problems := by
  intro ids
  induction ids with
  | nil => intro before hp; exact hp
  | cons id rest ih =>
    intro before hp
    rw [rewriteAll_cons]
    apply ih
    rw [rewriteModule_problems, List.mem_append, List.mem_append]
    exact .inl (.inl hp)

theorem rewriteAll_accounted (hread : ∀ id, (tree.get id).directives ≠ [] →
      ∃ manifest source, (tree.get id).manifest = some manifest ∧ (tree.get id).source = some source)
    {problems : List Problem} : ∀ (ids : List ModuleId) (before : Outcome),
    (∀ p ∈ (rewriteAll rewriter courses tree resolved ids before).report.problems, p ∈ problems) →
    ∃ segments, (rewriteAll rewriter courses tree resolved ids before).report.directives =
        before.report.directives ++ segments.flatten ∧
      List.Forall₂ (fun id segment => Accounted rewriter (tree.get id) (resolved.getD id default)
        problems segment) ids segments := by
  intro ids
  induction ids with
  | nil => intro before _; exact ⟨[], by simp [rewriteAll], .nil⟩
  | cons id rest ih =>
    intro before hproblems
    rw [rewriteAll_cons] at hproblems ⊢
    obtain ⟨segments, hdirectives, haccounted⟩ := ih _ hproblems
    have hfirst := rewriteModule_accounted rewriter (courses id) (resolved.getD id default) before (hread id)
      fun p hp => hproblems p (mem_rewriteAll_problems rewriter courses tree resolved rest hp)
    refine ⟨_ :: segments, ?_, .cons hfirst haccounted⟩
    rw [hdirectives, rewriteModule_directives, List.flatten_cons, List.append_assoc]

theorem rewriteModule_failOnCollision (course : Rewriter.Course) (m : Module) (found : Resolved)
    (before : Outcome) :
    (rewriteModule rewriter course m found before).report.failOnCollision =
      before.report.failOnCollision := by
  have hcollisions : ∀ (cs : List Collision) (report : Report),
      (cs.foldl Report.addCollision report).failOnCollision = report.failOnCollision := by
    intro cs
    induction cs with
    | nil => intro report; rfl
    | cons c rest ih => intro report; rw [List.foldl_cons, ih]; rfl
  have hfile : ∀ (report : Report) (manifest : String) (edits : Nat) (outcome : Option FileOutcome),
      (addFile report manifest edits outcome).failOnCollision = report.failOnCollision := by
    intro report manifest edits outcome
    cases outcome <;> rfl
  unfold rewriteModule
  cases m.manifest with
  | none => exact hcollisions _ _
  | some manifest =>
    cases m.source with
    | none => exact hcollisions _ _
    | some source => exact (hfile _ _ _ _).trans (hcollisions _ _)

theorem rewriteAll_failOnCollision : ∀ (ids : List ModuleId) (before : Outcome),
    (rewriteAll rewriter courses tree resolved ids before).report.failOnCollision =
      before.report.failOnCollision := by
  intro ids
  induction ids with
  | nil => intro before; rfl
  | cons id rest ih =>
    intro before
    rw [rewriteAll_cons, ih, rewriteModule_failOnCollision]

end Scope

/-! ## A whole run -/

theorem exitStatus_eq_clean_iff {report : Report} :
    report.exitStatus = .clean ↔ report.interrupted = false ∧ report.problems = [] := by
  unfold Report.exitStatus Report.hasFailures
  cases hproblems : report.problems with
  | nil => cases report.interrupted <;> simp
  | cons p rest =>
    simp only [List.isEmpty_cons, Bool.false_eq_true, if_false]
    split_ifs <;> simp

theorem exitStatus_eq_failure {report : Report} {p : Problem} (hp : p ∈ report.problems)
    (hfailure : p.severity report.failOnCollision = .failure) : report.exitStatus = .failure := by
  have hany : (report.problems.any fun p => report.severity p == .failure) = true :=
    List.any_eq_true.2 ⟨p, hp, by simp [Report.severity, hfailure]⟩
  simp [Report.exitStatus, Report.hasFailures, hany]

variable {job : Job} {courses : ModuleId → Rewriter.Course} {disk : Disk} {walked : Walked}
  {outcome : Outcome}

theorem run_failOnCollision (hwalk : job.walk disk = .ok walked) (hrun : job.runIn courses disk = .ok outcome) :
    outcome.report.failOnCollision = job.settings.failOnCollision := by
  obtain ⟨walked', hwalk', rfl⟩ := runIn_eq_ok_iff.1 hrun
  rw [hwalk] at hwalk'
  cases hwalk'
  exact rewriteAll_failOnCollision job.rewriter courses walked.surveyed.tree _ (scope walked) _

theorem run_interrupted (hrun : job.runIn courses disk = .ok outcome) :
    outcome.report.interrupted = job.interrupted := by
  obtain ⟨walked', hwalk', rfl⟩ := runIn_eq_ok_iff.1 hrun
  rfl

/-- The problems of a run with one module in scope. -/
theorem run_problems_single (hwalk : job.walk disk = .ok walked) (hrun : job.runIn courses disk = .ok outcome)
    {id : ModuleId} (hscope : scope walked = [id]) :
    outcome.report.problems = walked.surveyed.problems ++
      findings (walked.surveyed.tree.get id) (Resolution.resolvedAt walked.surveyed.tree id) ++
      (tried job.rewriter (courses id) (walked.surveyed.tree.get id)
        (Resolution.resolvedAt walked.surveyed.tree id) disk).problem?.toList := by
  rw [(run_rewriteAll hwalk hrun).2.2, hscope]
  exact rewriteModule_problems _ _ _ _ _

/-- Only modules with a text have directives. -/
theorem walk_read (hwalk : job.walk disk = .ok walked) (id : ModuleId)
    (hne : (walked.surveyed.tree.get id).directives ≠ []) :
    ∃ manifest source, (walked.surveyed.tree.get id).manifest = some manifest ∧
      (walked.surveyed.tree.get id).source = some source := by
  obtain ⟨survey, -, -, hsurvey⟩ := walk_eq_ok_iff.1 hwalk
  cases hsource : (walked.surveyed.tree.get id).source with
  | none => exact absurd (Survey.run_unread hsurvey id hsource) hne
  | some source =>
    obtain ⟨manifest, hmanifest, -⟩ := (walk_keeps hwalk).2 id source hsource
    exact ⟨manifest, source, hmanifest, rfl⟩

/-- Every directive in scope has its record, and every finding is among the problems. -/
theorem run_accounted (hwalk : job.walk disk = .ok walked) (hrun : job.runIn courses disk = .ok outcome) :
    ∃ segments, outcome.report.directives = segments.flatten ∧
      List.Forall₂ (fun id segment => Accounted job.rewriter (walked.surveyed.tree.get id)
        (Resolution.resolvedAt walked.surveyed.tree id) outcome.report.problems segment)
        (scope walked) segments := by
  have hread := walk_read hwalk
  obtain ⟨walked', hwalk', rfl⟩ := runIn_eq_ok_iff.1 hrun
  rw [hwalk] at hwalk'
  cases hwalk'
  exact rewriteAll_accounted job.rewriter courses walked.surveyed.tree (resolve walked.surveyed.tree) hread
    (scope walked) (job.surveyOutcome walked disk) fun p hp => hp

/-- A directive that is no list is carried out unless there is something to report. -/
theorem edit?_of_quiet {d : Directive} {status : Status} (hplan : Resolution.PlanFor d status)
    (hform : ∀ pins, d.form ≠ .explicit pins) (hquiet : status.problem? d = none) :
    status.isReplaced = true ∧ ∃ e, edit? d status = some e := by
  unfold Resolution.PlanFor at hplan
  cases hd : d.form with
  | explicit pins => exact absurd hd (hform pins)
  | ambiguous why =>
    simp only [hd] at hplan
    subst hplan
    cases hquiet
  | wildcard path star =>
    simp only [hd] at hplan
    obtain ⟨names, withheld, rfl⟩ | rfl | rfl | ⟨gap, rfl⟩ := hplan
    · exact ⟨rfl, ⟨star, names⟩, by simp [edit?, hd]⟩
    · cases hquiet
    · cases hquiet
    · cases hquiet

theorem Accounted.carried {rewriter : Rewriter} {m : Module} {resolved : Resolved}
    {segment : List DirectiveRecord} (h : Accounted rewriter m resolved [] segment)
    (hread : m.directives ≠ [] → ∃ manifest source, m.manifest = some manifest ∧ m.source = some source)
    {d : Directive} {status : Status} (hmem : (d, status) ∈ m.directives.zip resolved.plans)
    (hplan : Resolution.PlanFor d status) (hform : ∀ pins, d.form ≠ .explicit pins) :
    status.isReplaced = true ∧ edits (m.directives.zip resolved.plans) ≠ [] := by
  obtain ⟨manifest, source, hmanifest, hsource⟩ := hread (List.ne_nil_of_mem (List.of_mem_zip hmem).1)
  have hquiet : status.problem? d = none := by
    rw [Option.eq_none_iff_forall_not_mem]
    intro p hp
    refine List.not_mem_nil (h.findings p ?_)
    simp only [Job.findings, hmanifest, hsource, List.mem_append, List.mem_filterMap]
    exact .inr ⟨(d, status), hmem, hp⟩
  obtain ⟨hreplaced, e, he⟩ := edit?_of_quiet hplan hform hquiet
  exact ⟨hreplaced, List.ne_nil_of_mem (List.mem_filterMap.2 ⟨(d, status), hmem, he⟩)⟩

theorem exists_of_mem_segments {α β : Type} {R : α → β → Prop} {as : List α} {bs : List β}
    (h : List.Forall₂ R as bs) {b : β} (hb : b ∈ bs) : ∃ a ∈ as, R a b := by
  induction h with
  | nil => cases hb
  | cons hab _ ih =>
    rcases List.mem_cons.1 hb with rfl | hb
    · exact ⟨_, List.mem_cons_self, hab⟩
    · obtain ⟨a, ha, hab⟩ := ih hb
      exact ⟨a, List.mem_cons_of_mem _ ha, hab⟩

theorem forall₂_of_mem {α β : Type} {R S : α → β → Prop} {as : List α} {bs : List β}
    (h : List.Forall₂ R as bs) (hmem : ∀ a ∈ as, ∀ b, R a b → S a b) : List.Forall₂ S as bs := by
  induction h with
  | nil => exact .nil
  | cons hab _ ih =>
    obtain ⟨hfirst, hrest⟩ := List.forall_mem_cons.1 hmem
    exact .cons (hfirst _ hab) (ih hrest)

/-- One record for each directive of a module. After a clean exit all directives that are no
    lists are carried out. -/
theorem Accounted.forall₂ {tree : ModuleTree} (h : tree.WellFormed) {id : ModuleId} (hid : id < tree.size)
    {rewriter : Rewriter} {problems : List Problem} {segment : List DirectiveRecord}
    (hread : (tree.get id).directives ≠ [] →
      ∃ manifest source, (tree.get id).manifest = some manifest ∧ (tree.get id).source = some source)
    (haccounted : Accounted rewriter (tree.get id) (Resolution.resolvedAt tree id) problems segment) :
    List.Forall₂ (fun d r => Tells (tree.get id) d r ∧
      (rewriter.interrupted = false ∧ problems = [] → (∀ pins, d.form ≠ .explicit pins) →
        r.status = carriedOut rewriter.dryRun)) (tree.get id).directives segment := by
  have hplans : List.Forall₂ Resolution.PlanFor (tree.get id).directives
      (Resolution.resolvedAt tree id).plans := by
    rw [Resolution.resolvedAt_eq_record h hid]
    exact (Resolution.effectsOf_effectsAt h hid).plans
  have hzip : (tree.get id).directives =
      ((tree.get id).directives.zip (Resolution.resolvedAt tree id).plans).map Prod.fst :=
    (List.map_fst_zip (Nat.le_of_eq hplans.length_eq)).symm
  obtain ⟨status, htold, hstatus⟩ := haccounted.told
  rw [hzip, List.forall₂_map_left_iff]
  apply forall₂_of_mem htold
  rintro ⟨d, plan⟩ hmem r htold
  refine ⟨htold.tells, ?_⟩
  rintro ⟨hinterrupted, rfl⟩ hform
  obtain ⟨hreplaced, hedits⟩ :=
    haccounted.carried hread hmem (List.forall₂_zip hplans hmem) hform
  rw [htold.carried hreplaced, hstatus rfl hinterrupted hedits]

/-- A name that a record holds back is held back by a plan of a module in scope. -/
theorem withholds_of_record (hwalk : job.walk disk = .ok walked) (hrun : job.runIn courses disk = .ok outcome)
    {r : DirectiveRecord} (hr : r ∈ outcome.report.directives) {name : String} (hname : name ∈ r.withheld) :
    ∃ id ∈ scope walked, ∃ (index : Nat) (d : Directive),
      (walked.surveyed.tree.get id).directives[index]? = some d ∧
      Tells (walked.surveyed.tree.get id) d r ∧
      Resolution.Withholds walked.surveyed.tree id index name := by
  obtain ⟨segments, hdirectives, hsegments⟩ := run_accounted hwalk hrun
  rw [hdirectives, List.mem_flatten] at hr
  obtain ⟨segment, hsegment, hr⟩ := hr
  obtain ⟨id, hid, haccounted⟩ := exists_of_mem_segments hsegments hsegment
  obtain ⟨status, htold, -⟩ := haccounted.told
  obtain ⟨⟨d, plan⟩, hmem, htold⟩ := exists_of_mem_segments htold hr
  obtain ⟨names, withheld, rfl, hwithheld⟩ := (htold.withheld name).1 hname
  obtain ⟨index, hindex⟩ := List.mem_iff_getElem?.1 hmem
  obtain ⟨hd, hplan⟩ := List.getElem?_zip_eq_some.1 hindex
  exact ⟨id, hid, index, d, hd, htold.tells, names, withheld, hplan, hwithheld⟩

/-- Every plan of a module in scope has its record. -/
theorem record_of_plan (hwalk : job.walk disk = .ok walked) (hrun : job.runIn courses disk = .ok outcome)
    {id : ModuleId} (hid : id ∈ scope walked) {d : Directive} {status : Status}
    (hmem : (d, status) ∈ (walked.surveyed.tree.get id).directives.zip
      (Resolution.resolvedAt walked.surveyed.tree id).plans) :
    ∃ r ∈ outcome.report.directives, ∃ tried, Told (walked.surveyed.tree.get id) tried d status r := by
  obtain ⟨segments, hdirectives, hsegments⟩ := run_accounted hwalk hrun
  obtain ⟨segment, hsegment, haccounted⟩ := exists_of_mem_segments hsegments.flip hid
  obtain ⟨tried, htold, -⟩ := haccounted.told
  obtain ⟨r, hr, htold⟩ := exists_of_mem_segments htold.flip hmem
  refine ⟨r, ?_, tried, htold⟩
  rw [hdirectives]
  exact List.mem_flatten.2 ⟨segment, hsegment, hr⟩

/-- A collision in scope is reported. -/
theorem collision_reported (hwalk : job.walk disk = .ok walked) (hrun : job.runIn courses disk = .ok outcome)
    {id : ModuleId} (hid : id ∈ scope walked) {c : Collision}
    (hc : c ∈ (Resolution.resolvedAt walked.surveyed.tree id).collisions) :
    outcome.report.exitStatus ≠ .clean ∧
      (job.settings.failOnCollision = true → outcome.report.exitStatus = .failure) := by
  obtain ⟨segments, -, hsegments⟩ := run_accounted hwalk hrun
  obtain ⟨segment, -, haccounted⟩ := exists_of_mem_segments hsegments.flip hid
  have hproblem : c.problem ∈ outcome.report.problems := by
    apply haccounted.findings
    unfold findings
    rw [List.mem_append, List.mem_append]
    exact .inl (.inl (List.mem_map_of_mem hc))
  constructor
  · intro hclean
    rw [(exitStatus_eq_clean_iff.1 hclean).2] at hproblem
    cases hproblem
  · intro hfail
    apply exitStatus_eq_failure hproblem
    rw [run_failOnCollision hwalk hrun, hfail]
    rfl

/-- **What a clean exit says about names that are held back.** Every directive in scope has
    its record, in order. After a clean exit every wildcard in scope is carried out, and no
    directive in scope is ambiguous. A name that is held back leads back to a collision; if
    that collision is in scope, the exit is not clean, and it is a failure if collisions are
    to be failures. So where all collisions are in scope, as they are without patterns,
    nothing is held back after a clean exit. -/
theorem exit_and_held_back (hwalk : job.walk disk = .ok walked) (hrun : job.runIn courses disk = .ok outcome) :
    (∃ segments, outcome.report.directives = segments.flatten ∧
      List.Forall₂ (fun id segment => List.Forall₂ (fun d r => Tells (walked.surveyed.tree.get id) d r ∧
          (outcome.report.exitStatus = .clean → (∀ pins, d.form ≠ .explicit pins) →
            r.status = carriedOut job.settings.dryRun))
        (walked.surveyed.tree.get id).directives segment) (scope walked) segments) ∧
    (∀ r ∈ outcome.report.directives, ∀ name ∈ r.withheld, ∃ id ∈ scope walked,
      ∃ (index : Nat) (d : Directive), (walked.surveyed.tree.get id).directives[index]? = some d ∧
        Tells (walked.surveyed.tree.get id) d r ∧
        Resolution.Withholds walked.surveyed.tree id index name ∧
        ∃ source known c, Relation.ReflTransGen (Resolution.TakenFrom walked.surveyed.tree)
            (id, name) (source, known) ∧
          Resolution.Collides walked.surveyed.tree source known c ∧
          (source ∈ scope walked → outcome.report.exitStatus ≠ .clean ∧
            (job.settings.failOnCollision = true → outcome.report.exitStatus = .failure))) ∧
    ((∀ id, (Resolution.resolvedAt walked.surveyed.tree id).collisions ≠ [] → id ∈ scope walked) →
      (outcome.report.exitStatus = .clean → ∀ r ∈ outcome.report.directives, r.withheld = []) ∧
      (job.settings.failOnCollision = true → ∀ r ∈ outcome.report.directives, r.withheld ≠ [] →
        outcome.report.exitStatus = .failure)) ∧
    (job.settings.included = [] → ∀ id < walked.surveyed.tree.size, id ∈ scope walked) := by
  have hwf := (walk_keeps hwalk).1.wellFormed
  have hheld : ∀ r ∈ outcome.report.directives, ∀ name ∈ r.withheld, ∃ id ∈ scope walked,
      ∃ (index : Nat) (d : Directive), (walked.surveyed.tree.get id).directives[index]? = some d ∧
        Tells (walked.surveyed.tree.get id) d r ∧
        Resolution.Withholds walked.surveyed.tree id index name ∧
        ∃ source known c, Relation.ReflTransGen (Resolution.TakenFrom walked.surveyed.tree)
            (id, name) (source, known) ∧
          Resolution.Collides walked.surveyed.tree source known c := by
    intro r hr name hname
    obtain ⟨id, hid, index, d, hd, htells, hwithholds⟩ := withholds_of_record hwalk hrun hr hname
    have hlt := hwf.postOrder_lt (List.mem_filter.1 hid).1
    obtain ⟨-, -, e, he, hmarked⟩ := (Resolution.withholds_iff hwf hlt).1 hwithholds
    obtain ⟨source, known, c, hway, hcollides, -⟩ := Resolution.exists_collision hwf he hmarked
    exact ⟨id, hid, index, d, hd, htells, hwithholds, source, known, c, hway, hcollides⟩
  refine ⟨?_, ?_, ?_, ?_⟩
  · obtain ⟨segments, hdirectives, hsegments⟩ := run_accounted hwalk hrun
    refine ⟨segments, hdirectives, forall₂_of_mem hsegments fun id hid segment haccounted => ?_⟩
    have hlt := hwf.postOrder_lt (List.mem_filter.1 hid).1
    refine (haccounted.forall₂ hwf hlt (walk_read hwalk id)).imp fun d r htold => ?_
    rw [exitStatus_eq_clean_iff, run_interrupted hrun]
    exact htold
  · intro r hr name hname
    obtain ⟨id, hid, index, d, hd, htells, hwithholds, source, known, c, hway, hcollides⟩ :=
      hheld r hr name hname
    exact ⟨id, hid, index, d, hd, htells, hwithholds, source, known, c, hway, hcollides, fun hsource =>
      collision_reported hwalk hrun hsource hcollides.recorded⟩
  · intro hall
    have hreported : ∀ r ∈ outcome.report.directives, r.withheld ≠ [] →
        outcome.report.exitStatus ≠ .clean ∧
          (job.settings.failOnCollision = true → outcome.report.exitStatus = .failure) := by
      intro r hr hne
      obtain ⟨name, hname⟩ := List.exists_mem_of_ne_nil _ hne
      obtain ⟨-, -, -, -, -, -, -, source, known, c, -, hcollides⟩ := hheld r hr name hname
      exact collision_reported hwalk hrun (hall source (List.ne_nil_of_mem hcollides.recorded))
        hcollides.recorded
    refine ⟨fun hclean r hr => ?_, fun hfail r hr hne => (hreported r hr hne).2 hfail⟩
    by_contra hne
    exact (hreported r hr hne).1 hclean
  · intro hincluded id hid
    obtain ⟨survey, -, hparse, -⟩ := walk_eq_ok_iff.1 hwalk
    have hnone : walked.included = [] := by
      rw [hincluded] at hparse
      exact (Except.ok.inj hparse).symm
    exact List.mem_filter.2 ⟨hwf.mem_postOrder hid, inScope_of_included hnone _⟩

/-! ## A name that is held back silently -/

/-- Modules `a` and `b` declare `x` and collide in the root, and `c` passes the root on. -/
def quarrel : Disk :=
  ⟨[], [
    (["src"], .dir),
    (["src", "lib.rs"], .file (.text "pub use a::*;\npub use b::*;\n")),
    (["src", "a.rs"], .file (.text "pub fn x() {}\n")),
    (["src", "b.rs"], .file (.text "pub fn x() {}\n")),
    (["src", "c.rs"], .file (.text "pub use super::*;\n"))]⟩

/-- The job for one module, with collisions as failures. -/
def narrow : Job :=
  .ofSettings { Settings.defaults with included := ["crate::c"], failOnCollision := true }

/-- What that job finds. -/
def narrowWalk : Walked :=
  ⟨[⟨['c', 'r', 'a', 't', 'e', ':', ':', 'c'].map .literal⟩], (tangleWalk quarrel).surveyed⟩

theorem walk_quarrel : narrow.walk quarrel = .ok narrowWalk := by
  have hincluded : Glob.parseAll ["crate::c"] =
      .ok [⟨['c', 'r', 'a', 't', 'e', ':', ':', 'c'].map .literal⟩] := by
    simp only [Glob.parseAll, List.mapM_cons, Glob.parse]
    rfl
  have hnames : quarrel.names ["src"] = ["a.rs", "b.rs", "c.rs", "lib.rs"] := by
    rw [names_eq_mergeSort ["lib.rs", "a.rs", "b.rs", "c.rs"] (by decide)]
    simp [List.mergeSort]
  have hlist : Survey.list ⟨"src", Survey.namedDirs, [], none⟩ quarrel "src" ["src"] =
      ⟨[.file "a" "src/a.rs", .file "b" "src/b.rs", .file "c" "src/c.rs", .file "lib" "src/lib.rs"], []⟩ := by
    rw [Survey.list, hnames]
    rfl
  unfold narrowWalk
  exact walk_of_survey rfl hincluded (survey_of_names rfl hlist)

section Quarrel

open Resolution

/-- The tree of modules that it finds. -/
abbrev quarrelTree : ModuleTree := narrowWalk.surveyed.tree

theorem scope_quarrel : scope narrowWalk = [3] := by decide +kernel

theorem plans_quarrel :
    (quarrelTree.get 3).manifest = some "src/c.rs" ∧
      (quarrelTree.get 3).source = some "pub use super::*;\n" ∧
      (quarrelTree.get 3).directives.length = 1 ∧
      (resolvedAt quarrelTree 3).plans = [.replaced [] ["x"]] ∧
      edits ((quarrelTree.get 3).directives.zip (resolvedAt quarrelTree 3).plans) =
        [⟨⟨15, 16⟩, []⟩] := by
  decide +kernel

theorem problems_quarrel :
    narrowWalk.surveyed.problems = [] ∧
      findings (quarrelTree.get 3) (resolvedAt quarrelTree 3) = [] := by
  decide +kernel

theorem tried_quarrel :
    (tried narrow.rewriter .smooth (quarrelTree.get 3) (resolvedAt quarrelTree 3)
      quarrel).problem? = none := by
  obtain ⟨hmanifest, hsource, -, -, hedits⟩ := plans_quarrel
  have hplan : planEdits "pub use super::*;\n" [⟨⟨15, 16⟩, []⟩] narrow.rewriter.maxWidth =
      .ok ⟨"pub use super::\x7b\x7d;\n", ["\x7b\x7d"]⟩ := by
    simp only [planEdits, Edit.backwards, List.mergeSort_singleton]
    rfl
  have hne : ("pub use super::\x7b\x7d;\n" : String) ≠ "pub use super::*;\n" := by decide
  obtain ⟨place, -, hdone⟩ := attempt_due quarrel "src/c.rs" hplan hne rfl rfl rfl
  simp only [tried, hmanifest, hsource, hedits, hdone, Attempt.problem?]

/-- Dry or not, the job holds back `x`. -/
theorem withheld_quarrel {job : Job} {courses : ModuleId → Rewriter.Course} {outcome : Outcome}
    (hwalk : job.walk quarrel = .ok narrowWalk) (hrun : job.runIn courses quarrel = .ok outcome) :
    ∃ r ∈ outcome.report.directives, "x" ∈ r.withheld := by
  obtain ⟨-, -, hlength, hplans, -⟩ := plans_quarrel
  obtain ⟨d, hd⟩ := List.length_eq_one_iff.1 hlength
  have hmem : (d, Status.replaced [] ["x"]) ∈
      (quarrelTree.get 3).directives.zip (resolvedAt quarrelTree 3).plans := by
    rw [hd, hplans]
    exact List.mem_singleton_self _
  obtain ⟨r, hr, tried, htold⟩ := record_of_plan hwalk hrun (scope_quarrel ▸ List.mem_singleton_self _) hmem
  exact ⟨r, hr, (htold.withheld "x").2 ⟨_, _, rfl, List.mem_singleton_self _⟩⟩

/-- The job has a clean exit and holds back `x`. -/
theorem run_quarrel {outcome : Outcome} (hrun : narrow.run quarrel = .ok outcome) :
    outcome.report.exitStatus = .clean ∧ ∃ r ∈ outcome.report.directives, "x" ∈ r.withheld := by
  obtain ⟨hsurveyed, hfindings⟩ := problems_quarrel
  have hproblems : outcome.report.problems = [] := by
    rw [run_problems_single walk_quarrel hrun scope_quarrel, hsurveyed, hfindings, tried_quarrel]
    rfl
  exact ⟨exitStatus_eq_clean_iff.2 ⟨run_interrupted hrun, hproblems⟩, withheld_quarrel walk_quarrel hrun⟩

/-- Though collisions are to be failures, the job has a clean exit and holds back a name. -/
theorem clean_exit_holds_back :
    narrow.settings.failOnCollision = true ∧
      ∃ outcome, narrow.run quarrel = .ok outcome ∧ outcome.report.exitStatus = .clean ∧
        ∃ r ∈ outcome.report.directives, "x" ∈ r.withheld := by
  obtain ⟨outcome, hrun⟩ : ∃ outcome, narrow.run quarrel = .ok outcome :=
    ⟨_, runIn_eq_ok_iff.2 ⟨_, walk_quarrel, rfl⟩⟩
  exact ⟨rfl, outcome, hrun, run_quarrel hrun⟩

/-- The collision that the name leads back to is not in scope. -/
theorem exit_and_held_back_quarrel :
    ∃ outcome, narrow.run quarrel = .ok outcome ∧ outcome.report.exitStatus = .clean ∧
      ∃ r ∈ outcome.report.directives, "x" ∈ r.withheld ∧ ∃ id ∈ scope narrowWalk,
        ∃ source known c, source ∉ scope narrowWalk ∧
          Relation.ReflTransGen (TakenFrom quarrelTree) (id, "x") (source, known) ∧
          Collides quarrelTree source known c := by
  obtain ⟨outcome, hrun⟩ : ∃ outcome, narrow.run quarrel = .ok outcome :=
    ⟨_, runIn_eq_ok_iff.2 ⟨_, walk_quarrel, rfl⟩⟩
  obtain ⟨hclean, r, hr, hname⟩ := run_quarrel hrun
  obtain ⟨-, hheld, -⟩ := exit_and_held_back walk_quarrel hrun
  obtain ⟨id, hid, -, -, -, -, -, source, known, c, hway, hcollides, hreported⟩ := hheld r hr "x" hname
  exact ⟨outcome, hrun, hclean, r, hr, hname, id, hid, source, known, c,
    fun hsource => (hreported hsource).1 hclean, hway, hcollides⟩

end Quarrel

end Job

end Reexport
