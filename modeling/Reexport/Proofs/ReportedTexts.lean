import Reexport.Proofs.DirectiveSpans
import Reexport.Proofs.WriteRules

/-!
# Reported texts

The record of a directive tells its text before and after a run. That text is not cut out of
the new text of the manifest: it is put together from the scanned one and from the list of the
edit, which is looked up by counting the edits of earlier directives. Still both agree, so the
records of a manifest say exactly what becomes of it.

Results:

* `stitched_spliced`: putting the reported texts in the places of their directives does what
  the edits do.
* `records_reproduce`: what the records of a run say about a manifest.
-/

namespace Reexport

open Source Text

namespace Text

/-! ## Cutting from earlier on -/

theorem slice?_extend {text done gap left : List Char} {stop : Nat} {out : List Char}
    (htext : text = done ++ (gap ++ left)) (h : slice? (byteSize (done ++ gap)) stop text = some out) :
    slice? (byteSize done) stop text = some (gap ++ out) := by
  obtain ⟨before, after, hcut, hstart, hstop⟩ := eq_append_of_slice? h
  obtain ⟨rfl, -⟩ := eq_of_byteSize_eq (hcut.symm.trans (htext.trans (List.append_assoc ..).symm)) hstart
  have hslice := slice?_append done (gap ++ out) after
  have hstop' : byteSize done + byteSize (gap ++ out) = stop := by
    rw [← hstop, byteSize_append, byteSize_append, Nat.add_assoc]
  rw [hstop'] at hslice
  rw [hcut]
  simpa using hslice

/-- The text from byte `start` on, with other texts in the places of spans. The spans are given
    in their order. -/
def spliced? (text : List Char) : (start : Nat) → List (Span × List Char) → Option (List Char)
  | start, [] => slice? start (byteSize text) text
  | start, (span, piece) :: rest => do
    let gap ← slice? start span.start text
    let others ← spliced? text span.stop rest
    return gap ++ (piece ++ others)

end Text

namespace Edit

theorem stitched?_extend {text done gap left : List Char} {width stop : Nat} {out : List Char}
    (htext : text = done ++ (gap ++ left)) {edits : List Edit}
    (h : stitched? text width (byteSize (done ++ gap)) edits stop = some out) :
    stitched? text width (byteSize done) edits stop = some (gap ++ out) := by
  cases edits with
  | nil =>
    rw [stitched?] at h ⊢
    exact slice?_extend htext h
  | cons e rest =>
    simp only [stitched?, Option.bind_eq_bind, Option.bind_eq_some_iff] at h
    obtain ⟨piece, hpiece, list, hlist, others, hothers, heq⟩ := h
    cases heq
    simp [stitched?, slice?_extend htext hpiece, hlist, hothers]

end Edit

/-! ## Directives in a text -/

namespace Directive

variable {d : Directive} {source : List Char}

/-- A text, cut at the ends of a directive. -/
theorem Spans.cut (h : d.Spans source) : ∃ before whole after, source = before ++ (whole ++ after) ∧
    byteSize before = d.span.start ∧ byteSize (before ++ whole) = d.span.stop ∧
    d.span.text? source = some whole := by
  obtain ⟨middle, htext⟩ := h.text
  obtain ⟨before, after, hsource, hstart, hstop⟩ := eq_append_of_slice? htext
  exact ⟨before, _, after, hsource, hstart, by rw [byteSize_append, hstart, hstop], htext⟩

/-- A text, cut at the ends of a wildcard and at its star. -/
structure StarCut (d : Directive) (star : Span) (source before head tail after : List Char) : Prop where
  source : source = before ++ (head ++ '*' :: (tail ++ after))
  start : byteSize before = d.span.start
  star_start : byteSize (before ++ head) = star.start
  star_stop : byteSize (before ++ (head ++ ['*'])) = star.stop
  stop : byteSize (before ++ (head ++ ['*']) ++ tail) = d.span.stop

theorem Spans.cut_star (h : d.Spans source) {star : Span} (hstar : d.star? = some star) :
    ∃ before head tail after, StarCut d star source before head tail after := by
  obtain ⟨hlow, hhigh, hfresh⟩ := h.star star hstar
  obtain ⟨front, back, hfront, hstart, hstop⟩ := (Edit.fresh_iff (e := ⟨star, []⟩)).1 hfresh
  obtain ⟨before, whole, after, hsource, hbefore, hwhole, -⟩ := h.cut
  obtain ⟨head, rfl, -⟩ := exists_append_of_byteSize_le (hsource.symm.trans hfront) (by
    rw [hbefore, hstart]
    exact hlow)
  have hone : byteSize (before ++ (head ++ ['*'])) = star.stop := by
    rw [← List.append_assoc, byteSize_append, hstart, hstop]
    rfl
  have hcut : before ++ (head ++ ['*']) ++ back = before ++ whole ++ after := by
    rw [List.append_assoc before whole, ← hsource, hfront]
    simp
  obtain ⟨tail, hend, rfl⟩ := exists_append_of_byteSize_le hcut (by rw [hone, hwhole]; exact hhigh)
  refine ⟨before, head, tail, after, by simp [hfront], hbefore, hstart, hone, ?_⟩
  rw [← hwhole, hend]

section StarCut

variable {star : Span} {before head tail after : List Char} (h : StarCut d star source before head tail after)

include h

theorem StarCut.source_append : source = before ++ (head ++ ['*']) ++ (tail ++ after) := by
  simp [h.source]

theorem StarCut.one : star.stop = star.start + 1 := by
  rw [← h.star_stop, ← h.star_start, ← List.append_assoc, byteSize_append]
  rfl

theorem StarCut.head_slice : slice? d.span.start star.start source = some head := by
  have hslice := slice?_append before head ('*' :: (tail ++ after))
  rwa [← byteSize_append, h.start, h.star_start, ← h.source] at hslice

theorem StarCut.tail_slice : slice? star.stop d.span.stop source = some tail := by
  have hslice := slice?_append (before ++ (head ++ ['*'])) tail after
  rwa [← byteSize_append, h.stop, h.star_stop, ← h.source_append] at hslice

end StarCut

end Directive

namespace Job

/-! ## What a record shows -/

/-- What a record says about the text of its directive: its text in the scanned file, and for a
    wildcard that is replaced that text with the list of just its names in the place of its
    star. -/
structure Shows (m : Module) (source : List Char) (width : Nat) (d : Directive) (status : Status)
    (r : DirectiveRecord) : Prop where
  tells : Tells m d r
  before : r.span.text? source = some r.before.toList
  after_isSome : r.after.isSome = true ↔ status.isReplaced = true
  list : ∀ names withheld, status = .replaced names withheld → r.names = names ∧
    ∃ star head list tail, d.star? = some star ∧ slice? d.span.start star.start source = some head ∧
      slice? star.stop d.span.stop source = some tail ∧
      Edit.rendered? source width ⟨star, names⟩ = some list ∧
      r.after = some (String.ofList (head ++ (list ++ tail)))

/-- The reported text of a directive after a run. -/
def textAfter (r : DirectiveRecord) : Span × List Char := (r.span, (r.after.getD r.before).toList)

theorem edit?_of_star {d : Directive} {star : Span} (h : d.star? = some star) (names withheld : List String) :
    edit? d (.replaced names withheld) = some ⟨star, names⟩ := by
  unfold Directive.star? at h
  unfold edit?
  split at h
  · rename_i hform
    cases h
    simp only [hform]
  · cases h

theorem edit?_of_not_replaced (d : Directive) {status : Status} (h : status.isReplaced = false) :
    edit? d status = none := by
  cases status with
  | replaced => cases h
  | _ => rfl

theorem star_of_planFor {d : Directive} {names withheld : List String}
    (h : Resolution.PlanFor d (.replaced names withheld)) : ∃ path star, d.form = .wildcard path star := by
  unfold Resolution.PlanFor at h
  cases hform : d.form with
  | wildcard path star => exact ⟨path, star, rfl⟩
  | explicit pins => simp [hform] at h
  | ambiguous why => simp [hform] at h

/-- The records of a manifest, where the list of an edit is known from the edit alone: each
    directive gets the list of its own edit. -/
theorem records_eq_map (m : Module) (manifest source : String) (attempt : Attempt) (list : Edit → String) :
    ∀ (plans : List (Directive × Status)), records m manifest source attempt plans ((edits plans).map list) =
      plans.map fun p => record m manifest source attempt p.1 p.2 ((edit? p.1 p.2).map list) := by
  intro plans
  induction plans with
  | nil => rfl
  | cons p rest ih =>
    obtain ⟨d, status⟩ := p
    rw [records, List.map_cons]
    cases hedit : edit? d status with
    | none =>
      have hedits : edits ((d, status) :: rest) = edits rest := List.filterMap_cons_none hedit
      rw [hedits, ih]
      rfl
    | some e =>
      have hedits : edits ((d, status) :: rest) = e :: edits rest := List.filterMap_cons_some hedit
      rw [hedits, List.map_cons, List.tail_cons, ih]
      rfl

theorem sliceOf_of_slice? {source : String} {start stop : Nat} {cs : List Char}
    (h : slice? start stop source.toList = some cs) : sliceOf source start stop = String.ofList cs := by
  rw [sliceOf, h]
  rfl

/-- Records show the texts of their directives. -/
theorem record_shows {m : Module} {manifest source : String} (hmanifest : m.manifest = some manifest)
    (attempt : Attempt) (width : Nat) {d : Directive} {status : Status} (hspans : d.Spans source.toList)
    (hplan : Resolution.PlanFor d status) :
    Shows m source.toList width d status (record m manifest source attempt d status
      ((edit? d status).map (Edit.listFor source width))) := by
  have htold := record_told hmanifest source attempt d status ((edit? d status).map (Edit.listFor source width))
  obtain ⟨before, whole, after, hsource, hstart, hstop, htext⟩ := hspans.cut
  have hbefore : sliceOf source d.span.start d.span.stop = String.ofList whole := sliceOf_of_slice? htext
  cases status with
  | replaced names withheld =>
    obtain ⟨path, star, hform⟩ := star_of_planFor hplan
    have hstar : d.star? = some star := by simp only [Directive.star?, hform]
    obtain ⟨before, head, tail, after, hcut⟩ := hspans.cut_star hstar
    obtain ⟨list, hlist⟩ := Option.isSome_iff_exists.1
      ((Edit.rendered?_isSome_iff (e := ⟨star, names⟩) width).2 (hspans.star star hstar).2.2)
    have hedit := edit?_of_star hstar names withheld
    refine ⟨htold.tells, ?_, ?_, ?_⟩
    · show d.span.text? _ = some (sliceOf source d.span.start d.span.stop).toList
      rw [hbefore, String.toList_ofList, htext]
    · simp [record, hedit, Status.isReplaced]
    · intro names' withheld' heq
      cases heq
      refine ⟨rfl, star, head, list, tail, hstar, hcut.head_slice, hcut.tail_slice, hlist, ?_⟩
      simp only [record, hedit, Option.map_some, directiveWith, hform, Edit.listFor, hlist, Option.getD_some,
        sliceOf_of_slice? hcut.head_slice, sliceOf_of_slice? hcut.tail_slice, String.ofList_append, String.append_assoc]
  | _ =>
    refine ⟨htold.tells, ?_, ?_, ?_⟩
    · show d.span.text? _ = some (sliceOf source d.span.start d.span.stop).toList
      rw [hbefore, String.toList_ofList, htext]
    · simp [record, plainRecord, Status.isReplaced]
    · intro names withheld heq
      cases heq

/-! ## All records of a manifest -/

/-- Putting the reported texts in the places of their directives does what the edits do: from
    any place on that no directive has passed. -/
theorem stitched_spliced {m : Module} {source : List Char} {width : Nat} {plans : List (Directive × Status)}
    {segment : List DirectiveRecord}
    (hshows : List.Forall₂ (fun p r => Shows m source width p.1 p.2 r) plans segment) :
    (∀ p ∈ plans, p.1.Spans source) → (plans.Pairwise fun p q => p.1.span.stop ≤ q.1.span.start) →
    ∀ {done left : List Char}, source = done ++ left → (∀ p ∈ plans, byteSize done ≤ p.1.span.start) →
    ∃ out, Edit.stitched? source width (byteSize done) (edits plans) (byteSize source) = some out ∧
      spliced? source (byteSize done) (segment.map textAfter) = some out := by
  induction hshows with
  | nil =>
    intro _ _ done left hsource _
    have hslice := slice?_append done left []
    rw [← byteSize_append, List.append_nil, ← hsource] at hslice
    exact ⟨left, hslice, hslice⟩
  | @cons p r plans segment hshow _ ih =>
    intro hspans hpairwise done left hsource hlow
    obtain ⟨d, status⟩ := p
    obtain ⟨hspan, hspans⟩ := List.forall_mem_cons.1 hspans
    obtain ⟨hbehind, hpairwise⟩ := List.pairwise_cons.1 hpairwise
    obtain ⟨before, whole, after, hcut, hstart, hstop, htext⟩ := hspan.cut
    obtain ⟨gap, rfl, hleft⟩ := exists_append_of_byteSize_le (hsource.symm.trans hcut) (by
      rw [hstart]
      exact hlow _ List.mem_cons_self)
    have hrest : source = done ++ gap ++ whole ++ after := by simp [hcut]
    obtain ⟨out, hstitched, hspliced⟩ := ih hspans hpairwise hrest fun q hq => by
      rw [hstop]
      exact hbehind q hq
    have hgap : slice? (byteSize done) d.span.start source = some gap := by
      have hslice := slice?_append done gap (whole ++ after)
      rwa [← byteSize_append, hstart, ← List.append_assoc, ← hcut] at hslice
    -- the reported texts, whatever the one of this directive is
    have hpieces : spliced? source (byteSize done) ((r :: segment).map textAfter) =
        some (gap ++ ((textAfter r).2 ++ out)) := by
      rw [hstop] at hspliced
      simp [spliced?, textAfter, hshow.tells.span, hgap, hspliced]
    refine ⟨_, ?_, hpieces⟩
    cases hreplaced : status.isReplaced with
    | false =>
      have hafter : r.after = none := by
        rw [← Option.not_isSome_iff_eq_none, hshow.after_isSome, hreplaced]
        simp
      have hbefore : r.before.toList = whole := by
        have := hshow.before
        rw [hshow.tells.span, htext] at this
        exact (Option.some.inj this).symm
      have hedits : edits ((d, status) :: plans) = edits plans :=
        List.filterMap_cons_none (edit?_of_not_replaced d hreplaced)
      rw [hedits, textAfter, hafter, Option.getD_none, hbefore, ← List.append_assoc]
      rw [List.append_assoc done] at hstitched
      exact Edit.stitched?_extend (show source = done ++ (gap ++ whole ++ after) by simp [hcut]) hstitched
    | true =>
      obtain ⟨names, withheld, rfl⟩ := Resolution.isReplaced_iff.1 hreplaced
      obtain ⟨-, star, head, list, tail, hstar, hhead, htail, hlist, hafter⟩ := hshow.list names withheld rfl
      obtain ⟨before, head', tail', after', hstarcut⟩ := hspan.cut_star hstar
      obtain rfl := Option.some.inj (hhead.symm.trans hstarcut.head_slice)
      obtain rfl := Option.some.inj (htail.symm.trans hstarcut.tail_slice)
      obtain ⟨rfl, -⟩ := eq_of_byteSize_eq (hcut.symm.trans hstarcut.source) (hstart.trans hstarcut.start.symm)
      have hedits : edits ((d, Status.replaced names withheld) :: plans) = ⟨star, names⟩ :: edits plans :=
        List.filterMap_cons_some (edit?_of_star hstar names withheld)
      have hpiece : slice? (byteSize done) star.start source = some (gap ++ head) := by
        rw [← hstart] at hhead
        exact slice?_extend (hcut.trans (List.append_assoc ..)) hhead
      have hothers : Edit.stitched? source width (star.start + 1) (edits plans) (byteSize source) =
          some (tail ++ out) := by
        rw [hstop, ← hstarcut.stop] at hstitched
        rw [← hstarcut.one, ← hstarcut.star_stop]
        exact Edit.stitched?_extend hstarcut.source_append hstitched
      rw [hedits, textAfter, hafter, Option.getD_some, String.toList_ofList]
      simp [Edit.stitched?, hpiece, hlist, hothers]

/-! ## One module -/

section Module

variable {m : Module} {resolved : Resolved} {manifest source : String} {applied : Applied} {width : Nat}
  (hmanifest : m.manifest = some manifest) (hsource : m.source = some source)
  (hplan : planEdits source (editsFor m resolved) width = .ok applied.planned)

include hmanifest hsource hplan

/-- Every directive gets the list of its own edit. -/
theorem told_eq_map : told m resolved (.done applied) = (m.directives.zip resolved.plans).map fun p =>
    record m manifest source (.done applied) p.1 p.2 ((edit? p.1 p.2).map (Edit.listFor source width)) := by
  rw [← records_eq_map]
  simp only [told, hmanifest, hsource, Attempt.rendered, Edit.rendered_of_planned hplan]
  rfl

variable (hplans : List.Forall₂ Resolution.PlanFor m.directives resolved.plans)

include hplans

/-- The records of a module whose edits are applied reproduce its planned text. -/
theorem told_reproduces {path : String} {found : Scan} (hscan : scan path source = .ok found)
    (hfound : m.directives = found.directives)
    (hmark : withoutMark (withoutMark source.toList) = withoutMark source.toList) :
    List.Forall₂ (fun p r => Shows m source.toList width p.1 p.2 r) (m.directives.zip resolved.plans)
      (told m resolved (.done applied)) ∧
    spliced? source.toList 0 ((told m resolved (.done applied)).map textAfter) =
      some applied.planned.text.toList := by
  obtain ⟨hspans, hincrease, -⟩ := scan_spans hmark hscan
  rw [← hfound] at hspans hincrease
  have hzipped : ∀ p ∈ m.directives.zip resolved.plans, p.1.Spans source.toList := fun p hp =>
    hspans p.1 (List.of_mem_zip hp).1
  have hshows : List.Forall₂ (fun p r => Shows m source.toList width p.1 p.2 r)
      (m.directives.zip resolved.plans) (told m resolved (.done applied)) := by
    rw [told_eq_map hmanifest hsource hplan, List.forall₂_map_right_iff, List.forall₂_same]
    intro p hp
    exact record_shows hmanifest _ width (hzipped p hp) (List.forall₂_zip hplans hp)
  refine ⟨hshows, ?_⟩
  rw [← List.map_fst_zip (Nat.le_of_eq hplans.length_eq)] at hincrease
  obtain ⟨out, hstitched, hspliced⟩ := stitched_spliced hshows hzipped (List.pairwise_map.1 hincrease)
    (List.nil_append source.toList).symm fun _ _ => Nat.zero_le _
  have hedits : Edit.Increase (editsFor m resolved) := by
    refine edits_increase ?_
    rw [hfound]
    exact scan_stars hscan
  obtain rfl := Option.some.inj (hstitched.symm.trans (stitched_of_plan hedits hplan))
  exact hspliced

end Module

/-! ## Whole runs -/

/-- Edits that are applied are planned. -/
theorem Turn.of_done {rewriter : Rewriter} {course : Rewriter.Course} {m : Module} {resolved : Resolved}
    {disk : Disk} {applied : Applied} (h : Turn rewriter course m resolved disk (.done applied)) : ∃ manifest source,
      Ready m resolved manifest source ∧
      planEdits source (editsFor m resolved) rewriter.maxWidth = .ok applied.planned := by
  cases h with
  | planned ready plan => exact ⟨_, _, ready, plan⟩
  | interrupted ready plan => exact ⟨_, _, ready, plan⟩
  | written ready plan => exact ⟨_, _, ready, plan⟩

/-- **The reported texts reproduce the file.** The report has the records of each module's turn,
    one for each of its directives. Where edits are applied, replacing in the scanned text the
    text of each directive by the reported one gives the planned text. A record tells a new text
    exactly if its wildcard is replaced, and then with the list that is rendered for the names
    of that very directive. -/
theorem records_reproduce {job : Job} {courses : ModuleId → Rewriter.Course} {disk : Disk} {walked : Walked}
    {outcome : Outcome} (hwalk : job.walk disk = .ok walked) (hrun : job.runIn courses disk = .ok outcome)
    {turn : ModuleId × Attempt} (hturn : turn ∈ job.turnsOf courses walked disk) {applied : Applied}
    (hdone : turn.2 = .done applied) :
    let tree := walked.surveyed.tree
    let directives := (tree.get turn.1).directives
    let plans := (Resolution.resolvedAt tree turn.1).plans
    let segment := told (tree.get turn.1) (Resolution.resolvedAt tree turn.1) turn.2
    outcome.report.directives = (job.turnsOf courses walked disk).flatMap (fun turn =>
      told (tree.get turn.1) (Resolution.resolvedAt tree turn.1) turn.2) ∧
    ∃ manifest source, (tree.get turn.1).manifest = some manifest ∧ (tree.get turn.1).source = some source ∧
      ⟨manifest, applied.outcome⟩ ∈ outcome.report.files ∧
      planEdits source (edits (directives.zip plans)) job.settings.maxWidth = .ok applied.planned ∧
      plans.length = directives.length ∧ segment.length = directives.length ∧
      (withoutMark (withoutMark source.toList) = withoutMark source.toList →
        List.Forall₂ (fun p r => Shows (tree.get turn.1) source.toList job.settings.maxWidth p.1 p.2 r)
          (directives.zip plans) segment ∧
        spliced? source.toList 0 (segment.map textAfter) = some applied.planned.text.toList) := by
  intro tree directives plans segment
  obtain ⟨-, _, rfl, -, -, hdirectives, hfiles, -⟩ := run_turns hwalk hrun
  obtain ⟨_, hcame⟩ := turn_of_run hwalk hturn
  rw [hdone] at hcame
  obtain ⟨manifest, source, ⟨hmanifest, hsource, -⟩, hplan⟩ := hcame.of_done
  have hplans : List.Forall₂ Resolution.PlanFor directives plans :=
    plans_of_scope hwalk (mem_scope_of_turn hturn)
  have hlength := hplans.length_eq
  have hsegment : segment = told (tree.get turn.1) (Resolution.resolvedAt tree turn.1) (.done applied) := by
    rw [← hdone]
  refine ⟨?_, manifest, source, hmanifest, hsource, ?_, hplan, hlength.symm, ?_, fun hmark => ?_⟩
  · rw [hdirectives, reportAfter_directives]
    rfl
  · rw [hfiles, reportAfter_files, List.mem_append]
    refine .inr (List.mem_filterMap.2 ⟨turn, hturn, ?_⟩)
    rw [fileRecord?, show (walked.surveyed.tree.get turn.1).manifest = some manifest from hmanifest, hdone]
    rfl
  · rw [hsegment, told_eq_map hmanifest hsource hplan, List.length_map, List.length_zip]
    exact Nat.min_eq_left (Nat.le_of_eq hlength)
  · obtain ⟨survey, -, -, hsurvey⟩ := walk_eq_ok_iff.1 hwalk
    obtain ⟨path, found, hscan, hfound⟩ := Survey.run_scanned hsurvey turn.1 source hsource
    rw [hsegment]
    exact told_reproduces hmanifest hsource hplan hplans hscan hfound hmark

/-- The records of `src/a.rs` in a run that writes it. -/
theorem records_reproduce_tangle : ∃ outcome, usual.run tangle = .ok outcome ∧
    withoutMark (withoutMark "pub use super::c::*;\n".toList) = withoutMark "pub use super::c::*;\n".toList ∧
    ∃ turn ∈ usual.turnsOf (fun _ => .smooth) (tangleWalk tangle) tangle, ∃ applied, turn.2 = .done applied ∧
      spliced? "pub use super::c::*;\n".toList 0
        ((told ((tangleTree tangle).get turn.1) (Resolution.resolvedAt (tangleTree tangle) turn.1) turn.2).map
          textAfter) = some "pub use super::c::{x};\n".toList := by
  obtain ⟨outcome, hrun⟩ : ∃ outcome, usual.run tangle = .ok outcome :=
    ⟨_, runIn_eq_ok_iff.2 ⟨_, walk_tangle, rfl⟩⟩
  obtain ⟨hmanifest, hsource, hedits⟩ := edits_tangle
  have hturn : (1, .done ⟨.written, ⟨"pub use super::c::{x};\n", ["{x}"]⟩, tangleOnce⟩) ∈
      usual.turnsOf (fun _ => .smooth) (tangleWalk tangle) tangle := by
    have htried : tried usual.rewriter .smooth ((tangleTree tangle).get 1)
        ((resolve (tangleTree tangle)).getD 1 default) tangle =
        .done ⟨.written, ⟨"pub use super::c::{x};\n", ["{x}"]⟩, tangleOnce⟩ := by
      simp only [tried, hmanifest, hsource, hedits, attempt_tangle]
    rw [turnsOf, scope_tangle, turns, ← htried]
    exact List.mem_cons_self
  have hmark : withoutMark (withoutMark "pub use super::c::*;\n".toList) =
      withoutMark "pub use super::c::*;\n".toList := by decide
  obtain ⟨-, manifest, source, -, hsource', -, -, -, -, hsplice⟩ :=
    records_reproduce walk_tangle hrun hturn rfl
  obtain rfl := Option.some.inj (hsource.symm.trans hsource')
  exact ⟨outcome, hrun, hmark, _, hturn, _, rfl, (hsplice hmark).2⟩

end Job

end Reexport
