import Reexport.Proofs.CleanExit
import Reexport.Proofs.Splicing

/-!
# Applying edits completely or not at all

Edits are applied in a fixed order of steps: they are planned, then a dry run or an
interrupted run stops, then the file is exchanged stage by stage. Whichever step is the last
one, the disk holds either the planned text in the place of the scanned one or what it held.

Results:

* `applyIn_smooth`: where no stage fails it does not matter how the stages go.
* `finished_applyIn`: what can come of applying edits.
* `apply_all_or_nothing`: what every result of applying edits says about the disk.
-/

namespace Reexport

namespace Rewriter

variable {course : Course} {disk : Disk} {path analysed : String}

/-- Where no stage fails edits are applied as `apply` does it. -/
theorem applyIn_smooth (rewriter : Rewriter) (h : course.Smooth disk path) (analysed : String) (edits : List Edit) :
    rewriter.applyIn course disk path analysed edits =
      match rewriter.apply disk path analysed edits with
      | .ok applied => (.ok (applied.outcome, applied.planned), applied.disk)
      | .error p => (.error p, disk) := by
  unfold apply applyIn
  cases planEdits analysed edits rewriter.maxWidth with
  | error offset => rfl
  | ok planned =>
    simp only
    split_ifs
    · rfl
    · rfl
    · rfl
    · have hsmooth := smooth_smooth disk path
      rw [exchangeIn_of_smooth h, ← exchangeIn_of_smooth hsmooth]
      rcases exchangeIn_cases .smooth disk path analysed planned.text with
        ⟨place, -, -, -, -, heq⟩ | ⟨-, message, heq⟩
      · rw [heq]
        rfl
      · rw [heq]
        rfl

/-- What can come of applying edits. -/
inductive Finished (rewriter : Rewriter) (disk : Disk) (path analysed : String) (edits : List Edit) :
    Except Problem (FileOutcome × Planned) × Disk → Prop where
  | failed (p : Problem) : Finished rewriter disk path analysed edits (.error p, disk)
  | unchanged {planned : Planned} (plan : planEdits analysed edits rewriter.maxWidth = .ok planned)
      (same : planned.text = analysed) :
      Finished rewriter disk path analysed edits (.ok (.unchanged, planned), disk)
  | planned {planned : Planned} (plan : planEdits analysed edits rewriter.maxWidth = .ok planned)
      {outcome : FileOutcome} (changed : outcome ≠ .unchanged) (unwritten : outcome ≠ .written) :
      Finished rewriter disk path analysed edits (.ok (outcome, planned), disk)
  | written {planned : Planned} (plan : planEdits analysed edits rewriter.maxWidth = .ok planned)
      (differs : planned.text ≠ analysed) (dry : rewriter.dryRun = false) (stop : rewriter.interrupted = false)
      (read : disk.readText path = .ok analysed) {place : Disk.Place} (named : disk.locate false path = .ok place) :
      Finished rewriter disk path analysed edits
        (.ok (.written, planned), disk.put place (.file (.text planned.text)))

theorem finished_applyIn (rewriter : Rewriter) (course : Course) (disk : Disk) (path analysed : String)
    (edits : List Edit) :
    Finished rewriter disk path analysed edits (rewriter.applyIn course disk path analysed edits) := by
  unfold applyIn
  cases hplan : planEdits analysed edits rewriter.maxWidth with
  | error offset => exact .failed _
  | ok planned =>
    simp only
    split_ifs with hsame hdry hstop
    · exact .unchanged hplan hsame
    · exact .planned hplan (by simp) (by simp)
    · exact .planned hplan (by simp) (by simp)
    · have hexchanged := exchanged_exchangeIn course disk path analysed planned.text
      generalize exchangeIn course disk path analysed planned.text = exchanged at hexchanged ⊢
      cases hexchanged with
      | failed message => exact .failed _
      | done read named => exact .written hplan hsame (by simpa using hdry) (by simpa using hstop) read named

/-- **Edits are applied completely or not at all.** A manifest is written only if it still holds
    the text that was scanned, writing is allowed, every edit finds its star and the text
    changes; then its path names a regular file with the new text, and every other place holds
    what it held. Whatever else comes of it, a failed stage included, the disk is as it was. With
    edits to apply the text always changes. Where no stage fails, all this is what `apply` does. -/
theorem apply_all_or_nothing (rewriter : Rewriter) (course : Course) (disk : Disk) (path analysed : String)
    (edits : List Edit) {result : Except Problem (FileOutcome × Planned)} {after : Disk}
    (h : rewriter.applyIn course disk path analysed edits = (result, after)) :
    (∀ planned, result = .ok (.written, planned) →
      disk.readText path = .ok analysed ∧ rewriter.dryRun = false ∧ rewriter.interrupted = false ∧
      (∀ e ∈ edits, e.star.text? analysed.toList = some ['*']) ∧ planned.text ≠ analysed ∧
      ∃ place, disk.locate false path = .ok place ∧ after.locate false path = .ok place ∧
        after.node? place = some (.file (.text planned.text)) ∧ after.readText path = .ok planned.text ∧
        ∀ other, other ≠ place → after.node? other = disk.node? other) ∧
    ((∀ planned, result ≠ .ok (.written, planned)) → after = disk) ∧
    (edits ≠ [] → ∀ planned, result ≠ .ok (.unchanged, planned)) ∧
    (course.Smooth disk path → (result, after) =
      match rewriter.apply disk path analysed edits with
      | .ok applied => (.ok (applied.outcome, applied.planned), applied.disk)
      | .error p => (.error p, disk)) := by
  have hfinished := finished_applyIn rewriter course disk path analysed edits
  have hsmooth : course.Smooth disk path → _ := fun hcourse => applyIn_smooth rewriter hcourse analysed edits
  rw [h] at hfinished hsmooth
  refine ⟨fun planned hresult => ?_, fun hresult => ?_, fun hedits planned hresult => ?_, hsmooth⟩
  · cases hfinished with
    | failed => cases hresult
    | unchanged => cases hresult
    | planned plan changed unwritten => cases hresult; exact absurd rfl unwritten
    | written plan differs dry stop read named =>
      cases hresult
      obtain ⟨place, hplace, hleads, -⟩ := Disk.named_of_readText read
      obtain rfl := Except.ok.inj (named.symm.trans hplace)
      exact ⟨read, dry, stop, Edit.fresh_of_planned plan, differs, _, named, Disk.locate_named_put hleads _ named,
        Disk.node?_put_self disk _ hleads.ne_nil, Disk.readText_put_named hleads named,
        fun other hother => Disk.node?_put_ne disk _ hother⟩
  · cases hfinished with
    | written => exact absurd rfl (hresult _)
    | _ => rfl
  · cases hfinished with
    | unchanged plan same => exact planEdits_text_ne plan hedits same
    | planned plan changed unwritten => cases hresult; exact changed rfl
    | failed => cases hresult
    | written => cases hresult

/-- A manifest that is a link to a file. -/
def linkedDisk : Disk :=
  ⟨[], [(["a.rs"], .link "b.rs"), (["b.rs"], .file (.text "pub use x::*;"))]⟩

/-- Applies an edit to it; the stage `fault` fails. -/
def applyLinked (fault : Option Stage) : Except Problem (FileOutcome × Planned) × Disk :=
  applyIn ⟨false, 80, false⟩
    ⟨fun _ => ".tmp", fun stage => if fault = some stage then some "No space left on device (os error 28)" else none⟩
    linkedDisk "a.rs" "pub use x::*;" [⟨⟨11, 12⟩, ["y"]⟩]

theorem apply_all_or_nothing_linked :
    (∃ planned after, applyLinked none = (.ok (.written, planned), after) ∧
      planned.text = "pub use x::\x7by\x7d;" ∧ after.readText "a.rs" = .ok planned.text ∧
      after.node? ["b.rs"] = some (.file (.text "pub use x::*;"))) ∧
    (applyLinked (some .sync)).2 = linkedDisk := by
  constructor
  · have hresult : (applyLinked none).1.toOption.map (fun done => (done.1, done.2.text)) =
        some (.written, "pub use x::\x7by\x7d;") := by decide +kernel
    obtain ⟨hwritten, -⟩ := apply_all_or_nothing _ _ _ _ _ _ (Prod.eta (applyLinked none)).symm
    cases hdone : (applyLinked none).1 with
    | error p =>
      rw [hdone] at hresult
      cases hresult
    | ok done =>
      obtain ⟨outcome, planned⟩ := done
      rw [hdone] at hresult
      simp only [Except.toOption, Option.map_some, Option.some.injEq, Prod.mk.injEq] at hresult
      obtain ⟨rfl, htext⟩ := hresult
      obtain ⟨-, -, -, -, -, place, hnamed, -, -, hreads, hothers⟩ := hwritten planned hdone
      have hplace : linkedDisk.locate false "a.rs" = .ok ["a.rs"] := by rfl
      obtain rfl := Except.ok.inj (hnamed.symm.trans hplace)
      exact ⟨planned, _, Prod.ext hdone rfl, htext, hreads, hothers ["b.rs"] (by decide)⟩
  · obtain ⟨-, hothers, -⟩ := apply_all_or_nothing _ _ _ _ _ _ (Prod.eta (applyLinked (some .sync))).symm
    refine hothers fun planned hplanned => ?_
    have hfailed : (applyLinked (some .sync)).1.toOption.isNone = true := by decide +kernel
    rw [hplanned] at hfailed
    cases hfailed

end Rewriter

end Reexport
