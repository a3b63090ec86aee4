import Reexport.Proofs.NamedPlaces

/-!
# Exchanging a file

A file is exchanged in stages: it is read once more and compared, the new text goes to a
temporary file next to it, and that file is moved to where the old one lies. Any stage can
fail. The temporary file is then thrown away, so a reader of the disk sees the old file or
the new one and no trace of a failed attempt.

Results:

* `exchanged_exchangeIn`: the stages replace the file completely or change nothing.
* `exchangeIn_of_smooth`: where no stage fails the file is exchanged if it holds the text that
  was scanned.
* `exchangeIn_cases`: when a file is exchanged, and when not.
-/

namespace Reexport

/-! ## Temporary files -/

namespace Disk

variable {disk : Disk} {place : Place}

theorem put_put (disk : Disk) (place : Place) (old new : Node) :
    (disk.put place old).put place new = disk.put place new := by
  simp [put, List.filter_filter]

/-- A file that was made at a free place leaves no trace. -/
theorem discard_put (hfree : disk.node? place = none) (node : Node) :
    (disk.put place node).discard place = disk := by
  have hentries : disk.entries.filter (fun entry => entry.1 != place) = disk.entries := by
    rw [List.filter_eq_self]
    intro entry hentry
    rw [bne_iff_ne]
    rintro rfl
    unfold node? at hfree
    split_ifs at hfree
    simpa using List.lookup_eq_none_iff.1 hfree entry hentry
  simp [put, discard, hentries]

theorem move_put (hfree : disk.node? place = none) (target : Place) (node : Node) :
    (disk.put place node).move place target = disk.put target node := by
  have hne : place ≠ [] := by
    rintro rfl
    cases hfree
  rw [move, node?_put_self disk node hne, discard_put hfree]

/-- Nothing has a name that is longer than all names. -/
theorem node?_freeName (disk : Disk) (front : Place) : disk.node? (front ++ [disk.freeName]) = none := by
  rw [node?, if_neg (by simp), List.lookup_eq_none_iff]
  rintro ⟨place, node⟩ hentry
  rw [bne_iff_ne]
  rintro rfl
  have hmem : disk.freeName ∈ disk.entries.flatMap fun entry => entry.1 :=
    List.mem_flatMap.2 ⟨_, hentry, by simp⟩
  have hle := (List.sublist_flatten_of_mem (List.mem_map_of_mem (f := String.toList) hmem)).length_le
  have hlength : disk.freeName.toList.length =
      4 + ((disk.entries.flatMap fun entry => entry.1).map String.toList).flatten.length := by
    simp only [freeName, String.toList_append, String.toList_ofList, List.length_append]
    rfl
  omega

end Disk

namespace Rewriter

/-! ## What the stages do -/

section Stages

variable {course : Course} {disk : Disk} {path analysed text : String}

/-- Either the file that held `analysed` is replaced by one that holds `text`, or nothing has
    happened. -/
inductive Exchanged (disk : Disk) (path analysed text : String) : Except String Unit × Disk → Prop where
  | failed (message : String) : Exchanged disk path analysed text (.error message, disk)
  | done {place : Disk.Place} (read : disk.readText path = .ok analysed)
      (named : disk.locate false path = .ok place) :
      Exchanged disk path analysed text (.ok (), disk.put place (.file (.text text)))

theorem Exchanged.pass {next : Except String Unit × Disk} (h : Exchanged disk path analysed text next)
    (stage : Stage) : Exchanged disk path analysed text (course.pass stage disk next) := by
  unfold Course.pass
  cases course.fault? stage with
  | some message => exact .failed message
  | none => exact h

theorem exchanged_replaceIn (course : Course) (text : String) (hread : disk.readText path = .ok analysed) :
    Exchanged disk path analysed text (replaceIn course disk path text) := by
  unfold replaceIn
  refine .pass ?_ .inspect
  cases disk.find path with
  | error fault => exact .failed _
  | ok found =>
    cases hnamed : disk.locate false path with
    | error fault => exact .failed _
    | ok place =>
      refine .pass ?_ .create
      split_ifs with htaken
      · exact .failed _
      · -- whatever fails from here on, the temporary file is thrown away
        have hfree : disk.node? (course.temporary disk place) = none := by simpa using htaken
        simp only [Disk.put_put, Disk.discard_put hfree, Disk.move_put hfree]
        exact .pass (.pass (.pass (.pass (.done hread hnamed) .move) .permit) .sync) .fill

/-- The stages replace the file completely or change nothing. -/
theorem exchanged_exchangeIn (course : Course) (disk : Disk) (path analysed text : String) :
    Exchanged disk path analysed text (exchangeIn course disk path analysed text) := by
  unfold exchangeIn
  refine .pass ?_ .read
  cases hread : disk.readText path with
  | error fault => exact .failed _
  | ok found =>
    simp only
    split_ifs with hsame
    · subst hsame
      exact exchanged_replaceIn course text hread
    · exact .failed _

/-- No stage fails, and the name of the temporary file is free. -/
structure Course.Smooth (course : Course) (disk : Disk) (path : String) : Prop where
  passes : ∀ stage, course.fault? stage = none
  free : ∀ place, disk.locate false path = .ok place →
    disk.node? (course.temporary disk place) = none

theorem smooth_smooth (disk : Disk) (path : String) : Course.smooth.Smooth disk path :=
  ⟨fun _ => rfl, fun place _ => disk.node?_freeName place.dropLast⟩

theorem Course.Smooth.pass (h : course.Smooth disk path) (stage : Stage) (undone : Disk)
    (next : Except String Unit × Disk) : course.pass stage undone next = next := by
  rw [Course.pass, h.passes]

/-- Where no stage fails, what comes of exchanging a file depends on the file alone. -/
theorem exchangeIn_of_smooth (h : course.Smooth disk path) (analysed text : String) :
    exchangeIn course disk path analysed text =
      match disk.readText path, disk.locate false path with
      | .error fault, _ => (.error fault.message, disk)
      | .ok found, .ok place =>
        if found = analysed then (.ok (), disk.put place (.file (.text text)))
        else (.error "file changed on disk since it was scanned", disk)
      | .ok _, .error fault => (.error fault.message, disk) := by
  rw [exchangeIn, h.pass]
  cases hread : disk.readText path with
  | error fault => rfl
  | ok found =>
    obtain ⟨place, hnamed, -, -⟩ := Disk.named_of_readText hread
    obtain ⟨last, hfind⟩ := Disk.find_of_readText hread
    have hfree := h.free place hnamed
    simp only [hnamed, replaceIn, h.pass, hfind, hfree, Option.isSome_none, Bool.false_eq_true,
      if_false, Disk.put_put, Disk.move_put hfree]

theorem Course.pass_fst_eq_ok {stage : Stage} {undone : Disk} {next : Except String Unit × Disk} :
    (course.pass stage undone next).1 = .ok () ↔ course.fault? stage = none ∧ next.1 = .ok () := by
  unfold Course.pass
  cases course.fault? stage <;> simp

/-- A file is only exchanged if no stage fails. -/
theorem smooth_of_exchangeIn (h : (exchangeIn course disk path analysed text).1 = .ok ()) :
    course.Smooth disk path := by
  obtain ⟨hread, h⟩ := Course.pass_fst_eq_ok.1 h
  split at h
  · cases h
  · split_ifs at h
    obtain ⟨hinspect, h⟩ := Course.pass_fst_eq_ok.1 h
    split at h
    · rename_i place _ hnamed
      obtain ⟨hcreate, h⟩ := Course.pass_fst_eq_ok.1 h
      split_ifs at h with htaken
      simp only [Course.pass_fst_eq_ok] at h
      obtain ⟨hfill, hsync, hpermit, hmove, -⟩ := h
      refine ⟨fun stage => by cases stage <;> assumption, fun other hother => ?_⟩
      obtain rfl := Except.ok.inj (hnamed.symm.trans hother)
      simpa using htaken
    · cases h
    · cases h

/-- A file is exchanged, or it does not hold the text that was scanned, or a stage fails. -/
theorem exchangeIn_cases (course : Course) (disk : Disk) (path analysed text : String) :
    (∃ place, disk.readText path = .ok analysed ∧ course.Smooth disk path ∧
        disk.locate false path = .ok place ∧ disk.LeadsToFile place ∧
        exchangeIn course disk path analysed text = (.ok (), disk.put place (.file (.text text)))) ∨
      ((disk.readText path ≠ .ok analysed ∨ ¬ course.Smooth disk path) ∧
        ∃ message, exchangeIn course disk path analysed text = (.error message, disk)) := by
  have hexchanged := exchanged_exchangeIn course disk path analysed text
  generalize hresult : exchangeIn course disk path analysed text = result at hexchanged
  cases hexchanged with
  | failed message =>
    refine .inr ⟨?_, message, rfl⟩
    by_contra hboth
    push Not at hboth
    obtain ⟨hread, hsmooth⟩ := hboth
    obtain ⟨place, hnamed, -, -⟩ := Disk.named_of_readText hread
    rw [exchangeIn_of_smooth hsmooth, hread, hnamed] at hresult
    simp at hresult
  | done read named =>
    obtain ⟨place, hplace, hleads, -⟩ := Disk.named_of_readText read
    obtain rfl := Except.ok.inj (named.symm.trans hplace)
    have hsmooth := smooth_of_exchangeIn (congrArg Prod.fst hresult)
    exact .inl ⟨_, read, hsmooth, named, hleads, rfl⟩

end Stages

end Rewriter

end Reexport
