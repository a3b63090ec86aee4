import Reexport.Proofs.Turns

/-!
# What the turns of a run write

A turn writes at the place that its manifest names, and only if that still holds the text
that was scanned. Names of places do not change while a run goes on, and edits always
change a text. So once a place is written, every later turn that comes to it, by whatever
links, finds a text that nobody scanned there, and is refused.

Results:

* `tried_disk`: a turn leaves the disk alone or writes at the place of its manifest.
* `kept_turns`: paths name the same places throughout.
* `node?_of_wrote`: a place that a turn writes holds its text at the end.
* `node?_of_not_wrote`: all other places are as before.
-/

namespace Reexport.Job

open Disk (Place)

/-- All paths that name a place still name it. -/
def Kept (start now : Disk) : Prop :=
  ∀ path place, start.locate false path = .ok place → now.locate false path = .ok place

theorem Kept.refl (disk : Disk) : Kept disk disk := fun _ _ h => h

/-- A turn writes `planned` at the place that the manifest of its module names. -/
structure Wrote (start : Disk) (width : Nat) (m : Module) (resolved : Resolved) (attempt : Attempt)
    (manifest source : String) (planned : Planned) (place : Place) : Prop where
  ready : Ready m resolved manifest source
  plan : planEdits source (editsFor m resolved) width = .ok planned
  named : start.locate false manifest = .ok place
  done : ∃ disk, attempt = .done ⟨.written, planned, disk⟩

theorem Wrote.outcome {start : Disk} {width : Nat} {m : Module} {resolved : Resolved} {attempt : Attempt}
    {manifest source : String} {planned : Planned} {place : Place}
    (h : Wrote start width m resolved attempt manifest source planned place) :
    attempt.outcome? = some .written := by
  obtain ⟨disk, rfl⟩ := h.done
  rfl

/-! ## One turn -/

section Turn

variable {rewriter : Rewriter} {course : Rewriter.Course} {m : Module} {resolved : Resolved}
  {start now : Disk}

/-- A turn leaves the disk alone, or it writes at the place of its manifest, which then still
    holds the text that was scanned. -/
theorem tried_disk (hkept : Kept start now) (hread : ∀ manifest source, m.manifest = some manifest →
      m.source = some source → start.readText manifest = .ok source) :
    ((tried rewriter course m resolved now).disk now = now ∧
        (tried rewriter course m resolved now).outcome? ≠ some .written) ∨
      ∃ manifest source planned place,
        Wrote start rewriter.maxWidth m resolved (tried rewriter course m resolved now) manifest source planned
          place ∧
        now.readText manifest = .ok source ∧ now.LeadsToFile place ∧
        (tried rewriter course m resolved now).disk now = now.put place (.file (.text planned.text)) := by
  have hturn := tried_turn rewriter course m resolved now
  generalize tried rewriter course m resolved now = attempt at hturn ⊢
  cases hturn with
  | idle => exact .inl ⟨rfl, by simp [Attempt.outcome?]⟩
  | stale => exact .inl ⟨rfl, by simp [Attempt.outcome?]⟩
  | planned => exact .inl ⟨rfl, by simp [Attempt.outcome?]⟩
  | interrupted => exact .inl ⟨rfl, by simp [Attempt.outcome?]⟩
  | refused => exact .inl ⟨rfl, by simp [Attempt.outcome?]⟩
  | @written manifest source planned place ready plan _ _ read _ named leads =>
    obtain ⟨first, hfirst, -⟩ := Disk.named_of_readText (hread manifest source ready.manifest ready.source)
    obtain rfl := Except.ok.inj (named.symm.trans (hkept manifest first hfirst))
    exact .inr ⟨manifest, source, planned, place, ⟨ready, plan, hfirst, _, rfl⟩, read, leads, rfl⟩

/-- A turn writes at no more than one place. -/
theorem Wrote.unique {width : Nat} {attempt : Attempt} {manifest source manifest' source' : String}
    {planned planned' : Planned} {place place' : Place}
    (h : Wrote start width m resolved attempt manifest source planned place)
    (h' : Wrote start width m resolved attempt manifest' source' planned' place') :
    manifest = manifest' ∧ source = source' ∧ planned = planned' ∧ place = place' := by
  obtain rfl := Option.some.inj (h.ready.manifest.symm.trans h'.ready.manifest)
  obtain rfl := Option.some.inj (h.ready.source.symm.trans h'.ready.source)
  obtain rfl := Except.ok.inj (h.plan.symm.trans h'.plan)
  exact ⟨rfl, rfl, rfl, Except.ok.inj (h.named.symm.trans h'.named)⟩

end Turn

/-! ## All turns -/

section Turns

variable {rewriter : Rewriter} {courses : ModuleId → Rewriter.Course} {tree : ModuleTree}
  {resolved : List Resolved} {start : Disk}

/-- The turn of a module writes `planned` at the place that its manifest names. -/
def TurnWrote (rewriter : Rewriter) (tree : ModuleTree) (resolved : List Resolved) (start : Disk)
    (turn : ModuleId × Attempt) (manifest source : String) (planned : Planned) (place : Place) : Prop :=
  Wrote start rewriter.maxWidth (tree.get turn.1) (resolved.getD turn.1 default) turn.2 manifest source
    planned place

variable (hfaithful : Survey.Faithful start tree)

include hfaithful

theorem readText_of_faithful {id : ModuleId} {manifest source : String}
    (hmanifest : (tree.get id).manifest = some manifest) (hsource : (tree.get id).source = some source) :
    start.readText manifest = .ok source := by
  obtain ⟨path, hpath, hread⟩ := hfaithful id source hsource
  rw [hmanifest] at hpath
  cases hpath
  exact hread

theorem kept_tried {now : Disk} (hkept : Kept start now) (id : ModuleId) :
    Kept start ((tried rewriter (courses id) (tree.get id) (resolved.getD id default) now).disk now) := by
  rcases @tried_disk rewriter (courses id) (tree.get id) (resolved.getD id default) _ _ hkept
    (fun _ _ => readText_of_faithful hfaithful) with ⟨hsame, -⟩ | ⟨_, _, _, place, -, -, hleads, hput⟩
  · rw [hsame]
    exact hkept
  · rw [hput]
    intro path named hnamed
    exact Disk.locate_named_put hleads _ (hkept path named hnamed)

/-- Paths name the same places throughout. -/
theorem kept_turns : ∀ (ids : List ModuleId) {now : Disk}, Kept start now →
    Kept start (diskAfter now (turns rewriter courses tree resolved ids now)) := by
  intro ids
  induction ids with
  | nil => intro now hkept; exact hkept
  | cons id rest ih => intro now hkept; exact ih (kept_tried hfaithful hkept id)

/-- All places at which no turn writes are as before. -/
theorem node?_of_not_wrote {place : Place} : ∀ (ids : List ModuleId) {now : Disk}, Kept start now →
    (∀ turn ∈ turns rewriter courses tree resolved ids now, ∀ manifest source planned,
      ¬ TurnWrote rewriter tree resolved start turn manifest source planned place) →
    (diskAfter now (turns rewriter courses tree resolved ids now)).node? place = now.node? place := by
  intro ids
  induction ids with
  | nil => intro now _ _; rfl
  | cons id rest ih =>
    intro now hkept hnot
    obtain ⟨hfirst, hrest⟩ := List.forall_mem_cons.1 hnot
    refine (ih (kept_tried hfaithful hkept id) hrest).trans ?_
    rcases @tried_disk rewriter (courses id) (tree.get id) (resolved.getD id default) _ _ hkept
      (fun _ _ => readText_of_faithful hfaithful) with
        ⟨hsame, -⟩ | ⟨manifest, source, planned, place', hwrote, -, -, hput⟩
    · rw [hsame]
    · rw [hput, Disk.node?_put_ne]
      rintro rfl
      exact hfirst manifest source planned hwrote

/-- A place with a text that nobody scanned there is not written. -/
theorem settled_place {place : Place} {text : String} : ∀ (ids : List ModuleId) {now : Disk}, Kept start now →
    now.node? place = some (.file (.text text)) →
    (∀ id ∈ ids, ∀ manifest source, Ready (tree.get id) (resolved.getD id default) manifest source →
      start.locate false manifest = .ok place → source ≠ text) →
    (diskAfter now (turns rewriter courses tree resolved ids now)).node? place = some (.file (.text text)) ∧
      ∀ turn ∈ turns rewriter courses tree resolved ids now, ∀ manifest source planned,
        ¬ TurnWrote rewriter tree resolved start turn manifest source planned place := by
  intro ids
  induction ids with
  | nil => intro now _ hnode _; exact ⟨hnode, fun turn h => by cases h⟩
  | cons id rest ih =>
    intro now hkept hnode hother
    obtain ⟨hthis, hother⟩ := List.forall_mem_cons.1 hother
    have hfirst : ∀ manifest source planned, ¬ TurnWrote rewriter tree resolved start
        (id, tried rewriter (courses id) (tree.get id) (resolved.getD id default) now) manifest source planned place := by
      intro manifest source planned hwrote
      rcases @tried_disk rewriter (courses id) (tree.get id) (resolved.getD id default) _ _ hkept
        (fun _ _ => readText_of_faithful hfaithful) with
          ⟨-, hnot⟩ | ⟨manifest', source', planned', place', hwrote', hread, -, -⟩
      · exact hnot hwrote.outcome
      · obtain ⟨rfl, rfl, rfl, rfl⟩ := hwrote.unique hwrote'
        have hnow := Disk.readText_of_named (hkept manifest place hwrote.named) hnode
        rw [hread] at hnow
        exact hthis manifest source hwrote.ready hwrote.named (Except.ok.inj hnow)
    have hnode' : ((tried rewriter (courses id) (tree.get id) (resolved.getD id default) now).disk now).node? place =
        some (.file (.text text)) := by
      have hone := node?_of_not_wrote hfaithful [id] hkept (fun turn hturn => by
        rw [turns, turns, List.mem_singleton] at hturn
        subst hturn
        exact hfirst)
      exact hone.trans hnode
    obtain ⟨hend, hrest⟩ := ih (kept_tried hfaithful hkept id) hnode' hother
    exact ⟨hend, List.forall_mem_cons.2 ⟨hfirst, hrest⟩⟩

/-- A place that a turn writes holds its text at the end, and no later turn writes it. -/
theorem wrote_last {turn : ModuleId × Attempt} {manifest source : String} {planned : Planned} {place : Place}
    (hwrote : TurnWrote rewriter tree resolved start turn manifest source planned place) :
    ∀ (ids : List ModuleId) {now : Disk}, Kept start now →
    ∀ front rest, turns rewriter courses tree resolved ids now = front ++ turn :: rest →
    (diskAfter now (turns rewriter courses tree resolved ids now)).node? place =
        some (.file (.text planned.text)) ∧
      ∀ later ∈ rest, ∀ manifest' source' planned',
        ¬ TurnWrote rewriter tree resolved start later manifest' source' planned' place := by
  intro ids
  induction ids with
  | nil =>
    intro now _ front rest h
    rw [turns] at h
    exact absurd h.symm (by simp)
  | cons id others ih =>
    intro now hkept front rest h
    have hkept' := @kept_tried rewriter courses tree resolved start hfaithful now hkept id
    cases front with
    | cons first front =>
      rw [turns, List.cons_append, List.cons.injEq] at h
      exact ih hkept' front rest h.2
    | nil =>
      rw [turns, List.nil_append, List.cons.injEq] at h
      obtain ⟨rfl, rfl⟩ := h
      rcases @tried_disk rewriter (courses id) (tree.get id) (resolved.getD id default) _ _ hkept
        (fun _ _ => readText_of_faithful hfaithful) with
          ⟨-, hnot⟩ | ⟨manifest', source', planned', place', hwrote', -, hleads, hput⟩
      · exact absurd hwrote.outcome hnot
      · obtain ⟨rfl, rfl, rfl, rfl⟩ := hwrote.unique hwrote'
        -- whoever comes to this place by its name has scanned the text that was there at first
        have hfirst := readText_of_faithful hfaithful hwrote.ready.manifest hwrote.ready.source
        have hchanged := planEdits_text_ne hwrote.plan hwrote.ready.edits
        have hnode : ((tried rewriter (courses id) (tree.get id) (resolved.getD id default) now).disk now).node? place =
            some (.file (.text planned.text)) := by
          rw [hput, Disk.node?_put_self _ _ hleads.ne_nil]
        refine settled_place hfaithful others hkept' hnode ?_
        intro other _ manifest' source' hready hnamed heq
        have hsecond := readText_of_faithful hfaithful hready.manifest hready.source
        exact hchanged (heq ▸ Disk.text_of_same_place hsecond hfirst hnamed hwrote.named)

/-- A place that a turn writes holds its text at the end. -/
theorem node?_of_wrote {ids : List ModuleId} {now : Disk} (hkept : Kept start now)
    {turn : ModuleId × Attempt} (hturn : turn ∈ turns rewriter courses tree resolved ids now)
    {manifest source : String} {planned : Planned} {place : Place}
    (hwrote : TurnWrote rewriter tree resolved start turn manifest source planned place) :
    (diskAfter now (turns rewriter courses tree resolved ids now)).node? place =
      some (.file (.text planned.text)) := by
  obtain ⟨front, rest, hsplit⟩ := List.append_of_mem hturn
  exact (wrote_last hfaithful hwrote ids hkept front rest hsplit).1

/-- Every turn is taken on the disk that the turns before it leave, and on that disk paths name
    what they named at the start. -/
theorem turn_of_split {turn : ModuleId × Attempt} {rest : List (ModuleId × Attempt)} :
    ∀ (ids : List ModuleId) {now : Disk}, Kept start now → ∀ {front : List (ModuleId × Attempt)},
    turns rewriter courses tree resolved ids now = front ++ turn :: rest →
    Kept start (diskAfter now front) ∧ turn.2 = tried rewriter (courses turn.1) (tree.get turn.1)
      (resolved.getD turn.1 default) (diskAfter now front) := by
  intro ids
  induction ids with
  | nil =>
    intro now _ front h
    rw [turns] at h
    exact absurd h.symm (by simp)
  | cons id others ih =>
    intro now hkept front h
    cases front with
    | nil =>
      rw [turns, List.nil_append, List.cons.injEq] at h
      obtain ⟨rfl, -⟩ := h
      exact ⟨hkept, rfl⟩
    | cons first front =>
      rw [turns, List.cons_append, List.cons.injEq] at h
      obtain ⟨rfl, h⟩ := h
      exact ih (kept_tried hfaithful hkept id) h

theorem turn_of_mem (ids : List ModuleId) {now : Disk} (hkept : Kept start now)
    {turn : ModuleId × Attempt} (hturn : turn ∈ turns rewriter courses tree resolved ids now) :
    ∃ disk, Kept start disk ∧
      turn.2 = tried rewriter (courses turn.1) (tree.get turn.1) (resolved.getD turn.1 default) disk := by
  obtain ⟨front, rest, hsplit⟩ := List.append_of_mem hturn
  exact ⟨_, turn_of_split hfaithful ids hkept hsplit⟩

/-- A turn that reports a written file writes at the place of its manifest. -/
theorem wrote_of_outcome {ids : List ModuleId} {now : Disk} (hkept : Kept start now)
    {turn : ModuleId × Attempt} (hturn : turn ∈ turns rewriter courses tree resolved ids now)
    (hwritten : turn.2.outcome? = some .written) : ∃ manifest source planned place,
      TurnWrote rewriter tree resolved start turn manifest source planned place := by
  obtain ⟨id, attempt⟩ := turn
  obtain ⟨disk, hdisk, htried⟩ := turn_of_mem hfaithful ids hkept hturn
  simp only at htried hwritten
  subst htried
  rcases @tried_disk rewriter (courses id) (tree.get id) (resolved.getD id default) _ _ hdisk
    (fun _ _ => readText_of_faithful hfaithful) with
      ⟨-, hnot⟩ | ⟨manifest, source, planned, place, hwrote, -⟩
  · exact absurd hwritten hnot
  · exact ⟨manifest, source, planned, place, hwrote⟩

end Turns

end Reexport.Job
