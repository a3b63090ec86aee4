import Mathlib.Tactic.Common
import Reexport.Manifest

/-!
# Directories stay where they are

Putting a file in the place of a file, or of a link that leads to a file, changes
the way to no directory: a path that ends in a directory never goes through that
place.

Results:

* `travel_append`: a path is followed piece by piece, whatever links are met.
* `travel_last`: what a path names, compared to what it leads to.
* `find_dir_put`: directories are found as before.
-/

namespace Reexport.Disk

variable (disk : Disk)

/-! ## What lies at a place -/

theorem node?_put_ne {place other : Place} (node : Node) (h : other ≠ place) :
    (disk.put place node).node? other = disk.node? other := by
  unfold node? put
  split_ifs
  · rfl
  · rw [List.lookup_cons, beq_false_of_ne h]
    simp only
    induction disk.entries with
    | nil => rfl
    | cons entry rest ih =>
      obtain ⟨p, n⟩ := entry
      by_cases hp : p = place
      · simp [hp, List.lookup_cons, ih, beq_false_of_ne h]
      · simp only [List.filter_cons, bne_iff_ne, ne_eq, hp, not_false_eq_true, if_true,
          List.lookup_cons, ih]

/-! ## One step of a path -/

/-- Where a step leads, and the target if that is a link. -/
def hop (place : Place) : Step → Place × Option String
  | .here => (place, none)
  | .up => (place.dropLast, none)
  | .enter name =>
    (place ++ [name],
      match disk.node? (place ++ [name]) with
      | some (.link target) => some target
      | _ => none)

theorem node?_of_hop {place next : Place} {step : Step} {target : String}
    (h : disk.hop place step = (next, some target)) :
    disk.node? next = some (.link target) ∧ next.dropLast = place := by
  cases step with
  | here => simp [hop] at h
  | up => simp [hop] at h
  | enter name =>
    simp only [hop, Prod.mk.injEq] at h
    obtain ⟨rfl, h⟩ := h
    split at h
    · rename_i heq
      cases h
      exact ⟨heq, by simp⟩
    · cases h

variable (follow : Bool) (jump : Place → List Step → Except Fault Place)

theorem dir_of_advance {place last : Place} {step : Step} {rest : List Step}
    (h : disk.advance follow jump place (step :: rest) = .ok last) : disk.node? place = some .dir := by
  unfold advance at h
  split at h
  · cases h
  · assumption
  · cases h

/-- A step goes on where it leads, unless that is a link. -/
theorem advance_cons {place : Place} (hdir : disk.node? place = some .dir) (step : Step)
    (rest : List Step) :
    disk.advance follow jump place (step :: rest) =
      match disk.hop place step with
      | (next, none) => disk.advance follow jump next rest
      | (next, some target) =>
        if rest = [] ∧ ¬ follow then .ok next
        else jump (startOf place target) (steps target ++ rest) := by
  cases step with
  | here => simp only [advance, hdir, hop]
  | up => simp only [advance, hdir, hop]
  | enter name =>
    simp only [advance, hdir, hop]
    cases disk.node? (place ++ [name]) with
    | none => rfl
    | some node => cases node <;> rfl

/-! ## Whole paths -/

theorem travel_nil (links : Nat) {place : Place} : disk.travel true (links + 1) place [] = .ok place := by
  rw [travel, advance]

/-- A path is followed piece by piece, whatever links are met. -/
theorem travel_append : ∀ (links : Nat) (path : List Step) (more : Nat) {place : Place}
    {rest : List Step} {middle last : Place}, disk.travel true more place path = .ok middle →
    disk.travel true links place (path ++ rest) = .ok last →
    ∃ fewer, disk.travel true fewer middle rest = .ok last := by
  intro links
  induction links with
  | zero => intro path more place rest middle last _ h; cases h
  | succ links ih =>
    intro path
    induction path with
    | nil =>
      intro more place rest middle last hmiddle hlast
      cases more with
      | zero => cases hmiddle
      | succ more =>
        rw [travel, advance] at hmiddle
        cases hmiddle
        exact ⟨links + 1, hlast⟩
    | cons step path ihp =>
      intro more place rest middle last hmiddle hlast
      cases more with
      | zero => cases hmiddle
      | succ more =>
        have hdir := disk.dir_of_advance _ _ hmiddle
        rw [travel, advance_cons _ _ _ hdir] at hmiddle
        rw [travel, List.cons_append, advance_cons _ _ _ hdir] at hlast
        cases hhop : disk.hop place step with
        | mk next target? =>
          cases target? with
          | none =>
            simp only [hhop] at hmiddle hlast
            exact ihp (more + 1) hmiddle hlast
          | some target =>
            simp only [hhop, not_true_eq_false, and_false, if_false] at hmiddle hlast
            rw [← List.append_assoc] at hlast
            exact ih _ more hmiddle hlast

/-- A path that leads to a file leads nowhere else. -/
theorem not_dir_of_file {links more : Nat} {place middle last : Place} {path rest : List Step}
    {content : Content} (hmiddle : disk.travel true more place path = .ok middle)
    (hfile : disk.node? middle = some (.file content))
    (hlast : disk.travel true links place (path ++ rest) = .ok last) : disk.node? last ≠ some .dir := by
  obtain ⟨fewer, hrest⟩ := disk.travel_append links path more hmiddle hlast
  cases fewer with
  | zero => cases hrest
  | succ fewer =>
    cases rest with
    | nil =>
      rw [travel, advance] at hrest
      cases hrest
      simp [hfile]
    | cons step rest =>
      have hdir := disk.dir_of_advance _ _ hrest
      rw [hfile] at hdir
      cases hdir

/-- What a path names is what it leads to, or a link that leads there. -/
theorem travel_last : ∀ (links : Nat) (path : List Step) {place last : Place},
    disk.travel true links place path = .ok last →
    ∃ named, disk.travel false links place path = .ok named ∧
      (named = last ∨ ∃ target more, disk.node? named = some (.link target) ∧
        disk.travel true more (startOf named.dropLast target) (steps target) = .ok last) := by
  intro links
  induction links with
  | zero => intro path place last h; cases h
  | succ links ih =>
    intro path
    induction path with
    | nil =>
      intro place last h
      rw [travel, advance] at h ⊢
      cases h
      exact ⟨place, rfl, .inl rfl⟩
    | cons step path ihp =>
      intro place last h
      have hdir := disk.dir_of_advance _ _ h
      rw [travel, advance_cons _ _ _ hdir] at h ⊢
      cases hhop : disk.hop place step with
      | mk next target? =>
        cases target? with
        | none =>
          simp only [hhop] at h ⊢
          exact ihp h
        | some target =>
          simp only [hhop, not_true_eq_false, and_false, if_false] at h
          simp only [Bool.false_eq_true, not_false_eq_true, and_true]
          split_ifs with hrest
          · subst hrest
            obtain ⟨hlink, hplace⟩ := disk.node?_of_hop hhop
            rw [List.append_nil] at h
            exact ⟨next, rfl, .inr ⟨target, links, hlink, by rw [hplace]; exact h⟩⟩
          · exact ih _ h

/-! ## Replacing a file -/

/-- A file lies at a place, or a link that leads to one. -/
def LeadsToFile (place : Place) : Prop :=
  (∃ content, disk.node? place = some (.file content)) ∨
    ∃ target more last content, disk.node? place = some (.link target) ∧
      disk.travel true more (startOf place.dropLast target) (steps target) = .ok last ∧
      disk.node? last = some (.file content)

variable {disk} {place : Place} (hplace : disk.LeadsToFile place) (content : Content)

include hplace

theorem LeadsToFile.not_dir : disk.node? place ≠ some .dir := by
  rcases hplace with ⟨content, hfile⟩ | ⟨target, more, last, content, hlink, -⟩
  · simp [hfile]
  · simp [hlink]

theorem dir_put {other : Place} (h : disk.node? other = some .dir) :
    (disk.put place (.file content)).node? other = some .dir := by
  rw [node?_put_ne, h]
  rintro rfl
  exact hplace.not_dir h

/-- A step on the way to a directory does not lead to the place of a file. -/
theorem hop_put {links : Nat} {start last : Place} {step : Step} {rest : List Step}
    (h : disk.travel true (links + 1) start (step :: rest) = .ok last)
    (hlast : disk.node? last = some .dir) :
    (disk.put place (.file content)).hop start step = disk.hop start step := by
  have hdir := disk.dir_of_advance _ _ h
  rw [travel, advance_cons _ _ _ hdir] at h
  cases step with
  | here => rfl
  | up => rfl
  | enter name =>
    by_cases hne : start ++ [name] = place
    · exfalso
      subst hne
      rcases hplace with ⟨content, hfile⟩ | ⟨target, more, file, content, hlink, hmore, hfile⟩
      · simp only [hop, hfile] at h
        have hrest : disk.travel true (links + 1) (start ++ [name]) ([] ++ rest) = .ok last := h
        exact disk.not_dir_of_file (disk.travel_nil links) hfile hrest hlast
      · simp only [hop, hlink, not_true_eq_false, and_false, if_false] at h
        rw [List.dropLast_concat] at hmore
        exact disk.not_dir_of_file hmore hfile h hlast
    · simp only [hop, node?_put_ne disk _ hne]

/-- A path that leads to a directory still leads there. -/
theorem travel_put : ∀ (links : Nat) (path : List Step) {start last : Place},
    disk.travel true links start path = .ok last → disk.node? last = some .dir →
    (disk.put place (.file content)).travel true links start path = .ok last := by
  intro links
  induction links with
  | zero => intro path start last h; cases h
  | succ links ih =>
    intro path
    induction path with
    | nil =>
      intro start last h _
      rw [travel, advance] at h ⊢
      exact h
    | cons step path ihp =>
      intro start last h hlast
      have hhop := hop_put hplace content h hlast
      have hdir := disk.dir_of_advance _ _ h
      rw [travel, advance_cons _ _ _ (dir_put hplace content hdir), hhop]
      rw [travel, advance_cons _ _ _ hdir] at h
      cases hnext : disk.hop start step with
      | mk next target? =>
        cases target? with
        | none =>
          simp only [hnext] at h ⊢
          exact ihp h hlast
        | some target =>
          simp only [hnext, not_true_eq_false, and_false, if_false] at h ⊢
          exact ih _ h hlast

omit hplace

theorem find_eq_ok_iff {path : String} {node : Node} :
    disk.find path = .ok (place, node) ↔
      disk.locate true path = .ok place ∧ disk.node? place = some node := by
  unfold find
  cases disk.locate true path with
  | error fault => simp [bind, Except.bind]
  | ok found =>
    simp only [bind, Except.bind, Except.ok.injEq]
    constructor
    · intro h
      split at h
      · cases h
        exact ⟨rfl, by assumption⟩
      · cases h
    · rintro ⟨rfl, h⟩
      rw [h]

theorem find_of_readText {path text : String} (h : disk.readText path = .ok text) :
    ∃ place, disk.find path = .ok (place, .file (.text text)) := by
  unfold readText at h
  cases hfind : disk.find path with
  | error fault => simp [hfind, bind, Except.bind] at h
  | ok found =>
    obtain ⟨place, node⟩ := found
    simp only [hfind, bind, Except.bind] at h
    split at h
    · rename_i heq
      cases heq
      cases h
      exact ⟨_, rfl⟩
    · cases h
    · cases h

/-- Directories are found as before when a file is put in the place of a file. -/
theorem find_dir_put {path : String} {replaced : Place} (hleads : disk.LeadsToFile replaced)
    (content : Content) (hdir : disk.find path = .ok (place, .dir)) :
    (disk.put replaced (.file content)).find path = .ok (place, .dir) := by
  obtain ⟨hlocate, hnode⟩ := find_eq_ok_iff.1 hdir
  rw [find_eq_ok_iff]
  refine ⟨?_, dir_put hleads content hnode⟩
  unfold locate at hlocate ⊢
  split_ifs at hlocate ⊢ with hempty
  exact travel_put hleads content _ _ hlocate hnode

end Reexport.Disk
