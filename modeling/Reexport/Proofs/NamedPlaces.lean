import Reexport.Proofs.Places

/-!
# The places that paths name

A path names a place: links to directories are followed on the way, but not a link in
the last place. That is the place where a file is put when it is replaced. No replaced
file changes what a path names, so for a whole run every path names what it named at the
start. What is read by way of a named place depends on the place alone.

Results:

* `locate_named_put`: paths name the same places after a file is replaced.
* `text_of_same_place`: two paths that name one place read the same text.
* `readText_put_named`: what is put at the place that a path names is read by that path.
-/

namespace Reexport.Disk

variable {disk : Disk}

/-! ## What lies at a place -/

theorem node?_put_self (disk : Disk) {place : Place} (node : Node) (h : place ≠ []) :
    (disk.put place node).node? place = some node := by
  simp [node?, put, h]

theorem LeadsToFile.ne_nil {place : Place} (h : disk.LeadsToFile place) : place ≠ [] := by
  rintro rfl
  exact h.not_dir rfl

/-! ## Following a path to what it names -/

/-- A path that goes on is followed piece by piece, even if its last link is not followed. -/
theorem travel_named_append : ∀ (links : Nat) (path : List Step) (more : Nat) {place : Place}
    {rest : List Step} {middle last : Place}, rest ≠ [] →
    disk.travel true more place path = .ok middle →
    disk.travel false links place (path ++ rest) = .ok last →
    ∃ fewer, disk.travel false fewer middle rest = .ok last := by
  intro links
  induction links with
  | zero => intro path more place rest middle last _ _ h; cases h
  | succ links ih =>
    intro path
    induction path with
    | nil =>
      intro more place rest middle last _ hmiddle hlast
      cases more with
      | zero => cases hmiddle
      | succ more =>
        rw [travel, advance] at hmiddle
        cases hmiddle
        exact ⟨links + 1, hlast⟩
    | cons step path ihp =>
      intro more place rest middle last hne hmiddle hlast
      cases more with
      | zero => cases hmiddle
      | succ more =>
        have hdir := disk.dir_of_advance _ _ hmiddle
        rw [travel, advance_cons _ _ _ hdir] at hmiddle
        rw [travel, List.cons_append, advance_cons _ _ _ hdir] at hlast
        cases hhop : disk.hop place step with
        | mk next target? =>
          cases target? with
          | none =>
            simp only [hhop] at hmiddle hlast
            exact ihp (more + 1) hne hmiddle hlast
          | some target =>
            simp only [hhop, not_true_eq_false, and_false, if_false, List.append_eq_nil_iff, hne,
              false_and] at hmiddle hlast
            rw [← List.append_assoc] at hlast
            exact ih _ more hne hmiddle hlast

/-- No path goes on after a file. -/
theorem not_named_of_file {links more : Nat} {place middle last : Place} {path rest : List Step}
    {content : Content} (hmiddle : disk.travel true more place path = .ok middle)
    (hfile : disk.node? middle = some (.file content)) (hne : rest ≠ []) :
    disk.travel false links place (path ++ rest) ≠ .ok last := by
  intro hlast
  obtain ⟨fewer, hrest⟩ := travel_named_append links path more hne hmiddle hlast
  cases fewer with
  | zero => cases hrest
  | succ fewer =>
    cases rest with
    | nil => exact hne rfl
    | cons step rest =>
      have hdir := disk.dir_of_advance _ _ hrest
      rw [hfile] at hdir
      cases hdir

/-- Where a path ends is determined by where it starts. -/
theorem travel_unique {links more : Nat} {place one other : Place} {path : List Step}
    (hone : disk.travel true links place path = .ok one)
    (hother : disk.travel true more place path = .ok other) : one = other := by
  rw [← List.append_nil path] at hother
  obtain ⟨fewer, hrest⟩ := disk.travel_append more path links hone hother
  cases fewer with
  | zero => cases hrest
  | succ fewer =>
    rw [travel_nil] at hrest
    exact Except.ok.inj hrest

/-- A path leads to what it names, unless that is a link. -/
theorem travel_of_named : ∀ (links : Nat) (path : List Step) {start place : Place},
    disk.travel false links start path = .ok place →
    (∀ target, disk.node? place ≠ some (.link target)) →
    disk.travel true links start path = .ok place := by
  intro links
  induction links with
  | zero => intro path start place h; cases h
  | succ links ih =>
    intro path
    induction path with
    | nil =>
      intro start place h _
      rw [travel, advance] at h ⊢
      exact h
    | cons step path ihp =>
      intro start place h hnode
      have hdir := disk.dir_of_advance _ _ h
      rw [travel, advance_cons _ _ _ hdir] at h ⊢
      cases hhop : disk.hop start step with
      | mk next target? =>
        cases target? with
        | none =>
          simp only [hhop] at h ⊢
          exact ihp h hnode
        | some target =>
          simp only [hhop, Bool.false_eq_true, not_false_eq_true, and_true] at h
          simp only [not_true_eq_false, and_false, if_false]
          split_ifs at h with hrest
          · cases h
            exact absurd (disk.node?_of_hop hhop).1 (hnode target)
          · exact ih _ h hnode

/-! ## Replacing a file -/

variable {place : Place} (hplace : disk.LeadsToFile place) (content : Content)

include hplace

/-- A path goes the same way after a file is replaced: it can only end where that file lies. -/
theorem travel_named_put : ∀ (links : Nat) (path : List Step) {start named : Place},
    disk.travel false links start path = .ok named →
    (disk.put place (.file content)).travel false links start path = .ok named := by
  intro links
  induction links with
  | zero => intro path start named h; cases h
  | succ links ih =>
    intro path
    induction path with
    | nil =>
      intro start named h
      rw [travel, advance] at h ⊢
      exact h
    | cons step path ihp =>
      intro start named h
      have hdir := disk.dir_of_advance _ _ h
      rw [travel, advance_cons _ _ _ (dir_put hplace content hdir)]
      rw [travel, advance_cons _ _ _ hdir] at h
      by_cases hmeets : ∃ name, step = .enter name ∧ start ++ [name] = place
      · -- the path has come to the file, so it ends there
        obtain ⟨name, rfl, hmeets⟩ := hmeets
        have hnow : (disk.put place (.file content)).hop start (.enter name) = (place, none) := by
          simp only [hop, hmeets, node?_put_self disk _ hplace.ne_nil]
        rcases hplace with ⟨_, hfile⟩ | ⟨target, more, last, _, hlink, hmore, hfile⟩
        · have hhop : disk.hop start (.enter name) = (place, none) := by
            simp only [hop, hmeets, hfile]
          simp only [hnow, hhop] at h ⊢
          cases path with
          | nil => exact h
          | cons step path =>
            have hdir' := disk.dir_of_advance _ _ h
            rw [hfile] at hdir'
            cases hdir'
        · have hhop : disk.hop start (.enter name) = (place, some target) := by
            simp only [hop, hmeets, hlink]
          simp only [hnow, hhop, Bool.false_eq_true, not_false_eq_true, and_true] at h ⊢
          split_ifs at h with hrest
          · subst hrest
            cases h
            rw [advance]
          · rw [← hmeets, List.dropLast_concat] at hmore
            exact absurd h (not_named_of_file hmore hfile hrest)
      · have hhop : (disk.put place (.file content)).hop start step = disk.hop start step := by
          cases step with
          | here => rfl
          | up => rfl
          | enter name =>
            have hne : start ++ [name] ≠ place := fun heq => hmeets ⟨name, rfl, heq⟩
            simp only [hop, node?_put_ne disk _ hne]
        rw [hhop]
        cases hnext : disk.hop start step with
        | mk next target? =>
          cases target? with
          | none =>
            simp only [hnext] at h ⊢
            exact ihp h
          | some target =>
            simp only [hnext, Bool.false_eq_true, not_false_eq_true, and_true] at h ⊢
            split_ifs at h ⊢ with hrest
            · exact h
            · exact ih _ h

/-- Paths name the same places after a file is replaced. -/
theorem locate_named_put {path : String} {named : Place} (h : disk.locate false path = .ok named) :
    (disk.put place (.file content)).locate false path = .ok named := by
  unfold locate at h ⊢
  split_ifs at h ⊢ with hempty
  exact travel_named_put hplace content _ _ h

omit hplace

/-! ## Reading what a path names -/

/-- What a path reads lies where it is named, or a link does that leads to it. -/
theorem named_of_readText {path text : String} (h : disk.readText path = .ok text) :
    ∃ place, disk.locate false path = .ok place ∧ disk.LeadsToFile place ∧
      (disk.node? place = some (.file (.text text)) ∨
        ∃ target more last, disk.node? place = some (.link target) ∧
          disk.travel true more (startOf place.dropLast target) (steps target) = .ok last ∧
          disk.node? last = some (.file (.text text))) := by
  obtain ⟨last, hfind⟩ := find_of_readText h
  obtain ⟨hlocate, hnode⟩ := find_eq_ok_iff.1 hfind
  unfold locate at hlocate
  split_ifs at hlocate with hempty
  obtain ⟨named, hnamed, hlast⟩ := disk.travel_last _ _ hlocate
  refine ⟨named, by simp [locate, hempty, hnamed], ?_⟩
  rcases hlast with rfl | ⟨target, more, hlink, hmore⟩
  · exact ⟨.inl ⟨_, hnode⟩, .inl hnode⟩
  · exact ⟨.inr ⟨target, more, last, _, hlink, hmore, hnode⟩, .inr ⟨target, more, last, hlink, hmore, hnode⟩⟩

/-- Two paths that name one place read the same text. -/
theorem text_of_same_place {path other text text' : String} {place : Place}
    (h : disk.readText path = .ok text) (h' : disk.readText other = .ok text')
    (hplace : disk.locate false path = .ok place) (hplace' : disk.locate false other = .ok place) :
    text = text' := by
  obtain ⟨named, hnamed, -, hreads⟩ := named_of_readText h
  obtain ⟨named', hnamed', -, hreads'⟩ := named_of_readText h'
  obtain rfl := Except.ok.inj (hplace.symm.trans hnamed)
  obtain rfl := Except.ok.inj (hplace'.symm.trans hnamed')
  rcases hreads with hfile | ⟨target, more, last, hlink, hmore, hfile⟩
  · rcases hreads' with hfile' | ⟨target', -, -, hlink', -⟩
    · simpa [hfile] using hfile'
    · rw [hfile] at hlink'
      cases hlink'
  · rcases hreads' with hfile' | ⟨target', more', last', hlink', hmore', hfile'⟩
    · rw [hlink] at hfile'
      cases hfile'
    · rw [hlink] at hlink'
      cases hlink'
      obtain rfl := travel_unique hmore hmore'
      simpa [hfile] using hfile'

/-- A path reads the text of the file that it names. -/
theorem readText_of_named {path text : String} {place : Place}
    (hlocate : disk.locate false path = .ok place)
    (hnode : disk.node? place = some (.file (.text text))) : disk.readText path = .ok text := by
  have hfind : disk.find path = .ok (place, .file (.text text)) := by
    refine find_eq_ok_iff.2 ⟨?_, hnode⟩
    unfold locate at hlocate ⊢
    split_ifs at hlocate ⊢ with hempty
    exact travel_of_named _ _ hlocate (by simp [hnode])
  simp [readText, hfind, bind, Except.bind]

/-- What is put at the place that a path names is read by that path. -/
theorem readText_put_named {path text : String} (hplace : disk.LeadsToFile place)
    (hlocate : disk.locate false path = .ok place) :
    (disk.put place (.file (.text text))).readText path = .ok text :=
  readText_of_named (locate_named_put hplace _ hlocate) (node?_put_self disk _ hplace.ne_nil)

end Reexport.Disk
