import Reexport.Proofs.TreeShape
import Reexport.Survey

/-!
# Trees that a survey finds

A survey builds its tree from the root downwards and then scans the manifests. So
the tree is well formed, and every text that was scanned is the text of the file.

Results:

* `planted_plantAll`: modules are only added under modules that are there.
* `run_keeps`: the tree is well formed, and scanned texts are those on disk.
-/

namespace Reexport.Survey

open ModuleTree

/-! ## Adding modules -/

/-- A tree of modules without content. -/
structure Planted (tree : ModuleTree) : Prop where
  built : tree.Built
  source : ∀ id, (tree.get id).source = none
  directives : ∀ id, (tree.get id).directives = []

theorem Planted.new (rootDir : String) (manifest : Option String) :
    Planted (.new rootDir manifest) := by
  have hblank : ∀ id, ((ModuleTree.new rootDir manifest).get id).source = none ∧
      ((ModuleTree.new rootDir manifest).get id).directives = [] := by
    intro (id : Nat)
    have hsize : (ModuleTree.new rootDir manifest).size = 1 := rfl
    cases id with
    | zero => exact ⟨rfl, rfl⟩
    | succ id =>
      rw [get_of_size_le (by omega)]
      exact ⟨rfl, rfl⟩
  exact ⟨.new rootDir manifest, fun id => (hblank id).1, fun id => (hblank id).2⟩

theorem Planted.addChild {tree : ModuleTree} {parent : ModuleId} (h : Planted tree)
    (hp : parent < tree.size) (name : String) (dir manifest : Option String) :
    Planted (tree.addChild parent name dir manifest) := by
  have hblank : ∀ id, ((tree.addChild parent name dir manifest).get id).source = none ∧
      ((tree.addChild parent name dir manifest).get id).directives = [] := by
    intro (id : Nat)
    by_cases hlt : id < tree.size
    · rw [get_addChild_of_lt name dir manifest hlt]
      by_cases hid : parent = id
      · subst hid
        rw [get_modify_self _ hp]
        exact ⟨h.source parent, h.directives parent⟩
      · rw [get_modify_ne _ hid]
        exact ⟨h.source id, h.directives id⟩
    · by_cases hid : id = tree.size
      · subst hid
        rw [get_addChild_size]
        exact ⟨rfl, rfl⟩
      · rw [get_of_size_le (by rw [size_addChild]; omega)]
        exact ⟨rfl, rfl⟩
  exact ⟨h.built.addChild name dir manifest hp, fun id => (hblank id).1, fun id => (hblank id).2⟩

mutual

theorem planted_plant (d : Discovered) {tree : ModuleTree} {parent : ModuleId} (h : Planted tree)
    (hp : parent < tree.size) :
    Planted (plant tree parent d) ∧ tree.size ≤ (plant tree parent d).size := by
  obtain ⟨name, dir, manifest, children⟩ := d
  have hchild := h.addChild hp name dir manifest
  have hsize := size_addChild tree parent name dir manifest
  obtain ⟨hall, hle⟩ := planted_plantAll children hchild (show tree.size < _ by rw [hsize]; omega)
  rw [plant]
  exact ⟨hall, by omega⟩

theorem planted_plantAll (ds : List Discovered) {tree : ModuleTree} {parent : ModuleId}
    (h : Planted tree) (hp : parent < tree.size) :
    Planted (plantAll tree parent ds) ∧ tree.size ≤ (plantAll tree parent ds).size := by
  match ds with
  | [] => exact ⟨h, Nat.le_refl _⟩
  | d :: rest =>
    obtain ⟨hfirst, hle⟩ := planted_plant d h hp
    obtain ⟨hrest, hle'⟩ := planted_plantAll rest hfirst (Nat.lt_of_lt_of_le hp hle)
    rw [plantAll]
    exact ⟨hrest, by omega⟩

end

/-! ## Scanning manifests -/

/-- Scanned texts are those on disk. -/
def Faithful (disk : Disk) (tree : ModuleTree) : Prop :=
  ∀ (id : ModuleId) (text : String), (tree.get id).source = some text →
    ∃ path, (tree.get id).manifest = some path ∧ disk.readText path = .ok text

theorem source_of_scan {path source : String} {found : Scan} (h : scan path source = .ok found) :
    found.source = source := by
  unfold scan at h
  simp only [bind, Except.bind, pure, Except.pure] at h
  split at h
  · cases h
  · cases h
    rfl

theorem readText_of_scanFile {disk : Disk} {path : String} {found : Scan}
    (h : scanFile disk path = .ok found) : disk.readText path = .ok found.source := by
  unfold scanFile at h
  cases hread : disk.readText path with
  | error fault => simp [hread] at h
  | ok source =>
    simp only [hread] at h
    cases hscan : scan path source with
    | error line => simp [hscan] at h
    | ok scanned =>
      simp only [hscan, Except.ok.injEq] at h
      subst h
      rw [source_of_scan hscan]

theorem Faithful.modify {disk : Disk} {tree : ModuleTree} (h : Faithful disk tree) (id : ModuleId)
    {f : Module → Module} (hf : ∀ text, (f (tree.get id)).source = some text →
      ∃ path, (f (tree.get id)).manifest = some path ∧ disk.readText path = .ok text) :
    Faithful disk (tree.modify id f) := by
  intro other text hsource
  rcases get_modify_cases tree id other f with hsame | ⟨rfl, hself⟩
  · rw [hsame] at hsource ⊢
    exact h other text hsource
  · rw [hself] at hsource ⊢
    exact hf text hsource

theorem scanModule_keeps (disk : Disk) {found : Surveyed} (id : ModuleId)
    (h : found.tree.Built ∧ Faithful disk found.tree) :
    (scanModule disk found id).tree.Built ∧ Faithful disk (scanModule disk found id).tree := by
  obtain ⟨hbuilt, hfaithful⟩ := h
  unfold scanModule
  split
  · exact ⟨hbuilt, hfaithful⟩
  · rename_i path hpath
    split
    · rename_i scanned hscan
      refine ⟨.modify id hbuilt fun m => ⟨rfl, rfl, rfl, rfl⟩, hfaithful.modify id ?_⟩
      intro text htext
      cases htext
      exact ⟨path, hpath, readText_of_scanFile hscan⟩
    · refine ⟨.modify id hbuilt fun m => ⟨rfl, rfl, rfl, rfl⟩, hfaithful.modify id ?_⟩
      exact hfaithful id

theorem scanAll_keeps (disk : Disk) {tree : ModuleTree} (problems : List Problem) (h : Planted tree) :
    (scanAll disk tree problems).tree.Built ∧ Faithful disk (scanAll disk tree problems).tree := by
  have hfold : ∀ (ids : List ModuleId) (found : Surveyed),
      found.tree.Built ∧ Faithful disk found.tree →
      (ids.foldl (scanModule disk) found).tree.Built ∧
        Faithful disk (ids.foldl (scanModule disk) found).tree := by
    intro ids
    induction ids with
    | nil => intro found hfound; exact hfound
    | cons id rest ih => intro found hfound; exact ih _ (scanModule_keeps disk id hfound)
  refine hfold _ _ ⟨h.built, fun id text htext => ?_⟩
  rw [h.source id] at htext
  cases htext

/-- Only modules that have been scanned have directives. -/
def Unread (tree : ModuleTree) : Prop :=
  ∀ id, (tree.get id).source = none → (tree.get id).directives = []

theorem scanModule_unread (disk : Disk) {found : Surveyed} (id : ModuleId) (h : Unread found.tree) :
    Unread (scanModule disk found id).tree := by
  have hmodify : ∀ {f : Module → Module}, ((f (found.tree.get id)).source = none →
      (f (found.tree.get id)).directives = []) → Unread (found.tree.modify id f) := by
    intro f hf other hsource
    rcases get_modify_cases found.tree id other f with hsame | ⟨rfl, hself⟩
    · rw [hsame] at hsource ⊢
      exact h other hsource
    · rw [hself] at hsource ⊢
      exact hf hsource
  unfold scanModule
  split
  · exact h
  · split
    · exact hmodify fun hsource => by cases hsource
    · exact hmodify (h id)

theorem scanAll_unread (disk : Disk) {tree : ModuleTree} (problems : List Problem) (h : Planted tree) :
    Unread (scanAll disk tree problems).tree := by
  have hfold : ∀ (ids : List ModuleId) (found : Surveyed), Unread found.tree →
      Unread (ids.foldl (scanModule disk) found).tree := by
    intro ids
    induction ids with
    | nil => intro found hfound; exact hfound
    | cons id rest ih => intro found hfound; exact ih _ (scanModule_unread disk id hfound)
  exact hfold _ _ fun id _ => h.directives id

/-- The tree is well formed, and scanned texts are those on disk. -/
theorem run_keeps {survey : Survey} {disk : Disk} {surveyed : Surveyed}
    (h : survey.run disk = .ok surveyed) : surveyed.tree.Built ∧ Faithful disk surveyed.tree := by
  unfold run at h
  split at h
  · cases h
    exact scanAll_keeps disk _ (planted_plantAll _ (.new _ _) Nat.zero_lt_one).1
  · cases h

theorem run_unread {survey : Survey} {disk : Disk} {surveyed : Surveyed}
    (h : survey.run disk = .ok surveyed) : Unread surveyed.tree := by
  unfold run at h
  split at h
  · cases h
    exact scanAll_unread disk _ (planted_plantAll _ (.new _ _) Nat.zero_lt_one).1
  · cases h

end Reexport.Survey
