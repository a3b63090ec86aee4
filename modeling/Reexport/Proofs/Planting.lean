import Mathlib.Data.List.Nodup
import Mathlib.Data.List.Perm.Basic
import Mathlib.Logic.Function.Basic
import Reexport.Proofs.Siblings
import Reexport.Proofs.Surveyed
import Reexport.Proofs.Walks

/-!
# Planted trees

What a survey has found is a tree of its own. Its modules are planted one by one, each under
its parent, and get their numbers that way. A label for each number says which one of those
that were found stands there: a module is called what its label is called, and its children
are labelled by the children of its label. So whatever holds of what was found holds of the
tree.

Results:

* `growth_plantAll`: what planting adds to a tree.
* `labelled_planted`, `Labelled.sameFiles`: the tree of a survey has labels, also after it is
  scanned.
* `Labelled.distinctSiblings`: where names are told apart among what was found, they are in
  the tree.
-/

namespace Reexport.Survey

open ModuleTree

/-! ## Labels -/

/-- A module is what was found. -/
structure Bears (m : Module) (d : Discovered) : Prop where
  name : m.name = d.name
  dir : m.dir = d.dir
  manifest : m.manifest = d.manifest

/-- The modules with the numbers from `start` on are what they are labelled with, and their
    children are those of their labels. -/
structure Labelled (tree : ModuleTree) (label : Nat → Discovered) (start : Nat) : Prop where
  bears : ∀ id, start ≤ id → id < tree.size → Bears (tree.get id) (label id)
  children : ∀ id, start ≤ id → id < tree.size →
    ((tree.get id).children.map label).Perm (label id).children

/-- What is added to a tree by planting `ds` under a module: everything below `ds`, and no
    change to any other module. -/
structure Growth (tree after : ModuleTree) (label labelAfter : Nat → Discovered) (parent : Nat)
    (ds : List Discovered) : Prop where
  wellFormed : after.WellFormed
  size_le : tree.size ≤ after.size
  labels : ∀ id < tree.size, labelAfter id = label id
  others : ∀ id < tree.size, id ≠ parent → after.get id = tree.get id
  above : after.get parent = { tree.get parent with children := (after.get parent).children }
  below : ((after.get parent).children.map labelAfter).Perm (ds ++ (tree.get parent).children.map label)
  labelled : Labelled after labelAfter tree.size
  fresh : ∀ id, tree.size ≤ id → id < after.size →
    (after.get id).source = none ∧ (after.get id).scanFailed = false

/-! ## Planting -/

theorem insertByName_perm (tree : ModuleTree) (id : Nat) (name : String) :
    ∀ siblings : List Nat, (tree.insertByName id name siblings).Perm (id :: siblings) := by
  intro siblings
  induction siblings with
  | nil => exact .refl _
  | cons sibling rest ih =>
    rw [insertByName]
    split_ifs
    · exact .refl _
    · exact (ih.cons sibling).trans (.swap id sibling rest)

theorem map_labels {tree : ModuleTree} (hwf : tree.WellFormed) {label labelAfter : Nat → Discovered}
    (hlabels : ∀ id < tree.size, labelAfter id = label id) (id : Nat) :
    (tree.get id).children.map labelAfter = (tree.get id).children.map label :=
  List.map_congr_left fun child hchild => hlabels child (hwf.child_lt (show tree.Child id child from hchild))

namespace Growth

variable {tree middle after : ModuleTree} {label labelMiddle labelAfter : Nat → Discovered}
  {parent : Nat}

theorem refl (h : tree.WellFormed) (label : Nat → Discovered) (parent : Nat) :
    Growth tree tree label label parent [] where
  wellFormed := h
  size_le := Nat.le_refl _
  labels := fun _ _ => rfl
  others := fun _ _ _ => rfl
  above := rfl
  below := .refl _
  labelled := ⟨fun id hle hlt => absurd hlt (by omega), fun id hle hlt => absurd hlt (by omega)⟩
  fresh := fun id hle hlt => absurd hlt (by omega)

/-- What is planted first stays. -/
theorem trans {first rest : List Discovered} (hp : parent < tree.size)
    (h : Growth tree middle label labelMiddle parent first)
    (h' : Growth middle after labelMiddle labelAfter parent rest) :
    Growth tree after label labelAfter parent (first ++ rest) where
  wellFormed := h'.wellFormed
  size_le := Nat.le_trans h.size_le h'.size_le
  labels := by
    intro id hid
    rw [h'.labels id (Nat.lt_of_lt_of_le hid h.size_le), h.labels id hid]
  others := by
    intro id hid hne
    rw [h'.others id (Nat.lt_of_lt_of_le hid h.size_le) hne, h.others id hid hne]
  above := by
    rw [h'.above, h.above]
  below := by
    calc ((after.get parent).children.map labelAfter).Perm
          (rest ++ (middle.get parent).children.map labelMiddle) := h'.below
      _ |>.Perm (rest ++ (first ++ (tree.get parent).children.map label)) :=
          h.below.append_left rest
      _ |>.Perm (first ++ rest ++ (tree.get parent).children.map label) := by
          rw [← List.append_assoc]
          exact List.perm_append_comm.append_right _
  labelled := by
    -- what the first part added is not the parent, so the second part leaves it alone
    have hold : ∀ id, tree.size ≤ id → id < middle.size →
        after.get id = middle.get id ∧ labelAfter id = labelMiddle id := by
      intro id hle hlt
      exact ⟨h'.others id hlt (by omega), h'.labels id hlt⟩
    refine ⟨fun id hle hlt => ?_, fun id hle hlt => ?_⟩
    · by_cases hid : id < middle.size
      · rw [(hold id hle hid).1, (hold id hle hid).2]
        exact h.labelled.bears id hle hid
      · exact h'.labelled.bears id (Nat.le_of_not_lt hid) hlt
    · by_cases hid : id < middle.size
      · rw [(hold id hle hid).1, (hold id hle hid).2, map_labels h.wellFormed h'.labels]
        exact h.labelled.children id hle hid
      · exact h'.labelled.children id (Nat.le_of_not_lt hid) hlt
  fresh := by
    intro id hle hlt
    by_cases hid : id < middle.size
    · rw [h'.others id hid (by omega)]
      exact h.fresh id hle hid
    · exact h'.fresh id (Nat.le_of_not_lt hid) hlt

/-- A module is planted before what is below it. -/
theorem addChild {name : String} {dir manifest : Option String} {ds : List Discovered}
    (hwf : tree.WellFormed) (hp : parent < tree.size)
    (h : Growth (tree.addChild parent name dir manifest) after
      (Function.update label tree.size (.mk name dir manifest ds)) labelAfter tree.size ds) :
    Growth tree after label labelAfter parent [.mk name dir manifest ds] := by
  have hsize := size_addChild tree parent name dir manifest
  have hgrown : ∀ id < tree.size,
      after.get id = (tree.addChild parent name dir manifest).get id := by
    intro id hid
    exact h.others id (by omega) (by omega)
  have hlabels : ∀ id < tree.size, labelAfter id = label id := by
    intro id hid
    rw [h.labels id (by omega), Function.update_of_ne (by omega)]
  have hself : labelAfter tree.size = .mk name dir manifest ds := by
    rw [h.labels tree.size (by omega), Function.update_self]
  have hparent : after.get parent = { tree.get parent with
      children := tree.insertByName tree.size name (tree.get parent).children } := by
    rw [hgrown parent hp, get_addChild_of_lt name dir manifest hp, get_modify_self _ hp]
  have hnew : after.get tree.size = { Module.bare name ((tree.get parent).segments ++ [name]) dir
      manifest (some parent) with children := (after.get tree.size).children } := by
    rw [h.above, get_addChild_size]
  refine ⟨h.wellFormed, by have := h.size_le; omega, hlabels, fun id hid hne => ?_, ?_, ?_, ?_,
    fun id hle hlt => ?_⟩
  · rw [hgrown id hid, get_addChild_of_lt name dir manifest hid, get_modify_ne _ (Ne.symm hne)]
  · rw [hparent]
  · rw [hparent, ← map_labels hwf hlabels]
    have hperm := (insertByName_perm tree tree.size name (tree.get parent).children).map labelAfter
    rwa [List.map_cons, hself] at hperm
  · have hbelow := h.below
    rw [get_addChild_size] at hbelow
    refine ⟨fun id hle hlt => ?_, fun id hle hlt => ?_⟩
    · rcases Nat.eq_or_lt_of_le hle with rfl | hgt
      · rw [hself, hnew]
        exact ⟨rfl, rfl, rfl⟩
      · exact h.labelled.bears id (by omega) hlt
    · rcases Nat.eq_or_lt_of_le hle with rfl | hgt
      · rw [hself]
        simpa [Module.bare, Discovered.children] using hbelow
      · exact h.labelled.children id (by omega) hlt
  · rcases Nat.eq_or_lt_of_le hle with rfl | hgt
    · rw [hnew]
      exact ⟨rfl, rfl⟩
    · exact h.fresh id (by omega) hlt

end Growth

mutual

theorem growth_plant (d : Discovered) {tree : ModuleTree} {parent : Nat} (label : Nat → Discovered)
    (hwf : tree.WellFormed) (hp : parent < tree.size) :
    ∃ labelAfter, Growth tree (plant tree parent d) label labelAfter parent [d] := by
  obtain ⟨name, dir, manifest, children⟩ := d
  rw [plant]
  have hsize := size_addChild tree parent name dir manifest
  obtain ⟨labelAfter, h⟩ := growth_plantAll children
    (Function.update label tree.size (.mk name dir manifest children)) (hwf.addChild hp)
    (show tree.size < (tree.addChild parent name dir manifest).size by omega)
  exact ⟨labelAfter, h.addChild hwf hp⟩

/-- What planting adds to a tree. -/
theorem growth_plantAll (ds : List Discovered) {tree : ModuleTree} {parent : Nat}
    (label : Nat → Discovered) (hwf : tree.WellFormed) (hp : parent < tree.size) :
    ∃ labelAfter, Growth tree (plantAll tree parent ds) label labelAfter parent ds := by
  match ds with
  | [] => exact ⟨label, .refl hwf label parent⟩
  | d :: rest =>
    obtain ⟨labelMiddle, h⟩ := growth_plant d label hwf hp
    obtain ⟨labelAfter, h'⟩ := growth_plantAll rest labelMiddle h.wellFormed
      (Nat.lt_of_lt_of_le hp h.size_le)
    rw [plantAll]
    exact ⟨labelAfter, h.trans hp h'⟩

end

/-- The root with all that was found below it. -/
def rooted (dir : String) (manifest : Option String) (ds : List Discovered) : Discovered :=
  .mk "crate" (some dir) manifest ds

/-- A tree that is planted from the root has labels, and nothing in it is scanned. -/
theorem labelled_planted (dir : String) (manifest : Option String) (ds : List Discovered) :
    ∃ label, Labelled (plantAll (.new dir manifest) ModuleTree.root ds) label 0 ∧
      label ModuleTree.root = rooted dir manifest ds ∧
      ∀ id < (plantAll (.new dir manifest) ModuleTree.root ds).size,
        ((plantAll (.new dir manifest) ModuleTree.root ds).get id).source = none ∧
          ((plantAll (.new dir manifest) ModuleTree.root ds).get id).scanFailed = false := by
  have hwf := wellFormed_new dir manifest
  obtain ⟨label, h⟩ := @growth_plantAll ds _ ModuleTree.root
    (fun _ => rooted dir manifest ds) hwf hwf.root_lt
  have hroot : label ModuleTree.root = rooted dir manifest ds := h.labels ModuleTree.root hwf.root_lt
  have hget : (ModuleTree.new dir manifest).get ModuleTree.root =
      .bare "crate" [] (some dir) manifest none := rfl
  refine ⟨label, ⟨fun id _ hlt => ?_, fun id _ hlt => ?_⟩, hroot, fun id hlt => ?_⟩
  · rcases Nat.eq_zero_or_pos id with heq | hpos
    · obtain rfl : id = ModuleTree.root := heq
      rw [hroot, h.above, hget]
      exact ⟨rfl, rfl, rfl⟩
    · exact h.labelled.bears id hpos hlt
  · rcases Nat.eq_zero_or_pos id with heq | hpos
    · obtain rfl : id = ModuleTree.root := heq
      rw [hroot]
      have hbelow := h.below
      rwa [hget, Module.bare, List.map_nil, List.append_nil] at hbelow
    · exact h.labelled.children id hpos hlt
  · rcases Nat.eq_zero_or_pos id with heq | hpos
    · obtain rfl : id = ModuleTree.root := heq
      rw [h.above, hget]
      exact ⟨rfl, rfl⟩
    · exact h.fresh id hpos hlt

/-! ## Scanning -/

/-- Two trees whose modules have the same names, places and files. -/
structure SameFiles (a b : ModuleTree) : Prop where
  shape : a.SameShape b
  dir : ∀ id : Nat, (a.get id).dir = (b.get id).dir
  manifest : ∀ id : Nat, (a.get id).manifest = (b.get id).manifest

/-- A module after its manifest is scanned. -/
def scannedModule (disk : Disk) (m : Module) : Module :=
  match m.manifest.map (scanFile disk) with
  | none => m
  | some (.ok scan) =>
    { m with symbols := scan.symbols, directives := scan.directives, source := some scan.source }
  | some (.error _) => { m with scanFailed := true }

/-- What is wrong with the manifest of a module. -/
def scanError? (disk : Disk) (m : Module) : Option Problem :=
  match m.manifest.map (scanFile disk) with
  | some (.error p) => some p
  | some (.ok _) | none => none

/-- What scanning some of the modules changes. -/
structure ScannedAll (disk : Disk) (ids : List Nat) (before after : Surveyed) : Prop where
  size : after.tree.size = before.tree.size
  get : ∀ id ∈ ids, after.tree.get id = scannedModule disk (before.tree.get id)
  others : ∀ id ∉ ids, after.tree.get id = before.tree.get id
  problems : after.problems =
    before.problems ++ ids.filterMap fun id => scanError? disk (before.tree.get id)
  units : after.unitsScanned =
    before.unitsScanned + ids.countP fun id => (before.tree.get id).manifest.isSome

theorem scannedAll_one (disk : Disk) (found : Surveyed) {id : Nat} (hid : id < found.tree.size) :
    ScannedAll disk [id] found (scanModule disk found id) := by
  have hmodify : ∀ f : Module → Module, ∀ other ∉ [id],
      (found.tree.modify id f).get other = found.tree.get other := by
    intro f other hother
    exact get_modify_ne f fun h => hother (by simp [h])
  unfold scanModule
  cases hmanifest : (found.tree.get id).manifest with
  | none =>
    refine ⟨rfl, List.forall_mem_singleton.2 ?_, fun _ _ => rfl, ?_, ?_⟩
    · simp [scannedModule, hmanifest]
    · simp [scanError?, hmanifest]
    · simp [hmanifest]
  | some path =>
    cases hscan : scanFile disk path with
    | ok scan =>
      simp only [hscan]
      refine ⟨size_modify _ _ _, List.forall_mem_singleton.2 ?_, hmodify _, ?_, ?_⟩
      · rw [get_modify_self _ hid]
        simp [scannedModule, hmanifest, hscan]
      · simp [scanError?, hmanifest, hscan]
      · simp [hmanifest]
    | error p =>
      simp only [hscan]
      refine ⟨size_modify _ _ _, List.forall_mem_singleton.2 ?_, hmodify _, ?_, ?_⟩
      · rw [get_modify_self _ hid]
        simp [scannedModule, hmanifest, hscan]
      · simp [scanError?, hmanifest, hscan]
      · simp [hmanifest]

theorem scannedAll_foldl (disk : Disk) : ∀ {ids : List Nat} {found : Surveyed}, ids.Nodup →
    (∀ id ∈ ids, id < found.tree.size) →
    ScannedAll disk ids found (ids.foldl (scanModule disk) found) := by
  intro ids
  induction ids with
  | nil =>
    intro found _ _
    exact ⟨rfl, fun id hid => absurd hid List.not_mem_nil, fun _ _ => rfl, by simp, by simp⟩
  | cons id rest ih =>
    intro found hnodup hlt
    obtain ⟨hid, hrest⟩ := List.nodup_cons.1 hnodup
    have hone := scannedAll_one disk found (hlt id List.mem_cons_self)
    have hall := @ih (scanModule disk found id) hrest fun other hother =>
      hone.size ▸ hlt other (List.mem_cons_of_mem _ hother)
    -- the first module is not among the others, so they are as they were when their turn comes
    have hsame : ∀ other ∈ rest, (scanModule disk found id).tree.get other = found.tree.get other := by
      intro other hother
      exact hone.others other (by rintro hmem; exact hid (List.mem_singleton.1 hmem ▸ hother))
    rw [List.foldl_cons]
    refine ⟨hall.size.trans hone.size, List.forall_mem_cons.2 ⟨?_, fun other hother => ?_⟩,
      fun other hother => ?_, ?_, ?_⟩
    · rw [hall.others id hid, hone.get id (List.mem_singleton_self id)]
    · rw [hall.get other hother, hsame other hother]
    · rw [List.mem_cons, not_or] at hother
      rw [hall.others other hother.2, hone.others other (by simpa using hother.1)]
    · have herrors : (rest.filterMap fun other =>
          scanError? disk ((scanModule disk found id).tree.get other)) =
          rest.filterMap fun other => scanError? disk (found.tree.get other) :=
        List.filterMap_congr fun other hother => by rw [hsame other hother]
      rw [hall.problems, hone.problems, herrors, List.append_assoc, ← List.filterMap_append]
      rfl
    · have hunits : (rest.countP fun other =>
          ((scanModule disk found id).tree.get other).manifest.isSome) =
          rest.countP fun other => (found.tree.get other).manifest.isSome :=
        List.countP_congr fun other hother => by rw [hsame other hother]
      rw [hall.units, hone.units, hunits, Nat.add_assoc, ← List.countP_append]
      rfl

/-- All manifests are scanned, each once. -/
theorem scannedAll_scanAll (disk : Disk) (tree : ModuleTree) (problems : List Problem) :
    ScannedAll disk (List.range tree.size) ⟨tree, problems, 0⟩ (scanAll disk tree problems) :=
  scannedAll_foldl disk List.nodup_range fun _ hid => List.mem_range.1 hid

theorem scannedModule_keeps (disk : Disk) (m : Module) :
    (scannedModule disk m).name = m.name ∧ (scannedModule disk m).segments = m.segments ∧
      (scannedModule disk m).dir = m.dir ∧ (scannedModule disk m).manifest = m.manifest ∧
      (scannedModule disk m).parent = m.parent ∧ (scannedModule disk m).children = m.children := by
  unfold scannedModule
  split <;> simp

/-- Scanning changes neither names nor files. -/
theorem sameFiles_scanAll (disk : Disk) (tree : ModuleTree) (problems : List Problem) :
    SameFiles (scanAll disk tree problems).tree tree := by
  have hall := scannedAll_scanAll disk tree problems
  have hget : ∀ id : Nat, (scanAll disk tree problems).tree.get id = tree.get id ∨
      (scanAll disk tree problems).tree.get id = scannedModule disk (tree.get id) := by
    intro id
    by_cases hid : id ∈ List.range tree.size
    · exact .inr (hall.get id hid)
    · exact .inl (hall.others id hid)
  have hkeeps := fun id : Nat => scannedModule_keeps disk (tree.get id)
  refine ⟨⟨hall.size, fun id => ?_, fun id => ?_, fun id => ?_, fun id => ?_⟩, fun id => ?_,
    fun id => ?_⟩
  all_goals
    rcases hget id with h | h
    · rw [h]
  · rw [h, (hkeeps id).1]
  · rw [h, (hkeeps id).2.1]
  · rw [h, (hkeeps id).2.2.2.2.1]
  · rw [h, (hkeeps id).2.2.2.2.2]
  · rw [h, (hkeeps id).2.2.1]
  · rw [h, (hkeeps id).2.2.2.1]

theorem Labelled.sameFiles {a b : ModuleTree} (h : SameFiles a b) {label : Nat → Discovered}
    {start : Nat} (hb : Labelled b label start) : Labelled a label start where
  bears := by
    intro id hle hlt
    obtain ⟨hname, hdir, hmanifest⟩ := hb.bears id hle (h.shape.size ▸ hlt)
    exact ⟨(h.shape.name id).trans hname, (h.dir id).trans hdir, (h.manifest id).trans hmanifest⟩
  children := by
    intro id hle hlt
    rw [h.shape.children]
    exact hb.children id hle (h.shape.size ▸ hlt)

/-! ## Labelled trees -/

namespace Labelled

variable {tree : ModuleTree} {label : Nat → Discovered} (h : Labelled tree label 0)

include h

theorem child {parent child : Nat} (hp : parent < tree.size) (hc : tree.Child parent child) :
    label child ∈ (label parent).children :=
  (h.children parent (Nat.zero_le _) hp).subset (List.mem_map_of_mem hc)

/-- Everything that was found below a module has been planted. -/
theorem exists_child {parent : Nat} (hp : parent < tree.size) {d : Discovered}
    (hd : d ∈ (label parent).children) : ∃ child, tree.Child parent child ∧ label child = d :=
  List.mem_map.1 ((h.children parent (Nat.zero_le _) hp).symm.subset hd)

/-- Where names are told apart among what was found, they are in the tree. -/
theorem distinctSiblings (hwf : tree.WellFormed)
    (hnames : ∀ id < tree.size, ((label id).children.map (·.name)).Nodup) : tree.DistinctSiblings := by
  intro parent a b ha hb hname
  have hp : parent < tree.size := Nat.lt_trans (hwf.lt_child ha) (hwf.child_lt ha)
  have hperm := (h.children parent (Nat.zero_le _) hp).map Discovered.name
  have hnodup := hperm.nodup_iff.2 (hnames parent hp)
  rw [List.map_map] at hnodup
  refine List.inj_on_of_nodup_map hnodup ha hb ?_
  rw [Function.comp_apply, Function.comp_apply, ← (h.bears a (Nat.zero_le _) (hwf.child_lt ha)).name,
    ← (h.bears b (Nat.zero_le _) (hwf.child_lt hb)).name, hname]

end Labelled

end Reexport.Survey
