import Reexport.Proofs.Planting
import Reexport.Proofs.Walks

/-!
# Where modules lie

Every module of a surveyed tree comes from a candidate in the directory of its parent, and
every directory that the walk has come to is that of a module, unless nothing in it counts.

Results:

* `exists_outcome`: a survey that gives a tree has walked to its end.
* `Outcome.exists_parent`: where each module comes from.
* `Visited.outcome`: what becomes of each directory that is visited.
* `walk_ends`: the walk ends and never goes round.
-/

namespace Reexport.Survey

variable {survey : Survey} {disk : Disk}

/-! ## The tree of a survey -/

/-- The tree of what was found, before any manifest is scanned. -/
def unscanned (survey : Survey) (disk : Disk) (place : Disk.Place) (found : Found) : ModuleTree :=
  plantAll (.new survey.root (survey.rootManifest? (survey.list disk survey.root place)))
    ModuleTree.root found.modules

/-- The problems on the way. -/
def reported (survey : Survey) (disk : Disk) (place : Disk.Place) (found : Found) : List Problem :=
  (survey.list disk survey.root place).problems ++ found.problems

/-- What a survey has found, with a label for each module of its tree. -/
structure Outcome (survey : Survey) (disk : Disk) (surveyed : Surveyed) (place : Disk.Place)
    (found : Found) (label : Nat → Discovered) : Prop where
  built : surveyed.tree.Built
  opened : disk.find survey.root = .ok (place, .dir)
  walks : Walks survey disk (.start survey disk place) ((Visit.start survey disk place).candidates survey)
    found
  labelled : Labelled surveyed.tree label 0
  root : label ModuleTree.root =
    rooted survey.root (survey.rootManifest? (survey.list disk survey.root place)) found.modules
  scanned : surveyed = scanAll disk (unscanned survey disk place found) (reported survey disk place found)
  fresh : ∀ id < surveyed.tree.size,
    ((unscanned survey disk place found).get id).source = none ∧
    ((unscanned survey disk place found).get id).scanFailed = false

theorem walks_start {place : Disk.Place} (h : disk.find survey.root = .ok (place, .dir)) :
    Walks survey disk (.start survey disk place) ((Visit.start survey disk place).candidates survey)
      (survey.discover disk (disk.entries.length + 2) [place] 1
        (belowRoot (survey.list disk survey.root place))) :=
  walks_discover (v := .start survey disk place) _ (Visit.open_start h) (Nat.le_add_right _ _)

theorem run_of_dir {place : Disk.Place} (h : disk.find survey.root = .ok (place, .dir)) :
    ∃ found, Walks survey disk (.start survey disk place)
        ((Visit.start survey disk place).candidates survey) found ∧
      survey.run disk = .ok (scanAll disk (unscanned survey disk place found)
        (reported survey disk place found)) := by
  refine ⟨_, walks_start h, ?_⟩
  unfold run
  rw [h]
  rfl

theorem exists_outcome {surveyed : Surveyed} (h : survey.run disk = .ok surveyed) :
    ∃ place found label, Outcome survey disk surveyed place found label := by
  have hbuilt := (run_keeps h).1
  have hdir : ∃ place, disk.find survey.root = .ok (place, .dir) := by
    unfold run at h
    split at h
    · exact ⟨_, by assumption⟩
    · cases h
  obtain ⟨place, hplace⟩ := hdir
  obtain ⟨found, hwalks, hrun⟩ := run_of_dir hplace
  obtain ⟨label, hlabelled, hroot, hfresh⟩ := labelled_planted survey.root
    (survey.rootManifest? (survey.list disk survey.root place)) found.modules
  rw [h] at hrun
  have hscanned := Except.ok.inj hrun
  have hsame : SameFiles surveyed.tree (unscanned survey disk place found) := by
    rw [hscanned]
    exact sameFiles_scanAll disk _ _
  exact ⟨place, found, label, hbuilt, hplace, hwalks, hlabelled.sameFiles hsame, hroot, hscanned,
    fun id hid => hfresh id (hsame.shape.size ▸ hid)⟩

/-- The places of the module directories on the way from the root to a module, the
    innermost first. -/
inductive Way (disk : Disk) (tree : ModuleTree) : Nat → List Disk.Place → Prop
  | root {dir : String} {place : Disk.Place} : (tree.get ModuleTree.root).dir = some dir →
      disk.find dir = .ok (place, .dir) → Way disk tree ModuleTree.root [place]
  | into {id parent : Nat} {dir : String} {place : Disk.Place} {places : List Disk.Place} :
      Way disk tree parent places → (tree.get id).parent = some parent →
      (tree.get id).dir = some dir → disk.find dir = .ok (place, .dir) →
      Way disk tree id (place :: places)
  | file {id parent : Nat} {places : List Disk.Place} : Way disk tree parent places →
      (tree.get id).parent = some parent → (tree.get id).dir = none → Way disk tree id places

/-- A module has the directory of a visit, with all that the walk has found there. -/
structure Housed (survey : Survey) (disk : Disk) (tree : ModuleTree) (label : Nat → Discovered)
    (id : Nat) (v : Visit) : Prop where
  visited : Visited survey disk v
  dir : (label id).dir = some v.dir
  walks : ∃ problems, Walks survey disk v (v.candidates survey) ⟨(label id).children, problems⟩
  depth : v.depth = (tree.get id).segments.length + 1
  way : Way disk tree id v.above

/-- A module comes from a candidate in the directory of a visit. -/
inductive Sited (survey : Survey) (disk : Disk) (tree : ModuleTree) (label : Nat → Discovered)
    (v : Visit) (c : Candidate) (id : Nat) : Prop
  | file : c.dir = none → label id = .mk c.name none c.file [] → Sited survey disk tree label v c id
  | directory {dir : String} {place : Disk.Place} : c.dir = some dir → place ∉ v.above →
      label id = .mk c.name (some dir) ((v.into survey disk dir place).manifest? c) (label id).children →
      Housed survey disk tree label id (v.into survey disk dir place) →
      ((label id).manifest ≠ none ∨ (label id).children ≠ []) →
      Sited survey disk tree label v c id

namespace Outcome

variable {surveyed : Surveyed} {place : Disk.Place} {found : Found} {label : Nat → Discovered}
  (h : Outcome survey disk surveyed place found label)

include h

theorem housed_root :
    Housed survey disk surveyed.tree label ModuleTree.root (.start survey disk place) := by
  have hbears := h.labelled.bears ModuleTree.root (Nat.zero_le _) h.built.wellFormed.root_lt
  refine ⟨.start h.opened, by rw [h.root]; rfl, ⟨found.problems, ?_⟩, ?_, ?_⟩
  · rw [h.root]
    exact h.walks
  · rw [h.built.placed.root_segments]
    rfl
  · refine @Way.root _ _ survey.root _ ?_ h.opened
    rw [hbears.dir, h.root]
    rfl

/-- A child of a module comes from a candidate in the directory of that module. -/
theorem sited_child {parent id : Nat} {v : Visit} (hparent : Housed survey disk surveyed.tree label parent v)
    (hchild : surveyed.tree.Child parent id) :
    ∃ c ∈ v.candidates survey, Sited survey disk surveyed.tree label v c id := by
  have hwf := h.built.wellFormed
  have hid := hwf.child_lt hchild
  have hlt := hwf.lt_child hchild
  obtain ⟨problems, hwalks⟩ := hparent.walks
  obtain ⟨c, hc, hyields⟩ := hwalks.yields _ (h.labelled.child (Nat.lt_trans hlt hid) hchild)
  refine ⟨c, hc, ?_⟩
  have hup := h.built.filed.parent_of_child hchild
  have hbears := h.labelled.bears id (Nat.zero_le _) hid
  generalize hlabel : label id = d at hyields hbears
  cases hyields with
  | file hdir => exact .file hdir hlabel
  | @directory dir inner node below hdir hfind hnot hbelow hcounts =>
    have hvisited := hparent.visited.into_candidate hc hdir hfind hnot
    refine @Sited.directory _ _ _ _ _ _ _ _ inner hdir hnot ?_ ⟨hvisited, ?_, ⟨below.problems, ?_⟩, ?_, ?_⟩ ?_
    · rw [hlabel]
      rfl
    · rw [hlabel]
      rfl
    · rw [hlabel]
      exact hbelow
    · obtain ⟨above, -, -, habove, hsegments⟩ := h.built.placed.below (by omega) hid
      rw [hup] at habove
      cases habove
      rw [hsegments, List.length_append, List.length_singleton, ← hparent.depth]
      rfl
    · exact .into hparent.way hup hbears.dir hvisited.found
    · rw [hlabel]
      exact hcounts

theorem housed_or_leaf {id : Nat} (hid : id < surveyed.tree.size) :
    (∃ v, Housed survey disk surveyed.tree label id v) ∨ (label id).children = [] := by
  induction h.built.wellFormed.root_above id hid with
  | refl => exact .inl ⟨_, h.housed_root⟩
  | @tail parent id _ hchild ih =>
    have hlt := h.built.wellFormed.lt_child hchild
    rcases ih (Nat.lt_trans hlt hid) with ⟨v, hparent⟩ | hleaf
    · obtain ⟨c, -, hsited⟩ := h.sited_child hparent hchild
      cases hsited with
      | file _ hlabel => exact .inr (by rw [hlabel]; rfl)
      | directory _ _ _ hhoused _ => exact .inl ⟨_, hhoused⟩
    · have hmem := h.labelled.child (Nat.lt_trans hlt hid) hchild
      rw [hleaf] at hmem
      cases hmem

/-- Every module but the root comes from a candidate in the directory of its parent. -/
theorem exists_parent {id : Nat} (h0 : 0 < id) (hid : id < surveyed.tree.size) :
    ∃ parent v, surveyed.tree.Child parent id ∧ Housed survey disk surveyed.tree label parent v ∧
      ∃ c ∈ v.candidates survey, Sited survey disk surveyed.tree label v c id := by
  obtain ⟨parent, hlt, hchild⟩ := h.built.wellFormed.listed h0 hid
  have hmem := h.labelled.child (Nat.lt_trans hlt hid) hchild
  rcases h.housed_or_leaf (Nat.lt_trans hlt hid) with ⟨v, hparent⟩ | hleaf
  · exact ⟨parent, v, hchild, hparent, h.sited_child hparent hchild⟩
  · rw [hleaf] at hmem
    cases hmem

/-! ## Problems on the way -/

theorem problems_subset : found.problems ⊆ surveyed.problems ∧
    (survey.list disk survey.root place).problems ⊆ surveyed.problems := by
  have hproblems := (scannedAll_scanAll disk (unscanned survey disk place found)
    (reported survey disk place found)).problems
  rw [← h.scanned] at hproblems
  rw [hproblems, reported]
  constructor
  · exact List.Subset.trans (List.subset_append_right _ _) (List.subset_append_left _ _)
  · exact List.Subset.trans (List.subset_append_left _ _) (List.subset_append_left _ _)

end Outcome

/-- What becomes of a directory that is visited: its problems are reported, and it is the
    directory of a module unless nothing in it counts. -/
structure Treated (survey : Survey) (disk : Disk) (surveyed : Surveyed) (label : Nat → Discovered)
    (v : Visit) (found : Found) : Prop where
  walks : Walks survey disk v (v.candidates survey) found
  problems : found.problems ⊆ surveyed.problems
  listing : v.listing.problems ⊆ surveyed.problems
  planted : (found.modules = [] ∧ 1 < v.depth ∧ v.listing.file? "mod" = none) ∨
    ∃ id < surveyed.tree.size, (label id).dir = some v.dir ∧ (label id).children = found.modules ∧
      (1 < v.depth → ∀ path, v.listing.file? "mod" = some path → (label id).manifest = some path)

theorem Visited.depth_pos {v : Visit} (h : Visited survey disk v) : 0 < v.depth := by
  cases h <;> exact Nat.succ_pos _

/-- What becomes of each directory that is visited. -/
theorem Visited.outcome {v : Visit} (hv : Visited survey disk v) {surveyed : Surveyed}
    {place : Disk.Place} {found : Found} {label : Nat → Discovered}
    (h : Outcome survey disk surveyed place found label) :
    ∃ below, Treated survey disk surveyed label v below := by
  induction hv with
  | start hfind =>
    cases hfind.symm.trans h.opened
    refine ⟨found, h.walks, h.problems_subset.1, h.problems_subset.2, .inr ?_⟩
    refine ⟨ModuleTree.root, h.built.wellFormed.root_lt, by rw [h.root]; rfl, by rw [h.root]; rfl, ?_⟩
    intro hdepth
    exact absurd hdepth (Nat.lt_irrefl 1)
  | @into v name dir inner hvisited haccepted hfind hnot ih =>
    obtain ⟨around, htreated⟩ := ih
    obtain ⟨c, hc, rfl, hdir⟩ := hvisited.exists_candidate haccepted
    -- the candidate of this directory leads here and nowhere else
    cases htreated.walks.handled c hc with
    | file hnone _ => simp [hdir] at hnone
    | lost hdir' hfind' _ =>
      cases hdir.symm.trans hdir'
      cases hfind.symm.trans hfind'
    | round hdir' hfind' hmem _ =>
      cases hdir.symm.trans hdir'
      cases hfind.symm.trans hfind'
      exact absurd hmem hnot
    | @entered dir' place' node' below hdir' hfind' _ hbelow hmodules hlisting hproblems =>
      cases hdir.symm.trans hdir'
      cases hfind.symm.trans hfind'
      refine ⟨below, hbelow, List.Subset.trans hproblems htreated.problems,
        List.Subset.trans hlisting htreated.problems, ?_⟩
      have hdepth : 1 < (v.into survey disk dir inner).depth := Nat.succ_lt_succ hvisited.depth_pos
      by_cases hcounts : (v.into survey disk dir inner).manifest? c ≠ none ∨ below.modules ≠ []
      · have hmem := hmodules (mem_directoryModule.2 ⟨hcounts, rfl⟩)
        rcases htreated.planted with ⟨hnone, -⟩ | ⟨parent, hparent, -, hchildren, -⟩
        · rw [hnone] at hmem
          cases hmem
        · rw [← hchildren] at hmem
          obtain ⟨id, hchild, hlabel⟩ := h.labelled.exists_child hparent hmem
          refine .inr ⟨id, h.built.wellFormed.child_lt hchild, by rw [hlabel]; rfl, by rw [hlabel]; rfl, ?_⟩
          intro _ path hpath
          rw [hlabel]
          show (v.into survey disk dir inner).manifest? c = some path
          rw [Visit.manifest?, hpath]
          rfl
      · push Not at hcounts
        refine .inl ⟨hcounts.2, hdepth, ?_⟩
        have hmanifest := hcounts.1
        simp only [Visit.manifest?, Option.orElse_eq_orElse, Option.orElse_eq_or, Option.or_eq_none_iff]
          at hmanifest
        exact hmanifest.1

theorem Visited.depth_le {v : Visit} (h : Visited survey disk v) {most : Nat}
    (hmost : survey.maxDepth = some most) : v.depth ≤ most + 1 := by
  cases h with
  | start _ => exact Nat.succ_le_succ (Nat.zero_le _)
  | into _ haccepted _ _ =>
    have henters := haccepted.enters
    simp only [enters, hmost, Option.all_some, decide_eq_true_eq] at henters
    exact Nat.succ_le_succ henters

/-! ## Main result -/

/-- **The walk ends and never goes round.** From a directory as root, whatever links there
    are, the walk ends with one result, which is that of the program. On the way from the root
    to any module, the module directories lie at different places. Every directory that the
    walk may enter and that lies at the place of an open one is reported. A walk that keeps the
    open directories on a stack finds the same and leaves the stack as it was. With at most
    `most` levels no module has more than `most + 1` segments. -/
theorem walk_ends {place : Disk.Place} (h : disk.find survey.root = .ok (place, .dir)) :
    ∃ found surveyed, survey.run disk = .ok surveyed ∧
      (∀ other, Walks survey disk (.start survey disk place)
        ((Visit.start survey disk place).candidates survey) other ↔ other = found) ∧
      surveyed = scanAll disk (unscanned survey disk place found) (reported survey disk place found) ∧
      (∀ id < surveyed.tree.size, ∃ places, Way disk surveyed.tree id places ∧ places.Nodup) ∧
      (∀ v name target, Visited survey disk v → name ∈ disk.names v.place →
        disk.find (Path.join v.dir name) = .ok (target, .dir) → target ∈ v.above →
        survey.excludes (Path.join v.dir name) = false → survey.enters v.depth = true →
        survey.isModuleDir (Path.join v.dir name) = true →
        ∃ back, .cyclicLink (Path.join v.dir name) back ∈ surveyed.problems) ∧
      (∀ w : Walk, w.ancestors = [place] →
        walk survey disk (disk.entries.length + 2) 1 (Visit.start survey disk place).listing w =
          (found.modules, w.report found.problems)) ∧
      (∀ fuel depth listing (w : Walk),
        (walk survey disk fuel depth listing w).2.ancestors = w.ancestors) ∧
      (∀ most, survey.maxDepth = some most → ∀ id < surveyed.tree.size,
        (surveyed.tree.get id).segments.length ≤ most + 1) := by
  obtain ⟨found, hwalks, hrun⟩ := run_of_dir h
  obtain ⟨place', found', label, houtcome⟩ := exists_outcome hrun
  cases houtcome.opened.symm.trans h
  obtain rfl := houtcome.walks.unique hwalks
  refine ⟨found', _, hrun, fun other => ⟨fun hother => hother.unique hwalks, ?_⟩, rfl,
    fun id hid => ?_, ?_, fun w hw => ?_, fun fuel depth listing w => ?_, fun most hmost id hid => ?_⟩
  · rintro rfl
    exact hwalks
  · rcases Nat.eq_zero_or_pos id with rfl | hpos
    · exact ⟨_, houtcome.housed_root.way, houtcome.housed_root.visited.opened.nodup⟩
    · obtain ⟨parent, v, hchild, hparent, c, -, hsited⟩ := houtcome.exists_parent hpos hid
      cases hsited with
      | file _ hlabel =>
        have hbears := houtcome.labelled.bears id (Nat.zero_le _) hid
        refine ⟨_, .file hparent.way (houtcome.built.filed.parent_of_child hchild) ?_,
          hparent.visited.opened.nodup⟩
        rw [hbears.dir, hlabel]
        rfl
      | directory _ _ _ hhoused _ => exact ⟨_, hhoused.way, hhoused.visited.opened.nodup⟩
  · intro v name target hv hname hfind habove hkept henters hboundary
    obtain ⟨below, htreated⟩ := hv.outcome houtcome
    by_cases hself : isSelfLink disk v.place (v.place ++ [name]) (target, .dir) = true
    · refine ⟨v.dir, htreated.listing ?_⟩
      rw [hv.problems]
      exact selfLink_reported hname hfind hself
    · have hentry : Entry survey disk v.dir v.place name target .dir :=
        ⟨hname, hfind, by simpa using hself, hkept⟩
      have haccepted : Accepted survey v.depth v.listing name (Path.join v.dir name) :=
        ⟨hv.mem_dir.2 (mem_list_dir.2 ⟨rfl, target, hentry⟩), henters, hboundary⟩
      obtain ⟨c, hc, -, hdir⟩ := hv.exists_candidate haccepted
      cases htreated.walks.handled c hc with
      | file hnone _ => simp [hdir] at hnone
      | lost hdir' hfind' _ =>
        cases hdir.symm.trans hdir'
        cases hfind.symm.trans hfind'
      | round hdir' hfind' _ hmem =>
        cases hdir.symm.trans hdir'
        cases hfind.symm.trans hfind'
        exact ⟨_, htreated.problems hmem⟩
      | entered hdir' hfind' hnot _ _ _ _ =>
        cases hdir.symm.trans hdir'
        cases hfind.symm.trans hfind'
        exact absurd habove hnot
  · rw [walk_eq, hw, hwalks.unique (walks_start h)]
    rfl
  · rw [walk_eq]
    rfl
  · rcases Nat.eq_zero_or_pos id with rfl | hpos
    · rw [show (0 : Nat) = ModuleTree.root from rfl, houtcome.built.placed.root_segments]
      exact Nat.zero_le _
    · obtain ⟨parent, v, hchild, hparent, c, -, hsited⟩ := houtcome.exists_parent hpos hid
      have hdepth := hparent.visited.depth_le hmost
      obtain ⟨above, -, -, habove, hsegments⟩ := houtcome.built.placed.below hpos hid
      rw [houtcome.built.filed.parent_of_child hchild] at habove
      cases habove
      rw [hsegments, List.length_append, List.length_singleton, ← hparent.depth]
      exact hdepth

/-- Links that lead up and to a sibling. -/
def loops : Disk where
  cwd := []
  entries := [
    (["src"], .dir),
    (["src", "a"], .dir),
    (["src", "a", "mod.rs"], .file (.text "")),
    (["src", "a", "up"], .link ".."),
    (["src", "b"], .link "a")]

/-- A survey of all directories that can be modules. -/
def plain : Survey := ⟨"src", namedDirs, [], none⟩

theorem accepted_loops {v : Visit} (hv : Visited plain loops v) {name : String} {target : Disk.Place}
    (hentry : Entry plain loops v.dir v.place name target .dir)
    (hboundary : namedDirs (Path.join v.dir name) = true) :
    Accepted plain v.depth v.listing name (Path.join v.dir name) :=
  ⟨hv.mem_dir.2 (mem_list_dir.2 ⟨rfl, target, hentry⟩), rfl, hboundary⟩

/-- By way of the sibling the same directory is entered a second time, and the link in it
    leads back to the root both times. -/
theorem walk_ends_loops : ∃ surveyed, plain.run loops = .ok surveyed ∧
    (∃ back, .cyclicLink "src/a/up" back ∈ surveyed.problems) ∧
    (∃ back, .cyclicLink "src/b/up" back ∈ surveyed.problems) := by
  have hroot : loops.find plain.root = .ok (["src"], .dir) := by decide +kernel
  obtain ⟨found, surveyed, hrun, -, -, -, hreported, -⟩ := walk_ends hroot
  have hstart : Visited plain loops (.start plain loops ["src"]) := .start hroot
  have hentry : ∀ name ∈ ["a", "b"],
      Entry plain loops "src" ["src"] name ["src", "a"] .dir ∧
        namedDirs (Path.join "src" name) = true := by
    intro name hname
    obtain rfl | rfl : name = "a" ∨ name = "b" := by simpa using hname
    all_goals
      exact ⟨⟨Disk.mem_names.2 (by decide), by decide +kernel, by decide +kernel, rfl⟩,
        by decide +kernel⟩
  have hvisited : ∀ name ∈ ["a", "b"],
      Visited plain loops ((Visit.start plain loops ["src"]).into plain loops (Path.join "src" name)
        ["src", "a"]) := by
    intro name hname
    obtain ⟨hentry, hboundary⟩ := hentry name hname
    exact .into hstart (accepted_loops hstart hentry hboundary) hentry.found (by decide)
  refine ⟨surveyed, hrun, ?_, ?_⟩
  · exact hreported _ "up" ["src"] (hvisited "a" (by simp)) (Disk.mem_names.2 (by decide))
      (by decide +kernel) (by decide) rfl rfl (by decide +kernel)
  · exact hreported _ "up" ["src"] (hvisited "b" (by simp)) (Disk.mem_names.2 (by decide))
      (by decide +kernel) (by decide) rfl rfl (by decide +kernel)

end Reexport.Survey
