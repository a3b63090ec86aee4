import Reexport.Proofs.JoinedPaths
import Reexport.Proofs.Sites

/-!
# Units and their modules

A source file is the manifest of at most one module. Where it lies tells which one: beside
the directory of its module or in it, so the way from the root can be read off its path. A
file in a directory that was visited is left over only if another one has its place, or if
the directory of its name leads back.

Results:

* `Spot.inj`: which module a path belongs to.
* `Outcome.manifest_inj`: different modules have different manifests.
* `Outcome.owned`: every source file has its module.
* `units_owned`: every unit belongs to exactly one module.
-/

namespace Reexport.Survey

variable {survey : Survey} {disk : Disk}

/-! ## Where manifests lie -/

/-- Where the manifest of a module may lie below the root, given its segments. -/
inductive Spot : List String → List String → Prop
  | root {name : String} : name ∈ rootManifests → Spot [] [name]
  | beside {outer : List String} {name : String} : name ≠ "mod" →
      (outer = [] → name ≠ "lib" ∧ name ≠ "main") → Spot (outer ++ [name]) (outer ++ [name ++ ".rs"])
  | inside {segments : List String} : segments ≠ [] → Spot segments (segments ++ ["mod.rs"])

theorem not_root_manifest {name : String} (hmod : name ≠ "mod") (hroot : name ≠ "lib" ∧ name ≠ "main") :
    name ++ ".rs" ∉ rootManifests := by
  have hne : ∀ other : String, name ≠ other → name ++ ".rs" ≠ other ++ ".rs" :=
    fun other hother heq => hother (Path.stem_inj heq)
  simp only [rootManifests, List.mem_cons, List.not_mem_nil, or_false, not_or]
  exact ⟨hne "lib" hroot.1, hne "main" hroot.2, hne "mod" hmod⟩

/-- Which module a path belongs to. -/
theorem Spot.inj {a b spot spot' : List String} (ha : Spot a spot) (hb : Spot b spot')
    (h : spot = spot') : a = b := by
  cases ha with
  | @root name hname =>
    cases hb with
    | root _ => rfl
    | @beside outer name' hmod hroot =>
      obtain ⟨houter, hlast⟩ := List.append_inj' (show [] ++ [name] = outer ++ [name' ++ ".rs"] from h) rfl
      obtain rfl := List.cons.inj hlast |>.1
      exact absurd hname (not_root_manifest hmod (hroot houter.symm))
    | inside hne =>
      exact absurd (List.append_inj' (show [] ++ [name] = b ++ ["mod.rs"] from h) rfl).1.symm hne
  | @beside outer name hmod hroot =>
    cases hb with
    | @root name' hname =>
      obtain ⟨houter, hlast⟩ := List.append_inj' (show outer ++ [name ++ ".rs"] = [] ++ [name'] from h) rfl
      obtain rfl := List.cons.inj hlast |>.1
      exact absurd hname (not_root_manifest hmod (hroot houter))
    | beside _ _ =>
      obtain ⟨rfl, hlast⟩ := List.append_inj' h rfl
      rw [Path.stem_inj (List.cons.inj hlast).1]
    | inside _ =>
      obtain ⟨-, hlast⟩ := List.append_inj' h rfl
      exact absurd (Path.stem_inj (b := "mod") (List.cons.inj hlast).1) hmod
  | inside hne =>
    cases hb with
    | @root name' _ =>
      exact absurd (List.append_inj' (show a ++ ["mod.rs"] = [] ++ [name'] from h) rfl).1 hne
    | beside hmod _ =>
      obtain ⟨-, hlast⟩ := List.append_inj' h rfl
      exact absurd (Path.stem_inj (b := "mod") (List.cons.inj hlast).1.symm) hmod
    | inside _ => exact (List.append_inj' h rfl).1

/-- A source file in a directory that is visited. -/
structure SourceAt (survey : Survey) (disk : Disk) (v : Visit) (stem path : String) : Prop where
  path : path = Path.join v.dir (stem ++ ".rs")
  entry : ∃ target node, Entry survey disk v.dir v.place (stem ++ ".rs") target node ∧ node ≠ .dir

theorem Visited.sourceAt {v : Visit} (h : Visited survey disk v) {stem path : String}
    (hmem : .file stem path ∈ v.listing.members) : SourceAt survey disk v stem path := by
  obtain ⟨hpath, -, hentry⟩ := mem_list_file.1 (h.mem_list hmem)
  exact ⟨hpath, hentry⟩

theorem Visited.eq_start {v : Visit} (h : Visited survey disk v) (hdepth : v.depth = 1) :
    ∃ place, v = .start survey disk place := by
  cases h with
  | start _ => exact ⟨_, rfl⟩
  | into hv _ _ _ =>
    have hpos := hv.depth_pos
    simp only [Visit.into] at hdepth
    omega

/-- The root manifest is the first choice that is there. -/
theorem rootManifest?_eq_some {listing : Listing} {path : String}
    (h : survey.rootManifest? listing = some path) :
    ∃ name ∈ rootManifests, path = Path.join survey.root name ∧ ∃ stem, .file stem path ∈ listing.members := by
  obtain ⟨name, hname, rfl⟩ := List.mem_map.1 (List.mem_of_find?_eq_some h)
  refine ⟨name, hname, rfl, ?_⟩
  have hany := List.find?_some h
  obtain ⟨member, hmember, heq⟩ := List.any_eq_true.1 hany
  cases member with
  | dir _ _ => cases heq
  | file stem path => exact ⟨stem, by simpa using (by simpa using heq : path = _) ▸ hmember⟩

namespace Outcome

variable {surveyed : Surveyed} {place : Disk.Place} {found : Found} {label : Nat → Discovered}
  (h : Outcome survey disk surveyed place found label)

include h

theorem distinctSiblings : surveyed.tree.DistinctSiblings := by
  refine h.labelled.distinctSiblings h.built.wellFormed fun id hid => ?_
  rcases h.housed_or_leaf hid with ⟨v, hhoused⟩ | hleaf
  · obtain ⟨problems, hwalks⟩ := hhoused.walks
    exact candidates_names_nodup.sublist hwalks.names
  · rw [hleaf]
    exact List.nodup_nil

theorem name_of_sited {v : Visit} {c : Candidate} {id : Nat} (hid : id < surveyed.tree.size)
    (hsited : Sited survey disk surveyed.tree label v c id) : (surveyed.tree.get id).name = c.name := by
  rw [(h.labelled.bears id (Nat.zero_le _) hid).name]
  cases hsited with
  | file _ hlabel => rw [hlabel]; rfl
  | directory _ _ hlabel _ _ => rw [hlabel]; rfl

theorem segments_of_sited {parent : Nat} {v : Visit} {c : Candidate} {id : Nat}
    (hchild : surveyed.tree.Child parent id)
    (hsited : Sited survey disk surveyed.tree label v c id) :
    (surveyed.tree.get id).segments = (surveyed.tree.get parent).segments ++ [c.name] := by
  have hid := h.built.wellFormed.child_lt hchild
  have hlt := h.built.wellFormed.lt_child hchild
  obtain ⟨above, -, -, habove, hsegments⟩ := h.built.placed.below (by omega) hid
  rw [h.built.filed.parent_of_child hchild] at habove
  cases habove
  rw [hsegments, h.name_of_sited hid hsited]

/-- The directory of a module lies where its segments say. -/
theorem components_dir (hnamed : disk.WellNamed) {id : Nat} (hid : id < surveyed.tree.size)
    {dir : String} (hdir : (label id).dir = some dir) :
    Path.components dir = Path.components survey.root ++
      (surveyed.tree.get id).segments.map Path.Component.ofName := by
  induction id using Nat.strongRecOn generalizing dir with
  | _ id ih =>
    rcases Nat.eq_zero_or_pos id with heq | hpos
    · obtain rfl : id = ModuleTree.root := heq
      rw [h.root] at hdir
      cases hdir
      rw [h.built.placed.root_segments, List.map_nil, List.append_nil]
    · obtain ⟨parent, v, hchild, hparent, c, hc, hsited⟩ := h.exists_parent hpos hid
      have hlt := h.built.wellFormed.lt_child hchild
      rw [h.segments_of_sited hchild hsited, List.map_append, ← List.append_assoc,
        ← ih parent hlt (Nat.lt_trans hlt hid) hparent.dir]
      cases hsited with
      | file _ hlabel =>
        rw [hlabel] at hdir
        cases hdir
      | directory hcdir _ hlabel _ _ =>
        rw [hlabel] at hdir
        cases hdir
        obtain ⟨rfl, target, hentry⟩ :=
          hparent.visited.accepted ((mem_candidates hc).dir dir hcdir)
        exact Path.components_join (hnamed.isFileName hentry.named)

/-- The manifest of a module lies where its segments say, and is a file that was listed. -/
theorem manifest_spot (hnamed : disk.WellNamed) {id : Nat} (hid : id < surveyed.tree.size)
    {path : String} (hmanifest : (surveyed.tree.get id).manifest = some path) :
    (∃ v stem, SourceAt survey disk v stem path) ∧
    ∃ spot, Spot (surveyed.tree.get id).segments spot ∧
      Path.components path =
        Path.components survey.root ++ spot.map Path.Component.ofName := by
  rw [(h.labelled.bears id (Nat.zero_le _) hid).manifest] at hmanifest
  rcases Nat.eq_zero_or_pos id with heq | hpos
  · obtain rfl : id = ModuleTree.root := heq
    rw [h.root] at hmanifest
    obtain ⟨name, hname, rfl, stem, hmem⟩ := rootManifest?_eq_some hmanifest
    have hfile : IsFileName name := by
      have hall : ∀ name ∈ rootManifests, IsFileName name := by decide
      exact hall name hname
    obtain ⟨hpath, -, hentry⟩ := mem_list_file.1 hmem
    refine ⟨⟨.start survey disk place, stem, hpath, hentry⟩, [name], ?_, Path.components_join hfile⟩
    rw [h.built.placed.root_segments]
    exact .root hname
  · obtain ⟨parent, v, hchild, hparent, c, hc, hsited⟩ := h.exists_parent hpos hid
    have hlt := h.built.wellFormed.lt_child hchild
    have hsegments := h.segments_of_sited hchild hsited
    have hbeside : c.file = some path → (∃ v stem, SourceAt survey disk v stem path) ∧
        ∃ spot, Spot (surveyed.tree.get id).segments spot ∧ Path.components path =
          Path.components survey.root ++ spot.map Path.Component.ofName := by
      intro hfile
      have hsourced := (mem_candidates hc).file path hfile
      have hsource := hparent.visited.sourceAt hsourced.listed
      obtain ⟨target, node, hentry, -⟩ := hsource.entry
      refine ⟨⟨v, c.name, hsource⟩, (surveyed.tree.get parent).segments ++ [c.name ++ ".rs"], ?_, ?_⟩
      · rw [hsegments]
        refine .beside hsourced.not_mod fun hroot => ?_
        -- in the root directory the names of root manifests make no candidates
        obtain ⟨place', rfl⟩ := hparent.visited.eq_start (by rw [hparent.depth, hroot]; rfl)
        have hkept := (List.mem_filter.1 hsourced.listed).2
        simpa using hkept
      · rw [hsource.path, Path.components_join (hnamed.isFileName hentry.named),
          h.components_dir hnamed (Nat.lt_trans hlt hid) hparent.dir, List.map_append,
          List.append_assoc]
        rfl
    cases hsited with
    | file _ hlabel =>
      rw [hlabel] at hmanifest
      exact hbeside hmanifest
    | @directory dir inner hcdir _ hlabel hhoused _ =>
      rw [hlabel] at hmanifest
      have hor : (v.into survey disk dir inner).manifest? c = some path := hmanifest
      rw [Visit.manifest?] at hor
      cases hmod : (v.into survey disk dir inner).listing.file? "mod" with
      | none =>
        rw [hmod] at hor
        exact hbeside hor
      | some other =>
        rw [hmod] at hor
        obtain rfl : other = path := Option.some.inj hor
        have hsource := hhoused.visited.sourceAt (Listing.file?_eq_some hmod)
        obtain ⟨target, node, hentry, -⟩ := hsource.entry
        refine ⟨⟨_, "mod", hsource⟩, (surveyed.tree.get id).segments ++ ["mod.rs"], ?_, ?_⟩
        · exact .inside (by rw [hsegments]; simp)
        · rw [hsource.path, Path.components_join (hnamed.isFileName hentry.named),
            h.components_dir hnamed hid hhoused.dir, List.map_append, List.append_assoc]
          rfl

/-- Different modules have different manifests. -/
theorem manifest_inj (hnamed : disk.WellNamed) {a b : Nat} (ha : a < surveyed.tree.size)
    (hb : b < surveyed.tree.size) {path path' : String}
    (hpath : (surveyed.tree.get a).manifest = some path)
    (hpath' : (surveyed.tree.get b).manifest = some path')
    (hsame : Path.components path = Path.components path') : a = b := by
  obtain ⟨-, spot, hspot, hcomponents⟩ := h.manifest_spot hnamed ha hpath
  obtain ⟨-, spot', hspot', hcomponents'⟩ := h.manifest_spot hnamed hb hpath'
  rw [hcomponents, hcomponents'] at hsame
  have hspots := (List.map_injective_iff.2 Path.Component.ofName_injective) (List.append_cancel_left hsame)
  exact h.built.placed.eq_of_segments h.distinctSiblings ha hb (hspot.inj hspot' hspots)

/-- Neither a manifest nor the directory of a module below the root is left out. -/
theorem not_excluded (hnamed : disk.WellNamed) {id : Nat} (hid : id < surveyed.tree.size) :
    (∀ path, (surveyed.tree.get id).manifest = some path → survey.excludes path = false) ∧
    (0 < id → ∀ dir, (surveyed.tree.get id).dir = some dir → survey.excludes dir = false) := by
  refine ⟨fun path hpath => ?_, fun hpos dir hdir => ?_⟩
  · obtain ⟨⟨v, stem, hsource⟩, -⟩ := h.manifest_spot hnamed hid hpath
    obtain ⟨target, node, hentry, -⟩ := hsource.entry
    rw [hsource.path]
    exact hentry.kept
  · obtain ⟨parent, v, hchild, hparent, c, hc, hsited⟩ := h.exists_parent hpos hid
    rw [(h.labelled.bears id (Nat.zero_le _) hid).dir] at hdir
    cases hsited with
    | file _ hlabel =>
      rw [hlabel] at hdir
      cases hdir
    | directory hcdir _ hlabel _ _ =>
      rw [hlabel] at hdir
      cases hdir
      obtain ⟨rfl, target, hentry⟩ := hparent.visited.accepted ((mem_candidates hc).dir dir hcdir)
      exact hentry.kept

/-- A module without a manifest is there for the sake of one below it that has one. -/
theorem exists_below {id : Nat} (hpos : 0 < id) (hid : id < surveyed.tree.size)
    (hnone : (surveyed.tree.get id).manifest = none) :
    ∃ below, Relation.TransGen surveyed.tree.Child id below ∧
      (surveyed.tree.get below).manifest.isSome = true := by
  -- numbers grow downwards, so there is a last module without a manifest
  induction hn : surveyed.tree.size - id using Nat.strongRecOn generalizing id with
  | _ n ih =>
    obtain ⟨parent, v, hchild, hparent, c, hc, hsited⟩ := h.exists_parent hpos hid
    rw [(h.labelled.bears id (Nat.zero_le _) hid).manifest] at hnone
    cases hsited with
    | file hcdir hlabel =>
      obtain ⟨path, hpath⟩ := (mem_candidates hc).some hcdir
      rw [hlabel] at hnone
      cases hpath.symm.trans hnone
    | directory _ _ _ _ hcounts =>
      obtain ⟨d, hd⟩ := List.exists_mem_of_ne_nil _ (hcounts.resolve_left (not_not.2 hnone))
      obtain ⟨below, hbelow, -⟩ := h.labelled.exists_child hid hd
      have hlt := h.built.wellFormed.lt_child hbelow
      have hsize := h.built.wellFormed.child_lt hbelow
      cases hmanifest : (surveyed.tree.get below).manifest with
      | some path => exact ⟨below, .single hbelow, by rw [hmanifest]; rfl⟩
      | none =>
        obtain ⟨last, hlast, hsome⟩ := ih (surveyed.tree.size - below) (by omega) (by omega) hsize
          hmanifest rfl
        exact ⟨last, .head hbelow hlast, hsome⟩

end Outcome

/-! ## Every source file has its module -/

/-- What a source file in a directory that is visited is to the tree. -/
inductive Owned (disk : Disk) (surveyed : Surveyed) (root : String) (v : Visit) (stem : String) : Prop
  /-- It is the manifest of exactly one module. -/
  | manifest : (∃! id, id < surveyed.tree.size ∧
      (surveyed.tree.get id).manifest = some (Path.join v.dir (stem ++ ".rs"))) →
      Owned disk surveyed root v stem
  /-- The directory of its name is a module and has a manifest in it. -/
  | inside {id : Nat} : id < surveyed.tree.size →
      (surveyed.tree.get id).dir = some (Path.join v.dir stem) →
      (surveyed.tree.get id).manifest = some (Path.join (Path.join v.dir stem) "mod.rs") →
      Owned disk surveyed root v stem
  /-- The directory of its name leads back to an open one and is reported. -/
  | refused {target : Disk.Place} {back : String} :
      disk.find (Path.join v.dir stem) = .ok (target, .dir) → target ∈ v.above →
      .cyclicLink (Path.join v.dir stem) back ∈ surveyed.problems → Owned disk surveyed root v stem
  /-- It lies in the root directory, and an earlier choice is the root manifest. -/
  | second {first : String} : v.depth = 1 → [first, stem ++ ".rs"].Sublist rootManifests →
      (surveyed.tree.get ModuleTree.root).manifest = some (Path.join root first) →
      Owned disk surveyed root v stem

/-- The root manifest is the first of its names for which there is a file. -/
theorem rootManifest?_eq_find? (listing : Listing) : ∃ there : String → Bool,
    survey.rootManifest? listing = (rootManifests.map (Path.join survey.root)).find? there ∧
      ∀ {stem path : String}, .file stem path ∈ listing.members → there path = true :=
  ⟨_, rfl, fun hmem => List.any_eq_true.2 ⟨_, hmem, by simp⟩⟩

/-- Of the choices for the root manifest the first that is there is taken. -/
theorem rootManifest?_first {listing : Listing} {stem name : String} (hname : name ∈ rootManifests)
    (hmem : .file stem (Path.join survey.root name) ∈ listing.members) :
    survey.rootManifest? listing = some (Path.join survey.root name) ∨
      ∃ first, [first, name].Sublist rootManifests ∧
        survey.rootManifest? listing = some (Path.join survey.root first) := by
  obtain ⟨there, heq, hfile⟩ := @rootManifest?_eq_find? survey listing
  have hthere := hfile hmem
  rw [heq, List.find?_map]
  cases hfind : rootManifests.find? (there ∘ Path.join survey.root) with
  | none => exact absurd hthere (List.find?_eq_none.1 hfind name hname)
  | some first =>
    obtain ⟨hfirst, before, after, hsplit, hbefore⟩ := List.find?_eq_some_iff_append.1 hfind
    rw [hsplit] at hname
    rcases List.mem_append.1 hname with hmem' | hmem'
    · exact absurd hthere (by simpa using hbefore name hmem')
    · rcases List.mem_cons.1 hmem' with rfl | hafter
      · exact .inl rfl
      · refine .inr ⟨first, ?_, rfl⟩
        rw [hsplit]
        exact ((List.singleton_sublist.2 hafter).cons_cons first).trans (List.sublist_append_right _ _)

namespace Outcome

variable {surveyed : Surveyed} {place : Disk.Place} {found : Found} {label : Nat → Discovered}
  (h : Outcome survey disk surveyed place found label)

include h

/-- Two modules cannot have one manifest, so it is enough to find one. -/
theorem owned_of_manifest (hnamed : disk.WellNamed) {v : Visit} {stem : String} {id : Nat}
    (hid : id < surveyed.tree.size)
    (hmanifest : (label id).manifest = some (Path.join v.dir (stem ++ ".rs"))) :
    Owned disk surveyed survey.root v stem := by
  rw [← (h.labelled.bears id (Nat.zero_le _) hid).manifest] at hmanifest
  refine .manifest ⟨id, ⟨hid, hmanifest⟩, fun other hother => ?_⟩
  exact h.manifest_inj hnamed hother.1 hid hother.2 hmanifest rfl

/-- What is found in a directory that is visited is planted. -/
theorem planted_of_treated {v : Visit} {below : Found}
    (htreated : Treated survey disk surveyed label v below) :
    ∀ d ∈ below.modules, ∃ id < surveyed.tree.size, label id = d := by
  intro d hd
  rcases htreated.planted with ⟨hnone, -⟩ | ⟨parent, hparent, -, hchildren, -⟩
  · rw [hnone] at hd
    cases hd
  · obtain ⟨id, hchild, hlabel⟩ := h.labelled.exists_child hparent (hchildren ▸ hd)
    exact ⟨id, h.built.wellFormed.child_lt hchild, hlabel⟩

/-- A source file that can be a module has one, or the directory of its name has taken its
    place. -/
theorem owned_of_sourced (hnamed : disk.WellNamed) {v : Visit} (hv : Visited survey disk v)
    {stem path : String} (hsourced : Sourced v.listing stem path) :
    Owned disk surveyed survey.root v stem := by
  obtain ⟨below, htreated⟩ := hv.outcome h
  obtain ⟨c, hc, rfl, path', hpath'⟩ := exists_candidate_file hsourced
  obtain rfl := (hv.sourceAt ((mem_candidates hc).file path' hpath').listed).path
  cases htreated.walks.handled c hc with
  | file _ hmem =>
    obtain ⟨id, hid, hlabel⟩ := h.planted_of_treated htreated _ hmem
    exact h.owned_of_manifest hnamed hid (by rw [hlabel]; exact hpath')
  | lost hcdir hfind _ =>
    obtain ⟨rfl, target, hentry⟩ := hv.accepted ((mem_candidates hc).dir _ hcdir)
    cases hentry.found.symm.trans hfind
  | round hcdir hfind habove hmem =>
    obtain ⟨rfl, target, hentry⟩ := hv.accepted ((mem_candidates hc).dir _ hcdir)
    cases hentry.found.symm.trans hfind
    exact .refused hentry.found habove (htreated.problems hmem)
  | @entered dir inner _ deeper hcdir hfind hnot _ hmodules _ _ =>
    have hvisited := hv.into_candidate hc hcdir hfind hnot
    obtain ⟨rfl, -⟩ := hv.accepted ((mem_candidates hc).dir _ hcdir)
    have hmanifest : (v.into survey disk (Path.join v.dir c.name) inner).manifest? c ≠ none := by
      rw [Visit.manifest?, hpath']
      cases (v.into survey disk (Path.join v.dir c.name) inner).listing.file? "mod" <;> simp
    obtain ⟨id, hid, hlabel⟩ := h.planted_of_treated htreated _
      (hmodules (mem_directoryModule.2 ⟨.inl hmanifest, rfl⟩))
    cases hmod : (v.into survey disk (Path.join v.dir c.name) inner).listing.file? "mod" with
    | none =>
      refine h.owned_of_manifest hnamed hid ?_
      rw [hlabel]
      show (v.into survey disk (Path.join v.dir c.name) inner).manifest? c = _
      rw [Visit.manifest?, hmod, hpath']
      rfl
    | some other =>
      have hbears := h.labelled.bears id (Nat.zero_le _) hid
      obtain rfl := (hvisited.sourceAt (Listing.file?_eq_some hmod)).path
      refine .inside hid (by rw [hbears.dir, hlabel]; rfl) ?_
      rw [hbears.manifest, hlabel]
      show (v.into survey disk (Path.join v.dir c.name) inner).manifest? c = _
      rw [Visit.manifest?, hmod]
      rfl

/-- Every source file has its module. -/
theorem owned (hnamed : disk.WellNamed) {v : Visit} (hv : Visited survey disk v) {stem : String}
    {target : Disk.Place} {node : Node}
    (hentry : Entry survey disk v.dir v.place (stem ++ ".rs") target node) (hnode : node ≠ .dir)
    (hstem : Text.isModuleName stem = true) : Owned disk surveyed survey.root v stem := by
  have hne : stem ≠ "" := by
    rintro rfl
    exact absurd hstem (by decide)
  have hlisted : .file stem (Path.join v.dir (stem ++ ".rs")) ∈
      (survey.list disk v.dir v.place).members :=
    mem_list_file.2 ⟨rfl, Path.splitExtension_rs hne, target, node, hentry, hnode⟩
  cases hv with
  | @start place' hfind =>
    have hv : Visited survey disk (.start survey disk place') := .start hfind
    obtain rfl : place' = place := by
      cases hfind.symm.trans h.opened
      rfl
    by_cases hname : stem ++ ".rs" ∈ rootManifests
    · have hroot : (label ModuleTree.root).manifest =
          survey.rootManifest? (survey.list disk survey.root place') := by
        rw [h.root]
        rfl
      rcases rootManifest?_first hname hlisted with hself | ⟨first, hfirst, hother⟩
      · exact h.owned_of_manifest hnamed h.built.wellFormed.root_lt (hroot.trans hself)
      · refine .second rfl hfirst ?_
        exact (h.labelled.bears _ (Nat.zero_le _) h.built.wellFormed.root_lt).manifest.trans
          (hroot.trans hother)
    · have hstems : stem ≠ "lib" ∧ stem ≠ "main" ∧ stem ≠ "mod" := by
        refine ⟨?_, ?_, ?_⟩ <;> rintro rfl <;> exact hname (by decide)
      refine h.owned_of_sourced hnamed hv ⟨List.mem_filter.2 ⟨hlisted, ?_⟩, hstems.2.2, hstem⟩
      simp [hstems.1, hstems.2.1]
  | @into outer name dir inner houter haccepted hfind hnot =>
    have hv : Visited survey disk (outer.into survey disk dir inner) :=
      .into houter haccepted hfind hnot
    by_cases hmod : stem = "mod"
    · subst hmod
      obtain ⟨path, hpath⟩ := Listing.exists_file? hlisted
      obtain rfl := (hv.sourceAt (Listing.file?_eq_some hpath)).path
      obtain ⟨below, htreated⟩ := hv.outcome h
      rcases htreated.planted with ⟨-, -, hnone⟩ | ⟨id, hid, -, -, hmanifest⟩
      · cases hpath.symm.trans hnone
      · exact h.owned_of_manifest hnamed hid
          (hmanifest (Nat.succ_lt_succ houter.depth_pos) _ hpath)
    · exact h.owned_of_sourced hnamed hv ⟨hlisted, hmod, hstem⟩

end Outcome

/-! ## Scanning -/

/-- The problems on the way are about paths that lead to no file. -/
theorem Walks.noFile {v : Visit} {cs : List Candidate} {found : Found}
    (h : Walks survey disk v cs found) (hv : Visited survey disk v)
    (hcs : ∀ c ∈ cs, c ∈ v.candidates survey) : ∀ p ∈ found.problems, NoFile disk p := by
  induction h with
  | done v => intro p hp; cases hp
  | file _ _ ih => exact ih hv fun c hc => hcs c (List.mem_cons_of_mem _ hc)
  | lost _ hfind _ ih =>
    refine List.forall_mem_cons.2 ⟨⟨_, rfl, fun target node hok => ?_⟩,
      ih hv fun c hc => hcs c (List.mem_cons_of_mem _ hc)⟩
    cases hfind.symm.trans hok
  | round hdir _ _ _ ih =>
    refine List.forall_mem_cons.2 ⟨⟨_, rfl, fun target node hok => ?_⟩,
      ih hv fun c hc => hcs c (List.mem_cons_of_mem _ hc)⟩
    obtain ⟨rfl, inner, hentry⟩ :=
      hv.accepted ((mem_candidates (hcs _ List.mem_cons_self)).dir _ hdir)
    cases hentry.found.symm.trans hok
    rfl
  | entered hdir hfind hnot _ _ ihbelow ih =>
    have hinner := hv.into_candidate (hcs _ List.mem_cons_self) hdir hfind hnot
    refine List.forall_mem_append.2 ⟨List.forall_mem_append.2 ⟨fun p hp => ?_, ?_⟩, ?_⟩
    · exact list_problems hp
    · exact ihbelow hinner fun c hc => hc
    · exact ih hv fun c hc => hcs c (List.mem_cons_of_mem _ hc)

theorem path?_of_scanFile {path : String} {p : Problem} (h : scanFile disk path = .error p) :
    p.path? = some path := by
  unfold scanFile at h
  split at h
  · cases h
    rfl
  · split at h
    · cases h
      rfl
    · cases h

theorem path?_of_scanError? {m : Module} {p : Problem} (h : scanError? disk m = some p) :
    p.path? = m.manifest := by
  unfold scanError? at h
  cases hmanifest : m.manifest with
  | none => simp [hmanifest] at h
  | some path =>
    cases hscan : scanFile disk path with
    | ok scan => simp [hmanifest, hscan] at h
    | error q =>
      simp only [hmanifest, Option.map_some, hscan, Option.some.injEq] at h
      subst h
      exact path?_of_scanFile hscan

/-- What is recorded about a module whose manifest is scanned. -/
inductive Recorded (surveyed : Surveyed) (id : Nat) (path : String) : Prop
  /-- Its text is recorded, and nothing is reported about it. -/
  | read {text : String} : (surveyed.tree.get id).source = some text →
      (surveyed.tree.get id).scanFailed = false →
      (surveyed.problems.countP fun p => p.path? == some path) = 0 → Recorded surveyed id path
  /-- It is marked, and there is one report about it. -/
  | failed : (surveyed.tree.get id).source = none → (surveyed.tree.get id).scanFailed = true →
      (surveyed.problems.countP fun p => p.path? == some path) = 1 → Recorded surveyed id path

namespace Outcome

variable {surveyed : Surveyed} {place : Disk.Place} {found : Found} {label : Nat → Discovered}
  (h : Outcome survey disk surveyed place found label)

include h

theorem scannedAll : ScannedAll disk (List.range surveyed.tree.size)
    ⟨unscanned survey disk place found, reported survey disk place found, 0⟩ surveyed := by
  have hall := scannedAll_scanAll disk (unscanned survey disk place found)
    (reported survey disk place found)
  rw [← h.scanned] at hall
  rwa [hall.size]

theorem manifest_unscanned (id : Nat) : (surveyed.tree.get id).manifest =
    ((unscanned survey disk place found).get id).manifest := by
  have hsame := sameFiles_scanAll disk (unscanned survey disk place found)
    (reported survey disk place found)
  rw [← h.scanned] at hsame
  exact hsame.manifest id

/-- Nothing is reported on the way about a manifest. -/
theorem countP_reported (hnamed : disk.WellNamed) {id : Nat} (hid : id < surveyed.tree.size)
    {path : String} (hmanifest : (surveyed.tree.get id).manifest = some path) :
    ((reported survey disk place found).countP fun p => p.path? == some path) = 0 := by
  obtain ⟨⟨v, stem, hsource⟩, -⟩ := h.manifest_spot hnamed hid hmanifest
  obtain ⟨target, node, hentry, hnode⟩ := hsource.entry
  have hnone : ∀ p ∈ reported survey disk place found, NoFile disk p := by
    refine List.forall_mem_append.2 ⟨fun p hp => list_problems hp, ?_⟩
    exact h.walks.noFile (.start h.opened) fun c hc => hc
  rw [List.countP_eq_zero]
  intro p hp hpath
  obtain ⟨path', hpath', hdir⟩ := hnone p hp
  obtain rfl : path' = path := by simpa [hpath'] using hpath
  rw [hsource.path] at hdir
  exact hnode (hdir target node hentry.found)

/-- Each manifest is scanned once, and what goes wrong is reported once. -/
theorem recorded (hnamed : disk.WellNamed) {id : Nat} (hid : id < surveyed.tree.size)
    {path : String} (hmanifest : (surveyed.tree.get id).manifest = some path) :
    Recorded surveyed id path := by
  have hall := h.scannedAll
  have hbefore : ((unscanned survey disk place found).get id).manifest = some path :=
    (h.manifest_unscanned id).symm.trans hmanifest
  obtain ⟨hsource, hfailed⟩ := h.fresh id hid
  have hget := hall.get id (List.mem_range.2 hid)
  -- of the errors in scanning, only that of this module can be about its manifest
  have hself : ∀ other ∈ List.range surveyed.tree.size, ∀ p,
      scanError? disk ((unscanned survey disk place found).get other) = some p →
      p.path? = some path → other = id := by
    intro other hother p herror hpath
    rw [path?_of_scanError? herror, ← h.manifest_unscanned] at hpath
    exact h.manifest_inj hnamed (List.mem_range.1 hother) hid hpath hmanifest rfl
  have hcount : (surveyed.problems.countP fun p => p.path? == some path) =
      ((List.range surveyed.tree.size).filterMap fun other =>
        scanError? disk ((unscanned survey disk place found).get other)).countP
          fun p => p.path? == some path := by
    rw [hall.problems, List.countP_append, h.countP_reported hnamed hid hmanifest, Nat.zero_add]
  cases hscan : scanFile disk path with
  | ok scan =>
    refine @Recorded.read _ _ _ scan.source ?_ ?_ ?_
    · rw [hget, scannedModule]
      simp [hbefore, hscan]
    · rw [hget, scannedModule]
      simp [hbefore, hscan, hfailed]
    · rw [hcount, List.countP_eq_zero]
      intro p hp hpath
      obtain ⟨other, hother, herror⟩ := List.mem_filterMap.1 hp
      obtain rfl := hself other hother p herror (by simpa using hpath)
      simp [scanError?, hbefore, hscan] at herror
  | error p =>
    have herror : scanError? disk ((unscanned survey disk place found).get id) = some p := by
      simp [scanError?, hbefore, hscan]
    refine .failed ?_ ?_ ?_
    · rw [hget, scannedModule]
      simp [hbefore, hscan, hsource]
    · rw [hget, scannedModule]
      simp [hbefore, hscan]
    · have hone : (List.range surveyed.tree.size).count id = 1 :=
        List.count_eq_one_of_mem List.nodup_range (List.mem_range.2 hid)
      rw [hcount, List.countP_filterMap, ← hone, List.count]
      refine List.countP_congr fun other hother => ?_
      constructor
      · intro hpath
        cases hq : scanError? disk ((unscanned survey disk place found).get other) with
        | none => simp [hq] at hpath
        | some q => simpa using hself other hother q hq (by simpa [hq] using hpath)
      · intro heq
        obtain rfl : other = id := by simpa using heq
        rw [herror]
        simpa using path?_of_scanFile hscan

end Outcome

/-! ## Main result -/

/-- **Every unit belongs to exactly one module.** On a disk whose names make paths, siblings
    of a surveyed tree have different names, and different modules have different manifests.
    Nothing that is left out is a manifest or the directory of a module below the root. Every
    other source file with the name of a module in a directory that is visited has its module,
    unless the directory of its name has a manifest in it, or leads back and is reported, or
    an earlier choice is the root manifest. A module below the root without a manifest has one
    below it that has a manifest. All manifests are scanned, and each text is recorded or the
    module is marked and there is one report about it. -/
theorem units_owned {surveyed : Surveyed} (hnamed : disk.WellNamed)
    (h : survey.run disk = .ok surveyed) :
    surveyed.tree.DistinctSiblings ∧
    (∀ a b path path', a < surveyed.tree.size → b < surveyed.tree.size →
      (surveyed.tree.get a).manifest = some path → (surveyed.tree.get b).manifest = some path' →
      Path.components path = Path.components path' → a = b) ∧
    (∀ id < surveyed.tree.size,
      (∀ path, (surveyed.tree.get id).manifest = some path → survey.excludes path = false) ∧
      (0 < id → ∀ dir, (surveyed.tree.get id).dir = some dir → survey.excludes dir = false)) ∧
    (∀ v stem target node, Visited survey disk v → stem ++ ".rs" ∈ disk.names v.place →
      disk.find (Path.join v.dir (stem ++ ".rs")) = .ok (target, node) → node ≠ .dir →
      survey.excludes (Path.join v.dir (stem ++ ".rs")) = false → Text.isModuleName stem = true →
      Owned disk surveyed survey.root v stem) ∧
    (∀ id < surveyed.tree.size, 0 < id → (surveyed.tree.get id).manifest = none →
      ∃ below, Relation.TransGen surveyed.tree.Child id below ∧
        (surveyed.tree.get below).manifest.isSome = true) ∧
    surveyed.unitsScanned = ((List.range surveyed.tree.size).countP fun id =>
      (surveyed.tree.get id).manifest.isSome) ∧
    (∀ id < surveyed.tree.size, ∀ path, (surveyed.tree.get id).manifest = some path →
      Recorded surveyed id path) := by
  obtain ⟨place, found, label, houtcome⟩ := exists_outcome h
  refine ⟨houtcome.distinctSiblings, fun a b path path' ha hb => houtcome.manifest_inj hnamed ha hb,
    fun id hid => houtcome.not_excluded hnamed hid, ?_,
    fun id hid hpos hnone => houtcome.exists_below hpos hid hnone, ?_,
    fun id hid path hmanifest => houtcome.recorded hnamed hid hmanifest⟩
  · intro v stem target node hv hname hfind hnode hkept hstem
    have hself : isSelfLink disk v.place (v.place ++ [stem ++ ".rs"]) (target, node) = false := by
      unfold isSelfLink
      split
      · simp_all
      · rfl
    exact houtcome.owned hnamed hv ⟨hname, hfind, hself, hkept⟩ hnode hstem
  · rw [houtcome.scannedAll.units, Nat.zero_add]
    exact List.countP_congr fun id _ => by rw [houtcome.manifest_unscanned]

/-- Two choices for the root manifest, a directory with a manifest in it and a file beside it,
    and a file alone. -/
def nursery : Disk where
  cwd := []
  entries := [
    (["src"], .dir),
    (["src", "lib.rs"], .file (.text "")),
    (["src", "main.rs"], .file (.text "")),
    (["src", "a.rs"], .file (.text "")),
    (["src", "a"], .dir),
    (["src", "a", "mod.rs"], .file (.text "")),
    (["src", "b.rs"], .file (.text ""))]

theorem units_owned_nursery : ∃ surveyed, plain.run nursery = .ok surveyed ∧
    surveyed.tree.DistinctSiblings ∧
    ∀ stem ∈ ["lib", "main", "a", "b"],
      Owned nursery surveyed "src" (.start plain nursery ["src"]) stem := by
  have hroot : nursery.find plain.root = .ok (["src"], .dir) := by decide +kernel
  obtain ⟨found, -, hrun⟩ := run_of_dir hroot
  obtain ⟨hdistinct, -, -, howned, -⟩ := units_owned (by decide +kernel) hrun
  refine ⟨_, hrun, hdistinct, fun stem hstem => ?_⟩
  have hfile : stem ++ ".rs" ∈ nursery.names ["src"] ∧
      nursery.find (Path.join "src" (stem ++ ".rs")) =
        .ok (["src", stem ++ ".rs"], .file (.text "")) ∧ Text.isModuleName stem = true := by
    obtain rfl | rfl | rfl | rfl : stem = "lib" ∨ stem = "main" ∨ stem = "a" ∨ stem = "b" := by
      simpa using hstem
    all_goals exact ⟨Disk.mem_names.2 (by decide), by decide +kernel, by decide⟩
  exact howned _ stem _ _ (.start hroot) hfile.1 hfile.2.1 (by simp) rfl hfile.2.2

end Reexport.Survey
