import Reexport.Proofs.NameOrder
import Reexport.Proofs.Places
import Reexport.Survey

/-!
# What lies in a directory

The listing of a directory has its directories and its source files, apart from those that
are left out. Directories and files of one name make one candidate for a module.

Results:

* `Disk.mem_names`: the names in a directory.
* `mem_list_dir`, `mem_list_file`: what a listing has.
* `list_problems`: what is reported on the way.
* `Candidate.Of`, `mem_candidates`: what a candidate is made from.
* `exists_candidate_dir`, `exists_candidate_file`: directories and files that have a candidate.
-/

namespace Reexport

/-- A file name is put together from its two parts. -/
theorem Path.name_of_splitExtension {name stem extension : String}
    (h : Path.splitExtension name = (stem, some extension)) : name = stem ++ "." ++ extension := by
  unfold Path.splitExtension at h
  simp only at h
  split at h
  · rename_i point c rest hdrop
    simp only [Prod.mk.injEq, Option.some.injEq] at h
    obtain ⟨rfl, rfl⟩ := h
    have hreversed := List.takeWhile_append_dropWhile (p := (· != '.')) (l := name.toList.reverse)
    have hpoint : name.toList.reverse.dropWhile (· != '.') = point :: c :: rest := by
      rw [← hdrop, List.dropWhile_eq_drop_findIdx_not, List.takeWhile_eq_take_findIdx_not]
      simp
    have hdot : point = '.' := by
      have hhead := List.head?_dropWhile_not (· != '.') name.toList.reverse
      rw [hpoint] at hhead
      simpa using hhead
    rw [hpoint, hdot] at hreversed
    rw [← String.toList_inj]
    have hname := congrArg List.reverse hreversed
    rw [List.reverse_reverse] at hname
    refine hname.symm.trans ?_
    simp
  · simp at h

/-- The names in a directory are those of the places right below it. -/
theorem Disk.mem_names {disk : Disk} {place : Disk.Place} {name : String} :
    name ∈ disk.names place ↔ place ++ [name] ∈ disk.entries.map (·.1) := by
  have hname : ∀ entry : Disk.Place, Disk.nameIn? place entry = some name ↔ entry = place ++ [name] := by
    intro entry
    unfold Disk.nameIn?
    split_ifs with hplace
    · subst hplace
      constructor
      · intro hlast
        exact (List.dropLast_append_getLast? name hlast).symm
      · intro hentry
        rw [hentry, List.getLast?_concat]
    · simp only [false_iff]
      rintro rfl
      exact hplace List.dropLast_concat
  rw [Disk.names, List.mem_mergeSort, List.mem_filterMap, List.mem_map]
  simp only [hname]

namespace Survey

variable {survey : Survey} {disk : Disk} {dir : String} {place : Disk.Place}

/-! ## Listings -/

/-- An entry of a directory that counts: it is there, is no link to the directory itself and
    is not left out. -/
structure Entry (survey : Survey) (disk : Disk) (dir : String) (place : Disk.Place) (name : String)
    (target : Disk.Place) (node : Node) : Prop where
  named : name ∈ disk.names place
  found : disk.find (Path.join dir name) = .ok (target, node)
  noSelf : isSelfLink disk place (place ++ [name]) (target, node) = false
  kept : survey.excludes (Path.join dir name) = false

theorem mem_list {member : Member} : member ∈ (survey.list disk dir place).members ↔
    ∃ name target node, Entry survey disk dir place name target node ∧
      member? name (Path.join dir name) node = some member := by
  simp only [list, List.mem_flatMap, List.mem_map, exists_exists_and_eq_and]
  constructor
  · rintro ⟨name, hname, hmember⟩
    unfold listEntry at hmember
    simp only at hmember
    split at hmember
    · cases hmember
    · rename_i found hfound
      obtain ⟨target, node⟩ := found
      split_ifs at hmember with hself hexcluded
      · cases hmember
      · cases hmember
      · exact ⟨name, target, node, ⟨hname, hfound, by simpa using hself, by simpa using hexcluded⟩,
          Option.mem_toList.1 hmember⟩
  · rintro ⟨name, target, node, hentry, hmember⟩
    refine ⟨name, hentry.named, ?_⟩
    simp [listEntry, hentry.found, hentry.noSelf, hentry.kept, hmember]

theorem mem_list_dir {name path : String} : .dir name path ∈ (survey.list disk dir place).members ↔
    path = Path.join dir name ∧ ∃ target, Entry survey disk dir place name target .dir := by
  rw [mem_list]
  constructor
  · rintro ⟨name', target, node, hentry, hmember⟩
    unfold member? at hmember
    split at hmember
    · cases hmember
      exact ⟨rfl, target, hentry⟩
    · cases hmember
    · cases hmember
  · rintro ⟨rfl, target, hentry⟩
    exact ⟨name, target, .dir, hentry, rfl⟩

theorem member?_eq_file {name path stem file : String} {node : Node} :
    member? name path node = some (.file stem file) ↔
      file = path ∧ Path.splitExtension name = (stem, some "rs") ∧ node ≠ .dir := by
  unfold member?
  split
  · simp
  · rename_i hnode hsplit
    simp only [Option.some.injEq, Member.file.injEq, hsplit, Prod.mk.injEq, and_true]
    exact ⟨fun h => ⟨h.2.symm, h.1, hnode⟩, fun h => ⟨h.2.1, h.1.symm⟩⟩
  · rename_i hnode hother
    simp only [reduceCtorEq, false_iff, not_and, not_not]
    intro _ hsplit
    exact absurd hsplit (hother _)

theorem mem_list_file {stem path : String} :
    .file stem path ∈ (survey.list disk dir place).members ↔
      path = Path.join dir (stem ++ ".rs") ∧ Path.splitExtension (stem ++ ".rs") = (stem, some "rs") ∧
      ∃ target node, Entry survey disk dir place (stem ++ ".rs") target node ∧ node ≠ .dir := by
  rw [mem_list]
  constructor
  · rintro ⟨name, target, node, hentry, hmember⟩
    obtain ⟨rfl, hsplit, hnode⟩ := member?_eq_file.1 hmember
    have hname : name = stem ++ ".rs" := by
      rw [Path.name_of_splitExtension hsplit, String.append_assoc]
      rfl
    subst hname
    exact ⟨rfl, hsplit, target, node, hentry, hnode⟩
  · rintro ⟨rfl, hsplit, target, node, hentry, hnode⟩
    exact ⟨stem ++ ".rs", target, node, hentry, member?_eq_file.2 ⟨rfl, hsplit, hnode⟩⟩

/-- A problem on the way is about a path that leads to no file. -/
def NoFile (disk : Disk) (p : Problem) : Prop :=
  ∃ path, p.path? = some path ∧ ∀ target node, disk.find path = .ok (target, node) → node = .dir

theorem list_problems {p : Problem} (h : p ∈ (survey.list disk dir place).problems) :
    NoFile disk p := by
  simp only [list, List.mem_flatMap, List.mem_map, exists_exists_and_eq_and] at h
  obtain ⟨name, -, h⟩ := h
  unfold listEntry at h
  simp only at h
  split at h
  · rename_i fault hfault
    obtain rfl := List.mem_singleton.1 h
    refine ⟨_, rfl, fun target node hfind => ?_⟩
    rw [hfault] at hfind
    cases hfind
  · rename_i found hfound
    split_ifs at h with hself
    · obtain rfl := List.mem_singleton.1 h
      refine ⟨_, rfl, fun target node hfind => ?_⟩
      rw [hfound] at hfind
      cases hfind
      unfold isSelfLink at hself
      split at hself
      · simp_all
      · cases hself
    · cases h
    · cases h

/-- A link to the directory itself is reported. -/
theorem selfLink_reported {name : String} {found : Disk.Place × Node} (hname : name ∈ disk.names place)
    (hfound : disk.find (Path.join dir name) = .ok found)
    (hself : isSelfLink disk place (place ++ [name]) found = true) :
    .cyclicLink (Path.join dir name) dir ∈ (survey.list disk dir place).problems := by
  simp only [list, List.mem_flatMap, List.mem_map, exists_exists_and_eq_and]
  exact ⟨name, hname, by simp [listEntry, hfound, hself]⟩

/-! ## Members by name -/

theorem Listing.dir?_eq_some {listing : Listing} {name path : String}
    (h : listing.dir? name = some path) : .dir name path ∈ listing.members := by
  obtain ⟨member, hmember, heq⟩ := List.exists_of_findSome?_eq_some h
  cases member with
  | dir n p =>
    simp only [Option.ite_none_right_eq_some, Option.some.injEq] at heq
    obtain ⟨rfl, rfl⟩ := heq
    exact hmember
  | file s p => cases heq

theorem Listing.file?_eq_some {listing : Listing} {stem path : String}
    (h : listing.file? stem = some path) : .file stem path ∈ listing.members := by
  obtain ⟨member, hmember, heq⟩ := List.exists_of_findSome?_eq_some h
  cases member with
  | dir n p => cases heq
  | file s p =>
    simp only [Option.ite_none_right_eq_some, Option.some.injEq] at heq
    obtain ⟨rfl, rfl⟩ := heq
    exact hmember

theorem Listing.exists_dir? {listing : Listing} {name path : String}
    (h : .dir name path ∈ listing.members) : ∃ path, listing.dir? name = some path := by
  rw [← Option.isSome_iff_exists, Listing.dir?, List.isSome_findSome?, List.any_eq_true]
  exact ⟨_, h, by simp⟩

theorem Listing.exists_file? {listing : Listing} {stem path : String}
    (h : .file stem path ∈ listing.members) : ∃ path, listing.file? stem = some path := by
  rw [← Option.isSome_iff_exists, Listing.file?, List.isSome_findSome?, List.any_eq_true]
  exact ⟨_, h, by simp⟩

/-! ## Candidates -/

/-- A directory that the walk may enter. -/
structure Accepted (survey : Survey) (depth : Nat) (listing : Listing) (name path : String) : Prop where
  listed : .dir name path ∈ listing.members
  enters : survey.enters depth = true
  boundary : survey.isModuleDir path = true

/-- A source file that can be a module. -/
structure Sourced (listing : Listing) (stem path : String) : Prop where
  listed : .file stem path ∈ listing.members
  not_mod : stem ≠ "mod"
  module : Text.isModuleName stem = true

/-- What a candidate is made from. -/
structure Candidate.Of (survey : Survey) (depth : Nat) (listing : Listing) (c : Candidate) : Prop where
  dir : ∀ path, c.dir = some path → Accepted survey depth listing c.name path
  file : ∀ path, c.file = some path → Sourced listing c.name path
  some : c.dir = none → ∃ path, c.file = some path

variable {depth : Nat} {listing : Listing}

theorem moduleName?_dir {name path : String} :
    survey.moduleName? depth (.dir name path) =
      if survey.enters depth = true ∧ survey.isModuleDir path = true then some name else none := by
  simp [moduleName?]

theorem moduleName?_file {stem path : String} :
    survey.moduleName? depth (.file stem path) =
      if stem ≠ "mod" ∧ Text.isModuleName stem = true then some stem else none := by
  simp [moduleName?]

theorem candidates_names_nodup : ((survey.candidates depth listing).map (·.name)).Nodup := by
  rw [candidates, List.map_map]
  show ((sortedNames _).map fun name => name).Nodup
  rw [List.map_id']
  exact sortedNames_nodup _

theorem mem_candidates {c : Candidate} (h : c ∈ survey.candidates depth listing) :
    c.Of survey depth listing := by
  obtain ⟨name, hname, rfl⟩ := List.mem_map.1 h
  have hdir : ∀ path, .dir name path ∈ listing.members.filter
      (fun member => (survey.moduleName? depth member).isSome) → Accepted survey depth listing name path := by
    intro path hmem
    obtain ⟨hmem, hsome⟩ := List.mem_filter.1 hmem
    rw [moduleName?_dir] at hsome
    split_ifs at hsome with hboth
    · exact ⟨hmem, hboth.1, hboth.2⟩
    · cases hsome
  have hfile : ∀ path, .file name path ∈ listing.members.filter
      (fun member => (survey.moduleName? depth member).isSome) → Sourced listing name path := by
    intro path hmem
    obtain ⟨hmem, hsome⟩ := List.mem_filter.1 hmem
    rw [moduleName?_file] at hsome
    split_ifs at hsome with hboth
    · exact ⟨hmem, hboth.1, hboth.2⟩
    · cases hsome
  refine ⟨fun path hpath => hdir path (Listing.dir?_eq_some hpath),
    fun path hpath => hfile path (Listing.file?_eq_some hpath), fun hnone => ?_⟩
  -- the name comes from a member, and that is no directory
  obtain ⟨member, hmember, heq⟩ := List.mem_filterMap.1 (mem_sortedNames.1 hname)
  have hkept : member ∈ listing.members.filter
      (fun member => (survey.moduleName? depth member).isSome) :=
    List.mem_filter.2 ⟨hmember, by rw [heq]; rfl⟩
  cases member with
  | dir n path =>
    rw [moduleName?_dir] at heq
    split_ifs at heq
    cases heq
    obtain ⟨other, hother⟩ := @Listing.exists_dir? ⟨_, []⟩ _ _ hkept
    simp only at hnone
    rw [hother] at hnone
    cases hnone
  | file stem path =>
    rw [moduleName?_file] at heq
    split_ifs at heq
    cases heq
    exact @Listing.exists_file? ⟨_, []⟩ _ _ hkept

theorem exists_candidate_dir {name path : String} (h : Accepted survey depth listing name path) :
    ∃ c ∈ survey.candidates depth listing, c.name = name ∧ ∃ path, c.dir = some path := by
  have hname : survey.moduleName? depth (.dir name path) = some name := by
    rw [moduleName?_dir, if_pos ⟨h.enters, h.boundary⟩]
  have hkept : .dir name path ∈ listing.members.filter
      (fun member => (survey.moduleName? depth member).isSome) :=
    List.mem_filter.2 ⟨h.listed, by rw [hname]; rfl⟩
  refine ⟨_, List.mem_map_of_mem (mem_sortedNames.2 (List.mem_filterMap.2 ⟨_, h.listed, hname⟩)), rfl, ?_⟩
  exact @Listing.exists_dir? ⟨_, []⟩ _ _ hkept

theorem exists_candidate_file {stem path : String} (h : Sourced listing stem path) :
    ∃ c ∈ survey.candidates depth listing, c.name = stem ∧ ∃ path, c.file = some path := by
  have hname : survey.moduleName? depth (.file stem path) = some stem := by
    rw [moduleName?_file, if_pos ⟨h.not_mod, h.module⟩]
  have hkept : .file stem path ∈ listing.members.filter
      (fun member => (survey.moduleName? depth member).isSome) :=
    List.mem_filter.2 ⟨h.listed, by rw [hname]; rfl⟩
  refine ⟨_, List.mem_map_of_mem (mem_sortedNames.2 (List.mem_filterMap.2 ⟨_, h.listed, hname⟩)), rfl, ?_⟩
  exact @Listing.exists_file? ⟨_, []⟩ _ _ hkept

end Survey

end Reexport
