import Mathlib.Data.List.Nodup
import Mathlib.Data.List.Perm.Subperm
import Reexport.Proofs.Listings

/-!
# The walk through directories

A survey goes down from the root, from directory to directory. Links may lead anywhere, so a
directory may be visited more than once, but it is not entered again while it is open. On
the way down the places are therefore all different, and since there are only so many of
them on a disk, every way ends.

`Walks` says what the walk does without any bound on its depth. It is an inductive relation,
so the walk has a result exactly if it ends.

Results:

* `walks_discover`: the walk ends, and its result is that of the program.
* `walk_eq`: a walk that keeps its open directories on a stack leaves the stack as it was.
* `Walks.handled`: what the walk makes of each candidate.
* `Walks.yields`: the candidate that a module comes from.
-/

namespace Reexport

namespace Discovered

def name : Discovered → String
  | .mk name _ _ _ => name

def dir : Discovered → Option String
  | .mk _ dir _ _ => dir

def manifest : Discovered → Option String
  | .mk _ _ manifest _ => manifest

def children : Discovered → List Discovered
  | .mk _ _ _ children => children

end Discovered

namespace Survey

/-! ## What the walk does -/

/-- A directory that the walk has come to. -/
structure Visit where
  dir : String
  place : Disk.Place
  /-- The places of the directories on the way to it. -/
  outer : List Disk.Place
  depth : Nat
  listing : Listing

namespace Visit

/-- The places of the open directories. -/
def above (v : Visit) : List Disk.Place := v.place :: v.outer

/-- The root, where the walk starts. -/
def start (survey : Survey) (disk : Disk) (place : Disk.Place) : Visit :=
  ⟨survey.root, place, [], 1, belowRoot (survey.list disk survey.root place)⟩

/-- One level down. -/
def into (survey : Survey) (disk : Disk) (v : Visit) (dir : String) (place : Disk.Place) : Visit :=
  ⟨dir, place, v.above, v.depth + 1, survey.list disk dir place⟩

def candidates (survey : Survey) (v : Visit) : List Candidate :=
  survey.candidates v.depth v.listing

/-- The manifest of a directory: the one in it, else the file beside it. -/
def manifest? (v : Visit) (c : Candidate) : Option String :=
  v.listing.file? "mod" <|> c.file

end Visit

variable (survey : Survey) (disk : Disk)

/-- What the walk finds for candidates in a directory, however deep it has to go. -/
inductive Walks : Visit → List Candidate → Found → Prop
  | done (v : Visit) : Walks v [] ⟨[], []⟩
  | file {v : Visit} {c : Candidate} {rest : List Candidate} {found : Found} : c.dir = none →
      Walks v rest found →
      Walks v (c :: rest) ⟨.mk c.name none c.file [] :: found.modules, found.problems⟩
  | lost {v : Visit} {c : Candidate} {rest : List Candidate} {found : Found} {dir : String}
      {fault : Disk.Fault} : c.dir = some dir → disk.find dir = .error fault → Walks v rest found →
      Walks v (c :: rest) ⟨found.modules, .unreadable dir fault.message :: found.problems⟩
  | round {v : Visit} {c : Candidate} {rest : List Candidate} {found : Found} {dir : String}
      {place : Disk.Place} {node : Node} : c.dir = some dir → disk.find dir = .ok (place, node) →
      place ∈ v.above → Walks v rest found →
      Walks v (c :: rest) ⟨found.modules, .cyclicLink dir place.path :: found.problems⟩
  | entered {v : Visit} {c : Candidate} {rest : List Candidate} {found below : Found} {dir : String}
      {place : Disk.Place} {node : Node} : c.dir = some dir → disk.find dir = .ok (place, node) →
      place ∉ v.above →
      Walks (v.into survey disk dir place) ((v.into survey disk dir place).candidates survey) below →
      Walks v rest found →
      Walks v (c :: rest)
        ⟨directoryModule c.name dir ((v.into survey disk dir place).manifest? c) below.modules ++
            found.modules,
          (v.into survey disk dir place).listing.problems ++ below.problems ++ found.problems⟩

variable {survey disk}

/-- The walk has one result. -/
theorem Walks.unique {v : Visit} {cs : List Candidate} {found other : Found}
    (h : Walks survey disk v cs found) (h' : Walks survey disk v cs other) : found = other := by
  induction h generalizing other with
  | done v => cases h'; rfl
  | file hdir _ ih =>
    cases h' with
    | file _ hrest => rw [ih hrest]
    | lost hdir' _ _ => simp [hdir] at hdir'
    | round hdir' _ _ _ => simp [hdir] at hdir'
    | entered hdir' _ _ _ _ => simp [hdir] at hdir'
  | lost hdir hfind _ ih =>
    cases h' with
    | file hdir' _ => simp [hdir] at hdir'
    | lost hdir' hfind' hrest =>
      cases hdir.symm.trans hdir'
      cases hfind.symm.trans hfind'
      rw [ih hrest]
    | round hdir' hfind' _ _ =>
      cases hdir.symm.trans hdir'
      cases hfind.symm.trans hfind'
    | entered hdir' hfind' _ _ _ =>
      cases hdir.symm.trans hdir'
      cases hfind.symm.trans hfind'
  | round hdir hfind hmem _ ih =>
    cases h' with
    | file hdir' _ => simp [hdir] at hdir'
    | lost hdir' hfind' _ =>
      cases hdir.symm.trans hdir'
      cases hfind.symm.trans hfind'
    | round hdir' hfind' _ hrest =>
      cases hdir.symm.trans hdir'
      cases hfind.symm.trans hfind'
      rw [ih hrest]
    | entered hdir' hfind' hnot _ _ =>
      cases hdir.symm.trans hdir'
      cases hfind.symm.trans hfind'
      exact absurd hmem hnot
  | entered hdir hfind hnot _ _ ihbelow ih =>
    cases h' with
    | file hdir' _ => simp [hdir] at hdir'
    | lost hdir' hfind' _ =>
      cases hdir.symm.trans hdir'
      cases hfind.symm.trans hfind'
    | round hdir' hfind' hmem _ =>
      cases hdir.symm.trans hdir'
      cases hfind.symm.trans hfind'
      exact absurd hmem hnot
    | entered hdir' hfind' _ hbelow hrest =>
      cases hdir.symm.trans hdir'
      cases hfind.symm.trans hfind'
      rw [ihbelow hbelow, ih hrest]

/-! ## Every way ends -/

/-- What the program finds for one candidate, given what it finds one level down. -/
def part (survey : Survey) (disk : Disk) (below : Visit → Found) (v : Visit) (c : Candidate) : Found :=
  match c.dir with
  | none => ⟨[.mk c.name none c.file []], []⟩
  | some dir =>
    match disk.find dir with
    | .error fault => ⟨[], [.unreadable dir fault.message]⟩
    | .ok (place, _) =>
      if v.above.contains place then ⟨[], [.cyclicLink dir place.path]⟩
      else
        let inner := v.into survey disk dir place
        ⟨directoryModule c.name dir (inner.manifest? c) (below inner).modules,
          inner.listing.problems ++ (below inner).problems⟩

theorem discover_eq (fuel : Nat) (v : Visit) :
    survey.discover disk (fuel + 1) v.above v.depth v.listing =
      .join ((v.candidates survey).map
        (part survey disk (fun w => survey.discover disk fuel w.above w.depth w.listing) v)) :=
  rfl

theorem Found.join_cons (first : Found) (rest : List Found) :
    Found.join (first :: rest) = ⟨first.modules ++ (Found.join rest).modules,
      first.problems ++ (Found.join rest).problems⟩ :=
  rfl

/-- Candidates are dealt with one after the other. -/
theorem walks_parts {below : Visit → Found} {v : Visit}
    (hbelow : ∀ dir place node, disk.find dir = .ok (place, node) → place ∉ v.above →
      Walks survey disk (v.into survey disk dir place)
        ((v.into survey disk dir place).candidates survey) (below (v.into survey disk dir place))) :
    ∀ cs : List Candidate, Walks survey disk v cs (.join (cs.map (part survey disk below v))) := by
  intro cs
  induction cs with
  | nil => exact .done v
  | cons c rest ih =>
    rw [List.map_cons, Found.join_cons]
    unfold part
    split
    · rename_i hdir
      exact .file hdir ih
    · rename_i dir hdir
      split
      · rename_i fault hfind
        exact .lost hdir hfind ih
      · rename_i place node hfind
        split_ifs with hmem
        · exact .round hdir hfind (by simpa using hmem) ih
        · have hnot : place ∉ v.above := by simpa using hmem
          exact .entered hdir hfind hnot (hbelow dir place node hfind hnot) ih

/-- The places where something may lie. -/
def places (disk : Disk) : List Disk.Place := [] :: disk.entries.map (·.1)

theorem mem_places {place : Disk.Place} {node : Node} (h : disk.node? place = some node) :
    place ∈ places disk := by
  unfold Disk.node? at h
  split_ifs at h with hnil
  · rw [hnil]
    exact List.mem_cons_self
  · obtain ⟨before, after, hsplit, -⟩ := List.lookup_eq_some_iff.1 h
    rw [places, hsplit]
    simp

/-- The open directories are different ones and are all on the disk. -/
structure Visit.Open (disk : Disk) (v : Visit) : Prop where
  nodup : v.above.Nodup
  known : v.above ⊆ places disk

theorem Visit.Open.length_le {v : Visit} (h : v.Open disk) : v.above.length ≤ disk.entries.length + 1 := by
  have hle := (List.Nodup.subperm h.nodup h.known).length_le
  simpa [places] using hle

theorem Visit.Open.into {v : Visit} (h : v.Open disk) {dir : String} {place : Disk.Place} {node : Node}
    (hfind : disk.find dir = .ok (place, node)) (hnot : place ∉ v.above) :
    (v.into survey disk dir place).Open disk where
  nodup := List.nodup_cons.2 ⟨hnot, h.nodup⟩
  known := List.cons_subset.2 ⟨mem_places (Disk.find_eq_ok_iff.1 hfind).2, h.known⟩

theorem Visit.open_start {place : Disk.Place} {node : Node}
    (hfind : disk.find survey.root = .ok (place, node)) : (Visit.start survey disk place).Open disk where
  nodup := List.nodup_singleton place
  known := List.cons_subset.2 ⟨mem_places (Disk.find_eq_ok_iff.1 hfind).2, List.nil_subset _⟩

/-- With one level for each directory that is not open, the walk ends before its bound. -/
theorem walks_discover : ∀ (fuel : Nat) {v : Visit}, v.Open disk →
    disk.entries.length + 2 ≤ fuel + v.above.length →
    Walks survey disk v (v.candidates survey)
      (survey.discover disk fuel v.above v.depth v.listing) := by
  intro fuel
  induction fuel with
  | zero =>
    intro v hopen hle
    have hlength := hopen.length_le
    omega
  | succ fuel ih =>
    intro v hopen hle
    rw [discover_eq]
    refine walks_parts (fun dir place node hfind hnot => ?_) _
    refine ih (hopen.into hfind hnot) ?_
    show disk.entries.length + 2 ≤ fuel + (place :: v.above).length
    rw [List.length_cons]
    omega

/-! ## The stack of open directories -/

/-- What a walk carries along: the open directories, the innermost first, and the problems
    so far. -/
structure Walk where
  ancestors : List Disk.Place
  problems : List Problem

namespace Walk

def push (w : Walk) (place : Disk.Place) : Walk := { w with ancestors := place :: w.ancestors }

def pop (w : Walk) : Walk := { w with ancestors := w.ancestors.tail }

def report (w : Walk) (problems : List Problem) : Walk :=
  { w with problems := w.problems ++ problems }

end Walk

/-- One candidate on a walk with a stack. -/
def walkOne (survey : Survey) (disk : Disk) (walk : Nat → Listing → Walk → List Discovered × Walk)
    (depth : Nat) (c : Candidate) (w : Walk) : List Discovered × Walk :=
  match c.dir with
  | none => ([.mk c.name none c.file []], w)
  | some dir =>
    match disk.find dir with
    | .error fault => ([], w.report [.unreadable dir fault.message])
    | .ok (place, _) =>
      if w.ancestors.contains place then ([], w.report [.cyclicLink dir place.path])
      else
        let listing := survey.list disk dir place
        let (below, after) := walk (depth + 1) listing ((w.push place).report listing.problems)
        (directoryModule c.name dir (listing.file? "mod" <|> c.file) below, after.pop)

/-- The candidates of a directory on a walk with a stack. -/
def walkAll (walkOne : Candidate → Walk → List Discovered × Walk) :
    List Candidate → Walk → List Discovered × Walk
  | [], w => ([], w)
  | c :: rest, w =>
    let (first, w) := walkOne c w
    let (others, w) := walkAll walkOne rest w
    (first ++ others, w)

/-- A walk with a stack: a directory is pushed before what is below it and popped after it. -/
def walk (survey : Survey) (disk : Disk) :
    (fuel depth : Nat) → Listing → Walk → List Discovered × Walk
  | 0, _, _, w => ([], w)
  | fuel + 1, depth, listing, w =>
    walkAll (walkOne survey disk (walk survey disk fuel) depth) (survey.candidates depth listing) w

theorem walkAll_eq {one : Candidate → Walk → List Discovered × Walk} {f : Candidate → Found}
    {ancestors : List Disk.Place}
    (hone : ∀ c (w : Walk), w.ancestors = ancestors → one c w = ((f c).modules, w.report (f c).problems)) :
    ∀ (cs : List Candidate) (w : Walk), w.ancestors = ancestors →
      walkAll one cs w = ((Found.join (cs.map f)).modules, w.report (Found.join (cs.map f)).problems) := by
  intro cs
  induction cs with
  | nil => intro w _; simp [walkAll, Found.join, Walk.report]
  | cons c rest ih =>
    intro w hw
    simp only [walkAll, hone c w hw]
    rw [ih (w.report (f c).problems) hw]
    simp only [List.map_cons, Found.join_cons, Walk.report, List.append_assoc]

/-- A walk with a stack finds the same, and leaves the stack as it was. -/
theorem walk_eq : ∀ (fuel depth : Nat) (listing : Listing) (w : Walk),
    walk survey disk fuel depth listing w =
      ((survey.discover disk fuel w.ancestors depth listing).modules,
        w.report (survey.discover disk fuel w.ancestors depth listing).problems) := by
  intro fuel
  induction fuel with
  | zero => intro depth listing w; simp [walk, discover, Walk.report]
  | succ fuel ih =>
    intro depth listing w
    rw [walk, discover]
    refine walkAll_eq (fun c w' hw' => ?_) _ w rfl
    rw [walkOne, ← hw']
    cases hdir : c.dir with
    | none => simp [Walk.report]
    | some dir =>
      cases hfind : disk.find dir with
      | error fault => simp only [hfind]
      | ok at' =>
        obtain ⟨place, node⟩ := at'
        simp only [hfind]
        split_ifs with hmem
        · rfl
        · simp only [ih, Walk.report, Walk.push, Walk.pop, List.tail_cons, List.append_assoc]

/-! ## What becomes of a directory -/

/-- The directories that the walk comes to. -/
inductive Visited (survey : Survey) (disk : Disk) : Visit → Prop
  | start {place : Disk.Place} : disk.find survey.root = .ok (place, .dir) →
      Visited survey disk (.start survey disk place)
  | into {v : Visit} {name dir : String} {place : Disk.Place} : Visited survey disk v →
      Accepted survey v.depth v.listing name dir → disk.find dir = .ok (place, .dir) →
      place ∉ v.above → Visited survey disk (v.into survey disk dir place)

theorem mem_belowRoot_dir {listing : Listing} {name path : String} :
    .dir name path ∈ (belowRoot listing).members ↔ .dir name path ∈ listing.members := by
  simp [belowRoot]

theorem mem_of_mem_belowRoot {listing : Listing} {member : Member}
    (h : member ∈ (belowRoot listing).members) : member ∈ listing.members :=
  (List.mem_filter.1 h).1

namespace Visited

variable {v : Visit} (h : Visited survey disk v)

include h

theorem mem_list {member : Member} (hmember : member ∈ v.listing.members) :
    member ∈ (survey.list disk v.dir v.place).members := by
  cases h with
  | start _ => exact mem_of_mem_belowRoot hmember
  | into _ _ _ _ => exact hmember

theorem mem_dir {name path : String} : .dir name path ∈ v.listing.members ↔
    .dir name path ∈ (survey.list disk v.dir v.place).members := by
  cases h with
  | start _ => exact mem_belowRoot_dir
  | into _ _ _ _ => exact Iff.rfl

theorem problems : v.listing.problems = (survey.list disk v.dir v.place).problems := by
  cases h <;> rfl

theorem found : disk.find v.dir = .ok (v.place, .dir) := by
  cases h with
  | start hfind => exact hfind
  | into _ _ hfind _ => exact hfind

theorem opened : v.Open disk := by
  induction h with
  | start hfind => exact Visit.open_start hfind
  | into _ _ hfind hnot ih => exact ih.into hfind hnot

theorem accepted {name path : String} (haccepted : Accepted survey v.depth v.listing name path) :
    path = Path.join v.dir name ∧ ∃ target, Entry survey disk v.dir v.place name target .dir :=
  mem_list_dir.1 (h.mem_list haccepted.listed)

/-- The candidate that has a directory. -/
theorem exists_candidate {name path : String} (haccepted : Accepted survey v.depth v.listing name path) :
    ∃ c ∈ v.candidates survey, c.name = name ∧ c.dir = some path := by
  obtain ⟨c, hc, rfl, path', hpath'⟩ := exists_candidate_dir haccepted
  refine ⟨c, hc, rfl, ?_⟩
  rw [hpath', (h.accepted haccepted).1, (h.accepted ((mem_candidates hc).dir path' hpath')).1]

/-- A directory is visited if a candidate leads to it. -/
theorem into_candidate {c : Candidate} (hc : c ∈ v.candidates survey) {dir : String}
    (hdir : c.dir = some dir) {place : Disk.Place} {node : Node}
    (hfind : disk.find dir = .ok (place, node)) (hnot : place ∉ v.above) :
    Visited survey disk (v.into survey disk dir place) := by
  have haccepted := (mem_candidates hc).dir dir hdir
  obtain ⟨rfl, target, hentry⟩ := h.accepted haccepted
  rw [hentry.found] at hfind
  cases hfind
  exact .into h haccepted hentry.found hnot

end Visited

/-- What the walk makes of a candidate. -/
inductive Handled (survey : Survey) (disk : Disk) (v : Visit) (c : Candidate) (found : Found) : Prop
  | file : c.dir = none → .mk c.name none c.file [] ∈ found.modules → Handled survey disk v c found
  | lost {dir : String} {fault : Disk.Fault} : c.dir = some dir → disk.find dir = .error fault →
      .unreadable dir fault.message ∈ found.problems → Handled survey disk v c found
  | round {dir : String} {place : Disk.Place} {node : Node} : c.dir = some dir →
      disk.find dir = .ok (place, node) → place ∈ v.above →
      .cyclicLink dir place.path ∈ found.problems → Handled survey disk v c found
  | entered {dir : String} {place : Disk.Place} {node : Node} {below : Found} : c.dir = some dir →
      disk.find dir = .ok (place, node) → place ∉ v.above →
      Walks survey disk (v.into survey disk dir place)
        ((v.into survey disk dir place).candidates survey) below →
      directoryModule c.name dir ((v.into survey disk dir place).manifest? c) below.modules ⊆
        found.modules →
      (v.into survey disk dir place).listing.problems ⊆ found.problems →
      below.problems ⊆ found.problems → Handled survey disk v c found

theorem Handled.mono {v : Visit} {c : Candidate} {found more : Found}
    (h : Handled survey disk v c found) (hmodules : found.modules ⊆ more.modules)
    (hproblems : found.problems ⊆ more.problems) : Handled survey disk v c more := by
  cases h with
  | file hdir hmem => exact .file hdir (hmodules hmem)
  | lost hdir hfind hmem => exact .lost hdir hfind (hproblems hmem)
  | round hdir hfind habove hmem => exact .round hdir hfind habove (hproblems hmem)
  | entered hdir hfind hnot hbelow hmem hlisting hinner =>
    exact .entered hdir hfind hnot hbelow (List.Subset.trans hmem hmodules)
      (List.Subset.trans hlisting hproblems) (List.Subset.trans hinner hproblems)

/-- Every candidate is dealt with. -/
theorem Walks.handled {v : Visit} {cs : List Candidate} {found : Found}
    (h : Walks survey disk v cs found) : ∀ c ∈ cs, Handled survey disk v c found := by
  induction h with
  | done v => intro c hc; cases hc
  | file hdir _ ih =>
    refine List.forall_mem_cons.2 ⟨.file hdir List.mem_cons_self, fun c hc => ?_⟩
    exact (ih c hc).mono (List.subset_cons_self _ _) (List.Subset.refl _)
  | lost hdir hfind _ ih =>
    refine List.forall_mem_cons.2 ⟨.lost hdir hfind List.mem_cons_self, fun c hc => ?_⟩
    exact (ih c hc).mono (List.Subset.refl _) (List.subset_cons_self _ _)
  | round hdir hfind hmem _ ih =>
    refine List.forall_mem_cons.2 ⟨.round hdir hfind hmem List.mem_cons_self, fun c hc => ?_⟩
    exact (ih c hc).mono (List.Subset.refl _) (List.subset_cons_self _ _)
  | entered hdir hfind hnot hbelow _ _ ih =>
    refine List.forall_mem_cons.2 ⟨?_, fun c hc => ?_⟩
    · refine .entered hdir hfind hnot hbelow (List.subset_append_left _ _) ?_ ?_
      · exact List.Subset.trans (List.subset_append_left _ _) (List.subset_append_left _ _)
      · exact List.Subset.trans (List.subset_append_right _ _) (List.subset_append_left _ _)
    · exact (ih c hc).mono (List.subset_append_right _ _) (List.subset_append_right _ _)

/-- The module that a candidate gives. -/
inductive Yields (survey : Survey) (disk : Disk) (v : Visit) (c : Candidate) : Discovered → Prop
  | file : c.dir = none → Yields survey disk v c (.mk c.name none c.file [])
  | directory {dir : String} {place : Disk.Place} {node : Node} {below : Found} : c.dir = some dir →
      disk.find dir = .ok (place, node) → place ∉ v.above →
      Walks survey disk (v.into survey disk dir place)
        ((v.into survey disk dir place).candidates survey) below →
      ((v.into survey disk dir place).manifest? c ≠ none ∨ below.modules ≠ []) →
      Yields survey disk v c
        (.mk c.name (some dir) ((v.into survey disk dir place).manifest? c) below.modules)

theorem Yields.name {v : Visit} {c : Candidate} {d : Discovered} (h : Yields survey disk v c d) :
    d.name = c.name := by
  cases h <;> rfl

theorem mem_directoryModule {name dir : String} {manifest : Option String} {below : List Discovered}
    {d : Discovered} : d ∈ directoryModule name dir manifest below ↔
      (manifest ≠ none ∨ below ≠ []) ∧ d = .mk name (some dir) manifest below := by
  unfold directoryModule
  split_ifs with hnone
  · simp_all
  · simp only [List.mem_singleton, iff_and_self]
    rintro -
    by_contra hboth
    simp_all

/-- Every module that is found comes from a candidate. -/
theorem Walks.yields {v : Visit} {cs : List Candidate} {found : Found}
    (h : Walks survey disk v cs found) : ∀ d ∈ found.modules, ∃ c ∈ cs, Yields survey disk v c d := by
  have hlater : ∀ {v : Visit} {c : Candidate} {rest : List Candidate} {ds : List Discovered},
      (∀ d ∈ ds, ∃ c ∈ rest, Yields survey disk v c d) →
      ∀ d ∈ ds, ∃ c' ∈ c :: rest, Yields survey disk v c' d := by
    intro v c rest ds hds d hd
    obtain ⟨c', hc', hyields⟩ := hds d hd
    exact ⟨c', List.mem_cons_of_mem _ hc', hyields⟩
  induction h with
  | done v => intro d hd; cases hd
  | file hdir _ ih =>
    exact List.forall_mem_cons.2 ⟨⟨_, List.mem_cons_self, .file hdir⟩, hlater ih⟩
  | lost _ _ _ ih => exact hlater ih
  | round _ _ _ _ ih => exact hlater ih
  | entered hdir hfind hnot hbelow _ _ ih =>
    refine List.forall_mem_append.2 ⟨fun d hd => ?_, hlater ih⟩
    obtain ⟨hcounts, rfl⟩ := mem_directoryModule.1 hd
    exact ⟨_, List.mem_cons_self, .directory hdir hfind hnot hbelow hcounts⟩

/-- Modules are found in the order of the candidates. -/
theorem Walks.names {v : Visit} {cs : List Candidate} {found : Found}
    (h : Walks survey disk v cs found) :
    (found.modules.map (·.name)).Sublist (cs.map (·.name)) := by
  induction h with
  | done v => exact List.Sublist.slnil
  | file _ _ ih => exact ih.cons_cons _
  | lost _ _ _ ih => exact ih.cons _
  | round _ _ _ _ ih => exact ih.cons _
  | entered _ _ _ _ _ _ ih =>
    rw [directoryModule]
    split_ifs
    · exact ih.cons _
    · exact ih.cons_cons _

end Survey

end Reexport
