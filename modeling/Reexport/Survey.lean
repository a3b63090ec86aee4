import Reexport.Glob
import Reexport.Manifest
import Reexport.ModuleTree
import Reexport.Names
import Reexport.Text.Ident

/-!
# Surveying a source tree

Finds the modules of a source tree on disk and scans their manifests.

A directory is a module if its name says so, and its manifest is `mod.rs` in it or
the file with its name beside it. A file is a module of its own if no directory
has its name. A directory that is met again on the way down to itself, by a link,
is not entered.
-/

namespace Reexport

/-- What counts as part of the tree. -/
structure Survey where
  /-- The directory of the root manifest. -/
  root : String
  /-- Which directories are modules. -/
  isModuleDir : String → Bool
  /-- Paths below the root that are left out. -/
  excluded : List Glob
  /-- How many levels below the root are visited. -/
  maxDepth : Option Nat

/-- A module on disk, before it has a number. -/
inductive Discovered where
  | mk (name : String) (dir manifest : Option String) (children : List Discovered)
  deriving Repr, Inhabited

/-- A tree with its manifests scanned. -/
structure Surveyed where
  tree : ModuleTree
  problems : List Problem
  unitsScanned : Nat
  deriving Repr, Inhabited

namespace Survey

/-- The usual boundary: directories whose names can be module names. -/
def namedDirs (dir : String) : Bool :=
  (Path.fileName? dir).any Text.isModuleName

/-- The names that a root manifest may have, the first choice first. -/
def rootManifests : List String := ["lib.rs", "main.rs", "mod.rs"]

/-! ## Listing a directory -/

/-- A directory or a source file in a directory. -/
inductive Member where
  | dir (name path : String)
  /-- A source file; `stem` is its name without the extension. -/
  | file (stem path : String)
  deriving DecidableEq, Repr, Inhabited

/-- What lies in a directory, in the order of the names. -/
structure Listing where
  members : List Member
  problems : List Problem
  deriving Repr, Inhabited

/-- Whether a path is left out. -/
def excludes (survey : Survey) (path : String) : Bool :=
  survey.excluded.any fun glob => glob.isMatch (Path.relativeTo survey.root path)

/-- The member for an entry that leads to `node`. -/
def member? (name path : String) (node : Node) : Option Member :=
  match node, Path.splitExtension name with
  | .dir, _ => some (.dir name path)
  | _, (stem, some "rs") => some (.file stem path)
  | _, _ => none

/-- Whether a link in a directory leads to that directory. -/
def isSelfLink (disk : Disk) (dir entry : Disk.Place) (found : Disk.Place × Node) : Bool :=
  match disk.node? entry, found with
  | some (.link _), (place, .dir) => place == dir
  | _, _ => false

/-- One entry of the directory `dir`, which lies at `place`. -/
def listEntry (survey : Survey) (disk : Disk) (dir : String) (place : Disk.Place) (name : String) :
    Listing :=
  let path := Path.join dir name
  match disk.find path with
  | .error fault =>
    ⟨[], [.unreadable path ("IO error for operation on " ++ path ++ ": " ++ fault.message)]⟩
  | .ok found =>
    if isSelfLink disk place (place ++ [name]) found then ⟨[], [.cyclicLink path dir]⟩
    else if survey.excludes path then ⟨[], []⟩
    else ⟨(member? name path found.2).toList, []⟩

/-- What lies in the directory `dir`, which lies at `place`. -/
def list (survey : Survey) (disk : Disk) (dir : String) (place : Disk.Place) : Listing :=
  let parts := (disk.names place).map (survey.listEntry disk dir place)
  ⟨parts.flatMap (·.members), parts.flatMap (·.problems)⟩

/-- The source file with a stem. -/
def Listing.file? (listing : Listing) (stem : String) : Option String :=
  listing.members.findSome? fun
    | .file s path => if s = stem then some path else none
    | .dir .. => none

/-- The directory with a name. -/
def Listing.dir? (listing : Listing) (name : String) : Option String :=
  listing.members.findSome? fun
    | .dir n path => if n = name then some path else none
    | .file .. => none

/-! ## Discovering modules -/

/-- Whether the directories in a directory that lies `depth - 1` levels below the
    root are visited. -/
def enters (survey : Survey) (depth : Nat) : Bool :=
  survey.maxDepth.all fun most => depth ≤ most

/-- The name of the module that a member belongs to. -/
def moduleName? (survey : Survey) (depth : Nat) : Member → Option String
  | .dir name path => if survey.enters depth && survey.isModuleDir path then some name else none
  | .file stem _ => if stem != "mod" && Text.isModuleName stem then some stem else none

/-- A module to be: its directory and the file with its name. -/
structure Candidate where
  name : String
  dir : Option String
  file : Option String
  deriving DecidableEq, Repr, Inhabited

/-- The modules to be in a directory, in the order of their names. -/
def candidates (survey : Survey) (depth : Nat) (listing : Listing) : List Candidate :=
  let belongs (member : Member) : Bool := (survey.moduleName? depth member).isSome
  let kept : Listing := ⟨listing.members.filter belongs, []⟩
  (sortedNames (listing.members.filterMap (survey.moduleName? depth))).map fun name =>
    ⟨name, kept.dir? name, kept.file? name⟩

/-- Modules and problems on the way to them. -/
structure Found where
  modules : List Discovered
  problems : List Problem
  deriving Repr, Inhabited

/-- All that was found, in order. -/
def Found.join (parts : List Found) : Found :=
  ⟨parts.flatMap (·.modules), parts.flatMap (·.problems)⟩

/-- The module of a directory. Without a manifest it only counts if something
    below it does. -/
def directoryModule (name dir : String) (manifest : Option String) (below : List Discovered) :
    List Discovered :=
  if manifest.isNone && below.isEmpty then [] else [.mk name (some dir) manifest below]

/-- The modules in a directory with this listing. `above` are the places of the
    directories on the way to it, itself included; these are all different, so
    `fuel` need not be more than the number of directories. -/
def discover (survey : Survey) (disk : Disk) :
    (fuel : Nat) → (above : List Disk.Place) → (depth : Nat) → Listing → Found
  | 0, _, _, _ => ⟨[], []⟩
  | fuel + 1, above, depth, listing =>
    .join ((survey.candidates depth listing).map fun candidate =>
      match candidate.dir with
      | none => ⟨[.mk candidate.name none candidate.file []], []⟩
      | some dir =>
        match disk.find dir with
        | .error fault => ⟨[], [.unreadable dir fault.message]⟩
        | .ok (place, _) =>
          if above.contains place then ⟨[], [.cyclicLink dir place.path]⟩
          else
            let inner := survey.list disk dir place
            let manifest := inner.file? "mod" <|> candidate.file
            let below := survey.discover disk fuel (place :: above) (depth + 1) inner
            ⟨directoryModule candidate.name dir manifest below.modules,
              inner.problems ++ below.problems⟩)

mutual

/-- Adds a module and those below it to a tree. -/
def plant (tree : ModuleTree) (parent : ModuleId) : Discovered → ModuleTree
  | .mk name dir manifest children =>
    plantAll (tree.addChild parent name dir manifest) tree.size children

/-- Adds modules and those below them to a tree. -/
def plantAll (tree : ModuleTree) (parent : ModuleId) : List Discovered → ModuleTree
  | [] => tree
  | d :: rest => plantAll (plant tree parent d) parent rest

end

/-! ## Scanning manifests -/

/-- A tree with some of its manifests scanned. -/
def scanModule (disk : Disk) (found : Surveyed) (id : ModuleId) : Surveyed :=
  match (found.tree.get id).manifest with
  | none => found
  | some path =>
    match scanFile disk path with
    | .ok scanned =>
      { found with
        tree := found.tree.modify id fun m =>
          { m with
            symbols := scanned.symbols
            directives := scanned.directives
            source := some scanned.source }
        unitsScanned := found.unitsScanned + 1 }
    | .error p =>
      ⟨found.tree.modify id fun m => { m with scanFailed := true }, found.problems ++ [p],
        found.unitsScanned + 1⟩

/-- Scans all manifests. -/
def scanAll (disk : Disk) (tree : ModuleTree) (problems : List Problem) : Surveyed :=
  (List.range tree.size).foldl (scanModule disk) ⟨tree, problems, 0⟩

/-! ## The whole tree -/

/-- The root manifest among the files of the root directory. -/
def rootManifest? (survey : Survey) (listing : Listing) : Option String :=
  (rootManifests.map (Path.join survey.root)).find? fun path =>
    listing.members.any fun
      | .file _ file => file == path
      | .dir .. => false

/-- The members of the root directory that can be modules below the root. -/
def belowRoot (listing : Listing) : Listing :=
  { listing with
    members := listing.members.filter fun
      | .file stem _ => stem != "lib" && stem != "main"
      | .dir .. => true }

/-- The modules of the root directory at `place`, without their content. -/
def discoverAll (survey : Survey) (disk : Disk) (place : Disk.Place) : ModuleTree × List Problem :=
  let listing := survey.list disk survey.root place
  let found := survey.discover disk (disk.entries.length + 2) [place] 1 (belowRoot listing)
  (plantAll (.new survey.root (survey.rootManifest? listing)) ModuleTree.root found.modules,
    listing.problems ++ found.problems)

/-- The tree below the root, with its manifests scanned. -/
def run (survey : Survey) (disk : Disk) : Except Problem Surveyed :=
  match disk.find survey.root with
  | .ok (place, .dir) =>
    let (tree, problems) := survey.discoverAll disk place
    .ok (scanAll disk tree problems)
  | _ => .error (.invalidRoot survey.root)

end Survey

end Reexport
