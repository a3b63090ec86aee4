import Reexport.Directive

/-!
# The module tree

Modules are numbered in the order in which they are added; the root is number 0.
A module is added under one that is there already, so a parent's number is
smaller than its child's, and walks up and down the tree end.

`resolvePath` finds the module that a path means at some place of the tree.
-/

namespace Reexport

/-- The number of a module in its tree. -/
abbrev ModuleId := Nat

/-- A node of the module tree. -/
structure Module where
  /-- The last segment of its path; `crate` for the root. -/
  name : String
  /-- The segments from the root; none for the root itself. -/
  segments : List String
  /-- The directory that holds its children. -/
  dir : Option String
  /-- The unit that defines what it exposes. -/
  manifest : Option String
  parent : Option ModuleId
  /-- In the order of their names. -/
  children : List ModuleId
  symbols : List Symbol
  directives : List Directive
  /-- The text of the manifest as it was scanned. -/
  source : Option String
  /-- The manifest could not be read or is not well formed. -/
  scanFailed : Bool
  deriving Repr, Inhabited

/-- A module without content. -/
def Module.bare (name : String) (segments : List String) (dir manifest : Option String)
    (parent : Option ModuleId) : Module :=
  ⟨name, segments, dir, manifest, parent, [], [], [], none, false⟩

/-- The path of a module from the root. -/
def Module.qualifiedName (m : Module) : String :=
  m.segments.foldl (fun path segment => path ++ "::" ++ segment) "crate"

/-- A tree of modules. -/
structure ModuleTree where
  rootDir : String
  modules : Array Module
  deriving Repr, Inhabited

namespace ModuleTree

/-- The number of the root. -/
def root : ModuleId := 0

/-- A tree of only the root. -/
def new (rootDir : String) (manifest : Option String) : ModuleTree :=
  ⟨rootDir, #[.bare "crate" [] (some rootDir) manifest none]⟩

/-- The number of modules. -/
def size (tree : ModuleTree) : Nat := tree.modules.size

/-- The module with a number. -/
def get (tree : ModuleTree) (id : ModuleId) : Module := tree.modules.getD id default

/-- A module number put in front of the first one with a greater name. -/
def insertByName (tree : ModuleTree) (id : ModuleId) (name : String) : List ModuleId → List ModuleId
  | [] => [id]
  | sibling :: rest =>
    if name < (tree.get sibling).name then id :: sibling :: rest
    else sibling :: tree.insertByName id name rest

/-- Adds a module; its number is the size of the tree before. -/
def addChild (tree : ModuleTree) (parent : ModuleId) (name : String) (dir manifest : Option String) :
    ModuleTree :=
  let above := tree.get parent
  let child := Module.bare name (above.segments ++ [name]) dir manifest (some parent)
  let siblings := tree.insertByName tree.size name above.children
  { tree with
    modules := (tree.modules.modify parent fun m => { m with children := siblings }).push child }

/-- Changes one module. -/
def modify (tree : ModuleTree) (id : ModuleId) (f : Module → Module) : ModuleTree :=
  { tree with modules := tree.modules.modify id f }

/-- The child with a name. -/
def child? (tree : ModuleTree) (parent : ModuleId) (name : String) : Option ModuleId :=
  (tree.get parent).children.find? fun id => (tree.get id).name == name

/-- Whether `ancestor` is met within `steps` steps up from `id`. -/
def isAbove (tree : ModuleTree) (ancestor : ModuleId) : (steps : Nat) → (id : ModuleId) → Bool
  | 0, _ => false
  | steps + 1, id =>
    match (tree.get id).parent with
    | none => false
    | some parent => parent == ancestor || tree.isAbove ancestor steps parent

/-- Whether `ancestor` lies strictly above `id`. -/
def isAncestor (tree : ModuleTree) (ancestor id : ModuleId) : Bool :=
  tree.isAbove ancestor tree.size id

/-- A module after all that lie at most `depth` steps below it. -/
def postOrderFrom (tree : ModuleTree) : (depth : Nat) → (id : ModuleId) → List ModuleId
  | 0, _ => []
  | depth + 1, id => (tree.get id).children.flatMap (tree.postOrderFrom depth) ++ [id]

/-- All modules, children before parents and siblings in the order of their
    names. -/
def postOrder (tree : ModuleTree) : List ModuleId :=
  tree.postOrderFrom tree.size root

/-- The module that segments name below `id`. -/
def descend? (tree : ModuleTree) (id : ModuleId) : List String → Option ModuleId
  | [] => some id
  | segment :: rest => (tree.child? id segment).bind fun child => tree.descend? child rest

/-- The module that a path names after steps up by `super`. -/
def climb? (tree : ModuleTree) (id : ModuleId) : List String → Option ModuleId
  | [] => some id
  | segment :: rest =>
    if segment = "super" then (tree.get id).parent.bind fun parent => tree.climb? parent rest
    else tree.descend? id (segment :: rest)

/-- The module that a path means inside module `id`: `crate` starts at the root,
    `self` at the module, and `super` steps up. -/
def resolvePath (tree : ModuleTree) (id : ModuleId) (path : List String) : Option ModuleId :=
  match path with
  | "crate" :: rest => tree.climb? root rest
  | "self" :: rest => tree.climb? id rest
  | path => tree.climb? id path

end ModuleTree

end Reexport
