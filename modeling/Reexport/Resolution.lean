import Reexport.Export

/-!
# Resolution

What every module of a tree exports. Modules are resolved when they are first
needed and at most once. A module that is still being resolved when a wildcard
reaches it makes a cycle; a listed name that leads back to itself is taken to
come from outside.

The two operations that call each other, resolving a module and looking up a
name, are given by `Calls`. `calls` ties the knot with a bound on their nesting:
every nested resolution opens a new module and every nested look-up follows
another listed name, so the bound of `resolve` is never reached.
-/

namespace Reexport

/-- How far the resolution of a module has come. -/
inductive Progress where
  | unvisited
  | open
  | done (resolved : Resolved)
  deriving Repr, Inhabited

/-- What has been found out so far. -/
structure Memo where
  progress : Array Progress
  /-- The names that are being looked up. -/
  pending : List (ModuleId × String)
  deriving Repr, Inhabited

namespace Memo

/-- Nothing known about `size` modules. -/
def start (size : Nat) : Memo := ⟨Array.replicate size .unvisited, []⟩

/-- How far a module has come. -/
def get (memo : Memo) (id : ModuleId) : Progress := memo.progress.getD id .unvisited

/-- Sets how far a module has come. -/
def set (memo : Memo) (id : ModuleId) (p : Progress) : Memo :=
  { memo with progress := memo.progress.setIfInBounds id p }

/-- The result for a module, if it is finished. -/
def done? (memo : Memo) (id : ModuleId) : Option Resolved :=
  match memo.get id with
  | .done resolved => some resolved
  | .unvisited | .open => none

/-- Whether a module is being resolved. -/
def isOpen (memo : Memo) (id : ModuleId) : Bool :=
  match memo.get id with
  | .open => true
  | .unvisited | .done _ => false

/-- Whether a module has not been visited. -/
def isUnvisited (memo : Memo) (id : ModuleId) : Bool :=
  match memo.get id with
  | .unvisited => true
  | .open | .done _ => false

/-- The exported entry of a name in a finished module. -/
def exported? (memo : Memo) (id : ModuleId) (name : String) : Option Entry :=
  (memo.done? id).bind fun resolved => resolved.exports.find? name

end Memo

/-- The operations that call each other. -/
structure Calls where
  /-- Resolves a module unless that is done or under way. -/
  resolve : ModuleId → Memo → Memo
  /-- What a name refers to in module `parent`, looked up on behalf of `user`. -/
  lookup : (user parent : ModuleId) → (name : String) → Memo → Option Entry × Memo

namespace Resolution

/-- A name from outside the tree. -/
def external (d : Directive) (name : String) (path : List String) : Entry :=
  ⟨⟨name, .external, d.unit, d.line⟩, .external ("::".intercalate path), false⟩

/-- A reference to a module. -/
def reference (m : Module) (name : String) : Entry :=
  ⟨⟨name, .submodule, (m.manifest.or m.dir).getD "", 1⟩, .module m.qualifiedName, false⟩

/-- What a listed name refers to, exported as `name` by a directive of module
    `id`: an export of the module that its path leads to, or that module itself,
    or something outside the tree. -/
def pinAs (tree : ModuleTree) (calls : Calls) (id : ModuleId) (d : Directive) (pin : Pin)
    (name : String) (memo : Memo) : Entry × Memo :=
  let path := pin.itemPath
  let outside := external d name path
  if d.absolute then (outside, memo)
  else match path.getLast? with
    | none => (outside, memo)
    | some last =>
      let (found, memo) := match tree.resolvePath id path.dropLast with
        | some parent => calls.lookup id parent last memo
        | none => (none, memo)
      match found with
      | some entry => (entry.renamed name, memo)
      | none =>
        match tree.resolvePath id path with
        | some target => (reference (tree.get target) name, memo)
        | none => (outside, memo)

/-- What a listed name refers to, if it makes a name visible. -/
def pin? (tree : ModuleTree) (calls : Calls) (id : ModuleId) (d : Directive) (pin : Pin)
    (memo : Memo) : Option Entry × Memo :=
  match pin.exportedName with
  | none => (none, memo)
  | some name =>
    let (entry, memo) := pinAs tree calls id d pin name memo
    (some entry, memo)

/-! ## Looking up a name -/

/-- Whether resolving `target` in full could come back to `user` while that is
    open. -/
def reenters (tree : ModuleTree) (memo : Memo) (user target : ModuleId) : Bool :=
  target == user || tree.isAncestor target user || memo.isOpen target

/-- The first listed name of a directive that is exported as `name`. -/
def findPinned (tree : ModuleTree) (calls : Calls) (parent : ModuleId) (name : String) :
    List (Directive × Pin) → Memo → Option Entry × Memo
  | [], memo => (none, memo)
  | (d, pin) :: rest, memo =>
    if pin.exportedName == some name then
      match pin? tree calls parent d pin memo with
      | (some entry, memo) => (some entry, memo)
      | (none, memo) => findPinned tree calls parent name rest memo
    else findPinned tree calls parent name rest memo

/-- The first wildcard target of module `parent` that exports `name`, of those
    that can be resolved without coming back to `user`. -/
def findWildcard (tree : ModuleTree) (calls : Calls) (user parent : ModuleId) (name : String) :
    List ModuleId → Memo → Option Entry × Memo
  | [], memo => (none, memo)
  | target :: rest, memo =>
    if target == parent || reenters tree memo user target then
      findWildcard tree calls user parent name rest memo
    else
      let memo := calls.resolve target memo
      match memo.exported? target name with
      | some entry => (some entry, memo)
      | none => findWildcard tree calls user parent name rest memo

/-- The listed names of a module with their directives, in source order. -/
def listedPins (m : Module) : List (Directive × Pin) :=
  m.directives.flatMap fun d =>
    match d.form with
    | .explicit pins => pins.map (d, ·)
    | .wildcard .. | .ambiguous _ => []

/-- The module that a wildcard of module `id` reaches. -/
def target? (tree : ModuleTree) (id : ModuleId) (d : Directive) : Option ModuleId :=
  match d.form with
  | .wildcard path _ => if d.absolute then none else tree.resolvePath id path
  | .explicit _ | .ambiguous _ => none

/-- What a name refers to in module `parent`. A finished module answers from its
    export set. Otherwise its own declarations come first, then its listed names,
    then the wildcards that can be followed; last, the module is resolved in full
    if that cannot come back to `user`. -/
def find (tree : ModuleTree) (calls : Calls) (user parent : ModuleId) (name : String) (memo : Memo) :
    Option Entry × Memo :=
  match memo.done? parent with
  | some resolved => (resolved.exports.find? name, memo)
  | none =>
    let m := tree.get parent
    match m.symbols.find? fun s => s.name == name with
    | some s => (some ⟨s, s.identity, false⟩, memo)
    | none =>
      match findPinned tree calls parent name (listedPins m) memo with
      | (some entry, memo) => (some entry, memo)
      | (none, memo) =>
        let targets := m.directives.filterMap (target? tree parent)
        match findWildcard tree calls user parent name targets memo with
        | (some entry, memo) => (some entry, memo)
        | (none, memo) =>
          if reenters tree memo user parent then (none, memo)
          else
            let memo := calls.resolve parent memo
            (memo.exported? parent name, memo)

/-- Looks up a name unless that is under way already. -/
def lookup (tree : ModuleTree) (calls : Calls) (user parent : ModuleId) (name : String)
    (memo : Memo) : Option Entry × Memo :=
  if memo.pending.contains (parent, name) then (none, memo)
  else
    let (found, after) := find tree calls user parent name
      { memo with pending := (parent, name) :: memo.pending }
    (found, { after with pending := after.pending.tail })

/-! ## Resolving a module -/

/-- The contributions of a directive's listed names. -/
def expandPins (tree : ModuleTree) (calls : Calls) (id : ModuleId) (index : Nat) (d : Directive) :
    List Pin → Memo → List Contribution × Memo
  | [], memo => ([], memo)
  | pin :: rest, memo =>
    let (found, memo) := pin? tree calls id d pin memo
    let (others, memo) := expandPins tree calls id index d rest memo
    (found.toList.map (⟨·, .pinned index⟩) ++ others, memo)

/-- What a directive adds to a draft: its contributions, a gap if it leaves one,
    and its plan. -/
structure Effect where
  contributions : List Contribution
  gap : Option Gap
  plan : Status

/-- The effect of a wildcard whose target is resolved. -/
def takeAll (tree : ModuleTree) (index : Nat) (target : ModuleId) (exports : ExportSet) : Effect :=
  let contributions := exports.entries.map (⟨·, .wildcard index⟩)
  match exports.gaps with
  | [] => ⟨contributions, none, .replaced [] []⟩
  | gap :: _ =>
    let here := Gap.inherited (tree.get target).qualifiedName gap
    ⟨contributions, some here, .incomplete here⟩

/-- The effect of a wildcard. -/
def expandWildcard (tree : ModuleTree) (calls : Calls) (id : ModuleId) (index : Nat) (d : Directive)
    (memo : Memo) : Effect × Memo :=
  let cyclic : Effect := ⟨[], some (.cycle d.tree), .cycle⟩
  match target? tree id d with
  | none => (⟨[], some (.unresolved d.tree), .unresolved⟩, memo)
  | some target =>
    if target == id || memo.isOpen target then (cyclic, memo)
    else
      let memo := calls.resolve target memo
      match memo.done? target with
      | some resolved => (takeAll tree index target resolved.exports, memo)
      | none => (cyclic, memo)

/-- The effect of a directive. -/
def expand (tree : ModuleTree) (calls : Calls) (id : ModuleId) (index : Nat) (d : Directive)
    (memo : Memo) : Effect × Memo :=
  match d.form with
  | .ambiguous why => (⟨[], some (.ambiguous d.line), .ambiguous why⟩, memo)
  | .explicit pins =>
    let (contributions, memo) := expandPins tree calls id index d pins memo
    (⟨contributions, none, .pinned (contributions.map (·.name))⟩, memo)
  | .wildcard .. => expandWildcard tree calls id index d memo

/-- The draft of a module: first what it declares, then the effects of its
    directives in source order. -/
def draftFrom (tree : ModuleTree) (calls : Calls) (id : ModuleId) :
    (index : Nat) → List Directive → Draft → Memo → Draft × Memo
  | _, [], draft, memo => (draft, memo)
  | index, d :: rest, draft, memo =>
    let (effect, memo) := expand tree calls id index d memo
    draftFrom tree calls id (index + 1) rest
      ⟨draft.contributions ++ effect.contributions, draft.gaps ++ effect.gap.toList,
        draft.plans ++ [effect.plan]⟩ memo

/-- A module's draft before its directives are looked at. -/
def ownDraft (m : Module) : Draft where
  contributions := m.symbols.map fun s => ⟨⟨s, s.identity, false⟩, .own⟩
  gaps := if m.scanFailed then [.unscanned (m.manifest.getD "")] else []
  plans := []

/-- Resolves a module unless that is done or under way. -/
def resolveModule (tree : ModuleTree) (calls : Calls) (id : ModuleId) (memo : Memo) : Memo :=
  if memo.isUnvisited id then
    let m := tree.get id
    let (draft, memo) := draftFrom tree calls id 0 m.directives (ownDraft m) (memo.set id .open)
    memo.set id (.done (draft.settle m))
  else memo

/-! ## The whole tree -/

/-- The operations with at most `depth` nested calls. -/
def calls (tree : ModuleTree) : (depth : Nat) → Calls
  | 0 => ⟨fun _ memo => memo, fun _ _ _ memo => (none, memo)⟩
  | depth + 1 =>
    let inner := calls tree depth
    ⟨resolveModule tree inner, lookup tree inner⟩

/-- How deep calls can nest: one for each module and one for each listed name. -/
def depthBound (tree : ModuleTree) : Nat :=
  tree.size + (tree.modules.toList.flatMap listedPins).length + 2

/-- Resolves every module, children before parents. -/
def resolveAll (tree : ModuleTree) : Memo :=
  tree.postOrder.foldl (fun memo id => (calls tree (depthBound tree)).resolve id memo)
    (.start tree.size)

end Resolution

/-- What every module of a tree exports, in the order of their numbers. -/
def resolve (tree : ModuleTree) : List Resolved :=
  (Resolution.resolveAll tree).progress.toList.map fun p =>
    match p with
    | .done resolved => resolved
    | .unvisited | .open => default

end Reexport
