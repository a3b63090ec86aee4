import Reexport.ModuleTree
import Reexport.Names
import Reexport.Path
import Reexport.Problem

/-!
# Export sets

A module exports its own declarations and what its directives bring in. Each of
these is a contribution; contributions of one name are settled together:
declarations and listed names take precedence over wildcards, and a name with
two different declarations among those that count is ambiguous.

The settlement of a module is a function of its contributions alone
(`Draft.settle`); how they are found is the resolution's concern.
-/

namespace Reexport

/-- Which declaration a name stands for, as a text. Two contributions with one
    identity are the same thing seen twice. -/
structure Identity where
  text : String
  deriving DecidableEq, Repr, Inhabited

namespace Identity

/-- A declaration of a unit. -/
def declared (origin name : String) : Identity := ⟨origin ++ "#" ++ name⟩

/-- A module of the tree. -/
def module (qualified : String) : Identity := ⟨"mod " ++ qualified⟩

/-- Comes from outside the tree, by the path written there. -/
def external (path : String) : Identity := ⟨"extern " ++ path⟩

end Identity

/-- The identity of a declaration. -/
def Symbol.identity (s : Symbol) : Identity := .declared s.origin s.name

/-- How a name comes into a module. -/
inductive Via where
  | own
  /-- Listed by the directive with this index. -/
  | pinned (index : Nat)
  /-- Through the wildcard with this index. -/
  | wildcard (index : Nat)
  deriving DecidableEq, Repr, Inhabited

/-- Whether a name comes in through no wildcard. -/
def Via.isDirect : Via → Bool
  | .own | .pinned _ => true
  | .wildcard _ => false

/-- What a name refers to. -/
structure Entry where
  symbol : Symbol
  identity : Identity
  /-- Reached from two different declarations, here or further down. -/
  ambiguous : Bool
  deriving DecidableEq, Repr, Inhabited

/-- The same thing under another name. -/
def Entry.renamed (entry : Entry) (name : String) : Entry :=
  { entry with symbol := entry.symbol.renamed name }

/-- One way in which a name comes into a module. -/
structure Contribution where
  entry : Entry
  via : Via
  deriving DecidableEq, Repr, Inhabited

/-- The name that is contributed. -/
def Contribution.name (c : Contribution) : String := c.entry.symbol.name

/-- Why an export set may lack names. -/
inductive Gap where
  | unscanned (unit : String)
  | ambiguous (line : Nat)
  | unresolved (tree : String)
  | cycle (tree : String)
  /-- Taken over from a module that is re-exported. -/
  | inherited (module : String) (gap : Gap)
  deriving DecidableEq, Repr, Inhabited

/-- The reason in words. -/
def Gap.reason : Gap → String
  | .unscanned unit => unit ++ " could not be scanned"
  | .ambiguous line => "ambiguous re-export at line " ++ toString line
  | .unresolved tree => "`" ++ tree ++ "` is not a module of this tree"
  | .cycle tree => "re-export cycle through `" ++ tree ++ "`"
  | .inherited module gap => module ++ ": " ++ gap.reason

/-- Everything that a module exports. -/
structure ExportSet where
  /-- In the order of their names. -/
  entries : List Entry
  gaps : List Gap
  deriving Repr, Inhabited

/-- Whether no name can be missing. -/
def ExportSet.isComplete (set : ExportSet) : Bool := set.gaps.isEmpty

/-- The entry of a name. -/
def ExportSet.find? (set : ExportSet) (name : String) : Option Entry :=
  set.entries.find? fun entry => entry.symbol.name == name

/-- The exported names in order. -/
def ExportSet.names (set : ExportSet) : List String :=
  set.entries.map (·.symbol.name)

/-- Where a competing declaration stands and how it comes in. -/
structure Origin where
  path : String
  line : Nat
  /-- `own`, or the tree of the directive that brings it in. -/
  via : String
  deriving DecidableEq, Repr, Inhabited

/-- A name for which different declarations compete in one module. -/
structure Collision where
  module : String
  name : String
  contributors : List Origin
  deriving DecidableEq, Repr, Inhabited

/-- The colliding name with its module. -/
def Collision.qualifiedName (c : Collision) : String := c.module ++ "::" ++ c.name

/-- A collision as a problem. -/
def Collision.problem (c : Collision) : Problem :=
  .collision c.module c.name (c.contributors.map (·.path))

/-- A name that a wildcard would bring in but for a declaration or listed name in
    front of it. -/
structure Shadowing where
  module : String
  name : String
  kept : Origin
  hidden : List Origin
  deriving DecidableEq, Repr, Inhabited

/-- A shadowing as a problem. -/
def Shadowing.problem (s : Shadowing) : Problem :=
  .shadowed s.module s.name (s.hidden.map (·.path))

/-- What happens to a directive. -/
inductive Status where
  /-- The wildcard is replaced by `names`; `withheld` are names of its target
      that have to be settled by hand first. -/
  | replaced (names withheld : List String)
  | pinned (names : List String)
  | ambiguous (why : Ambiguity)
  | unresolved
  | cycle
  | incomplete (gap : Gap)
  deriving DecidableEq, Repr, Inhabited

/-- Whether a wildcard is replaced. -/
def Status.isReplaced : Status → Bool
  | .replaced .. => true
  | .pinned _ | .ambiguous _ | .unresolved | .cycle | .incomplete _ => false

/-- The finding that a status stands for, if it is not a clean outcome. -/
def Status.problem? (status : Status) (d : Directive) : Option Problem :=
  match status with
  | .replaced .. | .pinned _ => none
  | .ambiguous why => some (.ambiguous d.unit d.line d.tree why.reason)
  | .unresolved => some (.unresolved d.unit d.line d.tree)
  | .cycle => some (.cycle d.unit d.line d.tree)
  | .incomplete gap => some (.incomplete d.unit d.line d.tree gap.reason)

/-- What is found out about a module. -/
structure Resolved where
  exports : ExportSet
  /-- One for each directive, in source order. -/
  plans : List Status
  collisions : List Collision
  shadowed : List Shadowing
  deriving Repr, Inhabited

/-! ## Settling names -/

/-- The first contribution of each identity. -/
def firstOfEach : List Contribution → List Contribution
  | [] => []
  | c :: rest => c :: (firstOfEach rest).filter fun d => d.entry.identity != c.entry.identity

/-- What is known about a module before its names are settled. -/
structure Draft where
  /-- In the order in which they come in. -/
  contributions : List Contribution
  gaps : List Gap
  /-- One for each directive; lists of replaced names are still empty. -/
  plans : List Status
  deriving Repr, Inhabited

namespace Draft

/-- The contributions of a name. -/
def routes (draft : Draft) (name : String) : List Contribution :=
  draft.contributions.filter fun c => c.name == name

/-- The contributed names in order. -/
def names (draft : Draft) : List String :=
  sortedNames (draft.contributions.map (·.name))

end Draft

/-- The contributions that count: the direct ones, or all if there are none. -/
def winners (routes : List Contribution) : List Contribution :=
  let direct := routes.filter (·.via.isDirect)
  if direct.isEmpty then routes else direct

/-- Whether contributions have different identities. -/
def differ (routes : List Contribution) : Bool :=
  match routes with
  | [] => false
  | c :: rest => rest.any fun d => d.entry.identity != c.entry.identity

/-- The entry that contributions of one name make. -/
def entryOf? (routes : List Contribution) : Option Entry :=
  (winners routes).head?.map fun c =>
    { c.entry with ambiguous := differ (winners routes) || (winners routes).any (·.entry.ambiguous) }

/-- Where a contribution comes from. -/
def Contribution.origin (c : Contribution) (directives : List Directive) : Origin :=
  ⟨c.entry.symbol.origin, c.entry.symbol.line,
    match c.via with
    | .own => "own"
    | .pinned index | .wildcard index => (directives[index]?.map (·.tree)).getD ""⟩

/-- The order of origins: by path, then by line. -/
def Origin.le (a b : Origin) : Bool :=
  match Path.compare a.path b.path with
  | .lt => true
  | .eq => a.line ≤ b.line
  | .gt => false

/-- Where contributions come from, one for each identity, in order. -/
def origins (routes : List Contribution) (directives : List Directive) : List Origin :=
  ((firstOfEach routes).map (·.origin directives)).mergeSort Origin.le

/-- The collision of contributions of one name, if they collide. -/
def collision? (m : Module) (name : String) (routes : List Contribution) : Option Collision :=
  if differ (winners routes) then some ⟨m.qualifiedName, name, origins routes m.directives⟩ else none

/-- What contributions of one name hide, if the direct ones agree and others
    differ from them. -/
def shadowing? (m : Module) (name : String) (routes : List Contribution) : Option Shadowing :=
  match (routes.filter (·.via.isDirect)) with
  | [] => none
  | kept :: others =>
    if differ (kept :: others) then none
    else
      let hidden := routes.filter fun c => c.entry.identity != kept.entry.identity
      if hidden.isEmpty then none
      else some ⟨m.qualifiedName, name, kept.origin m.directives, origins hidden m.directives⟩

/-- Whether the wildcard with an index brings in a name. -/
def brings (index : Nat) (routes : List Contribution) : Bool :=
  routes.any fun c => c.via == .wildcard index

/-- The index of the first wildcard that brings in a name. -/
def firstWildcard? (routes : List Contribution) : Option Nat :=
  routes.findSome? fun c =>
    match c.via with
    | .wildcard index => some index
    | .own | .pinned _ => none

/-- Whether a name is ambiguous. -/
def isAmbiguous (routes : List Contribution) : Bool :=
  (entryOf? routes).any (·.ambiguous)

namespace Draft

/-- The names that the wildcard with an index is replaced by: those that it is
    the first to bring in, that are not ambiguous and that come in no other
    way. -/
def listed (draft : Draft) (index : Nat) : List String :=
  draft.names.filter fun name =>
    let routes := draft.routes name
    firstWildcard? routes == some index && !isAmbiguous routes && routes.all (!·.via.isDirect)

/-- The ambiguous names that the wildcard with an index brings in. -/
def withheld (draft : Draft) (index : Nat) : List String :=
  draft.names.filter fun name =>
    let routes := draft.routes name
    brings index routes && isAmbiguous routes

/-- The plan of the directive with an index, its lists filled in. -/
def plan (draft : Draft) (index : Nat) : Status → Status
  | .replaced .. => .replaced (draft.listed index) (draft.withheld index)
  | status => status

/-- Settles all names of a module. -/
def settle (draft : Draft) (m : Module) : Resolved where
  exports := ⟨draft.names.filterMap fun name => entryOf? (draft.routes name), draft.gaps⟩
  plans := draft.plans.mapIdx draft.plan
  collisions := draft.names.filterMap fun name => collision? m name (draft.routes name)
  shadowed := draft.names.filterMap fun name => shadowing? m name (draft.routes name)

end Draft

end Reexport
