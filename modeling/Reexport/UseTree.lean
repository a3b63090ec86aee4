/-!
# Use trees

What follows the word `use`: a path that ends in a name, a renamed name, a star,
or a group of further trees. Names are stored without raw mark.

A tree is flattened into its leaves, in source order, each with the segments that
lead to it.
-/

namespace Reexport

/-- A use tree; `ι` is what is known about where a star stands. -/
inductive UseTree (ι : Type) where
  | path (segment : String) (rest : UseTree ι)
  | name (name : String)
  | rename (name newName : String)
  | glob (star : ι)
  | group (items : List (UseTree ι))
  deriving Repr, Inhabited

/-- A name that a directive lists, with the path that leads to it. -/
structure Pin where
  path : List String
  name : String
  /-- The new name, if it is renamed. -/
  rename : Option String
  deriving DecidableEq, Repr, Inhabited

/-- The name that a pin makes visible. One renamed to `_` makes none; `self`
    stands for the module that the path names. -/
def Pin.exportedName (pin : Pin) : Option String :=
  match pin.rename with
  | some "_" => none
  | some name => some name
  | none => if pin.name = "self" then pin.path.getLast? else some pin.name

/-- The path of the item itself. -/
def Pin.itemPath (pin : Pin) : List String :=
  if pin.name = "self" then pin.path else pin.path ++ [pin.name]

/-- A star among the leaves of a tree. -/
structure Star (ι : Type) where
  path : List String
  place : ι
  /-- Whether it stands inside a group. -/
  grouped : Bool
  deriving Repr

/-- The leaves of a use tree. -/
structure Leaves (ι : Type) where
  pins : List Pin
  stars : List (Star ι)

/-- The leaves of two trees, one after the other. -/
def Leaves.append {ι : Type} (a b : Leaves ι) : Leaves ι :=
  ⟨a.pins ++ b.pins, a.stars ++ b.stars⟩

mutual
/-- The leaves of a tree that stands after the segments `lead`. -/
def UseTree.leaves {ι : Type} (lead : List String) (grouped : Bool) : UseTree ι → Leaves ι
  | .path segment rest => rest.leaves (lead ++ [segment]) grouped
  | .name name => ⟨[⟨lead, name, none⟩], []⟩
  | .rename name newName => ⟨[⟨lead, name, some newName⟩], []⟩
  | .glob star => ⟨[], [⟨lead, star, grouped⟩]⟩
  | .group items => leavesAll lead items
/-- The leaves of the members of a group. -/
def leavesAll {ι : Type} (lead : List String) : List (UseTree ι) → Leaves ι
  | [] => ⟨[], []⟩
  | tree :: rest => (tree.leaves lead true).append (leavesAll lead rest)
end

/-- Why a directive is neither a wildcard nor a plain list. -/
inductive Ambiguity where
  | mixed
  | grouped
  /-- Reason given from outside. -/
  | other (reason : String)
  deriving DecidableEq, Repr, Inhabited

/-- The reason in words. -/
def Ambiguity.reason : Ambiguity → String
  | .mixed => "glob mixed with explicit names"
  | .grouped => "glob inside a use group"
  | .other reason => reason

/-- What a directive does. -/
inductive Form (ι : Type) where
  /-- `path::*`. -/
  | wildcard (path : List String) (star : ι)
  /-- No star anywhere. -/
  | explicit (pins : List Pin)
  | ambiguous (why : Ambiguity)
  deriving DecidableEq, Repr, Inhabited

/-- The form of a use tree: a single star outside all groups is a wildcard. -/
def UseTree.form {ι : Type} (tree : UseTree ι) : Form ι :=
  let leaves := tree.leaves [] false
  match leaves.stars, leaves.pins with
  | [], pins => .explicit pins
  | [⟨lead, star, false⟩], [] => .wildcard lead star
  | _, [] => .ambiguous .grouped
  | _, _ :: _ => .ambiguous .mixed

/-- The same form with other knowledge of where the star stands. -/
def Form.map {ι κ : Type} (f : ι → κ) : Form ι → Form κ
  | .wildcard path star => .wildcard path (f star)
  | .explicit pins => .explicit pins
  | .ambiguous why => .ambiguous why

end Reexport
