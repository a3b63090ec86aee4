import Reexport.Symbol
import Reexport.Text.Location
import Reexport.UseTree

/-!
# Re-export directives

A directive is a `use` item that others can see. It makes the names of its tree
visible as names of the module that it stands in.
-/

namespace Reexport

/-- A visible `use` item of a unit. -/
structure Directive where
  /-- The path of the unit. -/
  unit : String
  /-- The use tree as it is written. -/
  tree : String
  /-- The whole item, from `pub` to its semicolon. -/
  span : Text.Span
  line : Nat
  /-- The tree starts with `::`. -/
  absolute : Bool
  form : Form Text.Span
  deriving DecidableEq, Repr, Inhabited

/-- Whether the directive is a wildcard. -/
def Directive.isWildcard (d : Directive) : Bool :=
  match d.form with
  | .wildcard .. => true
  | .explicit _ | .ambiguous _ => false

end Reexport
