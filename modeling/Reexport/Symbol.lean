/-!
# Declarations

What a unit declares for others to see: a name, what kind of thing it names, the
unit that declares it and the line.
-/

namespace Reexport

/-- What a visible declaration is. -/
inductive SymbolKind where
  | function
  /-- `struct` and `union`. -/
  | compositeType
  | trait
  /-- `enum`. -/
  | enumeratedType
  /-- `type`. -/
  | typeAlias
  /-- `const` and `static`. -/
  | constant
  /-- `mod`, exported as a reference to the module. -/
  | submodule
  /-- Comes from outside the tree, so its kind is not known. -/
  | external
  deriving DecidableEq, Repr, Inhabited

/-- The word that stands for a kind in answers. -/
def SymbolKind.label : SymbolKind → String
  | .function => "function"
  | .compositeType => "composite-type"
  | .trait => "trait"
  | .enumeratedType => "enumerated-type"
  | .typeAlias => "alias"
  | .constant => "constant"
  | .submodule => "submodule"
  | .external => "opaque"

/-- A named declaration that others can see. -/
structure Symbol where
  name : String
  kind : SymbolKind
  /-- The path of the unit that declares it. -/
  origin : String
  line : Nat
  deriving DecidableEq, Repr, Inhabited

/-- The same declaration under another name. -/
def Symbol.renamed (s : Symbol) (name : String) : Symbol :=
  { s with name := name }

/-- Whether the symbol refers to a module. -/
def Symbol.isModule (s : Symbol) : Bool :=
  s.kind = .submodule

end Reexport
