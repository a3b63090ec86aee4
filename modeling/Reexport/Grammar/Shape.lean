import Reexport.Symbol
import Reexport.UseTree

/-!
# What the grammar keeps

The grammar decides whether a unit is well formed and keeps only what a later
decision needs: of a path how it ends, of an expression whether a semicolon may
be missing after it, of an item what it declares.
-/

namespace Reexport.Grammar

/-- A place in the lexeme sequence: the number of lexemes from there to its end. -/
abbrev Place := Nat

/-- The arguments of a path segment. -/
inductive Arguments where
  | absent
  /-- `<>`. -/
  | emptyAngle
  | angle
  | paren
  deriving DecidableEq, Repr, Inhabited

/-- Whether parenthesised arguments may still follow. -/
def Arguments.isEmpty : Arguments → Bool
  | .absent | .emptyAngle => true
  | .angle | .paren => false

/-- A path. -/
structure PathShape where
  /-- It starts with `<T as Trait>`. -/
  qualified : Bool
  /-- It starts with `::`. -/
  leading : Bool
  segments : Nat
  /-- No segment has arguments. -/
  plain : Bool
  /-- The arguments of the last segment. -/
  last : Arguments
  deriving DecidableEq, Repr, Inhabited

/-- The path with a further segment. -/
def PathShape.extend (shape : PathShape) (arguments : Arguments) : PathShape :=
  { shape with
    segments := shape.segments + 1
    plain := shape.plain && arguments == .absent
    last := arguments }

/-- A type. -/
inductive TypeShape where
  /-- A path of one segment, which may name an associated item. -/
  | segment
  /-- Any other path that is not qualified. -/
  | path
  /-- An object type of one bound, without `dyn`. -/
  | oneBound
  | paren
  | other
  deriving DecidableEq, Repr, Inhabited

/-- What a bound asks for. -/
inductive BoundShape where
  | trait
  | lifetime
  | capture
  deriving DecidableEq, Repr, Inhabited

/-- A pattern. -/
inductive PatternShape where
  /-- `..`. -/
  | rest
  /-- A range without one of its ends; its dots stand at `dots`. -/
  | openRange (dots : Place)
  | other
  deriving DecidableEq, Repr, Inhabited

/-- An expression. -/
inductive ExprShape where
  | range
  /-- A comparison outside parentheses. -/
  | comparison
  /-- Ends in a block and stands alone as a statement. -/
  | block
  /-- A call of a token-rewriting item with braces. -/
  | bracedCall
  | other
  deriving DecidableEq, Repr, Inhabited

/-- A statement, as far as a semicolon may be missing after it. -/
inductive StatementShape where
  | complete
  | needsSemicolon
  deriving DecidableEq, Repr, Inhabited

/-- Who can see an item. -/
inductive Visibility where
  | inherited
  /-- `pub(…)`. -/
  | restricted
  /-- `pub`, which stands at `place`. -/
  | visible (place : Place)
  deriving DecidableEq, Repr, Inhabited

/-- A function parameter. -/
inductive Parameter where
  /-- `self`, which stands at `place`. -/
  | receiver (place : Place)
  | typed
  | variadic
  deriving DecidableEq, Repr, Inhabited

/-- A `use` item from its visibility to its semicolon. -/
structure UseItem where
  visibility : Visibility
  /-- The place of the word `use`. -/
  word : Place
  /-- The tree starts with `::`. -/
  absolute : Bool
  tree : UseTree Place
  semicolon : Place
  deriving Repr, Inhabited

/-- An item. -/
inductive Item where
  | declaration (visibility : Visibility) (kind : SymbolKind) (name : String) (place : Place)
  | imports (item : UseItem)
  /-- Any item that declares nothing to other units. -/
  | other
  deriving Repr, Inhabited

end Reexport.Grammar
