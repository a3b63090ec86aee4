import Reexport.Grammar.Shape

/-!
# Nonterminals

The names of the grammar's rules and what each rule results in. A rule that only
checks has the result `Unit`.

A loop is a rule that calls itself, so that every rule is a finite program.
-/

namespace Reexport.Grammar

/-- How tightly a binary operator binds, loosest first. -/
inductive Precedence where
  | least
  | assign
  | range
  | or
  | and
  | compare
  | bitOr
  | bitXor
  | bitAnd
  | shift
  | sum
  | product
  | cast
  deriving DecidableEq, Repr, Inhabited

/-- The rank of a precedence. -/
def Precedence.rank : Precedence → Nat
  | .least => 0
  | .assign => 1
  | .range => 2
  | .or => 3
  | .and => 4
  | .compare => 5
  | .bitOr => 6
  | .bitXor => 7
  | .bitAnd => 8
  | .shift => 9
  | .sum => 10
  | .product => 11
  | .cast => 12

/-- Where a list of bounds ends. -/
inductive BoundsEnd where
  /-- In generic arguments. -/
  | argument
  /-- In generic parameters. -/
  | parameter
  /-- In a where clause. -/
  | clause
  /-- After the name of a trait. -/
  | supertraits
  /-- In the definition of a trait by others. -/
  | traitAlias
  /-- After the name of an associated type. -/
  | associated
  deriving DecidableEq, Repr, Inhabited

/-- Where the where clause of a type definition may stand. -/
inductive ClausePosition where
  | beforeDefinition
  | afterDefinition
  | either
  deriving DecidableEq, Repr, Inhabited

/-- Where an item other than a unit's own stands. -/
inductive Container where
  | traitBody
  | implBody
  | foreignBody
  deriving DecidableEq, Repr, Inhabited

/-- The rules. `structs` says whether a brace after a path starts a struct
    literal; `valued` whether a path is read as in an expression; `plus` whether
    a type may go on with `+`. -/
inductive Nonterminal where
  /-- Elements separated by commas up to the end of the group. -/
  | commas (element : Nonterminal)
  /-- Elements one after the other up to the end of the group. -/
  | repeated (element : Nonterminal)
  -- attributes
  | outerAttributes
  | innerAttributes
  | attributeContent
  -- paths
  | path (valued : Bool)
  | pathRest (valued : Bool) (shape : PathShape)
  | segment (valued : Bool)
  | angleArguments
  | angleRest (arguments : Arguments)
  | genericArgument
  | qualifiedPath (valued : Bool)
  | qualifiedRest (valued : Bool) (shape : PathShape)
  | modulePath
  | modulePathRest
  | parenArguments
  | typePath
  | typePathRest (shape : PathShape)
  -- types
  | type (plus : Bool)
  | parenType
  | sliceType
  | moreBounds
  | openBounds
  | returnType (plus : Bool)
  | functionType
  | functionTypeParameters (isFirst : Bool)
  -- bounds and generics
  | bound (capture constant : Bool)
  | traitBound (constant : Bool)
  | constMark
  | boundSum (plus capture constant : Bool)
  | bounds (stop : BoundsEnd)
  | lifetimeBounds (stop : BoundsEnd)
  | capturedNames
  | binder
  | binderRest
  | genericParameter
  | generics
  | genericsRest
  | whereClause
  | predicates
  -- patterns
  | pattern
  | patterns
  | alternatives
  | sliceElement
  | structPattern
  | rangeBound
  -- expressions
  | expr (structs : Bool)
  | unary (structs : Bool)
  | atom (structs : Bool)
  | trailers (e : ExprShape)
  | binary (lhs : ExprShape) (structs : Bool) (base : Precedence)
  | operand (structs : Bool) (precedence : Precedence)
  | operandRest (rhs : ExprShape) (structs : Bool) (precedence : Precedence)
  | standingExpr
  | parenExpr
  | parenExprRest
  | arrayExpr
  | structFields
  | fieldValue
  | closureParameters
  | ifExpr
  | arm
  | matchBody
  -- statements
  | blockBody (attributes : Bool)
  | statements
  -- items
  | visibility
  | restriction
  | signatureAhead (safe : Bool)
  | callAhead
  | signature (safe : Bool)
  | parameters (count : Nat) (received : Bool)
  | receiver
  | item
  | itemAfterAttributes
  | items
  | useTree (rooted : Bool)
  | useGroup (rooted : Bool)
  | namedField
  | unnamedField
  | variant
  | body (container : Container)
  | moduleBody
  | associatedItem (container : Container)
  | unit
  deriving Repr, Inhabited

/-- What a parenthesised type starts with. -/
inductive ParenContent where
  | nothing
  | lifetime
  | relaxed
  | tuple
  | single (shape : TypeShape)
  deriving DecidableEq, Repr, Inhabited

/-- What a rule results in. -/
@[reducible] def Nonterminal.Result : Nonterminal → Type
  | .outerAttributes => Bool
  | .path _ | .pathRest .. | .qualifiedPath _ | .qualifiedRest .. | .typePath | .typePathRest _ =>
    PathShape
  | .segment _ | .angleArguments | .angleRest _ => Arguments
  | .parenArguments => Bool
  | .type _ => TypeShape
  | .parenType => ParenContent
  | .returnType _ => Option TypeShape
  | .bound .. => BoundShape
  | .boundSum .. => Bool
  | .generics | .whereClause => Bool
  | .pattern | .patterns => PatternShape
  | .rangeBound => Bool
  | .expr _ | .unary _ | .atom _ | .trailers _ | .binary .. | .operand .. | .operandRest ..
  | .standingExpr => ExprShape
  | .visibility => Visibility
  | .callAhead => Bool
  | .signature _ => String × Place
  | .receiver => Place
  | .item | .itemAfterAttributes => Item
  | .items | .unit => List Item
  | .useTree _ => Option (UseTree Place)
  | .useGroup _ => Option (List (UseTree Place))
  | _ => Unit

end Reexport.Grammar
