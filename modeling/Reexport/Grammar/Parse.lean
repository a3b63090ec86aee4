import Reexport.Grammar.Item

/-!
# Running the grammar

`Nonterminal.rule` gives every nonterminal its program, `Prog.exec` runs a
program when the results of calls are known, and `parse` ties the knot: its fuel
bounds how deep calls may nest.

A run ends in one of three ways: with a result, refused at a place, or out of
fuel. `parseUnit` gives more fuel than any unit of its length can use.
-/

namespace Reexport.Grammar

open Source

/-! ## The rules -/

/-- The program of a nonterminal. -/
def Nonterminal.rule : (nt : Nonterminal) → Prog nt.Result
  | .commas element => Rule.commas element
  | .repeated element => Rule.repeated element
  | .outerAttributes => Rule.outerAttributes
  | .innerAttributes => Rule.innerAttributes
  | .attributeContent => Rule.attributeContent
  | .path valued => Rule.path valued
  | .pathRest valued shape => Rule.pathRest valued shape
  | .segment valued => Rule.segment valued
  | .angleArguments => Rule.angleArguments
  | .angleRest arguments => Rule.angleRest arguments
  | .genericArgument => Rule.genericArgument
  | .qualifiedPath valued => Rule.qualifiedPath valued
  | .qualifiedRest valued shape => Rule.qualifiedRest valued shape
  | .modulePath => Rule.modulePath
  | .modulePathRest => Rule.modulePathRest
  | .parenArguments => Rule.parenArguments
  | .typePath => Rule.typePath
  | .typePathRest shape => Rule.typePathRest shape
  | .type plus => Rule.type plus
  | .parenType => Rule.parenType
  | .sliceType => Rule.sliceType
  | .moreBounds => Rule.moreBounds
  | .openBounds => Rule.openBounds
  | .returnType plus => Rule.returnType plus
  | .functionType => Rule.functionType
  | .functionTypeParameters isFirst => Rule.functionTypeParameters isFirst
  | .bound capture constant => Rule.bound capture constant
  | .traitBound constant => Rule.traitBound constant
  | .constMark => Rule.constMark
  | .boundSum plus capture constant => Rule.boundSum plus capture constant
  | .bounds stop => Rule.bounds stop
  | .lifetimeBounds stop => Rule.lifetimeBounds stop
  | .capturedNames => Rule.capturedNames
  | .binder => Rule.binder
  | .binderRest => Rule.binderRest
  | .genericParameter => Rule.genericParameter
  | .generics => Rule.generics
  | .genericsRest => Rule.genericsRest
  | .whereClause => Rule.whereClause
  | .predicates => Rule.predicates
  | .pattern => Rule.pattern
  | .patterns => Rule.patterns
  | .alternatives => Rule.alternatives
  | .sliceElement => Rule.sliceElement
  | .structPattern => Rule.structPattern
  | .rangeBound => Rule.rangeBound
  | .expr structs => Rule.expr structs
  | .unary structs => Rule.unary structs
  | .atom structs => Rule.atom structs
  | .trailers e => Rule.trailers e
  | .binary lhs structs base => Rule.binary lhs structs base
  | .operand structs precedence => Rule.operand structs precedence
  | .operandRest rhs structs precedence => Rule.operandRest rhs structs precedence
  | .standingExpr => Rule.standingExpr
  | .parenExpr => Rule.parenExpr
  | .parenExprRest => Rule.parenExprRest
  | .arrayExpr => Rule.arrayExpr
  | .structFields => Rule.structFields
  | .fieldValue => Rule.fieldValue
  | .closureParameters => Rule.closureParameters
  | .ifExpr => Rule.ifExpr
  | .arm => Rule.arm
  | .matchBody => Rule.matchBody
  | .blockBody attributes => Rule.blockBody attributes
  | .statements => Rule.statements
  | .visibility => Rule.visibility
  | .restriction => Rule.restriction
  | .signatureAhead safe => Rule.signatureAhead safe
  | .callAhead => Rule.callAhead
  | .signature safe => Rule.signature safe
  | .parameters count received => Rule.parameters count received
  | .receiver => Rule.receiver
  | .item => Rule.item
  | .itemAfterAttributes => Rule.itemAfterAttributes
  | .items => Rule.items
  | .useTree rooted => Rule.useTree rooted
  | .useGroup rooted => Rule.useGroup rooted
  | .namedField => Rule.namedField
  | .unnamedField => Rule.unnamedField
  | .variant => Rule.variant
  | .body container => Rule.body container
  | .moduleBody => Rule.moduleBody
  | .associatedItem container => Rule.associatedItem container
  | .unit => Rule.unit

/-! ## Running programs -/

/-- Where a run stands. -/
structure State where
  /-- What is left of the current group. -/
  rest : List Tree
  /-- The number of lexemes after the current group's content. -/
  after : Nat
  /-- Where the first tree stands that was left at the end of a group. -/
  stray : Option Place
  /-- Whether the last tree taken is a group in braces. -/
  braced : Bool

/-- The place of the next lexeme. -/
def State.place (state : State) : Place :=
  sizeAll state.rest + state.after

/-- How a run ends. -/
inductive Outcome (α : Type) where
  | ok (value : α) (state : State)
  | refused (place : Place)
  | exhausted

/-- The state on entering a group that `rest` follows. -/
def State.enter (state : State) (content rest : List Tree) : State :=
  ⟨content, 1 + (sizeAll rest + state.after), state.stray, false⟩

/-- The state after a group, given the state at the end of its content. -/
def State.leave (state : State) (d : Delimiter) (rest : List Tree) (inner : State) : State :=
  let left := if inner.rest.isEmpty then none else some inner.place
  ⟨rest, state.after, inner.stray.or left, d == .brace⟩

/-- Whether the first tree is a group in braces. -/
def opensBrace : List Tree → Bool
  | .group .brace _ :: _ => true
  | _ => false

/-- Runs a program; `calls` gives the outcomes of calls. -/
def Prog.exec {α : Type} (calls : (nt : Nonterminal) → State → Outcome nt.Result) :
    Prog α → State → Outcome α
  | .done value, state => .ok value state
  | .refuse place, state => .refused (place.getD state.place)
  | .mark next, state => (next state.place).exec calls state
  | .ask skip cls next, state => (next (cls.read? (state.rest.drop skip)).isSome).exec calls state
  | .braced next, state => (next state.braced).exec calls state
  | .take cls next, state =>
    match cls.read? state.rest with
    | some (text, rest) =>
      (next text).exec calls { state with rest := rest, braced := opensBrace state.rest }
    | none => .refused state.place
  | .inside d content next, state =>
    match state.rest with
    | .group e trees :: rest =>
      if d = e then
        match calls content (state.enter trees rest) with
        | .ok value inner => (next value).exec calls (state.leave d rest inner)
        | .refused place => .refused place
        | .exhausted => .exhausted
      else .refused state.place
    | _ => .refused state.place
  | .call nt next, state =>
    match calls nt state with
    | .ok value state => (next value).exec calls state
    | .refused place => .refused place
    | .exhausted => .exhausted
  | .attempt nt next, state =>
    match calls nt { state with stray := none } with
    | .ok value later =>
      (next (some value)).exec calls { later with stray := state.stray.or later.stray }
    | .refused _ => (next none).exec calls state
    | .exhausted => .exhausted
  | .ahead nt next, state =>
    match calls nt { state with stray := none } with
    | .ok value _ => (next (some value)).exec calls state
    | .refused _ => (next none).exec calls state
    | .exhausted => .exhausted

/-- Runs the rule of a nonterminal with calls nested at most `fuel` deep. -/
def parse : (fuel : Nat) → (nt : Nonterminal) → State → Outcome nt.Result
  | 0, _, _ => .exhausted
  | fuel + 1, nt, state => nt.rule.exec (parse fuel) state

/-- The items of a unit, or the place where it is refused. A tree left in a group
    counts only if there is no other fault. -/
def parseUnit (trees : List Tree) : Except Place (List Item) :=
  match parse (64 * (sizeAll trees + 2)) .unit ⟨trees, 0, none, false⟩ with
  | .ok items state =>
    match state.stray with
    | some place => .error place
    | none => if state.rest.isEmpty then .ok items else .error state.place
  | .refused place => .error place
  | .exhausted => .error 0

end Reexport.Grammar
