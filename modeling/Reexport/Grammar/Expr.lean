import Reexport.Grammar.Pattern

/-!
# Expressions

Binary operators are read by precedence climbing: `binary` extends an operand by
every operator that binds at least as tightly as its base, and `operand` reads
the right-hand side of one operator.

Where `structs` is false a brace ends the expression, as in the condition of an
`if`.
-/

namespace Reexport.Grammar.Rule

/-- A block without inner attributes. -/
def block : Prog Unit := runInside .brace (.blockBody false)

/-- A block that may start with inner attributes. -/
def attributedBlock : Prog Unit := runInside .brace (.blockBody true)

/-! ## Operators -/

/-- The binary operators, longer ones first. -/
def operators : List (Class × Precedence) :=
  [(op "+=", .assign), (op "-=", .assign), (op "*=", .assign), (op "/=", .assign),
   (op "%=", .assign), (op "^=", .assign), (op "&=", .assign), (op "|=", .assign),
   (op "<<=", .assign), (op ">>=", .assign), (op "&&", .and), (op "||", .or), (op "<<", .shift),
   (op ">>", .shift), (op "==", .compare), (op "<=", .compare), (op "!=", .compare),
   (op ">=", .compare), (op "+", .sum), (op "-", .sum), (op "*", .product), (op "/", .product),
   (op "%", .product), (op "^", .bitXor), (op "&", .bitAnd), (op "|", .bitOr), (op "<", .compare),
   (op ">", .compare)]

/-- What continues an expression beside the operators. -/
def continuations : List (Class × Precedence) :=
  [(.op "=" ["=>"], .assign), (op "..", .range), (kw "as", .cast)]

/-- An expression. -/
def expr (structs : Bool) : Prog ExprShape := do
  let lhs : ExprShape ← call (.unary structs)
  call (.binary lhs structs .least)

/-- The dots of a range; the result says whether the end is included. -/
def rangeDots : Prog Bool := do
  if ← optional (op "..=") then return true
  if ← isNext (op "...") then refused
  expect (op "..")
  return false

/-- What shows that a range has no end. -/
def rangeStops (structs : Bool) : List Class :=
  [.nothing, op ",", op ";", .op "." [".."], op "?", op "=>"] ++ (if structs then [] else [brace]) ++
    [op "=", op "+", op "/", op "%", op "^", op ">", op "<=", op "!=", op "-=", op "*=", op "&=",
     op "|=", op "<<=", kw "as"]

/-- The dots of a range and its end. -/
def range (structs : Bool) : Prog Unit := do
  let closed ← rangeDots
  if ← pure !closed <&&> isAny (rangeStops structs) then return
  run (.operand structs .range)

/-- Nothing that binds tighter than a cast may follow one directly. -/
def castEnd : Prog Unit := do
  if ← isAny [.op "." [".."], op "?", bracket, paren] then refused

/-- What may follow an operand, at least as tight as `base`. -/
def binary (lhs : ExprShape) (structs : Bool) (base : Precedence) : Prog ExprShape := do
  if lhs == .range then return lhs
  match ← firstOf operators with
  | some (cls, precedence) =>
    if precedence.rank < base.rank then return lhs
    if precedence == .compare && lhs == .comparison then refused
    expect cls
    run (.operand structs precedence)
    call (.binary (if precedence == .compare then .comparison else .other) structs base)
  | none =>
    match ← firstOf continuations with
    | some (cls, precedence) =>
      if precedence.rank < base.rank then return lhs
      if precedence == .range then
        range structs
        call (.binary .range structs base)
      else
        expect cls
        if precedence == .cast then
          run (.type false)
          castEnd
        else run (.operand structs .assign)
        call (.binary .other structs base)
    | none => return lhs

/-- The right-hand side of an operator. -/
def operand (structs : Bool) (precedence : Precedence) : Prog ExprShape := do
  let rhs : ExprShape ← call (.unary structs)
  call (.operandRest rhs structs precedence)

/-- The precedence of what comes next. -/
def nextPrecedence : Prog Precedence := do
  match ← firstOf (operators ++ continuations) with
  | some (_, precedence) => return precedence
  | none => return .least

/-- Extends a right-hand side by what binds tighter than its operator. -/
def operandRest (rhs : ExprShape) (structs : Bool) (precedence : Precedence) : Prog ExprShape := do
  let coming ← nextPrecedence
  if precedence.rank < coming.rank || (coming == precedence && precedence == .assign) then
    let before ← here
    let longer : ExprShape ← call (.binary rhs structs coming)
    let after ← here
    if before == after then return longer
    call (.operandRest longer structs precedence)
  else return rhs

/-- An operand with its signs, references and attributes. -/
def unary (structs : Bool) : Prog ExprShape := do
  let attributed : Bool ← call .outerAttributes
  if ← optional (op "&") then
    if ← isNext (kw "raw") <&&> isAnySecond [kw "mut", kw "const"] then
      expect .word
      expect .word
    else
      let _ ← optional (kw "mut")
    run (.unary structs)
    return .other
  if ← optional (op "*") <||> optional (op "!") <||> optional (op "-") then
    run (.unary structs)
    return .other
  let start ← here
  let atom : ExprShape ← call (.atom structs)
  let e : ExprShape ← call (.trailers atom)
  if attributed && e == .range then refusedAt start
  return e

/-! ## Trailers -/

/-- `.0.1`, which is lexed as one number. A last point without a field after it
    is left to what follows. -/
def indexPair : Prog Bool := do
  let place ← here
  let lexeme ← textOf .decimal
  let parts := lexeme.splitOn "."
  let unfinished := parts.getLast? == some ""
  if !(if unfinished then parts.dropLast else parts).all (fun part => isIndex part.toList) then
    refusedAt place
  return !unfinished

/-- What follows the point of a field, a method or `await`. -/
def member : Prog Unit := do
  if ← isNext .decimal then
    if ← indexPair then return
  if ← optional (kw "await") then return
  if ← optional .name then
    if ← optional (op "::") then
      expect (op "<")
      run (.angleRest .emptyAngle)
      runInside .paren (.commas (.expr true))
    else if ← isNext paren then runInside .paren (.commas (.expr true))
  else index

/-- Calls, fields, indices and question marks after an atom. -/
def trailers (e : ExprShape) : Prog ExprShape := do
  if ← isNext paren then
    runInside .paren (.commas (.expr true))
    call (.trailers .other)
  else if ← pure (e != .range) <&&> isNext (.op "." [".."]) then
    expect (op ".")
    member
    call (.trailers .other)
  else if ← isNext bracket then
    runInside .bracket (.expr true)
    call (.trailers .other)
  else if ← pure (e != .range) <&&> optional (op "?") then call (.trailers .other)
  else return e

/-! ## Atoms -/

/-- Whether an expression starts here. -/
def opensExpr : Prog Bool :=
  (isNext .word <&&> isNotNext (kw "as")) <||>
    isAny [paren, bracket, brace, .literal, .op "!" ["!="], .op "-" ["-=", "->"], .op "*" ["*="],
      .op "|" ["|="], .op "&" ["&="], op "..", .op "<" ["<=", "<<="], op "::", .lifetime, op "#"]

/-- Whether a closure starts here. -/
def opensClosure : Prog Bool :=
  isAny [op "|", kw "move", kw "static"] <||>
    (isNext (kw "for") <&&> opensGenerics 1) <||>
    (isNext (kw "const") <&&> isNotSecond brace) <||>
    (isNext (kw "async") <&&> isAnySecond [op "|", kw "move"])

/-- A closure. -/
def closure (structs : Bool) : Prog Unit := do
  if ← isNext (kw "for") then run .binder
  let _ ← optional (kw "const")
  let _ ← optional (kw "static")
  let _ ← optional (kw "async")
  let _ ← optional (kw "move")
  expect (op "|")
  run .closureParameters
  if ← optional (op "->") then
    run (.type true)
    block
  else run (.expr structs)

/-- The parameters of a closure up to the closing bar. -/
def closureParameters : Prog Unit := do
  if ← optional (op "|") then return
  run .outerAttributes
  run .pattern
  if ← optional (op ":") then run (.type true)
  if ← optional (op "|") then return
  expect (op ",")
  run .closureParameters

/-- A path, a struct literal, or a call whose arguments are mere tokens. -/
def pathExpr (structs : Bool) : Prog ExprShape := do
  let shape : PathShape ← call (.qualifiedPath true)
  if ← pure (shape.plain && !shape.qualified) <&&> isNext (.op "!" ["!="]) then
    expect (op "!")
    let inBraces ← isNext brace
    expect .anyGroup
    return if inBraces then .bracedCall else .other
  if ← pure structs <&&> isNext brace then runInside .brace .structFields
  return .other

/-- A field of a struct literal. -/
def fieldValue : Prog Unit := do
  run .outerAttributes
  if ← optional .name then
    if ← optional (op ":") then run (.expr true)
  else
    index
    expect (op ":")
    run (.expr true)

/-- The content of a struct literal. -/
def structFields : Prog Unit := do
  if ← isNext .nothing then return
  if ← optional (op "..") then
    if ← isNotNext .nothing then run (.expr true)
  else
    run .fieldValue
    if ← isNext .nothing then return
    expect (op ",")
    run .structFields

/-- The content of a parenthesised expression or a tuple. -/
def parenExpr : Prog Unit := do
  if ← isNext .nothing then return
  run (.expr true)
  run .parenExprRest

/-- Elements each after a comma. -/
def parenExprRest : Prog Unit := do
  if ← isNext .nothing then return
  expect (op ",")
  if ← isNext .nothing then return
  run (.expr true)
  run .parenExprRest

/-- The content of an array. -/
def arrayExpr : Prog Unit := do
  if ← isNext .nothing then return
  run (.expr true)
  if ← optional (op ";") then run (.expr true) else run .parenExprRest

/-- `break` with its label and value. -/
def breakExpr (structs : Bool) : Prog Unit := do
  expect (kw "break")
  if ← isNext .lifetime <&&> isSecond (op ":") then
    let place ← here
    run (.expr true)
    refusedAt place
  let _ ← optional .lifetime
  if ← opensExpr <&&> (pure structs <||> isNotNext brace) then run (.expr true)

/-- `if` with its branches. -/
def ifExpr : Prog Unit := do
  expect (kw "if")
  run (.expr false)
  block
  if ← optional (kw "else") then
    if ← isNext (kw "if") then run .ifExpr else block

/-- `while`. -/
def whileExpr : Prog Unit := do
  expect (kw "while")
  run (.expr false)
  attributedBlock

/-- `for`. -/
def forExpr : Prog Unit := do
  expect (kw "for")
  run .patterns
  expect (kw "in")
  run (.expr false)
  attributedBlock

/-- `loop`. -/
def loopExpr : Prog Unit := do
  expect (kw "loop")
  attributedBlock

/-- `match`. -/
def matchExpr : Prog Unit := do
  expect (kw "match")
  run (.expr false)
  runInside .brace .matchBody

/-- The arms of a `match`. -/
def matchBody : Prog Unit := do
  run .innerAttributes
  run (.repeated .arm)

/-- A loop or block with a label. -/
def labelledExpr : Prog Unit := do
  expect .lifetime
  expect (op ":")
  if ← isNext (kw "while") then whileExpr
  else if ← isNext (kw "for") then forExpr
  else if ← isNext (kw "loop") then loopExpr
  else if ← isNext brace then attributedBlock
  else refused

/-- Expressions that end in a block and stand alone as statements; the result
    says whether there is one. -/
def blockExpr : Prog Bool := do
  if ← isNext (kw "if") then run .ifExpr
  else if ← isNext (kw "while") then whileExpr
  else if ← isNext (kw "for") then forExpr
  else if ← isNext (kw "loop") then loopExpr
  else if ← isNext (kw "match") then matchExpr
  else if ← isNext (kw "try") <&&> isSecond brace then
    expect (kw "try")
    block
  else if ← optional (kw "unsafe") then attributedBlock
  else if ← optional (kw "const") then attributedBlock
  else if ← isNext brace then attributedBlock
  else if ← isNext .lifetime then labelledExpr
  else return false
  return true

/-- `return`, `yield`, `become` and `let`, after the word itself. -/
def wordExpr (structs : Bool) : Prog Unit := do
  if ← optional (kw "return") <||> optional (kw "yield") then
    if ← opensExpr then run (.expr true)
  else if ← optional (kw "become") then run (.expr true)
  else if ← optional (kw "continue") then
    let _ ← optional .lifetime
  else if ← optional (kw "let") then
    run .patterns
    expect (op "=")
    let lhs : ExprShape ← call (.unary structs)
    run (.binary lhs structs .compare)
  else if ← optional (kw "_") then return
  else refused

/-- An expression without operators. -/
def atom (structs : Bool) : Prog ExprShape := do
  if ← optional .literal then return .other
  else if ← isNext (kw "async") <&&> (isSecond brace <||> (isSecond (kw "move") <&&> isThird brace)) then
    expect (kw "async")
    let _ ← optional (kw "move")
    block
    return .other
  else if ← opensClosure then
    closure structs
    return .other
  else if ← isNext (kw "builtin") <&&> isSecond (op "#") then
    expect .word
    expect (op "#")
    expect .name
    expect paren
    return .other
  else if ← isAny ([.name, op "::", op "<"] ++ pathWords) <||>
      (isNext (kw "try") <&&> isAnySecond [op "!", op "::"]) then pathExpr structs
  else if ← isNext paren then
    runInside .paren .parenExpr
    return .other
  else if ← isNext bracket then
    runInside .bracket .arrayExpr
    return .other
  else if ← isNext (kw "break") then
    breakExpr structs
    return .other
  else if ← blockExpr then return .block
  else if ← isNext (op "..") then
    range structs
    return .range
  else
    wordExpr structs
    return .other

/-! ## Expressions as statements and arms -/

/-- An expression where a block ends it, unless a field or a question mark
    follows. -/
def standingExpr : Prog ExprShape := do
  run .outerAttributes
  if ← (isNext (kw "for") <&&> opensGenerics 1) <||> (isNext (kw "const") <&&> isNotSecond brace) then
    call (.expr true)
  else if ← blockExpr then
    if ← isAny [.op "." [".."], op "?"] then
      let e : ExprShape ← call (.trailers .block)
      call (.binary e true .least)
    else return .block
  else call (.expr true)

/-- An arm of a `match`. A block needs no comma after it. -/
def arm : Prog Unit := do
  run .outerAttributes
  run .patterns
  if ← optional (kw "if") then run (.expr true)
  expect (op "=>")
  let e : ExprShape ← call .standingExpr
  if ← pure (e == .block) <||> isNext .nothing then
    let _ ← optional (op ",")
  else expect (op ",")

end Reexport.Grammar.Rule
