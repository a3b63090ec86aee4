import Reexport.Grammar.Expr

/-!
# Statements
-/

namespace Reexport.Grammar.Rule

/-- A call of mere tokens at the start of a statement: the result says whether a
    name follows the mark, which makes it an item. One in braces is a statement
    of its own unless a field or a question mark follows. -/
def callAhead : Prog Bool := do
  run .modulePath
  if ← isNotNext (op "!") then refused
  if ← isAnySecond [.name, kw "try"] then return true
  if ← isSecond brace <&&> ((! ·) <$> isAnyThird [.op "." [".."], op "?"]) then return false
  refused

/-- Whether an item starts here. -/
def opensItem : Prog Bool :=
  isAny [kw "pub", kw "extern", kw "use", kw "fn", kw "mod", kw "type", kw "struct", kw "enum",
    kw "trait", kw "impl", kw "macro"] <||>
    (isNext (kw "crate") <&&> isNotSecond (op "::")) <||>
    (isNext (kw "static") <&&> isAnySecond [kw "mut", .name]) <||>
    (isNext (kw "const") <&&> ((! ·) <$> (isAnySecond [brace, kw "static", kw "move", op "|"] <||>
      (isSecond (kw "async") <&&> ((! ·) <$> isAnyThird [kw "unsafe", kw "extern", kw "fn"]))))) <||>
    (isNext (kw "unsafe") <&&> isNotSecond brace) <||>
    (isNext (kw "async") <&&> isAnySecond [kw "unsafe", kw "extern", kw "fn"]) <||>
    (isNext (kw "union") <&&> isSecond .name) <||>
    (isNext (kw "auto") <&&> isSecond (kw "trait")) <||>
    (isNext (kw "default") <&&> isAnySecond [kw "unsafe", kw "impl"])

/-- A `let` statement. A value that ends in a brace takes no `else`. -/
def letStatement : Prog Unit := do
  expect (kw "let")
  run .pattern
  if ← optional (op ":") then run (.type true)
  if ← optional (op "=") then
    run (.expr true)
    let inBraces ← Prog.braced .done
    if ← pure !inBraces <&&> optional (kw "else") then block
  expect (op ";")

/-- A statement. -/
def statement : Prog StatementShape := do
  run .outerAttributes
  let tokens : Option Bool ← wouldBe .callAhead
  if tokens == some false then
    run .modulePath
    expect (op "!")
    expect .anyGroup
    let _ ← optional (op ";")
    return .complete
  if ← isNext (kw "let") then
    letStatement
    return .complete
  if ← pure (tokens == some true) <||> opensItem then
    run .itemAfterAttributes
    return .complete
  let e : ExprShape ← call .standingExpr
  if ← optional (op ";") then return .complete
  return if e == .block || e == .bracedCall then .complete else .needsSemicolon

/-- Statements up to the end of the block. Only the last may lack its
    semicolon. -/
def statements : Prog Unit := do
  if ← optional (op ";") then run .statements
  else if ← isNext .nothing then return
  else
    let shape ← statement
    if ← isNext .nothing then return
    if shape == .needsSemicolon then refused
    run .statements

/-- The content of a block. -/
def blockBody (attributes : Bool) : Prog Unit := do
  if attributes then run .innerAttributes
  run .statements

end Reexport.Grammar.Rule
