import Reexport.Grammar.Generics

/-!
# Patterns
-/

namespace Reexport.Grammar.Rule

/-- Whether a number may stand for a field: an integer without suffix that fits
    32 bits. -/
def isIndex (lexeme : List Char) : Bool :=
  match Source.integer? lexeme with
  | some (value, []) => value < 4294967296
  | _ => false

/-- A number that stands for a field. -/
def index : Prog Unit := do
  let place ← here
  let lexeme ← textOf .integer
  if !isIndex lexeme.toList then refusedAt place

/-- An alternative after the first. -/
def bar : Class := .op "|" ["||", "|="]

/-- Patterns with bars between them, perhaps one in front. -/
def patterns : Prog PatternShape := do
  let leading ← optional (op "|")
  let shape : PatternShape ← call .pattern
  if ← pure leading <||> isNext bar then
    run .alternatives
    return .other
  return shape

/-- The alternatives after the first. -/
def alternatives : Prog Unit := do
  if ← optional bar then
    run .pattern
    run .alternatives

/-- The end of a range, if there is one. -/
def rangeBound : Prog Bool := do
  if ← isAny [.nothing, op "|", op "=", .op ":" ["::"], op ",", op ";", kw "if"] then return false
  if ← isNext .literal then expect .literal
  else if ← isAny ([.name, op "::", op "<"] ++ pathWords) then run (.qualifiedPath true)
  else if ← optional (kw "const") then runInside .brace (.blockBody true)
  else refused
  return true

/-- The dots of a range and its end. -/
def rangePattern : Prog PatternShape := do
  let dots ← here
  let closed ← optional (op "..=") <||> optional (op "...")
  if !closed then expect (op "..")
  let ended : Bool ← call .rangeBound
  if closed && !ended then refused
  return if ended then .other else .openRange dots

/-- A pattern that starts with dots. -/
def dotsPattern : Prog PatternShape := do
  let dots ← here
  let closed ← optional (op "..=")
  if !closed then expect (op "..")
  let ended : Bool ← call .rangeBound
  if closed && !ended then refused
  return if ended then .openRange dots else .rest

/-- A pattern that starts with a path. -/
def pathPattern : Prog PatternShape := do
  let shape : PathShape ← call (.qualifiedPath true)
  if ← pure (shape.plain && !shape.qualified) <&&> isNext (.op "!" ["!="]) then
    expect (op "!")
    expect .anyGroup
    return .other
  if ← isNext brace then
    runInside .brace .structPattern
    return .other
  if ← isNext paren then
    runInside .paren (.commas .patterns)
    return .other
  if ← isNext (op "..") then rangePattern else return .other

/-- A name that is bound, perhaps to what a further pattern matches. -/
def bindingPattern : Prog PatternShape := do
  let _ ← optional (kw "ref")
  let _ ← optional (kw "mut")
  if ← isNext (kw "self") then expect .word else expect .name
  if ← optional (op "@") then run .pattern
  return .other

/-- A pattern without bars. -/
def pattern : Prog PatternShape := do
  if ← (isNext .name <&&> isAnySecond [op "::", op "!", brace, paren, op ".."]) <||>
      (isNext (kw "self") <&&> isSecond (op "::")) <||>
      isAny [op "::", op "<", kw "Self", kw "super", kw "crate"] then pathPattern
  else if ← optional (kw "_") then return .other
  else if ← optional (kw "box") then
    run .pattern
    return .other
  else if ← isAny [op "-", .literal, kw "const"] then
    run .rangeBound
    if ← isNext (op "..") then rangePattern else return .other
  else if ← isAny [kw "ref", kw "mut", kw "self", .name] then bindingPattern
  else if ← optional (op "&") then
    let _ ← optional (kw "mut")
    run .pattern
    return .other
  else if ← isNext paren then
    runInside .paren (.commas .patterns)
    return .other
  else if ← isNext bracket then
    runInside .bracket (.commas .sliceElement)
    return .other
  else if ← isNext (.op ".." ["..."]) then dotsPattern
  else refused

/-- An element of a slice, where a range without an end has to be in
    parentheses. -/
def sliceElement : Prog Unit := do
  let shape : PatternShape ← call .patterns
  match shape with
  | .openRange dots => refusedAt dots
  | .rest | .other => return

/-- A field in the pattern of a struct. -/
def fieldPattern : Prog Unit := do
  let boxed ← optional (kw "box")
  let byReference ← optional (kw "ref")
  let mutable ← optional (kw "mut")
  if boxed || byReference || mutable then expect .name
  else if ← optional .name then
    if ← optional (op ":") then run .patterns
  else
    index
    expect (op ":")
    run .patterns

/-- The content of the pattern of a struct. -/
def structPattern : Prog Unit := do
  if ← isNext .nothing then return
  run .outerAttributes
  if ← optional (op "..") then return
  fieldPattern
  if ← isNext .nothing then return
  expect (op ",")
  run .structPattern

end Reexport.Grammar.Rule
