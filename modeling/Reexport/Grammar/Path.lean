import Reexport.Grammar.Program

/-!
# Lists, attributes and paths

Rules for what every other rule is made of. A path comes in three styles: in a
type its arguments follow directly, in an expression only after a further `::`,
and a module path has none.
-/

namespace Reexport.Grammar.Rule

/-- Elements separated by commas up to the end of the group. -/
def commas (element : Nonterminal) : Prog Unit := do
  if ← isNext .nothing then return
  run element
  if ← isNext .nothing then return
  expect (op ",")
  run (.commas element)

/-- Elements one after the other up to the end of the group. -/
def repeated (element : Nonterminal) : Prog Unit := do
  if ← isNext .nothing then return
  run element
  run (.repeated element)

/-! ## Attributes -/

/-- `#[…]` any number of times; the result says whether there is one. -/
def outerAttributes : Prog Bool := do
  if ← optional (op "#") then
    runInside .bracket .attributeContent
    run .outerAttributes
    return true
  return false

/-- `#![…]` any number of times. -/
def innerAttributes : Prog Unit := do
  if ← isNext (op "#") <&&> isSecond (op "!") then
    expect (op "#")
    expect (op "!")
    runInside .bracket .attributeContent
    run .innerAttributes

/-- A path, a path with a group, or a path with a value. -/
def attributeContent : Prog Unit := do
  if ← isNext (kw "unsafe") then expect (kw "unsafe") else run .modulePath
  if ← isNext .anyGroup then expect .anyGroup
  else if ← optional (op "=") then
    if ← isNext (op "#") <&&> isSecond bracket then refused
    run (.expr true)

/-! ## Paths -/

/-- Words that a path may start with beside names. -/
def pathWords : List Class := [kw "super", kw "self", kw "Self", kw "crate"]

/-- A path without arguments. -/
def modulePath : Prog Unit := do
  let _ ← optional (op "::")
  run .modulePathRest

/-- The segments of a path without arguments. -/
def modulePathRest : Prog Unit := do
  if ← isAny (.name :: pathWords) then
    expect .word
    if ← optional (op "::") then run .modulePathRest
  else refused

/-- A path. -/
def path (valued : Bool) : Prog PathShape := do
  let leading ← optional (op "::")
  let arguments : Arguments ← call (.segment valued)
  call (.pathRest valued ⟨false, leading, 1, arguments == .absent, arguments⟩)

/-- Further segments of a path; `::` in front of a parenthesis is left. -/
def pathRest (valued : Bool) (shape : PathShape) : Prog PathShape := do
  if ← isNext (op "::") <&&> isNotThird paren then
    expect (op "::")
    let arguments : Arguments ← call (.segment valued)
    call (.pathRest valued (shape.extend arguments))
  else return shape

/-- One segment with its arguments. -/
def segment (valued : Bool) : Prog Arguments := do
  if ← isAny [kw "super", kw "self", kw "crate", kw "try"] then
    expect .word
    return .absent
  if ← isNext (kw "Self") then expect .word else expect .name
  if ← (pure !valued <&&> isNext (.op "<" ["<="])) <||> (isNext (op "::") <&&> isThird (op "<")) then
    call .angleArguments
  else return .absent

/-- `<…>`, perhaps after `::`. -/
def angleArguments : Prog Arguments := do
  let _ ← optional (op "::")
  expect (op "<")
  call (.angleRest .emptyAngle)

/-- Arguments up to the closing angle. -/
def angleRest (arguments : Arguments) : Prog Arguments := do
  if ← optional (op ">") then return arguments
  run .genericArgument
  if ← optional (op ">") then return .angle
  expect (op ",")
  call (.angleRest .angle)

/-- A constant as a generic argument: a literal or a block. -/
def constArgument : Prog Unit := do
  if ← isNext .literal then expect .literal
  else if ← isNext brace then runInside .brace (.blockBody true)
  else refused

/-- A lifetime, a constant, a type, or an associated item with its value or
    bounds. -/
def genericArgument : Prog Unit := do
  if ← isNext .lifetime <&&> isNotSecond (op "+") then expect .lifetime
  else if ← isAny [.literal, brace] then constArgument
  else
    let shape : TypeShape ← call (.type true)
    if shape == .segment then
      if ← optional (op "=") then
        if ← isAny [.literal, brace] then constArgument else run (.type true)
      else if ← optional (op ":") then run (.bounds .argument)

/-- A path that may start with `<T as Trait>::`. -/
def qualifiedPath (valued : Bool) : Prog PathShape := do
  if ← optional (op "<") then
    run (.type true)
    if ← optional (kw "as") then run (.path false)
    expect (op ">")
    expect (op "::")
    call (.qualifiedRest valued ⟨true, false, 0, true, .absent⟩)
  else call (.path valued)

/-- The segments after a qualification. -/
def qualifiedRest (valued : Bool) (shape : PathShape) : Prog PathShape := do
  let arguments : Arguments ← call (.segment valued)
  if ← optional (op "::") then call (.qualifiedRest valued (shape.extend arguments))
  else return shape.extend arguments

/-- Whether parenthesised arguments follow. -/
def isCallArguments : Prog Bool :=
  isNext paren <||> (isNext (op "::") <&&> isThird paren)

/-- `(A, B) -> C`; the result says whether a path may go on after it. -/
def parenArguments : Prog Bool := do
  runInside .paren (.commas (.type true))
  let result : Option TypeShape ← call (.returnType false)
  return result == none || result == some .paren

/-- A path as a type, which may have parenthesised arguments. -/
def typePath : Prog PathShape := do
  let shape ← call (.qualifiedPath false)
  call (.typePathRest shape)

/-- Parenthesised arguments and what may follow them. -/
def typePathRest (shape : PathShape) : Prog PathShape := do
  if ← pure shape.last.isEmpty <&&> isCallArguments then
    let _ ← optional (op "::")
    let goesOn : Bool ← call .parenArguments
    let called := { shape with plain := false, last := Arguments.paren }
    if goesOn then
      let longer ← call (.pathRest false called)
      call (.typePathRest longer)
    else return called
  else return shape

end Reexport.Grammar.Rule
