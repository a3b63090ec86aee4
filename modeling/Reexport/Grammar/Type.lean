import Reexport.Grammar.Path

/-!
# Types

A type may be followed by `+` and further bounds where that cannot be mistaken
for an addition.
-/

namespace Reexport.Grammar.Rule

/-- Bounds each after a `+`. -/
def moreBounds : Prog Unit := do
  if ← optional (op "+") then
    run (.bound false false)
    run .moreBounds

/-- What a bound may start with. -/
def boundStart : List Class := [.word, op "::", op "?", .lifetime, paren]

/-- Bounds each after a `+`, of which the last may be missing. -/
def openBounds : Prog Unit := do
  if ← optional (op "+") then
    if ← isAny boundStart then
      run (.bound false false)
      run .openBounds

/-- The content of a parenthesised type. -/
def parenType : Prog ParenContent := do
  if ← isNext .nothing then return .nothing
  if ← isNext .lifetime then
    run (.type true)
    return .lifetime
  if ← isNext (op "?") then
    run (.traitBound false)
    return .relaxed
  let shape ← call (.type true)
  if ← optional (op ",") then
    run (.commas (.type true))
    return .tuple
  return .single shape

/-- A type that starts with a parenthesis. -/
def parenthesised (plus : Bool) : Prog TypeShape := do
  let content : ParenContent ← inside .paren .parenType
  match content with
  | .nothing | .tuple => return .other
  | .lifetime => return .paren
  | .relaxed =>
    if ← isNext (op "+") then
      run .moreBounds
      return .other
    return .oneBound
  | .single shape =>
    if ← pure (plus && shape ∈ [TypeShape.segment, .path, .oneBound]) <&&> isNext (op "+") then
      run .moreBounds
      return .other
    return .paren

/-- A type that starts with a path. After a binder it is a bound. -/
def pathType (plus bound : Bool) : Prog TypeShape := do
  let shape : PathShape ← call .typePath
  if shape.qualified then return .other
  if ← pure shape.plain <&&> isNext (.op "!" ["!="]) then
    expect (op "!")
    expect .anyGroup
    return .other
  if ← pure plus <&&> isNext (op "+") then
    run .openBounds
    return .other
  if bound then return .oneBound
  if !shape.leading && shape.segments == 1 && shape.last != .paren then return .segment
  return .path

/-- Bounds of which one at least is a trait; otherwise they are refused where
    the type starts. -/
def traitSum (plus capture constant : Bool) (start : Place) : Prog TypeShape := do
  let any : Bool ← call (.boundSum plus capture constant)
  if any then return .other else refusedAt start

/-- Any other type. -/
def simpleType (plus : Bool) : Prog TypeShape := do
  let start ← here
  if ← optional (kw "dyn") then
    let _ ← optional (op "*")
    traitSum plus false false start
  else if ← isNext bracket then
    runInside .bracket .sliceType
    return .other
  else if ← optional (op "*") then
    if ← isAny [kw "const", kw "mut"] then expect .word else refused
    run (.type false)
    return .other
  else if ← optional (op "&") then
    let _ ← optional .lifetime
    let _ ← optional (kw "mut")
    run (.type false)
    return .other
  else if ← optional (op "!") then return .other
  else if ← optional (kw "impl") then traitSum plus true true start
  else if ← optional (kw "_") then return .other
  else if ← isNext .lifetime then traitSum plus false false start
  else refused

/-- A type. -/
def type (plus : Bool) : Prog TypeShape := do
  let bound ← isNext (kw "for")
  if bound then
    run .binder
    if ← isAny ([.name, kw "fn", kw "unsafe", kw "extern"] ++ pathWords) then pure () else refused
  if ← isNext paren then parenthesised plus
  else if ← isAny [kw "fn", kw "unsafe", kw "extern"] then
    run .functionType
    return .other
  else if ← isAny ([.name, op "::", op "<"] ++ pathWords) then pathType plus bound
  else simpleType plus

/-- The content of `[T]` and `[T; n]`. -/
def sliceType : Prog Unit := do
  run (.type true)
  if ← optional (op ";") then run (.expr true)

/-- `-> T`, if it is there. -/
def returnType (plus : Bool) : Prog (Option TypeShape) := do
  if ← optional (op "->") then
    let shape ← call (.type plus)
    return some shape
  return none

/-- `extern "abi"`, if it is there. -/
def callingConvention : Prog Unit := do
  if ← optional (kw "extern") then
    let _ ← optional .text

/-- The type of a function. -/
def functionType : Prog Unit := do
  let _ ← optional (kw "unsafe")
  callingConvention
  expect (kw "fn")
  runInside .paren (.functionTypeParameters true)
  run (.returnType false)

/-- A parameter in the type of a function, which may be named. -/
def functionTypeParameter (isFirst : Bool) : Prog Unit := do
  let mutSelf ← pure isFirst <&&> isNext (kw "mut") <&&> isSecond (kw "self")
  if mutSelf then expect (kw "mut")
  let atSelf ← pure isFirst <&&> isNext (kw "self")
  let named ← (pure atSelf <||> isAny [.name, kw "_"]) <&&> isSecond (.op ":" ["::"])
  if named then
    expect .word
    expect (op ":")
  if ← pure (isFirst && !(named && atSelf)) <&&> isNext (kw "mut") <&&> isSecond (kw "self") then
    expect (kw "mut")
    expect (kw "self")
  else if mutSelf && !named then expect (kw "self")
  else run (.type true)

/-- The parameters in the type of a function. -/
def functionTypeParameters (isFirst : Bool) : Prog Unit := do
  if ← isNext .nothing then return
  run .outerAttributes
  let named ← isAny [.name, kw "_"]
  if ← isNext (op "...") <||> (pure named <&&> isSecond (op ":") <&&> isThird (op "...")) then
    if named then
      expect .word
      expect (op ":")
    expect (op "...")
    let _ ← optional (op ",")
  else
    functionTypeParameter isFirst
    if ← isNext .nothing then return
    expect (op ",")
    run (.functionTypeParameters false)

end Reexport.Grammar.Rule
