import Reexport.Grammar.Type

/-!
# Bounds, generic parameters and where clauses
-/

namespace Reexport.Grammar

/-- The trees that end a list of bounds. -/
def BoundsEnd.classes : BoundsEnd → List Class
  | .argument => [op ",", op ">"]
  | .parameter => [.nothing, op ",", op ">", op "="]
  | .clause => [.nothing, brace, op ",", op ";", .op ":" ["::"], op "="]
  | .supertraits => [kw "where", brace]
  | .traitAlias => [kw "where", op ";"]
  | .associated => [kw "where", op "=", op ";"]

/-- Whether nothing else may end the list. -/
def BoundsEnd.isStrict : BoundsEnd → Bool
  | .supertraits | .traitAlias | .associated => true
  | .argument | .parameter | .clause => false

/-- Whether a bound may be marked constant. -/
def BoundsEnd.admitsConst : BoundsEnd → Bool
  | .traitAlias => false
  | _ => true

namespace Rule

/-- The content of `[const]`. -/
def constMark : Prog Unit := expect (kw "const")

/-- A trait as a bound. -/
def traitBound (constant : Bool) : Prog Unit := do
  let bound ← isNext (kw "for")
  if bound then run .binder
  let start ← here
  if ← isNext bracket then
    runInside .bracket .constMark
    if !constant then refusedAt start
  else if ← optional (kw "const") then
    if !constant then refusedAt start
  let mark ← here
  let relaxed ← optional (op "?")
  let boundLater ← pure (relaxed && !bound) <&&> isNext (kw "for")
  if boundLater then run .binder
  let shape : PathShape ← call (.path false)
  if ← pure shape.last.isEmpty <&&> isCallArguments then
    let _ ← optional (op "::")
    run .parenArguments
  if relaxed && (bound || boundLater) then refusedAt mark

/-- A bound; `capture` says whether `use<…>` may stand for one. -/
def bound (capture constant : Bool) : Prog BoundShape := do
  let start ← here
  if ← optional .lifetime then return .lifetime
  if ← optional (kw "use") then
    expect (op "<")
    run .capturedNames
    if capture then return .capture else refusedAt start
  if ← isNext paren then runInside .paren (.traitBound constant) else run (.traitBound constant)
  return .trait

/-- Bounds with `+` between them; the result says whether one is a trait. -/
def boundSum (plus capture constant : Bool) : Prog Bool := do
  let shape : BoundShape ← call (.bound capture constant)
  let isTrait := shape == .trait
  if ← pure plus <&&> optional (op "+") then
    if ← isAny (boundStart ++ if constant then [bracket] else []) then
      let more : Bool ← call (.boundSum plus capture constant)
      return isTrait || more
  return isTrait

/-- Bounds up to where such a list ends. -/
def bounds (stop : BoundsEnd) : Prog Unit := do
  if ← isAny stop.classes then return
  run (.bound false stop.admitsConst)
  if stop.isStrict then
    if ← isAny stop.classes then return
    expect (op "+")
    run (.bounds stop)
  else if ← optional (op "+") then run (.bounds stop)

/-- Lifetimes as bounds up to where such a list ends. -/
def lifetimeBounds (stop : BoundsEnd) : Prog Unit := do
  if ← isAny stop.classes then return
  expect .lifetime
  if ← optional (op "+") then run (.lifetimeBounds stop)

/-- What `use<…>` captures, up to the closing angle. -/
def capturedNames : Prog Unit := do
  if ← optional (op ">") then return
  if ← isNext .lifetime then expect .lifetime
  else if ← isAny [.name, kw "Self"] then expect .word
  else refused
  if ← optional (op ">") then return
  expect (op ",")
  run .capturedNames

/-- `for<…>`. -/
def binder : Prog Unit := do
  expect (kw "for")
  expect (op "<")
  run .binderRest

/-- The parameters of a binder up to the closing angle. -/
def binderRest : Prog Unit := do
  if ← optional (op ">") then return
  run .genericParameter
  if ← optional (op ">") then return
  expect (op ",")
  run .binderRest

/-- A type parameter. -/
def typeParameter : Prog Unit := do
  expect .name
  if ← optional (op ":") then run (.bounds .parameter)
  if ← optional (op "=") then run (.type true)

/-- A lifetime parameter. -/
def lifetimeParameter : Prog Unit := do
  expect .lifetime
  if ← optional (op ":") then run (.lifetimeBounds .parameter)

/-- A constant parameter. -/
def constParameter : Prog Unit := do
  expect (kw "const")
  expect .name
  expect (op ":")
  run (.type true)
  if ← optional (op "=") then constArgument

/-- A generic parameter. -/
def genericParameter : Prog Unit := do
  run .outerAttributes
  if ← isNext .name then typeParameter
  else if ← isNext .lifetime then lifetimeParameter
  else if ← isNext (kw "const") then constParameter
  else refused

/-- `<…>` after the name of an item; the result says whether it is there. -/
def generics : Prog Bool := do
  if ← optional (op "<") then
    run .genericsRest
    return true
  return false

/-- Generic parameters up to the closing angle; one may be left out as `_`. -/
def genericsRest : Prog Unit := do
  if ← optional (op ">") then return
  run .outerAttributes
  if ← isNext (kw "_") then expect (kw "_") else run .genericParameter
  if ← optional (op ">") then return
  expect (op ",")
  run .genericsRest

/-- A where clause; the result says whether it is there. -/
def whereClause : Prog Bool := do
  if ← optional (kw "where") then
    run .predicates
    return true
  return false

/-- The predicates of a where clause. -/
def predicates : Prog Unit := do
  if ← isAny BoundsEnd.clause.classes then return
  if ← isNext .lifetime <&&> isSecond (op ":") then
    expect .lifetime
    expect (op ":")
    run (.lifetimeBounds .clause)
  else
    if ← isNext (kw "for") then run .binder
    run (.type true)
    expect (op ":")
    run (.bounds .clause)
  if ← optional (op ",") then run .predicates

/-- Whether an angle starts generic parameters rather than a qualified path. -/
def opensGenerics (skip : Nat) : Prog Bool := do
  let is (n : Nat) (cls : Class) : Prog Bool := .ask (skip + n) cls .done
  is 0 (op "<") <&&>
    (is 1 (op ">") <||> is 1 (op "#") <||> is 1 (kw "const") <||>
      ((is 1 .lifetime <||> is 1 .name) <&&>
        (is 2 (op ">") <||> is 2 (op ",") <||> is 2 (.op ":" ["::"]) <||> is 2 (op "="))))

end Rule

end Reexport.Grammar
