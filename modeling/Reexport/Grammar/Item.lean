import Reexport.Grammar.Statement

/-!
# Items

Rules for what a unit, a module, a trait, an implementation or a foreign block
holds. Of an item the grammar keeps what it declares. Some items are accepted
though they are incomplete (a function without body, a constant without value):
they declare nothing.
-/

namespace Reexport.Grammar.Rule

/-! ## Visibility and signatures -/

/-- The content of `(in path)`. -/
def restriction : Prog Unit := do
  expect (kw "in")
  run .modulePath

/-- `pub`, perhaps restricted. -/
def visibility : Prog Visibility := do
  let place ← here
  if ← optional (kw "pub") then
    if ← optional .restriction then return .restricted
    if ← isNext .restrictionPath then
      runInside .paren .restriction
      return .restricted
    return .visible place
  return .inherited

/-- The words in front of `fn`. -/
def signatureAhead (safe : Bool) : Prog Unit := do
  let _ ← optional (kw "const")
  let _ ← optional (kw "async")
  let marked ← pure safe <&&> optional (kw "safe")
  if !marked then
    let _ ← optional (kw "unsafe")
  callingConvention
  expect (kw "fn")

/-- The head of a function; the result is its name and where it stands. -/
def signature (safe : Bool) : Prog (String × Place) := do
  let _ ← optional (kw "const")
  let _ ← optional (kw "async")
  let marked ← optional (kw "unsafe")
  if safe && !marked then
    let _ ← optional (kw "safe")
  callingConvention
  expect (kw "fn")
  let place ← here
  let name ← textOf .name
  run .generics
  runInside .paren (.parameters 0 false)
  run (.returnType true)
  run .whereClause
  return (name, place)

/-- `self` in its forms; the result is where it stands. -/
def receiver : Prog Place := do
  let borrowed ← optional (op "&")
  if borrowed then
    let _ ← optional .lifetime
  let _ ← optional (kw "mut")
  let place ← here
  expect (kw "self")
  if ← pure !borrowed <&&> optional (op ":") then run (.type true)
  return place

/-- A parameter. -/
def parameter : Prog Parameter := do
  let self : Option Place ← attempt .receiver
  match self with
  | some place => return .receiver place
  | none =>
    if ← isNext .name <&&> isSecond (op "<") then
      run (.type true)
      return .typed
    run .pattern
    expect (op ":")
    if ← optional (op "...") then return .variadic
    run (.type true)
    return .typed

/-- The comma that may end a list with a variadic parameter. -/
def variadicEnd : Prog Unit := do
  if ← isNotNext .nothing then expect (op ",")

/-- The parameters of a function, after `count` others. A receiver has to be the
    first of them. -/
def parameters (count : Nat) (received : Bool) : Prog Unit := do
  if ← isNext .nothing then return
  run .outerAttributes
  if ← optional (op "...") then variadicEnd
  else
    let next (received : Bool) : Prog Unit := do
      if ← isNext .nothing then return
      expect (op ",")
      run (.parameters (count + 1) received)
    match ← parameter with
    | .variadic => variadicEnd
    | .receiver place => if received || 0 < count then refusedAt place else next true
    | .typed => next received

/-! ## Use trees -/

/-- A use tree. `rooted` says that members of a group may start with `::`; a
    tree in which one does has no result. -/
def useTree (rooted : Bool) : Prog (Option (UseTree Place)) := do
  if ← isAny [.name, kw "self", kw "super", kw "crate", kw "try"] then
    let name ← textOf .word
    if ← optional (op "::") then
      let rest : Option (UseTree Place) ← call (.useTree false)
      return rest.map (.path name)
    if ← optional (kw "as") then
      if ← isAny [.name, kw "_"] then
        let newName ← textOf .word
        return some (.rename name newName)
      refused
    return some (.name name)
  else
    let place ← here
    if ← optional (op "*") then return some (.glob place)
    if ← isNext brace then
      let members : Option (List (UseTree Place)) ← inside .brace (.useGroup rooted)
      return members.map .group
    refused

/-- The members of a group. -/
def useGroup (rooted : Bool) : Prog (Option (List (UseTree Place))) := do
  if ← isNext .nothing then return some []
  let fromRoot ← pure rooted <&&> optional (op "::")
  let tree : Option (UseTree Place) ← call (.useTree (rooted && !fromRoot))
  let member := if fromRoot then none else tree
  if ← isNext .nothing then return member.map ([·])
  expect (op ",")
  let rest : Option (List (UseTree Place)) ← call (.useGroup rooted)
  return member.bind fun tree => rest.map (tree :: ·)

/-- A `use` item. -/
def useItem (vis : Visibility) : Prog Item := do
  let word ← here
  expect (kw "use")
  let absolute ← optional (op "::")
  let tree : Option (UseTree Place) ← call (.useTree !absolute)
  let semicolon ← here
  expect (op ";")
  match tree with
  | some tree => return .imports ⟨vis, word, absolute, tree, semicolon⟩
  | none => return .other

/-! ## Types and constants -/

/-- A field with a name; one named `_` may spell out its type. -/
def namedField : Prog Unit := do
  run .outerAttributes
  run .visibility
  let unnamed ← optional (kw "_")
  if !unnamed then expect .name
  expect (op ":")
  if ← pure unnamed <&&> (isNext (kw "struct") <||> (isNext (kw "union") <&&> isSecond brace)) then
    expect .word
    runInside .brace (.commas .namedField)
  else run (.type true)

/-- A field without a name. -/
def unnamedField : Prog Unit := do
  run .outerAttributes
  run .visibility
  run (.type true)

/-- A variant of an enumeration. -/
def variant : Prog Unit := do
  run .outerAttributes
  run .visibility
  expect .name
  if ← isNext brace then runInside .brace (.commas .namedField)
  else if ← isNext paren then runInside .paren (.commas .unnamedField)
  if ← optional (op "=") then run (.expr true)

/-- The name of an item, where it stands, and its generic parameters. -/
def itemName : Prog (String × Place) := do
  let place ← here
  let name ← textOf .name
  run .generics
  return (name, place)

/-- A `struct`. -/
def structItem (vis : Visibility) : Prog Item := do
  expect (kw "struct")
  let (name, place) ← itemName
  let constrained : Bool ← call .whereClause
  if ← pure !constrained <&&> isNext paren then
    runInside .paren (.commas .unnamedField)
    run .whereClause
    expect (op ";")
  else if ← isNext brace then runInside .brace (.commas .namedField)
  else expect (op ";")
  return .declaration vis .compositeType name place

/-- An `enum`. -/
def enumItem (vis : Visibility) : Prog Item := do
  expect (kw "enum")
  let (name, place) ← itemName
  run .whereClause
  runInside .brace (.commas .variant)
  return .declaration vis .enumeratedType name place

/-- A `union`. -/
def unionItem (vis : Visibility) : Prog Item := do
  expect (kw "union")
  let (name, place) ← itemName
  run .whereClause
  runInside .brace (.commas .namedField)
  return .declaration vis .compositeType name place

/-- The definition of a type. One without a definition or with bounds declares
    nothing. -/
def typeItem (vis : Visibility) (position : ClausePosition) : Prog Item := do
  expect (kw "type")
  let (name, place) ← itemName
  let bounded ← optional (op ":")
  if bounded then run (.bounds .associated)
  let before : Bool ← if position == .afterDefinition then pure false else call .whereClause
  let defined ← optional (op "=")
  if defined then run (.type true)
  if position != .beforeDefinition && !before then run .whereClause
  expect (op ";")
  return if defined && !bounded then .declaration vis .typeAlias name place else .other

/-- A constant after its first word. One without a value, or with generic
    parameters, declares nothing. -/
def constRest (vis : Visibility) : Prog Item := do
  let place ← here
  if ← isAny [.name, kw "_"] then
    let name ← textOf .word
    let generic : Bool ← call .generics
    expect (op ":")
    run (.type true)
    let valued ← optional (op "=")
    if valued then run (.expr true)
    let constrained : Bool ← call .whereClause
    expect (op ";")
    return if valued && !generic && !constrained then .declaration vis .constant name place else .other
  else refused

/-- A static variable. One without a type or a value declares nothing. -/
def staticItem (vis : Visibility) : Prog Item := do
  expect (kw "static")
  let _ ← optional (kw "mut")
  let place ← here
  let name ← textOf .name
  if ← optional (op "=") then
    run (.expr true)
    expect (op ";")
    return .other
  expect (op ":")
  run (.type true)
  if ← optional (op ";") then return .other
  expect (op "=")
  run (.expr true)
  expect (op ";")
  return .declaration vis .constant name place

/-! ## Traits, implementations and modules -/

/-- The supertraits and body of a trait. -/
def traitRest : Prog Unit := do
  if ← optional (op ":") then run (.bounds .supertraits)
  run .whereClause
  runInside .brace (.body .traitBody)

/-- A trait, or a name for a sum of traits. -/
def traitItem (vis : Visibility) (named : Bool) : Prog Item := do
  expect (kw "trait")
  let (name, place) ← itemName
  if ← pure named <&&> optional (op "=") then
    run (.bounds .traitAlias)
    run .whereClause
    expect (op ";")
  else traitRest
  return .declaration vis .trait name place

/-- An implementation. A negative one needs a trait. -/
def implItem : Prog Item := do
  expect (kw "impl")
  if ← opensGenerics 0 then run .generics
  if ← isNext (kw "const") <||> (isNext (op "?") <&&> isSecond (kw "const")) then
    let _ ← optional (op "?")
    expect (kw "const")
  let place ← here
  let negative ← isNext (op "!") <&&> isNotSecond brace
  if negative then expect (op "!")
  run (.type true)
  if ← optional (kw "for") then run (.type true)
  else if negative then refusedAt place
  run .whereClause
  runInside .brace (.body .implBody)
  return .other

/-- A module. -/
def moduleItem (vis : Visibility) : Prog Item := do
  expect (kw "mod")
  let place ← here
  let name ← if ← isNext (kw "try") then textOf .word else textOf .name
  if ← isNext brace then runInside .brace .moduleBody else expect (op ";")
  return .declaration vis .submodule name place

/-- A block of foreign items after its calling convention. It has no visibility:
    one that does is refused where it starts. -/
def foreignItem (vis : Visibility) (start : Place) : Prog Item := do
  if ← isNotNext brace then refused
  if vis != .inherited then refusedAt start
  runInside .brace (.body .foreignBody)
  return .other

/-- An item that starts with `extern`. -/
def externItem (vis : Visibility) (start : Place) : Prog Item := do
  expect (kw "extern")
  if ← optional (kw "crate") then
    if ← isNext (kw "self") then expect .word else expect .name
    if ← optional (kw "as") then
      if ← isNext (kw "_") then expect .word else expect .name
    expect (op ";")
    return .other
  let _ ← optional .text
  foreignItem vis start

/-- A call of mere tokens as an item. -/
def callItem : Prog Item := do
  run .modulePath
  expect (op "!")
  if ← isNext (kw "try") then expect .word
  else
    let _ ← optional .name
  let inBraces ← isNext brace
  expect .anyGroup
  if !inBraces then expect (op ";")
  return .other

/-- A definition by token patterns. -/
def patternItem : Prog Item := do
  expect (kw "macro")
  expect .name
  let _ ← optional paren
  expect brace
  return .other

/-- A function. -/
def functionItem (vis : Visibility) : Prog Item := do
  let (name, place) : String × Place ← call (.signature false)
  if ← optional (op ";") then return .other
  attributedBlock
  return .declaration vis .function name place

/-- Whether the head of a function starts here. -/
def opensFunction (safe : Bool) : Prog Bool := do
  let head : Option Unit ← wouldBe (.signatureAhead safe)
  return head.isSome

/-- An item that starts with `unsafe`. -/
def unsafeItem (vis : Visibility) (start : Place) : Prog Item := do
  expect (kw "unsafe")
  if ← isNext (kw "trait") then traitItem vis false
  else if ← isNext (kw "auto") <&&> isSecond (kw "trait") then
    expect .word
    traitItem vis false
  else if ← isNext (kw "impl") then implItem
  else if ← isNext (kw "extern") then
    if vis != .inherited then refusedAt start
    callingConvention
    foreignItem vis start
  else if ← isNext (kw "mod") then moduleItem vis
  else refused

/-- What a path may start with at the head of an item. -/
def callStart : List Class := [.name, kw "self", kw "super", kw "crate", op "::"]

/-- An item without its attributes. -/
def itemAfterAttributes : Prog Item := do
  let start ← here
  let vis : Visibility ← call .visibility
  if ← opensFunction false then functionItem vis
  else if ← isNext (kw "extern") then externItem vis start
  else if ← isNext (kw "use") then useItem vis
  else if ← isNext (kw "static") then staticItem vis
  else if ← optional (kw "const") then constRest vis
  else if ← isNext (kw "unsafe") then unsafeItem vis start
  else if ← isNext (kw "mod") then moduleItem vis
  else if ← isNext (kw "type") then typeItem vis .beforeDefinition
  else if ← isNext (kw "struct") then structItem vis
  else if ← isNext (kw "enum") then enumItem vis
  else if ← isNext (kw "union") <&&> isSecond .name then unionItem vis
  else if ← isNext (kw "trait") then traitItem vis true
  else if ← isNext (kw "auto") <&&> isSecond (kw "trait") then
    expect .word
    traitItem vis false
  else if ← isNext (kw "impl") <||> (isNext (kw "default") <&&> isNotSecond (op "!")) then
    let _ ← optional (kw "default")
    let _ ← optional (kw "unsafe")
    implItem
  else if ← isNext (kw "macro") then patternItem
  else if ← pure (vis == .inherited) <&&> isAny callStart then callItem
  else refused

/-- An item. -/
def item : Prog Item := do
  run .outerAttributes
  call .itemAfterAttributes

/-- Items up to the end of the group or the unit. -/
def items : Prog (List Item) := do
  if ← isNext .nothing then return []
  let first : Item ← call .item
  let rest : List Item ← call .items
  return first :: rest

/-- The content of a module. -/
def moduleBody : Prog Unit := do
  run .innerAttributes
  run .items

/-- A unit. -/
def unit : Prog (List Item) := do
  run .innerAttributes
  call .items

/-! ## Items of traits, implementations and foreign blocks -/

/-- A call of mere tokens as an associated item. -/
def associatedCall : Prog Unit := do
  run .modulePath
  expect (op "!")
  let inBraces ← isNext brace
  expect .anyGroup
  if !inBraces then expect (op ";")

/-- The head of a function that lacks the word `fn` after `const`. -/
def brokenSignature : Prog Unit := do
  if ← isAny [kw "async", kw "unsafe", kw "extern"] then
    let _ ← optional (kw "async")
    let _ ← optional (kw "unsafe")
    callingConvention
  refused

/-- An item of a trait. -/
def traitMember : Prog Unit := do
  let vis : Visibility ← call .visibility
  let marked ← optional (kw "default")
  if ← opensFunction false then
    run (.signature false)
    if ← isNext brace then attributedBlock else expect (op ";")
  else if ← optional (kw "const") then
    if ← isAny [.name, kw "_"] then
      let _ ← constRest vis
    else brokenSignature
  else if ← isNext (kw "type") then
    let _ ← typeItem vis .afterDefinition
  else if ← pure (vis == .inherited && !marked) <&&> isAny callStart then associatedCall
  else refused

/-- An item of an implementation. -/
def implMember : Prog Unit := do
  let vis : Visibility ← call .visibility
  let marked ← isNext (kw "default") <&&> isNotSecond (op "!")
  if marked then expect .word
  if ← opensFunction false then
    run (.signature false)
    if ← isNotNext (op ";") then attributedBlock else expect (op ";")
  else if ← optional (kw "const") then
    let _ ← constRest vis
  else if ← isNext (kw "type") then
    let _ ← typeItem vis .afterDefinition
  else if ← pure (vis == .inherited && !marked) <&&> isAny callStart then associatedCall
  else refused

/-- An item of a foreign block. -/
def foreignMember : Prog Unit := do
  let vis : Visibility ← call .visibility
  if ← opensFunction true then
    run (.signature true)
    if ← isNext brace then attributedBlock else expect (op ";")
  else if ← isNext (kw "static") <||> (isAny [kw "unsafe", kw "safe"] <&&> isSecond (kw "static")) then
    if ← isNotNext (kw "static") then expect .word
    expect (kw "static")
    let _ ← optional (kw "mut")
    expect .name
    expect (op ":")
    run (.type true)
    if ← optional (op "=") then run (.expr true)
    expect (op ";")
  else if ← isNext (kw "type") then
    let _ ← typeItem vis .either
  else if ← pure (vis == .inherited) <&&> isAny callStart then associatedCall
  else refused

/-- An item of a trait, an implementation or a foreign block. -/
def associatedItem (container : Container) : Prog Unit := do
  run .outerAttributes
  match container with
  | .traitBody => traitMember
  | .implBody => implMember
  | .foreignBody => foreignMember

/-- The content of a trait, an implementation or a foreign block. -/
def body (container : Container) : Prog Unit := do
  run .innerAttributes
  run (.repeated (.associatedItem container))

end Reexport.Grammar.Rule
