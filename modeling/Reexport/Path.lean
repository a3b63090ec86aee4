/-!
# Paths

A path is kept as it is spelled, but paths are compared by their components, so
`a//b/.` and `a/b` are the same path.
-/

namespace Reexport.Path

/-- A component of a path. -/
inductive Component where
  /-- The leading separator. -/
  | root
  /-- A leading `.`. -/
  | here
  /-- `..`. -/
  | up
  | name (text : List Char)
  deriving DecidableEq, Repr, Inhabited

/-- The pieces of a text between separators. -/
def pieces : List Char → List (List Char)
  | [] => [[]]
  | c :: cs =>
    if c = '/' then [] :: pieces cs
    else match pieces cs with
      | [] => [[c]]
      | first :: rest => (c :: first) :: rest

/-- The component of a piece; empty pieces and `.` have none. -/
def component? (piece : List Char) : Option Component :=
  if piece = [] ∨ piece = ['.'] then none
  else if piece = ['.', '.'] then some .up
  else some (.name piece)

/-- The components of a path. Only at the start does `.` count. -/
def components (path : String) : List Component :=
  match pieces path.toList with
  | [] => []
  | [[]] => []
  | [] :: rest => .root :: rest.filterMap component?
  | first :: rest =>
    (if first = ['.'] then [.here] else (component? first).toList) ++ rest.filterMap component?

/-- How a component is written. -/
def Component.text : Component → List Char
  | .root => []
  | .here => ['.']
  | .up => ['.', '.']
  | .name text => text

/-- The rank of a component among the different sorts. -/
def Component.rank : Component → Nat
  | .root => 0
  | .here => 1
  | .up => 2
  | .name _ => 3

/-- The order of components: names come last, in character order. -/
def Component.compare (a b : Component) : Ordering :=
  match a, b with
  | .name s, .name t => Ord.compare (String.ofList s) (String.ofList t)
  | _, _ => Ord.compare a.rank b.rank

/-- The order of component sequences, first difference first. -/
def compareComponents : List Component → List Component → Ordering
  | [], [] => .eq
  | [], _ :: _ => .lt
  | _ :: _, [] => .gt
  | a :: as, b :: bs =>
    match a.compare b with
    | .eq => compareComponents as bs
    | order => order

/-- The order of paths by their components. -/
def compare (a b : String) : Ordering :=
  compareComponents (components a) (components b)

/-- Whether a path starts at the root. -/
def isAbsolute (path : String) : Bool :=
  path.toList.head? == some '/'

/-- `path` as seen from the directory `base`. -/
def join (base path : String) : String :=
  if isAbsolute path then path
  else if base.isEmpty || base.toList.getLast? == some '/' then base ++ path
  else base ++ "/" ++ path

/-- Component texts with separators between them. -/
def joinTexts : List (List Char) → List Char
  | [] => []
  | [text] => text
  | text :: rest => text ++ '/' :: joinTexts rest

/-- What is left of `path` under `base`, if it lies there. -/
def under? (base path : String) : Option String :=
  if (components base).isPrefixOf (components path) then
    some (String.ofList (joinTexts (((components path).drop (components base).length).map
      Component.text)))
  else none

/-- `path` relative to `base`, or as it is when it does not lie there. -/
def relativeTo (base path : String) : String :=
  (under? base path).getD path

/-- Whether a path ends with all components of another. -/
def endsWith (path tail : String) : Bool :=
  (components tail).isSuffixOf (components path)

/-- The last component, if it is a name. -/
def fileName? (path : String) : Option String :=
  match (components path).getLast? with
  | some (.name text) => some (String.ofList text)
  | _ => none

/-- A file name before and after its last point. A point in front of the name
    separates nothing. -/
def splitExtension (name : String) : String × Option String :=
  let reversed := name.toList.reverse
  let extension := reversed.takeWhile (· != '.')
  match reversed.drop extension.length with
  | _ :: c :: stem =>
    (String.ofList (c :: stem).reverse, some (String.ofList extension.reverse))
  | _ => (name, none)

end Reexport.Path
