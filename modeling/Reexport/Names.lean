/-!
# Sets of names

Names in character order, each once.
-/

namespace Reexport

/-- A text put in its place of a sorted list, unless it is there. -/
def insertName (name : String) : List String → List String
  | [] => [name]
  | other :: rest =>
    if name < other then name :: other :: rest
    else if name = other then other :: rest
    else other :: insertName name rest

/-- The different texts of a list in order. -/
def sortedNames (names : List String) : List String :=
  names.foldr insertName []

end Reexport
