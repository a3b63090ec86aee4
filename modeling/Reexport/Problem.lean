/-!
# Problems

Everything that can go wrong in a run, by cause. Most problems are findings about
one unit or one directive: they are collected and reported at the end. Only an
unusable root, an invalid pattern or invalid settings end a run before it starts.
-/

namespace Reexport

/-- What went wrong. -/
inductive Problem where
  | unreadable (path cause : String)
  /-- The unit is not well formed. -/
  | malformed (path : String) (line : Nat) (message : String)
  | ambiguous (path : String) (line : Nat) (directive reason : String)
  /-- Different declarations compete for a name. -/
  | collision (module name : String) (contributors : List String)
  | shadowed (module name : String) (hidden : List String)
  | unwritable (path message : String)
  | cyclicLink (path target : String)
  | unresolved (path : String) (line : Nat) (target : String)
  | cycle (path : String) (line : Nat) (target : String)
  | incomplete (path : String) (line : Nat) (target reason : String)
  | invalidRoot (path : String)
  | invalidPattern (pattern message : String)
  | invalidSettings (path message : String)
  deriving DecidableEq, Repr, Inhabited

namespace Problem

/-- The name of the cause in reports. -/
def kind : Problem → String
  | .unreadable .. => "unreadable_unit"
  | .malformed .. => "unterminated_token"
  | .ambiguous .. => "ambiguous_directive"
  | .collision .. => "collision"
  | .shadowed .. => "shadowed_name"
  | .unwritable .. => "write_failure"
  | .cyclicLink .. => "cyclic_link"
  | .unresolved .. => "unresolved_target"
  | .cycle .. => "reexport_cycle"
  | .incomplete .. => "incomplete_target"
  | .invalidRoot .. => "invalid_root"
  | .invalidPattern .. => "invalid_pattern"
  | .invalidSettings .. => "config"

/-- The problem in words. -/
def message : Problem → String
  | .unreadable path cause => "cannot read " ++ path ++ ": " ++ cause
  | .malformed path line message => path ++ ":" ++ toString line ++ ": " ++ message
  | .ambiguous path line directive reason =>
    path ++ ":" ++ toString line ++ ": ambiguous re-export `" ++ directive ++ "`: " ++ reason
  | .collision module name contributors =>
    "`" ++ name ++ "` is contributed by " ++ toString contributors.length ++ " sources in " ++ module
  | .shadowed module name hidden =>
    "`" ++ name ++ "` in " ++ module ++ " shadows " ++ toString hidden.length ++
      " glob-imported item(s)"
  | .unwritable path message => "cannot write " ++ path ++ ": " ++ message
  | .cyclicLink path target => path ++ " links back to " ++ target ++ ", skipping"
  | .unresolved path line target =>
    path ++ ":" ++ toString line ++ ": re-export target `" ++ target ++
      "` is not a module of this tree"
  | .cycle path line target =>
    path ++ ":" ++ toString line ++ ": re-export of `" ++ target ++
      "` loops back to a module still being resolved"
  | .incomplete path line target reason =>
    path ++ ":" ++ toString line ++ ": exports of `" ++ target ++ "` are incomplete (" ++ reason ++
      "), directive left as is"
  | .invalidRoot path => "root " ++ path ++ " is not a readable directory"
  | .invalidPattern pattern message => "invalid glob pattern `" ++ pattern ++ "`: " ++ message
  | .invalidSettings path message => "invalid configuration " ++ path ++ ": " ++ message

/-- The file that a problem is about. -/
def path? : Problem → Option String
  | .unreadable path _ | .malformed path .. | .ambiguous path .. | .unwritable path _
  | .cyclicLink path _ | .unresolved path .. | .cycle path .. | .incomplete path ..
  | .invalidRoot path | .invalidSettings path _ => some path
  | .collision .. | .shadowed .. | .invalidPattern .. => none

/-- The line that a problem is about. -/
def line? : Problem → Option Nat
  | .malformed _ line _ | .ambiguous _ line .. | .unresolved _ line _ | .cycle _ line _
  | .incomplete _ line .. => some line
  | .unreadable .. | .collision .. | .shadowed .. | .unwritable .. | .cyclicLink ..
  | .invalidRoot .. | .invalidPattern .. | .invalidSettings .. => none

/-- How much a problem weighs on the exit status. -/
inductive Severity where
  | warning
  | failure
  deriving DecidableEq, Repr, Inhabited

/-- The word for a severity in reports. -/
def Severity.label : Severity → String
  | .warning => "warning"
  | .failure => "failure"

/-- The severity of a problem; a collision is a failure only when `strict`. -/
def severity (strict : Bool) : Problem → Severity
  | .collision .. => if strict then .failure else .warning
  | .shadowed .. | .ambiguous .. | .cyclicLink .. | .unresolved .. | .cycle .. | .incomplete .. =>
    .warning
  | .unreadable .. | .malformed .. | .unwritable .. | .invalidRoot .. | .invalidPattern ..
  | .invalidSettings .. => .failure

end Problem

end Reexport
