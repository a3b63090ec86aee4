import Reexport.Grammar.Nonterminal
import Reexport.Source.Literal
import Reexport.Source.Token

/-!
# Grammar programs

A rule of the grammar is a program over a few operations: look at the trees
ahead, take one, enter a group, call another rule. Programs are data, so a fact
about all of them (a rule never moves backwards, say) is one induction.

A group is left when the rule for its content ends. Trees that the rule did not
take are not an error at once: the first such tree is noted, and the unit is
refused for it only when everything else is in order.
-/

namespace Reexport.Grammar

open Source

/-! ## Classes of trees -/

/-- Words that cannot be names unless they are raw. -/
def keywords : List String :=
  ["_", "abstract", "as", "async", "await", "become", "box", "break", "const", "continue", "crate",
   "do", "dyn", "else", "enum", "extern", "false", "final", "fn", "for", "if", "impl", "in", "let",
   "loop", "macro", "match", "mod", "move", "mut", "override", "priv", "pub", "ref", "return", "Self",
   "self", "static", "struct", "super", "trait", "true", "try", "type", "typeof", "unsafe", "unsized",
   "use", "virtual", "where", "while", "yield"]

/-- What a program can look for. -/
inductive Class where
  /-- The end of the group. -/
  | nothing
  /-- A word that may be a name. -/
  | name
  /-- Any word. -/
  | word
  /-- This word, not raw. -/
  | keyword (text : String)
  /-- The operator `text`, unless one of `longer` stands there. -/
  | op (text : String) (longer : List String)
  | lifetime
  /-- A literal, a truth value or a negative number. -/
  | literal
  /-- A text literal. -/
  | text
  | integer
  /-- A number that is no integer. -/
  | decimal
  | group (d : Delimiter)
  | anyGroup
  /-- `(crate)`, `(self)` or `(super)`. -/
  | restriction
  /-- A parenthesis that starts with `in`. -/
  | restrictionPath
  deriving DecidableEq, Repr

/-- The trees after an operator. All its characters but the last have to be
    joined to the next. -/
def afterOp? : List Char → List Tree → Option (List Tree)
  | [c], .leaf (.punct d _) :: ts => if c = d then some ts else none
  | c :: cs, .leaf (.punct d joint) :: ts => if c = d ∧ joint then afterOp? cs ts else none
  | _, _ => none

/-- The text of a tree of the class at the head of the list and what follows it.
    Only words and literals have a text. -/
def Class.read? (cls : Class) (trees : List Tree) : Option (String × List Tree) :=
  match cls, trees with
  | .nothing, [] => some ("", [])
  | .name, .leaf (.word raw w) :: ts =>
    if raw || !keywords.contains w then some (w, ts) else none
  | .word, .leaf (.word _ w) :: ts => some (w, ts)
  | .keyword s, .leaf (.word false w) :: ts => if w = s then some (w, ts) else none
  | .op s longer, ts =>
    if longer.any fun other => (afterOp? other.toList ts).isSome then none
    else (afterOp? s.toList ts).map fun rest => ("", rest)
  | .lifetime, .leaf (.lifetime w) :: ts => some (w, ts)
  | .literal, .leaf (.literal _ lexeme) :: ts => some (lexeme, ts)
  | .literal, .leaf (.word false w) :: ts =>
    if w = "true" ∨ w = "false" then some (w, ts) else none
  | .literal, .leaf (.punct '-' _) :: .leaf (.literal .number lexeme) :: ts => some (lexeme, ts)
  | .text, .leaf (.literal .text lexeme) :: ts => some (lexeme, ts)
  | .integer, .leaf (.literal .number lexeme) :: ts =>
    if (integer? lexeme.toList).isSome then some (lexeme, ts) else none
  | .decimal, .leaf (.literal .number lexeme) :: ts =>
    if (integer? lexeme.toList).isNone then some (lexeme, ts) else none
  | .group d, .group e _ :: ts => if d = e then some ("", ts) else none
  | .anyGroup, .group _ _ :: ts => some ("", ts)
  | .restriction, .group .paren [.leaf (.word false w)] :: ts =>
    if w ∈ ["crate", "self", "super"] then some ("", ts) else none
  | .restrictionPath, .group .paren (.leaf (.word false "in") :: _) :: ts => some ("", ts)
  | _, _ => none

/-! ## Programs -/

/-- A program with result `α`. -/
inductive Prog (α : Type) where
  | done (value : α)
  /-- The unit is refused at `place`, or here. -/
  | refuse (place : Option Place)
  /-- The place of the next lexeme. -/
  | mark (next : Place → Prog α)
  /-- Whether the trees after the first `skip` start with one of the class. -/
  | ask (skip : Nat) (cls : Class) (next : Bool → Prog α)
  /-- Whether the last tree taken is a group in braces. -/
  | braced (next : Bool → Prog α)
  /-- Takes a tree of the class and gives its text; any other tree is refused. -/
  | take (cls : Class) (next : String → Prog α)
  /-- Takes a group and reads its content by a rule. -/
  | inside (d : Delimiter) (content : Nonterminal) (next : content.Result → Prog α)
  | call (rule : Nonterminal) (next : rule.Result → Prog α)
  /-- Calls a rule; if that is refused, nothing is taken. -/
  | attempt (rule : Nonterminal) (next : Option rule.Result → Prog α)
  /-- Calls a rule and takes nothing. -/
  | ahead (rule : Nonterminal) (next : Option rule.Result → Prog α)

/-- One program after another. -/
def Prog.bind {α β : Type} (p : Prog α) (f : α → Prog β) : Prog β :=
  match p with
  | .done value => f value
  | .refuse place => .refuse place
  | .mark next => .mark fun place => (next place).bind f
  | .ask skip cls next => .ask skip cls fun b => (next b).bind f
  | .braced next => .braced fun b => (next b).bind f
  | .take cls next => .take cls fun text => (next text).bind f
  | .inside d content next => .inside d content fun r => (next r).bind f
  | .call rule next => .call rule fun r => (next r).bind f
  | .attempt rule next => .attempt rule fun r => (next r).bind f
  | .ahead rule next => .ahead rule fun r => (next r).bind f

instance : Monad Prog where
  pure := .done
  bind := Prog.bind

/-! ## The words of programs -/

/-- The operator `text`. -/
abbrev op (text : String) : Class := .op text []

/-- The reserved word `text`. -/
abbrev kw (text : String) : Class := .keyword text

/-- A group in parentheses. -/
abbrev paren : Class := .group .paren

/-- A group in brackets. -/
abbrev bracket : Class := .group .bracket

/-- A group in braces. -/
abbrev brace : Class := .group .brace

/-- Refuses the unit here. -/
def refused {α : Type} : Prog α := .refuse none

/-- Refuses the unit at a place. -/
def refusedAt {α : Type} (place : Place) : Prog α := .refuse (some place)

/-- The place of the next lexeme. -/
def here : Prog Place := .mark .done

/-- Whether a tree of the class comes next. -/
def isNext (cls : Class) : Prog Bool := .ask 0 cls .done

/-- Whether no tree of the class comes next. -/
def isNotNext (cls : Class) : Prog Bool := .ask 0 cls fun b => .done !b

/-- Whether a tree of the class comes after the next one. -/
def isSecond (cls : Class) : Prog Bool := .ask 1 cls .done

/-- Whether no tree of the class comes after the next one. -/
def isNotSecond (cls : Class) : Prog Bool := .ask 1 cls fun b => .done !b

/-- Whether a tree of the class comes after the next two. -/
def isThird (cls : Class) : Prog Bool := .ask 2 cls .done

/-- Whether no tree of the class comes after the next two. -/
def isNotThird (cls : Class) : Prog Bool := .ask 2 cls fun b => .done !b

/-- Whether one of the classes comes next. -/
def isAny : List Class → Prog Bool
  | [] => .done false
  | cls :: rest => .ask 0 cls fun b => if b then .done true else isAny rest

/-- Whether one of the classes comes after the next tree. -/
def isAnySecond : List Class → Prog Bool
  | [] => .done false
  | cls :: rest => .ask 1 cls fun b => if b then .done true else isAnySecond rest

/-- Whether one of the classes comes after the next two trees. -/
def isAnyThird : List Class → Prog Bool
  | [] => .done false
  | cls :: rest => .ask 2 cls fun b => if b then .done true else isAnyThird rest

/-- Takes a tree of the class. -/
def expect (cls : Class) : Prog Unit := .take cls fun _ => .done ()

/-- Takes a tree of the class and gives its text. -/
def textOf (cls : Class) : Prog String := .take cls .done

/-- Takes a tree of the class if one comes next. -/
def optional (cls : Class) : Prog Bool :=
  .ask 0 cls fun b => if b then .take cls fun _ => .done true else .done false

/-- Calls a rule. -/
def call (rule : Nonterminal) : Prog rule.Result := .call rule .done

/-- Calls a rule for what it takes only. -/
def run (rule : Nonterminal) : Prog Unit := .call rule fun _ => .done ()

/-- Takes a group and reads its content by a rule. -/
def inside (d : Delimiter) (content : Nonterminal) : Prog content.Result := .inside d content .done

/-- Takes a group for what its content takes only. -/
def runInside (d : Delimiter) (content : Nonterminal) : Prog Unit :=
  .inside d content fun _ => .done ()

/-- Calls a rule; if that is refused, nothing is taken. -/
def attempt (rule : Nonterminal) : Prog (Option rule.Result) := .attempt rule .done

/-- What a rule would result in here. -/
def wouldBe (rule : Nonterminal) : Prog (Option rule.Result) := .ahead rule .done

/-- The first entry of a table whose class comes next. -/
def firstOf {β : Type} : List (Class × β) → Prog (Option (Class × β))
  | [] => .done none
  | (cls, value) :: rest => .ask 0 cls fun b => if b then .done (some (cls, value)) else firstOf rest

end Reexport.Grammar
