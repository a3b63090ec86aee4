import Reexport.Directive
import Reexport.Grammar.Parse
import Reexport.Source.Lexer

/-!
# Scanning a unit

`scan` reads the text of a unit and finds what it declares for others and which
names it re-exports. A unit that is not well formed is refused as a whole, with
the line of its first fault.

Spans are byte ranges of the text as given. A byte order mark in front of the
text is part of it, though lines and columns are counted after the mark.
-/

namespace Reexport

open Source Grammar Text

/-- What is known about a unit. -/
structure Scan where
  path : String
  /-- The text that was scanned; spans are ranges of it. -/
  source : String
  symbols : List Symbol
  directives : List Directive
  deriving Repr, Inhabited

namespace Scan

/-- A text in which lexemes have been found. -/
structure Lexed where
  /-- The bytes in front of the text. -/
  lead : Nat
  text : List Char
  lexemes : Array Placed

/-- The lexeme at a place. -/
def Lexed.at? (lexed : Lexed) (place : Place) : Option Placed :=
  lexed.lexemes[lexed.lexemes.size - place]?

/-- Where the lexeme at a place starts. -/
def Lexed.start (lexed : Lexed) (place : Place) : Location :=
  (lexed.at? place).elim .first (·.start)

/-- Where the lexeme at a place stops. -/
def Lexed.stop (lexed : Lexed) (place : Place) : Location :=
  (lexed.at? place).elim .first (·.stop)

/-- The byte offset in the whole text of a location after the lead. -/
def Lexed.offset (lexed : Lexed) (location : Location) : Nat :=
  lexed.lead + offsetAt lexed.text location

/-- The byte range of the lexeme at a place. -/
def Lexed.span (lexed : Lexed) (place : Place) : Span :=
  ⟨lexed.offset (lexed.start place), lexed.offset (lexed.stop place)⟩

/-- The text between the lexeme at `a` and the one at `b`. -/
def Lexed.between (lexed : Lexed) (a b : Place) : List Char :=
  (slice? (offsetAt lexed.text (lexed.stop a)) (offsetAt lexed.text (lexed.start b)) lexed.text).getD []

/-- The directive of a `use` item whose `pub` stands at `first`. -/
def directive (path : String) (lexed : Lexed) (first : Place) (item : UseItem) : Directive where
  unit := path
  tree := String.ofList (trim (lexed.between item.word item.semicolon))
  span := ⟨lexed.offset (lexed.start first), lexed.offset (lexed.stop item.semicolon)⟩
  line := lineAt lexed.text (offsetAt lexed.text (lexed.start first))
  absolute := item.absolute
  form := item.tree.form.map lexed.span

/-- The symbol of an item. A declaration without a name has none. -/
def symbol? (path : String) (lexed : Lexed) : Item → Option Symbol
  | .declaration (.visible _) kind name place =>
    if name = "_" then none else some ⟨name, kind, path, (lexed.start place).line⟩
  | .declaration .. | .imports _ | .other => none

/-- The directive of an item. -/
def directive? (path : String) (lexed : Lexed) : Item → Option Directive
  | .imports item =>
    match item.visibility with
    | .visible first => some (directive path lexed first item)
    | .inherited | .restricted => none
  | .declaration .. | .other => none

/-- The items of a text, or the line of its first fault. A fault at the very end
    is reported on line 1. -/
def items (lead : Nat) (text : List Char) : Except Nat (Lexed × List Item) :=
  match lexUnit text with
  | .error location => .error location.line
  | .ok placed =>
    let lexed : Lexed := ⟨lead, text, placed.toArray⟩
    match nest? (placed.map (·.lexeme)) with
    | none => .error 1
    | some trees =>
      match parseUnit trees with
      | .error place => .error (lexed.start place).line
      | .ok items => .ok (lexed, items)

end Scan

/-- What a unit declares and re-exports, or the line of its first fault. -/
def scan (path source : String) : Except Nat Scan := do
  let chars := source.toList
  let text := withoutMark chars
  let (lexed, items) ← Scan.items (byteSize chars - byteSize text) text
  return ⟨path, source, items.filterMap (Scan.symbol? path lexed),
    items.filterMap (Scan.directive? path lexed)⟩

end Reexport
