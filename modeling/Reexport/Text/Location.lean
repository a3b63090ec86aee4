import Reexport.Text.Utf8

/-!
# Lines and columns

A location is a 1-based line and a 0-based column counted in characters. Lines
end at a newline and at nothing else, so a carriage return is an ordinary
character. `offsetAt` turns a location into a byte offset, `lineAt` turns a byte
offset into its line.

A column may reach past the end of its line: it then counts on into the lines
that follow, and a location past the end of the text stands for the end.
-/

namespace Reexport.Text

/-- A place in a text as people write it. -/
structure Location where
  /-- Counted from 1. -/
  line : Nat
  /-- Counted from 0, in characters. -/
  column : Nat
  deriving DecidableEq, Repr, Inhabited

/-- The first place of a text. -/
def Location.first : Location := ⟨1, 0⟩

/-- The place after character `c`. -/
def Location.past (loc : Location) (c : Char) : Location :=
  if c = '\n' then ⟨loc.line + 1, 0⟩ else ⟨loc.line, loc.column + 1⟩

/-- The place after a whole text. -/
def Location.pastAll (loc : Location) (cs : List Char) : Location :=
  cs.foldl Location.past loc

/-- The text cut after its first `n` lines. -/
def splitLines : Nat → List Char → List Char × List Char
  | 0, cs => ([], cs)
  | _ + 1, [] => ([], [])
  | n + 1, c :: cs =>
    let (before, after) := splitLines (if c = '\n' then n else n + 1) cs
    (c :: before, after)

/-- The byte offset of a location. Line 0 is read as line 1. -/
def offsetAt (cs : List Char) (loc : Location) : Nat :=
  let (before, after) := splitLines (loc.line - 1) cs
  byteSize before + byteSize (after.take loc.column)

/-- The number of newlines among the characters that start before byte `n`. -/
def newlinesBefore : Nat → List Char → Nat
  | 0, _ => 0
  | _ + 1, [] => 0
  | n + 1, c :: cs => (if c = '\n' then 1 else 0) + newlinesBefore (n + 1 - c.utf8Size) cs

/-- The line of a byte offset, counted from 1; an offset past the end is on the
    last line. -/
def lineAt (cs : List Char) (offset : Nat) : Nat :=
  newlinesBefore offset cs + 1

/-- A byte range, from `start` up to `stop`. -/
structure Span where
  start : Nat
  stop : Nat
  deriving DecidableEq, Repr, Inhabited

/-- The text of a span, if both ends are character boundaries in order. -/
def Span.text? (span : Span) (cs : List Char) : Option (List Char) :=
  slice? span.start span.stop cs

end Reexport.Text
