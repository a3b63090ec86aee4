import Reexport.Text.Blank
import Reexport.Text.Ident
import Reexport.Text.Location

/-!
# Edits

An edit replaces the star of a wildcard by a list of names. Nothing else of the
text changes. A list stands on one line if that line is not too wide then, and
otherwise has a line for each name.
-/

namespace Reexport

open Text

/-- Replaces the star at `star` by `names`. -/
structure Edit where
  star : Span
  names : List String
  deriving DecidableEq, Repr, Inhabited

namespace Edit

/-- Texts with a separator between them. -/
def separated (separator : List Char) : List (List Char) → List Char
  | [] => []
  | [text] => text
  | text :: rest => text ++ separator ++ separated separator rest

/-- The list on one line. -/
def oneLine (names : List String) : List Char :=
  '{' :: separated [',', ' '] (names.map fun name => (spelled name).toList) ++ ['}']

/-- The list with a line for each name, indented further than the line that it
    starts on. -/
def wrapped (newline indent : List Char) (names : List String) : List Char :=
  '{' :: newline ++
    (names.flatMap fun name => indent ++ [' ', ' ', ' ', ' '] ++ (spelled name).toList ++ ',' :: newline) ++
    indent ++ ['}']

/-- The part of the last line of a text. -/
def lastLine (before : List Char) : List Char :=
  (before.reverse.takeWhile (· != '\n')).reverse

/-- The rest of the first line of a text, without carriage returns at its end. -/
def firstLine (after : List Char) : List Char :=
  dropRightWhile (· == '\r') (after.takeWhile (· != '\n'))

/-- The list between `before` and `after`, at most `width` characters wide if it
    can be. -/
def render (newline : List Char) (width : Nat) (names : List String) (before after : List Char) :
    List Char :=
  let single := oneLine names
  if names.isEmpty || (lastLine before).length + single.length + (firstLine after).length ≤ width then
    single
  else wrapped newline ((lastLine before).takeWhile fun c => c == ' ' || c == '\t') names

/-- Whether a line of the text ends in a carriage return and a newline. -/
def hasReturns : List Char → Bool
  | '\r' :: '\n' :: _ => true
  | _ :: cs => hasReturns cs
  | [] => false

/-- The line end of a text. -/
def newlineOf (text : List Char) : List Char :=
  if hasReturns text then ['\r', '\n'] else ['\n']

/-- The text before and after a span that holds a star and nothing else. -/
def around? (star : Span) (text : List Char) : Option (List Char × List Char) :=
  if star.text? text = some ['*'] then
    (split? star.start text).map fun (before, after) => (before, after.drop 1)
  else none

/-- The rendered list of an edit; an edit whose span holds no star is stale. -/
def rendered? (text : List Char) (width : Nat) (e : Edit) : Option (List Char) :=
  (around? e.star text).map fun (before, after) =>
    render (newlineOf text) width e.names before after

/-- One character at a byte offset replaced by a text. -/
def replaceAt (start : Nat) (list text : List Char) : List Char :=
  match split? start text with
  | some (before, _ :: after) => before ++ list ++ after
  | _ => text

/-- Edits from the end of the text to its start; of those at one place, the
    first comes first. -/
def backwards (edits : List Edit) : List Edit :=
  edits.mergeSort fun a b => b.star.start ≤ a.star.start

/-- The text after edits, taken from its end to its start so that the spans of
    those to come stay valid. -/
def applyAll (text : List Char) (width : Nat) : List Edit → (out : List Char) → Except Nat (List Char)
  | [], out => .ok out
  | e :: rest, out =>
    match rendered? text width e with
    | none => .error (min e.star.start (byteSize text))
    | some list => applyAll text width rest (replaceAt e.star.start list out)

end Edit

/-- A text with its edits applied, and the rendered list of each edit. -/
structure Planned where
  text : String
  rendered : List String
  deriving DecidableEq, Repr, Inhabited

/-- Applies edits to a text. A stale edit ends it, with the offset at which no
    star stands. -/
def planEdits (text : String) (edits : List Edit) (width : Nat) : Except Nat Planned := do
  let chars := text.toList
  let out ← Edit.applyAll chars width (Edit.backwards edits) chars
  return ⟨String.ofList out,
    edits.map fun e => String.ofList ((Edit.rendered? chars width e).getD [])⟩

end Reexport
