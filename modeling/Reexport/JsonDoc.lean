import Reexport.Double

/-!
# JSON documents

Values with objects whose fields keep their order, and how they are written with
a line for each element.
-/

namespace Reexport

/-- A JSON value. -/
inductive JsonDoc where
  | boolean (b : Bool)
  | number (n : Nat)
  | double (d : Double)
  | text (s : String)
  | array (items : List JsonDoc)
  | object (fields : List (String × JsonDoc))
  deriving Repr, Inhabited

namespace JsonDoc

/-- A digit of a number below 16. -/
def hexDigit (n : Nat) : Char := Nat.digitChar n

/-- How a character is written inside quotes. -/
def escape (c : Char) : List Char :=
  if c = '"' then ['\\', '"']
  else if c = '\\' then ['\\', '\\']
  else if c = '\n' then ['\\', 'n']
  else if c = '\r' then ['\\', 'r']
  else if c = '\t' then ['\\', 't']
  else if c.toNat = 8 then ['\\', 'b']
  else if c.toNat = 12 then ['\\', 'f']
  else if c.toNat < 32 then
    ['\\', 'u', '0', '0', hexDigit (c.toNat / 16), hexDigit (c.toNat % 16)]
  else [c]

/-- A text between quotes. -/
def quoted (s : String) : String :=
  "\"" ++ String.ofList (s.toList.flatMap escape) ++ "\""

/-- A new line, two blanks in for each level. -/
def newline (level : Nat) : String :=
  "\n" ++ String.ofList (List.replicate (2 * level) ' ')

mutual

/-- A value whose last line is indented by `level` levels. -/
def pretty (level : Nat) : JsonDoc → String
  | .boolean b => if b then "true" else "false"
  | .number n => toString n
  | .double d => d.shortest
  | .text s => quoted s
  | .array [] => "[]"
  | .array (first :: rest) =>
    "[" ++ newline (level + 1) ++ pretty (level + 1) first ++ prettyItems (level + 1) rest ++
      newline level ++ "]"
  | .object [] => "\x7b\x7d"
  | .object ((key, first) :: rest) =>
    "\x7b" ++ newline (level + 1) ++ quoted key ++ ": " ++ pretty (level + 1) first ++
      prettyFields (level + 1) rest ++ newline level ++ "\x7d"

/-- The items of an array after the first. -/
def prettyItems (level : Nat) : List JsonDoc → String
  | [] => ""
  | item :: rest => "," ++ newline level ++ pretty level item ++ prettyItems level rest

/-- The fields of an object after the first. -/
def prettyFields (level : Nat) : List (String × JsonDoc) → String
  | [] => ""
  | (key, value) :: rest =>
    "," ++ newline level ++ quoted key ++ ": " ++ pretty level value ++ prettyFields level rest

end

/-- A whole document. -/
def render (doc : JsonDoc) : String := doc.pretty 0

/-- Texts. -/
def texts (items : List String) : JsonDoc := .array (items.map .text)

/-- A field that is there only if it has a value. -/
def field? {α : Type} (key : String) (value? : Option α) (doc : α → JsonDoc) :
    List (String × JsonDoc) :=
  value?.toList.map fun value => (key, doc value)

end JsonDoc

end Reexport
