import Reexport.Source.Literal

/-!
# TOML documents

The part of TOML that settings can use: keys, strings, integers, truth values,
arrays and tables. Decimals, dates and arrays of tables have no use there and are
refused like any other fault.

Every reader takes a text and gives what it read and the rest of the text. Their
fuel is the length of the text: a nested value is shorter than the text that it
stands in.
-/

namespace Reexport.Toml

open Source (hexValue? isDigit)

/-- How a table came to be, which decides who may still add to it. -/
inductive TableOrigin where
  /-- `{…}`: closed. -/
  | inlined
  /-- `[…]`. -/
  | header
  /-- Named by a header of a table below it. -/
  | implied
  /-- By a key with dots. -/
  | dotted
  deriving DecidableEq, Repr, Inhabited

/-- A value. -/
inductive Value where
  | text (s : String)
  | integer (n : Int)
  | boolean (b : Bool)
  | array (items : List Value)
  | table (origin : TableOrigin) (entries : List (String × Value))
  deriving Repr, Inhabited

/-- The entries of a table. -/
abbrev Entries := List (String × Value)

/-! ## Blanks and comments -/

/-- A blank within a line. -/
def isSpace (c : Char) : Bool := c == ' ' || c == '\t'

/-- A character that may stand in a comment or a literal text. -/
def isPlain (c : Char) : Bool := c == '\t' || (0x20 ≤ c.toNat && c.toNat ≠ 0x7F)

/-- A text without the blanks that it opens with. -/
def skipSpace (cs : List Char) : List Char := cs.dropWhile isSpace

/-- A text after a line end. -/
def newline? : List Char → Option (List Char)
  | '\n' :: cs => some cs
  | '\r' :: '\n' :: cs => some cs
  | _ => none

/-- A text without the comment that it opens with. -/
def skipComment : List Char → List Char
  | '#' :: cs => cs.dropWhile isPlain
  | cs => cs

/-- A text after blanks, line ends and comments, as between the items of an
    array. -/
def skipLines : (fuel : Nat) → List Char → List Char
  | 0, cs => cs
  | fuel + 1, cs =>
    let rest := skipComment (skipSpace cs)
    match newline? rest with
    | some after => skipLines fuel after
    | none => rest

/-- A text after the end of a line: blanks, a comment, and a line end or the end
    of the text. -/
def endLine? (cs : List Char) : Option (List Char) :=
  match skipComment (skipSpace cs) with
  | [] => some []
  | rest => newline? rest

/-! ## Strings -/

/-- The character of an escape with `digits` hexadecimal digits. -/
def codePoint? (digits : Nat) (cs : List Char) : Option (Char × List Char) := do
  let ds := cs.take digits
  if ds.length < digits then none
  let value ← ds.foldlM (fun acc c => (hexValue? c).map (acc * 16 + ·)) 0
  if value.isValidChar then some (Char.ofNat value, cs.drop digits) else none

/-- The character of the escape after a backslash. -/
def escape? : List Char → Option (Char × List Char)
  | 'b' :: cs => some (Char.ofNat 8, cs)
  | 't' :: cs => some ('\t', cs)
  | 'n' :: cs => some ('\n', cs)
  | 'f' :: cs => some (Char.ofNat 12, cs)
  | 'r' :: cs => some ('\r', cs)
  | '"' :: cs => some ('"', cs)
  | '\\' :: cs => some ('\\', cs)
  | 'u' :: cs => codePoint? 4 cs
  | 'U' :: cs => codePoint? 8 cs
  | _ => none

/-- A string in double quotes, from after the opening one. -/
def basic? : (fuel : Nat) → List Char → Option (List Char × List Char)
  | 0, _ => none
  | _, [] => none
  | fuel + 1, c :: cs =>
    if c = '"' then some ([], cs)
    else if c = '\\' then do
      let (d, rest) ← escape? cs
      let (text, rest) ← basic? fuel rest
      some (d :: text, rest)
    else if isPlain c then do
      let (text, rest) ← basic? fuel cs
      some (c :: text, rest)
    else none

/-- A string in single quotes, from after the opening one. -/
def literal? : List Char → Option (List Char × List Char)
  | [] => none
  | c :: cs =>
    if c = '\'' then some ([], cs)
    else if isPlain c then (literal? cs).map fun (text, rest) => (c :: text, rest)
    else none

/-- The quotes at the end of a string of several lines: three close it, and up to
    two more in front of them belong to it. -/
def closingQuotes? (quote : Char) (cs : List Char) : Option (List Char × List Char) :=
  let n := (cs.takeWhile (· == quote)).length
  if 3 ≤ n ∧ n ≤ 5 then some (List.replicate (n - 3) quote, cs.drop n) else none

/-- A text after a backslash at the end of a line: line ends and blanks are
    passed over. -/
def continued? (cs : List Char) : Option (List Char) :=
  (newline? (skipSpace cs)).map fun rest =>
    rest.dropWhile fun c => isSpace c || c == '\n' || c == '\r'

/-- A string of several lines, from after its opening quotes. Line ends are
    read as newlines. -/
def multiline? (quote : Char) : (fuel : Nat) → List Char → Option (List Char × List Char)
  | 0, _ => none
  | _, [] => none
  | fuel + 1, c :: cs =>
    let more (d : Char) (rest : List Char) : Option (List Char × List Char) :=
      (multiline? quote fuel rest).map fun (text, rest) => (d :: text, rest)
    if c = quote then
      match closingQuotes? quote (c :: cs) with
      | some closed => some closed
      | none => if (cs.takeWhile (· == quote)).length < 2 then more c cs else none
    else if c = '\\' ∧ quote = '"' then
      match continued? cs with
      | some rest => multiline? quote fuel rest
      | none => (escape? cs).bind fun (d, rest) => more d rest
    else match newline? (c :: cs) with
      | some rest => more '\n' rest
      | none => if isPlain c then more c cs else none

/-- A string. A line end right after the opening quotes of a string of several
    lines is dropped. -/
def string? (cs : List Char) : Option (List Char × List Char) :=
  match cs with
  | '"' :: '"' :: '"' :: rest => multiline? '"' (cs.length + 1) ((newline? rest).getD rest)
  | '"' :: rest => basic? (cs.length + 1) rest
  | '\'' :: '\'' :: '\'' :: rest => multiline? '\'' (cs.length + 1) ((newline? rest).getD rest)
  | '\'' :: rest => literal? rest
  | _ => none

/-! ## Integers -/

/-- The value of digits in some base, underscores between them. -/
def digits? (base : Nat) : (value : Nat) → (afterDigit : Bool) → List Char → Option (Nat × List Char)
  | value, afterDigit, [] => if afterDigit then some (value, []) else none
  | value, afterDigit, c :: cs =>
    if c = '_' then if afterDigit then digits? base value false cs else none
    else match hexValue? c with
      | some d =>
        if d < base then digits? base (value * base + d) true cs
        else if afterDigit then some (value, c :: cs) else none
      | none => if afterDigit then some (value, c :: cs) else none

/-- A decimal number without sign and without leading zeros. -/
def decimal? : List Char → Option (Nat × List Char)
  | '0' :: cs => if cs.head?.any (fun c => isDigit c || c == '_') then none else some (0, cs)
  | cs => digits? 10 0 false cs

/-- An integer of 64 bits. -/
def integer? (cs : List Char) : Option (Int × List Char) := do
  let (n, rest) ← match cs with
    | '0' :: 'x' :: cs => (digits? 16 0 false cs).map fun (n, rest) => (Int.ofNat n, rest)
    | '0' :: 'o' :: cs => (digits? 8 0 false cs).map fun (n, rest) => (Int.ofNat n, rest)
    | '0' :: 'b' :: cs => (digits? 2 0 false cs).map fun (n, rest) => (Int.ofNat n, rest)
    | '+' :: cs => (decimal? cs).map fun (n, rest) => (Int.ofNat n, rest)
    | '-' :: cs => (decimal? cs).map fun (n, rest) => (-Int.ofNat n, rest)
    | cs => (decimal? cs).map fun (n, rest) => (Int.ofNat n, rest)
  if -9223372036854775808 ≤ n ∧ n < 9223372036854775808 then some (n, rest) else none

/-! ## Keys -/

/-- A character of a key without quotes. -/
def isKeyChar (c : Char) : Bool := c.isAlphanum || c == '_' || c == '-'

/-- One part of a key. -/
def keyPart? (cs : List Char) : Option (String × List Char) :=
  match cs with
  | '"' :: rest => (basic? (cs.length + 1) rest).map fun (text, rest) => (String.ofList text, rest)
  | '\'' :: rest => (literal? rest).map fun (text, rest) => (String.ofList text, rest)
  | _ =>
    let bare := cs.takeWhile isKeyChar
    if bare.isEmpty then none else some (String.ofList bare, cs.drop bare.length)

/-- The parts of a key with points between them, and the blanks after it. -/
def key? : (fuel : Nat) → List Char → Option (List String × List Char)
  | 0, _ => none
  | fuel + 1, cs => do
    let (part, rest) ← keyPart? (skipSpace cs)
    match skipSpace rest with
    | '.' :: rest =>
      let (parts, rest) ← key? fuel rest
      some (part :: parts, rest)
    | rest => some ([part], rest)

/-! ## Tables -/

/-- The value of a key. -/
def find? (entries : Entries) (key : String) : Option Value :=
  (entries.find? fun entry => entry.1 == key).map (·.2)

/-- The entries with the value of a key set. -/
def put (entries : Entries) (key : String) (value : Value) : Entries :=
  if entries.any fun entry => entry.1 == key then
    entries.map fun entry => if entry.1 == key then (key, value) else entry
  else entries ++ [(key, value)]

/-- Adds a value under a key with points. Tables on the way may only have been
    made in the same manner. -/
def assign? (entries : Entries) (key : List String) (value : Value) : Option Entries :=
  match key with
  | [] => none
  | [part] => if (find? entries part).isSome then none else some (put entries part value)
  | part :: rest =>
    match find? entries part with
    | none => (assign? [] rest value).map fun inner => put entries part (.table .dotted inner)
    | some (.table .dotted inner) =>
      (assign? inner rest value).map fun inner => put entries part (.table .dotted inner)
    | some (.table .implied inner) =>
      (assign? inner rest value).map fun inner => put entries part (.table .implied inner)
    | some _ => none

/-- Changes the table that a header names, making those on the way. A table may
    have one header, and that only unless it is there by a value or a key. -/
def open? (entries : Entries) (path : List String) : Option Entries :=
  match path with
  | [] => none
  | [part] =>
    match find? entries part with
    | none => some (put entries part (.table .header []))
    | some (.table .implied inner) => some (put entries part (.table .header inner))
    | some _ => none
  | part :: rest =>
    match find? entries part with
    | none => (open? [] rest).map fun inner => put entries part (.table .implied inner)
    | some (.table origin inner) =>
      if origin = .inlined then none
      else (open? inner rest).map fun inner => put entries part (.table origin inner)
    | some _ => none

/-- Adds a value under a key in the table with a path. -/
def assignIn? (entries : Entries) (path key : List String) (value : Value) : Option Entries :=
  match path with
  | [] => assign? entries key value
  | part :: rest =>
    match find? entries part with
    | some (.table origin inner) =>
      (assignIn? inner rest key value).map fun inner => put entries part (.table origin inner)
    | _ => none

/-! ## Values -/

/-- The rest of an array, from where an item or the closing bracket may stand. -/
def items? (value? : List Char → Option (Value × List Char)) :
    (fuel : Nat) → List Char → Option (List Value × List Char)
  | 0, _ => none
  | fuel + 1, cs =>
    match skipLines (cs.length + 1) cs with
    | ']' :: rest => some ([], rest)
    | start => do
      let (item, rest) ← value? start
      match skipLines (rest.length + 1) rest with
      | ',' :: rest =>
        let (items, rest) ← items? value? fuel rest
        some (item :: items, rest)
      | ']' :: rest => some ([item], rest)
      | _ => none

/-- The rest of an inline table, from where a key stands. -/
def pairs? (value? : List Char → Option (Value × List Char)) :
    (fuel : Nat) → Entries → List Char → Option (Entries × List Char)
  | 0, _, _ => none
  | fuel + 1, entries, cs => do
    let (key, rest) ← key? (cs.length + 1) cs
    match rest with
    | '=' :: rest =>
      let (value, rest) ← value? (skipSpace rest)
      let entries ← assign? entries key value
      match skipSpace rest with
      | ',' :: rest => pairs? value? fuel entries rest
      | '}' :: rest => some (entries, rest)
      | _ => none
    | _ => none

/-- A value. -/
def value? : (fuel : Nat) → List Char → Option (Value × List Char)
  | 0, _ => none
  | fuel + 1, cs =>
    match cs with
    | '[' :: rest =>
      (items? (value? fuel) (rest.length + 1) rest).map fun (items, rest) => (.array items, rest)
    | '{' :: rest =>
      match skipSpace rest with
      | '}' :: rest => some (.table .inlined [], rest)
      | _ =>
        (pairs? (value? fuel) (rest.length + 1) [] rest).map fun (entries, rest) =>
          (.table .inlined entries, rest)
    | 't' :: 'r' :: 'u' :: 'e' :: rest => some (.boolean true, rest)
    | 'f' :: 'a' :: 'l' :: 's' :: 'e' :: rest => some (.boolean false, rest)
    | _ =>
      match string? cs with
      | some (text, rest) => some (.text (String.ofList text), rest)
      | none => (integer? cs).map fun (n, rest) => (.integer n, rest)

/-! ## Documents -/

/-- The rest of a document whose keys go into the table with path `here`. -/
def lines? : (fuel : Nat) → (here : List String) → Entries → List Char → Option Entries
  | 0, _, _, _ => none
  | fuel + 1, here, entries, cs =>
    match skipLines (cs.length + 1) cs with
    | [] => some entries
    | '[' :: rest => do
      let (path, rest) ← key? (rest.length + 1) rest
      match rest with
      | ']' :: rest =>
        let entries ← open? entries path
        let rest ← endLine? rest
        lines? fuel path entries rest
      | _ => none
    | start => do
      let (key, rest) ← key? (start.length + 1) start
      match rest with
      | '=' :: rest =>
        let (value, rest) ← value? (rest.length + 1) (skipSpace rest)
        let entries ← assignIn? entries here key value
        let rest ← endLine? rest
        lines? fuel here entries rest
      | _ => none

/-- The entries of a document. -/
def parse? (document : String) : Option Entries :=
  let cs := match document.toList with
    | c :: cs => if c.toNat = 0xFEFF then cs else c :: cs
    | [] => []
  lines? (cs.length + 1) [] [] cs

end Reexport.Toml
