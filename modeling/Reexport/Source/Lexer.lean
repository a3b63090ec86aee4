import Reexport.Source.Literal
import Reexport.Text.Blank

/-!
# The lexer

`lex` cuts a text into placed lexemes, or gives the location where no lexeme can
be read. Blanks and ordinary comments separate lexemes and leave no trace; a
documentation comment stands for the attribute `#[doc = "…"]` that it means, all
of whose lexemes have the place of the comment.

Delimiters have to match. One that is never closed is reported where it opens,
innermost first; a closing one that matches nothing is reported where it stands.

The lexer looks at the text from one place (`Step.of`) and then passes over as
many characters as that step takes.
-/

namespace Reexport.Source

open Text (Location isBlank wordLength?)

/-! ## Words, lifetimes and punctuation -/

/-- Words that stay reserved under the raw mark. -/
def neverRaw : List String := ["_", "super", "self", "Self", "crate"]

/-- The word that a text opens with: whether it is raw, its name and its length. -/
def anyWord? (cs : List Char) : Option (Bool × String × Nat) :=
  match cs with
  | 'r' :: '#' :: rest => do
    let n ← wordLength? rest
    let name := String.ofList (rest.take n)
    if neverRaw.contains name then none else some (true, name, n + 2)
  | _ => do
    let n ← wordLength? cs
    some (false, String.ofList (cs.take n), n)

/-- Openings of quoted texts, which are not words even if no literal follows. -/
def quoteOpenings : List (List Char) :=
  [['r', '"'], ['r', '#', '"'], ['r', '#', '#'], ['b', '"'], ['b', '\''], ['b', 'r', '"'],
   ['b', 'r', '#'], ['c', '"'], ['c', 'r', '"'], ['c', 'r', '#']]

/-- The word that a text opens with, unless it opens a quoted text. -/
def word? (cs : List Char) : Option (Bool × String × Nat) :=
  if quoteOpenings.any (·.isPrefixOf cs) then none else anyWord? cs

/-- Whether a text opens with a comment of any sort. -/
def opensComment : List Char → Bool
  | '/' :: '/' :: _ => true
  | '/' :: '*' :: _ => true
  | _ => false

/-- The characters that are punctuation. -/
def punctuation : List Char :=
  ['~', '!', '@', '#', '$', '%', '^', '&', '*', '-', '=', '+', '|', ';', ':', ',', '<', '.', '>',
   '/', '?', '\'']

/-- Whether a text opens with a punctuation character that starts no comment. -/
def opensPunct (cs : List Char) : Bool :=
  !opensComment cs && cs.head?.any punctuation.contains

/-- What an apostrophe starts: a lifetime, or a bare apostrophe in front of a
    quoted text. A word between two apostrophes, or one marked by a hash, is
    neither. -/
def apostrophe? (rest : List Char) : Option (Token × Nat) := do
  let (raw, name, n) ← anyWord? rest
  let after := (rest.drop n).head?
  if after = some '\'' ∨ (after = some '#' ∧ !raw) then none
  else if (literal? rest).isNone && (word? rest).isSome then some (.lifetime name, n + 1)
  else some (.punct '\'' true, 1)

/-- The mark that stands for a lost literal. -/
def lostMark : List Char := "(/*ERROR*/)".toList

/-- The token that a text opens with and its length. -/
def token? (cs : List Char) : Option (Token × Nat) :=
  match literal? cs with
  | some (kind, n) => some (.literal kind (String.ofList (cs.take n)), n)
  | none =>
    match cs with
    | [] => none
    | c :: rest =>
      if opensPunct cs then
        if c = '\'' then apostrophe? rest else some (.punct c (opensPunct rest), 1)
      else match word? cs with
        | some (raw, name, n) => some (.word raw name, n)
        | none =>
          if lostMark.isPrefixOf cs then
            some (.literal .lost (String.ofList lostMark), lostMark.length)
          else none

/-! ## Comments -/

/-- A blank between tokens; direction marks count as such. -/
def isSeparator (c : Char) : Bool :=
  isBlank c || c.toNat == 0x200E || c.toNat == 0x200F

/-- The length of a line, its end not included. -/
def lineLength (cs : List Char) : Nat := (cs.takeWhile (· != '\n')).length

/-- The length of a block comment; block comments nest. -/
def blockLength? : (depth n : Nat) → List Char → Option Nat
  | depth, n, '/' :: '*' :: cs => blockLength? (depth + 1) (n + 2) cs
  | depth, n, '*' :: '/' :: cs =>
    if depth ≤ 1 then some (n + 2) else blockLength? (depth - 1) (n + 2) cs
  | depth, n, _ :: cs => blockLength? depth (n + 1) cs
  | _, _, [] => none

/-- What a comment means. -/
inductive CommentKind where
  | ordinary
  /-- It documents what follows, or, when `inner`, what it stands in. -/
  | documents (inner : Bool)
  deriving DecidableEq, Repr

/-- The kind and length of the comment that a text opens with; a block comment
    that never ends has no length. -/
def comment? (cs : List Char) : Option (CommentKind × Option Nat) :=
  match cs with
  | '/' :: '/' :: rest =>
    let kind := match rest with
      | '!' :: _ => CommentKind.documents true
      | '/' :: '/' :: _ => .ordinary
      | '/' :: _ => .documents false
      | _ => .ordinary
    some (kind, some (lineLength cs))
  | '/' :: '*' :: rest =>
    let kind := match rest with
      | '!' :: _ => CommentKind.documents true
      | '*' :: '/' :: _ => .ordinary
      | '*' :: '*' :: _ => .ordinary
      | '*' :: _ => .documents false
      | _ => .ordinary
    some (kind, blockLength? 0 0 cs)
  | _ => none

/-- Whether a carriage return stands anywhere but in front of a newline. -/
def hasBareReturn : List Char → Bool
  | [] => false
  | '\r' :: '\n' :: cs => hasBareReturn cs
  | c :: cs => c == '\r' || hasBareReturn cs

/-- The text that a documentation comment of `n` characters documents with. -/
def documentation (cs : List Char) (n : Nat) : List Char :=
  match cs with
  | '/' :: '*' :: _ => (cs.take (n - 2)).drop 3
  | _ =>
    let line := (cs.take n).drop 3
    if (cs.drop n).head? = some '\n' ∧ line.getLast? = some '\r' then line.dropLast else line

/-! ## Steps -/

/-- What stands at some place of a text. -/
inductive Step where
  /-- `n` characters without meaning. -/
  | skip (n : Nat)
  /-- A documentation comment of `n` characters. -/
  | documents (inner : Bool) (text : String) (n : Nat)
  | opening (d : Delimiter)
  | closing (d : Delimiter)
  | token (t : Token) (n : Nat)
  /-- No lexeme starts here. -/
  | fault
  deriving Repr

/-- The number of characters that a step takes. -/
def Step.length : Step → Nat
  | .skip n => n
  | .documents _ _ n => n
  | .opening _ => 1
  | .closing _ => 1
  | .token _ n => n
  | .fault => 0

/-- The step for a token. -/
def Step.ofToken (cs : List Char) : Step :=
  match token? cs with
  | some (t, n) => .token t n
  | none => .fault

/-- What a text opens with. -/
def Step.of (cs : List Char) : Step :=
  match comment? cs with
  | some (.ordinary, some n) => .skip n
  | some (.documents inner, some n) =>
    let text := documentation cs n
    if hasBareReturn text then .fault else .documents inner (String.ofList text) n
  | some (_, none) => .fault
  | none =>
    match cs with
    | [] => .fault
    | '(' :: _ => if lostMark.isPrefixOf cs then .ofToken cs else .opening .paren
    | '[' :: _ => .opening .bracket
    | '{' :: _ => .opening .brace
    | ')' :: _ => .closing .paren
    | ']' :: _ => .closing .bracket
    | '}' :: _ => .closing .brace
    | c :: _ => if isSeparator c then .skip 1 else .ofToken cs

/-- The attribute that a documentation comment stands for. -/
def documentationLexemes (inner : Bool) (text : String) : List Lexeme :=
  [.token (.punct '#' false)] ++ (if inner then [.token (.punct '!' false)] else []) ++
    [.opening .bracket, .token (.word false "doc"), .token (.punct '=' false),
     .token (.literal .text text), .closing .bracket]

/-- The lexemes of a step. -/
def Step.lexemes : Step → List Lexeme
  | .skip _ => []
  | .documents inner text _ => documentationLexemes inner text
  | .opening d => [.opening d]
  | .closing d => [.closing d]
  | .token t _ => [.token t]
  | .fault => []

/-! ## The whole text -/

/-- The delimiters that are open after a step, innermost first; there is no
    result where the step cannot stand. -/
def Step.track (step : Step) (here : Location) (stack : List (Delimiter × Location)) :
    Option (List (Delimiter × Location)) :=
  match step, stack with
  | .fault, _ => none
  | .opening d, stack => some ((d, here) :: stack)
  | .closing _, [] => none
  | .closing d, (e, _) :: rest => if d = e then some rest else none
  | _, stack => some stack

/-- The lexemes of a text from location `here` on. The first `skip` characters
    belong to the step before; `stack` holds the open delimiters, innermost
    first. -/
def lexFrom : (skip : Nat) → (here : Location) → (stack : List (Delimiter × Location)) →
    List Char → Except Location (List Placed)
  | _, _, [], [] => .ok []
  | _, _, (_, opened) :: _, [] => .error opened
  | skip + 1, here, stack, c :: cs => lexFrom skip (here.past c) stack cs
  | 0, here, stack, c :: cs =>
    let step := Step.of (c :: cs)
    match step.track here stack with
    | none => .error here
    | some stack =>
      let stop := here.pastAll ((c :: cs).take step.length)
      match lexFrom (step.length - 1) (here.past c) stack cs with
      | .error fault => .error fault
      | .ok rest => .ok (step.lexemes.map (⟨·, here, stop⟩) ++ rest)

/-- The lexemes of a text that starts at location `here`. -/
def lex (here : Location) (cs : List Char) : Except Location (List Placed) :=
  lexFrom 0 here [] cs

/-! ## The start of a unit -/

/-- The byte order mark. -/
def byteOrderMark : Char := Char.ofNat 0xFEFF

/-- A text without a byte order mark at its start. -/
def withoutMark : List Char → List Char
  | c :: cs => if c = byteOrderMark then cs else c :: cs
  | [] => []

/-- A text after the blanks and ordinary comments that it opens with; a block
    comment that never ends stays. -/
def afterSeparators : (skip : Nat) → List Char → List Char
  | _, [] => []
  | skip + 1, _ :: cs => afterSeparators skip cs
  | 0, c :: cs =>
    match comment? (c :: cs) with
    | some (.ordinary, some n) => afterSeparators (n - 1) cs
    | some _ => c :: cs
    | none => if isSeparator c then afterSeparators 0 cs else c :: cs

/-- A text without the line that names its interpreter: a first line that starts
    with `#!` and not with an inner attribute. -/
def withoutInterpreter (cs : List Char) : List Char :=
  match cs with
  | '#' :: '!' :: rest =>
    if (afterSeparators 0 rest).head? = some '[' then cs else cs.drop (lineLength cs)
  | _ => cs

/-- The lexemes of a unit. A byte order mark and an interpreter line may come
    first; a further mark is passed over and counts as one column. -/
def lexUnit (cs : List Char) : Except Location (List Placed) :=
  let text := withoutInterpreter (withoutMark cs)
  let body := withoutMark text
  lex (if body.length = text.length then .first else ⟨1, 1⟩) body

end Reexport.Source
