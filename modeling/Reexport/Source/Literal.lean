import Reexport.Source.Token
import Reexport.Text.Ident

/-!
# Literals

How long the literal is that a text opens with. Every recogniser counts the
characters of its lexeme and has no result where the text holds none; none of
them looks at anything but the text in front of it.
-/

namespace Reexport.Source

open Text (isIdentStart isIdentContinue wordLength?)

/-- The value of a hexadecimal digit. -/
def hexValue? (c : Char) : Option Nat :=
  if '0' ≤ c ∧ c ≤ '9' then some (c.toNat - '0'.toNat)
  else if 'a' ≤ c ∧ c ≤ 'f' then some (10 + c.toNat - 'a'.toNat)
  else if 'A' ≤ c ∧ c ≤ 'F' then some (10 + c.toNat - 'A'.toNat)
  else none

/-- Adds the suffix: an identifier that follows a literal directly belongs to it. -/
def withSuffix (n : Nat) (cs : List Char) : Nat :=
  n + (wordLength? (cs.drop n)).getD 0

/-! ## Escapes -/

/-- What may stand between quotes. -/
inductive Alphabet where
  /-- Any character. -/
  | full
  /-- ASCII only; escapes reach every byte. -/
  | ascii
  /-- Any character but the one with code 0, which no escape may denote either. -/
  | nonzero
  deriving DecidableEq, Repr

/-- Whether a character may stand for itself. -/
def Alphabet.admits : Alphabet → Char → Bool
  | .full, _ => true
  | .ascii, c => c.toNat < 0x80
  | .nonzero, c => c.toNat ≠ 0

/-- The digits of `\u{…}` and its closing brace: at most six digits, underscores
    after the first, and a code point that is a character. The result is the
    count of characters and the code point. -/
def codePoint? : (digits value n : Nat) → List Char → Option (Nat × Nat)
  | _, _, _, [] => none
  | digits, value, n, c :: cs =>
    if c = '_' ∧ 0 < digits then codePoint? digits value (n + 1) cs
    else if c = '}' ∧ 0 < digits then
      if value.isValidChar then some (n + 1, value) else none
    else match hexValue? c with
      | some d => if digits < 6 then codePoint? (digits + 1) (value * 16 + d) (n + 1) cs else none
      | none => none

/-- The length of the escape that follows a backslash, line ends not included. -/
def escapeLength? (alphabet : Alphabet) : List Char → Option Nat
  | 'x' :: a :: b :: _ => do
    let hi ← hexValue? a
    let lo ← hexValue? b
    let fits : Bool := match alphabet with
      | .full => hi < 8
      | .ascii => true
      | .nonzero => hi ≠ 0 ∨ lo ≠ 0
    if fits then some 3 else none
  | 'u' :: '{' :: cs =>
    match alphabet, codePoint? 0 0 0 cs with
    | .full, some (n, _) => some (n + 2)
    | .nonzero, some (n, value) => if value = 0 then none else some (n + 2)
    | _, _ => none
  | '0' :: _ => if alphabet = .nonzero then none else some 1
  | c :: _ => if c ∈ ['n', 'r', 't', '\\', '\'', '"'] then some 1 else none
  | [] => none

/-- The blanks after a backslash at the end of a line. `returned` says that the
    last one was a carriage return, which has to be followed by a newline. -/
def blanksLength? (returned : Bool) (n : Nat) : List Char → Option Nat
  | [] => none
  | c :: cs =>
    if returned then if c = '\n' then blanksLength? false (n + 1) cs else none
    else if c = ' ' ∨ c = '\t' ∨ c = '\n' then blanksLength? false (n + 1) cs
    else if c = '\r' then blanksLength? true (n + 1) cs
    else some n

/-- The length of what follows a backslash in a quoted text: an escape, or a
    line end with the blanks after it. -/
def continuedLength? (alphabet : Alphabet) : List Char → Option Nat
  | '\n' :: cs => blanksLength? false 1 cs
  | '\r' :: cs => blanksLength? true 1 cs
  | cs => escapeLength? alphabet cs

/-! ## Quoted and raw texts -/

/-- The rest of a quoted text up to its closing quote. `skip` characters are
    passed over unread, `n` is the count so far. -/
def quotedLength? (alphabet : Alphabet) : (skip n : Nat) → List Char → Option Nat
  | _, _, [] => none
  | skip + 1, n, _ :: cs => quotedLength? alphabet skip (n + 1) cs
  | 0, n, c :: cs =>
    if c = '"' then some (n + 1)
    else if c = '\r' then
      if cs.head? = some '\n' then quotedLength? alphabet 1 (n + 1) cs else none
    else if c = '\\' then
      match continuedLength? alphabet cs with
      | some k => quotedLength? alphabet k (n + 1) cs
      | none => none
    else if alphabet.admits c then quotedLength? alphabet 0 (n + 1) cs
    else none

/-- The rest of a raw text up to a quote with `hashes` hashes after it. -/
def rawBodyLength? (alphabet : Alphabet) (hashes : Nat) : (skip n : Nat) → List Char → Option Nat
  | _, _, [] => none
  | skip + 1, n, _ :: cs => rawBodyLength? alphabet hashes skip (n + 1) cs
  | 0, n, c :: cs =>
    if c = '"' ∧ (List.replicate hashes '#').isPrefixOf cs then some (n + 1 + hashes)
    else if c = '\r' then
      if cs.head? = some '\n' then rawBodyLength? alphabet hashes 1 (n + 1) cs else none
    else if alphabet.admits c then rawBodyLength? alphabet hashes 0 (n + 1) cs
    else none

/-- A raw text from its hashes on; there are at most 255 of them. -/
def rawLength? (alphabet : Alphabet) (cs : List Char) : Option Nat :=
  let hashes := (cs.takeWhile (· == '#')).length
  match cs.drop hashes with
  | '"' :: body =>
    if hashes ≤ 255 then rawBodyLength? alphabet hashes 0 (hashes + 1) body else none
  | _ => none

/-- A character literal from after its opening apostrophe. -/
def characterLength? (alphabet : Alphabet) : List Char → Option Nat
  | '\\' :: cs => do
    let k ← escapeLength? alphabet cs
    if (cs.drop k).head? = some '\'' then some (k + 2) else none
  | c :: '\'' :: _ => if alphabet.admits c then some 2 else none
  | _ => none

/-! ## Numbers -/

/-- A decimal digit. -/
def isDigit (c : Char) : Bool := '0' ≤ c && c ≤ '9'

/-- The exponent after its letter. `signed` and `valued` say whether a sign and a
    digit have been read; without a digit the result is `otherwise`, the number
    that ends before the letter. -/
def exponentLength? (otherwise : Option Nat) : (signed valued : Bool) → (n : Nat) → List Char → Option Nat
  | _, valued, n, [] => if valued then some n else otherwise
  | signed, valued, n, c :: cs =>
    if c = '+' ∨ c = '-' then
      if valued then some n
      else if signed then otherwise
      else exponentLength? otherwise true valued (n + 1) cs
    else if isDigit c then exponentLength? otherwise signed true (n + 1) cs
    else if c = '_' then exponentLength? otherwise signed valued (n + 1) cs
    else if valued then some n else otherwise

/-- The rest of a decimal after its first digit. `dotted` says that the point has
    been read. A point is refused when another point or an identifier follows,
    since it then belongs to a range or a field. -/
def decimalLength? (dotted : Bool) (n : Nat) : List Char → Option Nat
  | [] => if dotted then some n else none
  | c :: cs =>
    if isDigit c ∨ c = '_' then decimalLength? dotted (n + 1) cs
    else if c = '.' ∧ !dotted then
      match cs.head? with
      | some d => if d = '.' ∨ isIdentStart d then none else decimalLength? true (n + 1) cs
      | none => some (n + 1)
    else if c = 'e' ∨ c = 'E' then
      exponentLength? (if dotted then some n else none) false false (n + 1) cs
    else if dotted then some n else none

/-- The digits of an integer in some base. `empty` says that none has been read.
    A decimal digit that is too large is refused; a letter ends the number. -/
def digitsLength? (base : Nat) (empty : Bool) (n : Nat) : List Char → Option Nat
  | [] => if empty then none else some n
  | c :: cs =>
    if c = '_' then
      if empty && base == 10 then none else digitsLength? base empty (n + 1) cs
    else match hexValue? c with
      | some d =>
        if d < base then digitsLength? base false (n + 1) cs
        else if isDigit c then none
        else if empty then none else some n
      | none => if empty then none else some n

/-- An integer without its suffix. -/
def integerLength? : List Char → Option Nat
  | '0' :: 'x' :: cs => digitsLength? 16 true 2 cs
  | '0' :: 'o' :: cs => digitsLength? 8 true 2 cs
  | '0' :: 'b' :: cs => digitsLength? 2 true 2 cs
  | cs => digitsLength? 10 true 0 cs

/-- Adds the suffix of a number, which may not run into a further identifier
    character. -/
def endNumber (cs : List Char) (n : Nat) : Option Nat :=
  let m := withSuffix n cs
  match (cs.drop m).head? with
  | some c => if isIdentContinue c then none else some m
  | none => some m

/-- The length of the number that a text opens with. -/
def numberLength? (cs : List Char) : Option Nat :=
  match cs with
  | [] => none
  | c :: rest =>
    if isDigit c then
      ((decimalLength? false 1 rest).bind (endNumber cs)).or
        ((integerLength? cs).bind (endNumber cs))
    else none

/-! ## All literals -/

/-- The kind and length of the literal that a text opens with. -/
def literal? (cs : List Char) : Option (LiteralKind × Nat) :=
  let quoted (kind : LiteralKind) (lead : Nat) (length? : Option Nat) : Option (LiteralKind × Nat) :=
    length?.map fun n => (kind, withSuffix (lead + n) cs)
  match cs with
  | '"' :: body => quoted .text 1 (quotedLength? .full 0 0 body)
  | 'r' :: body => quoted .text 1 (rawLength? .full body)
  | 'b' :: '"' :: body => quoted .bytes 2 (quotedLength? .ascii 0 0 body)
  | 'b' :: 'r' :: body => quoted .bytes 2 (rawLength? .ascii body)
  | 'c' :: '"' :: body => quoted .terminated 2 (quotedLength? .nonzero 0 0 body)
  | 'c' :: 'r' :: body => quoted .terminated 2 (rawLength? .nonzero body)
  | 'b' :: '\'' :: body => quoted .byte 2 (characterLength? .ascii body)
  | '\'' :: body => quoted .char 1 (characterLength? .full body)
  | _ => (numberLength? cs).map fun n => (.number, n)

/-! ## Reading integers -/

/-- The digits of an integer lexeme in some base and what follows them. -/
def readDigits (base value : Nat) (any : Bool) : List Char → Option (Nat × List Char)
  | [] => if any then some (value, []) else none
  | c :: cs =>
    if c = '_' then readDigits base value any cs
    else match (if isDigit c ∨ 10 < base then hexValue? c else none) with
      | some d => if d < base then readDigits base (value * base + d) true cs else none
      | none => if any then some (value, c :: cs) else none

/-- Whether the letter `e` and what follows it in a decimal lexeme is an exponent
    rather than a suffix. -/
def isExponent (valued : Bool) : List Char → Bool
  | [] => valued
  | c :: cs =>
    if c = '_' then isExponent valued cs
    else if c = '+' ∨ c = '-' then true
    else if isDigit c then isExponent true cs
    else valued && isIdentStart c

/-- The value and suffix of a number lexeme that denotes an integer; a decimal
    has none. -/
def integer? (lexeme : List Char) : Option (Nat × List Char) :=
  match lexeme with
  | '0' :: 'x' :: cs => readDigits 16 0 false cs
  | '0' :: 'o' :: cs => readDigits 8 0 false cs
  | '0' :: 'b' :: cs => readDigits 2 0 false cs
  | cs =>
    match readDigits 10 0 false cs with
    | some (_, '.' :: _) => none
    | some (value, 'e' :: rest) => if isExponent false rest then none else some (value, 'e' :: rest)
    | some (value, 'E' :: rest) => if isExponent false rest then none else some (value, 'E' :: rest)
    | result => result

end Reexport.Source
