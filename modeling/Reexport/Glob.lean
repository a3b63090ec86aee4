import Reexport.Problem

/-!
# Glob patterns

In a pattern `?` stands for any character, `*` for any text, and `**`, which has
to be a whole path component, for any number of components. Brackets list the
characters that may stand in one place, or with `!` those that may not.

A pattern matches a whole text. Separators are ordinary characters to `?`, `*`
and brackets.
-/

namespace Reexport.Glob

/-- A character or a range of characters between brackets. -/
inductive Specifier where
  | single (c : Char)
  | range (first last : Char)
  deriving DecidableEq, Repr, Inhabited

/-- Whether a character is meant. -/
def Specifier.admits : Specifier → Char → Bool
  | .single d, c => c == d
  | .range first last, c => first ≤ c && c ≤ last

/-- A piece of a pattern. -/
inductive Token where
  | literal (c : Char)
  | any
  /-- `*`. -/
  | run
  /-- `**`. -/
  | components
  | within (specifiers : List Specifier)
  | except (specifiers : List Specifier)
  deriving DecidableEq, Repr, Inhabited

/-- Why a pattern is not valid. -/
inductive Fault where
  | wildcards
  | components
  | range
  deriving DecidableEq, Repr, Inhabited

/-- The fault in words. -/
def Fault.message : Fault → String
  | .wildcards => "wildcards are either regular `*` or recursive `**`"
  | .components => "recursive wildcards must form a single path component"
  | .range => "invalid range pattern"

/-- A fault and the position of the character where it shows. -/
structure SyntaxFault where
  position : Nat
  fault : Fault
  deriving DecidableEq, Repr, Inhabited

/-- The fault with its position in words. -/
def SyntaxFault.message (f : SyntaxFault) : String :=
  "Pattern syntax error near position " ++ toString f.position ++ ": " ++ f.fault.message

/-! ## Reading patterns -/

/-- The specifiers between brackets. A hyphen between two characters makes a
    range. -/
def specifiers : List Char → List Specifier
  | [] => []
  | first :: '-' :: last :: rest => .range first last :: specifiers rest
  | c :: rest => .single c :: specifiers rest

/-- The number of characters in front of the first closing bracket. -/
def closing? (cs : List Char) : Option Nat :=
  cs.findIdx? (· == ']')

/-- The token that a text after an opening bracket stands for, and how many
    characters of it belong to the token. A bracket right after the opening one is
    an ordinary character. -/
def bracket? : List Char → Option (Token × Nat)
  | '!' :: c :: rest => do
    let n ← closing? rest
    some (.except (specifiers (c :: rest.take n)), n + 3)
  | ['!'] => none
  | c :: rest => do
    let n ← closing? rest
    some (.within (specifiers (c :: rest.take n)), n + 2)
  | [] => none

/-- Adds the token of `**`; after another one it changes nothing. -/
def addComponents : (reversed : List Token) → List Token
  | .components :: t :: rest => .components :: t :: rest
  | reversed => .components :: reversed

/-- Reads a pattern from a position on. The first `skip` characters belong to the
    token before; `before` is the character in front, and `reversed` holds the
    tokens so far, last first. -/
def read : (skip position : Nat) → (before : Option Char) → (reversed : List Token) → List Char →
    Except SyntaxFault (List Token)
  | _, _, _, reversed, [] => .ok reversed.reverse
  | skip + 1, position, _, reversed, c :: cs => read skip (position + 1) (some c) reversed cs
  | 0, position, before, reversed, c :: cs =>
    if c = '?' then read 0 (position + 1) (some c) (.any :: reversed) cs
    else if c = '[' then
      match bracket? cs with
      | some (token, n) => read n (position + 1) (some c) (token :: reversed) cs
      | none => .error ⟨position, .range⟩
    else if c = '*' then
      match (cs.takeWhile (· == '*')).length with
      | 0 => read 0 (position + 1) (some c) (.run :: reversed) cs
      | 1 =>
        if before = none ∨ before = some '/' then
          match cs.drop 1 with
          | [] => read 1 (position + 1) (some c) (addComponents reversed) cs
          | d :: _ =>
            if d = '/' then read 2 (position + 1) (some c) (addComponents reversed) cs
            else .error ⟨position + 2, .components⟩
        else .error ⟨position - 1, .components⟩
      | _ + 2 => .error ⟨position + 2, .wildcards⟩
    else read 0 (position + 1) (some c) (.literal c :: reversed) cs

end Glob

/-- A glob pattern. -/
structure Glob where
  tokens : List Glob.Token
  deriving DecidableEq, Repr, Inhabited

namespace Glob

/-- Reads a pattern. -/
def parse (pattern : String) : Except SyntaxFault Glob :=
  (read 0 0 none [] pattern.toList).map Glob.mk

/-! ## Matching -/

/-- How matching the rest of a pattern ends. -/
inductive Verdict where
  | matched
  /-- A longer text for the wildcard before may do. -/
  | mismatch
  /-- The text is too short, whatever the wildcard before stands for. -/
  | exhausted
  deriving DecidableEq, Repr, Inhabited

/-- Whether a token that stands for one character admits it. -/
def Token.admits : Token → Char → Bool
  | .literal d, c => c == d
  | .any, _ => true
  | .within specifiers, c => specifiers.any (·.admits c)
  | .except specifiers, c => !specifiers.any (·.admits c)
  | .run, _ => true
  | .components, _ => true

/-- Lets a wildcard stand for longer and longer texts until the rest matches.
    `whole` says that it stands for whole components only. -/
def extend (whole : Bool) (rest : List Char → Verdict) : List Char → Verdict
  | [] => rest []
  | c :: cs =>
    if whole && c != '/' then extend whole rest cs
    else match rest cs with
      | .mismatch => extend whole rest cs
      | verdict => verdict

/-- Matches tokens against a text. -/
def matchTokens : List Token → List Char → Verdict
  | [], [] => .matched
  | [], _ :: _ => .mismatch
  | token :: tokens, cs =>
    if token = .run ∨ token = .components then
      match matchTokens tokens cs with
      | .mismatch => extend (token == .components) (matchTokens tokens) cs
      | verdict => verdict
    else match cs with
      | [] => .exhausted
      | c :: cs => if token.admits c then matchTokens tokens cs else .mismatch

/-- Whether a pattern matches a text. -/
def isMatch (glob : Glob) (text : String) : Bool :=
  matchTokens glob.tokens text.toList == .matched

/-- Reads patterns; the first that is not valid is a problem. -/
def parseAll (patterns : List String) : Except Problem (List Glob) :=
  patterns.mapM fun pattern =>
    (parse pattern).mapError fun fault => .invalidPattern pattern fault.message

end Glob

end Reexport
