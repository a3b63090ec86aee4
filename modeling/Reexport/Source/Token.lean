import Reexport.Text.Location

/-!
# Tokens and token trees

The lexer cuts a unit into lexemes: tokens and delimiters, each with the place
where it starts and ends. The grammar reads them as trees, in which a pair of
delimiters and all between them is one node and no places are left: what a unit
means does not depend on where its tokens stand.

Results:

* `nest?_flatten`: the trees of a lexeme sequence are unique; writing trees out
  and nesting them again gives them back.
-/

namespace Reexport.Source

/-- The three kinds of brackets that group tokens. -/
inductive Delimiter where
  | paren
  | bracket
  | brace
  deriving DecidableEq, Repr, Inhabited

/-- What a literal denotes. -/
inductive LiteralKind where
  /-- `"…"` and `r"…"`. -/
  | text
  /-- `b"…"` and `br"…"`. -/
  | bytes
  /-- `c"…"` and `cr"…"`. -/
  | terminated
  /-- `b'…'`. -/
  | byte
  /-- `'…'`. -/
  | char
  /-- Integers and decimals, with their suffix. -/
  | number
  /-- The mark `(/*ERROR*/)` that stands for a lost literal. -/
  | lost
  deriving DecidableEq, Repr, Inhabited

/-- A token other than a delimiter. -/
inductive Token where
  /-- An identifier or reserved word; `raw` when it carries the mark `r#`, which
      is not part of `name`. -/
  | word (raw : Bool) (name : String)
  /-- `'name`. -/
  | lifetime (name : String)
  /-- One punctuation character; `joint` when another follows it directly. -/
  | punct (c : Char) (joint : Bool)
  | literal (kind : LiteralKind) (lexeme : String)
  deriving DecidableEq, Repr, Inhabited

/-- An element of the lexeme sequence. -/
inductive Lexeme where
  | token (t : Token)
  | opening (d : Delimiter)
  | closing (d : Delimiter)
  deriving DecidableEq, Repr, Inhabited

/-- A lexeme with its place: from `start` up to `stop`. -/
structure Placed where
  lexeme : Lexeme
  start : Text.Location
  stop : Text.Location
  deriving DecidableEq, Repr, Inhabited

/-- A token, or a delimited group. -/
inductive Tree where
  | leaf (t : Token)
  | group (d : Delimiter) (content : List Tree)
  deriving Repr, Inhabited

mutual
/-- The lexemes of a tree. -/
def Tree.flatten : Tree → List Lexeme
  | .leaf t => [.token t]
  | .group d content => .opening d :: (flattenAll content ++ [.closing d])
/-- The lexemes of a sequence of trees. -/
def flattenAll : List Tree → List Lexeme
  | [] => []
  | t :: ts => t.flatten ++ flattenAll ts
end

mutual
/-- The number of lexemes of a tree. -/
def Tree.size : Tree → Nat
  | .leaf _ => 1
  | .group _ content => sizeAll content + 2
/-- The number of lexemes of a sequence of trees. -/
def sizeAll : List Tree → Nat
  | [] => 0
  | t :: ts => t.size + sizeAll ts
end

/-- One lexeme put in front of a stack of open groups, innermost group first:
    reading from the right, a closing delimiter starts a group and the opening
    one completes it. Nothing results when an opening delimiter has no group to
    complete. -/
def nestStep (lexeme : Lexeme) (frames : List (Delimiter × List Tree)) (outer : List Tree) :
    Option (List (Delimiter × List Tree) × List Tree) :=
  match lexeme, frames with
  | .token t, [] => some ([], .leaf t :: outer)
  | .token t, (d, content) :: rest => some ((d, .leaf t :: content) :: rest, outer)
  | .closing d, frames => some ((d, []) :: frames, outer)
  | .opening _, [] => none
  | .opening d, [(e, content)] => if d = e then some ([], .group d content :: outer) else none
  | .opening d, (e, content) :: (f, siblings) :: rest =>
    if d = e then some ((f, .group d content :: siblings) :: rest, outer) else none

/-- The open groups and finished trees of a lexeme sequence, read from its
    right end. -/
def nestFrames (lexemes : List Lexeme) : Option (List (Delimiter × List Tree) × List Tree) :=
  lexemes.foldr (fun lexeme acc => acc.bind fun (frames, outer) => nestStep lexeme frames outer)
    (some ([], []))

/-- The trees of a lexeme sequence; there are none when its delimiters do not
    match. -/
def nest? (lexemes : List Lexeme) : Option (List Tree) :=
  match nestFrames lexemes with
  | some ([], trees) => some trees
  | _ => none

/-- Trees put in front of the innermost open group, or of the finished trees
    when none is open. -/
def putFront (trees : List Tree) :
    List (Delimiter × List Tree) × List Tree → List (Delimiter × List Tree) × List Tree
  | ([], outer) => ([], trees ++ outer)
  | ((d, content) :: rest, outer) => ((d, trees ++ content) :: rest, outer)

theorem nestFrames_cons (lexeme : Lexeme) (lexemes : List Lexeme) :
    nestFrames (lexeme :: lexemes) =
      (nestFrames lexemes).bind fun (frames, outer) => nestStep lexeme frames outer := rfl

mutual
theorem Tree.nestFrames_flatten : (t : Tree) → (lexemes : List Lexeme) →
    (state : List (Delimiter × List Tree) × List Tree) → nestFrames lexemes = some state →
    nestFrames (t.flatten ++ lexemes) = some (putFront [t] state)
  | .leaf t, lexemes, (frames, outer), h => by
    rw [Tree.flatten, List.cons_append, List.nil_append, nestFrames_cons, h]
    cases frames <;> rfl
  | .group d content, lexemes, (frames, outer), h => by
    have hclose : nestFrames (.closing d :: lexemes) = some ((d, []) :: frames, outer) := by
      rw [nestFrames_cons, h]
      rfl
    have hin := nestFrames_flattenAll content _ _ hclose
    rw [Tree.flatten, List.cons_append, nestFrames_cons, List.append_assoc, List.singleton_append,
      hin]
    rcases frames with _ | ⟨⟨f, siblings⟩, rest⟩ <;> simp [nestStep, putFront]
theorem nestFrames_flattenAll : (ts : List Tree) → (lexemes : List Lexeme) →
    (state : List (Delimiter × List Tree) × List Tree) → nestFrames lexemes = some state →
    nestFrames (flattenAll ts ++ lexemes) = some (putFront ts state)
  | [], lexemes, (frames, outer), h => by
    rw [flattenAll, List.nil_append, h]
    cases frames <;> rfl
  | t :: ts, lexemes, (frames, outer), h => by
    have hts := nestFrames_flattenAll ts lexemes _ h
    have ht := t.nestFrames_flatten _ _ hts
    rw [flattenAll, List.append_assoc, ht]
    cases frames <;> rfl
end

theorem nest?_flatten (ts : List Tree) : nest? (flattenAll ts) = some ts := by
  have h := nestFrames_flattenAll ts [] ([], []) rfl
  simp only [List.append_nil, putFront] at h
  simp only [nest?, h]

end Reexport.Source
