import Reexport.Text.IdentTable

/-!
# Identifier characters, module names and reserved words

Which characters make up an identifier, which words a file or directory name
may be to name a module, and how a name has to be spelled where a reserved word
would be read as something else.
-/

namespace Reexport.Text

/-- Whether a code point lies in one of the inclusive ranges. -/
def inRanges (ranges : Array (Nat × Nat)) (n : Nat) : Bool :=
  ranges.any fun (lo, hi) => lo ≤ n && n ≤ hi

/-- A character that may open an identifier. -/
def isIdentStart (c : Char) : Bool :=
  if c.toNat < 0x80 then c.isAlpha || c == '_' else inRanges startRanges c.toNat

/-- A character that may follow in an identifier. -/
def isIdentContinue (c : Char) : Bool :=
  if c.toNat < 0x80 then c.isAlphanum || c == '_'
  else inRanges startRanges c.toNat || inRanges extendRanges c.toNat

/-- The length of the identifier that a text opens with, raw mark not counted. -/
def wordLength? : List Char → Option Nat
  | [] => none
  | c :: cs => if isIdentStart c then some (1 + (cs.takeWhile isIdentContinue).length) else none

/-- A name that a file or directory may have to be a module: an ASCII
    identifier other than a lone underscore. -/
def isModuleName (name : String) : Bool :=
  match name.toList with
  | [] => false
  | c :: cs =>
    (c.isAlpha || c == '_') && cs.all (fun d => d.isAlphanum || d == '_') && !(c == '_' && cs.isEmpty)

/-- Words that have to be written with the raw mark to be used as a name. -/
def reservedNames : List String :=
  ["abstract", "as", "async", "await", "become", "box", "break", "const", "continue", "do", "dyn",
   "else", "enum", "extern", "false", "final", "fn", "for", "gen", "if", "impl", "in", "let",
   "loop", "macro", "match", "mod", "move", "mut", "override", "priv", "pub", "ref", "return",
   "static", "struct", "trait", "true", "try", "type", "typeof", "unsafe", "unsized", "use",
   "virtual", "where", "while", "yield"]

/-- How a name is spelled in source: reserved words carry the raw mark. Names
    are stored without it, so that the two spellings of a name compare equal. -/
def spelled (name : String) : String :=
  if reservedNames.contains name then "r#" ++ name else name

end Reexport.Text
