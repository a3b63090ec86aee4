/-!
# Byte offsets into a text

A text is a list of characters; positions in it are byte offsets of its UTF-8
encoding. An offset is usable only at a character boundary, so cutting a text
at an offset may have no result.

Results:

* `split?_append`: cutting a text after a part of it gives that part.
* `eq_append_of_split?`: the two pieces of a cut make up the text, and the first
  one has the length asked for.
-/

namespace Reexport.Text

/-- The number of bytes of a text in UTF-8. -/
def byteSize : List Char → Nat
  | [] => 0
  | c :: cs => c.utf8Size + byteSize cs

/-- The text before and after byte offset `n`; there is no result when `n` is
    past the end or inside a character. -/
def split? : Nat → List Char → Option (List Char × List Char)
  | 0, cs => some ([], cs)
  | _ + 1, [] => none
  | n + 1, c :: cs =>
    if c.utf8Size ≤ n + 1 then
      (split? (n + 1 - c.utf8Size) cs).map fun (before, after) => (c :: before, after)
    else none

/-- The text from byte offset `start` up to byte offset `stop`. -/
def slice? (start stop : Nat) (cs : List Char) : Option (List Char) :=
  if start ≤ stop then do
    let (_, rest) ← split? start cs
    let (middle, _) ← split? (stop - start) rest
    return middle
  else none

@[simp] theorem byteSize_nil : byteSize [] = 0 := rfl

@[simp] theorem byteSize_cons (c : Char) (cs : List Char) :
    byteSize (c :: cs) = c.utf8Size + byteSize cs := rfl

@[simp] theorem byteSize_append (as bs : List Char) :
    byteSize (as ++ bs) = byteSize as + byteSize bs := by
  induction as with
  | nil => simp
  | cons a as ih => simp [ih, Nat.add_assoc]

theorem split?_append (as bs : List Char) : split? (byteSize as) (as ++ bs) = some (as, bs) := by
  induction as with
  | nil => simp [split?]
  | cons a as ih =>
    have ha := a.utf8Size_pos
    obtain ⟨n, hn⟩ : ∃ n, a.utf8Size + byteSize as = n + 1 :=
      ⟨a.utf8Size + byteSize as - 1, by omega⟩
    have hle : a.utf8Size ≤ n + 1 := by omega
    have hsub : n + 1 - a.utf8Size = byteSize as := by omega
    simp [hn, split?, hle, hsub, ih]

theorem eq_append_of_split? {n : Nat} {cs before after : List Char}
    (h : split? n cs = some (before, after)) : cs = before ++ after ∧ byteSize before = n := by
  induction cs generalizing n before after with
  | nil =>
    cases n with
    | zero =>
      obtain ⟨rfl, rfl⟩ : before = [] ∧ [] = after := by simpa [split?] using h
      simp
    | succ n => simp [split?] at h
  | cons c cs ih =>
    cases n with
    | zero =>
      obtain ⟨rfl, rfl⟩ : before = [] ∧ c :: cs = after := by simpa [split?] using h
      simp
    | succ n =>
      rw [split?] at h
      split at h
      · rename_i hle
        obtain ⟨⟨b, a⟩, hs, he⟩ := Option.map_eq_some_iff.1 h
        obtain ⟨rfl, rfl⟩ := Prod.mk.inj he
        obtain ⟨rfl, hb⟩ := ih hs
        exact ⟨rfl, by simp [hb]; omega⟩
      · simp at h

end Reexport.Text
