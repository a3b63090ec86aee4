import Reexport.Edit
import Reexport.Proofs.Locations

/-!
# Offsets and the lines of a text

A line starts at the start of the text and behind every newline, but none starts behind a
newline that ends the text. A location of that last, empty line still has an offset, as every
location has one: what lies past the end of the text stands for the end.

Results:

* `lookUp?_eq`: offsets by a table of line starts.
* `offsetAt_of_lines`, `offsetAt_of_pastEnd`: which offset a location has.
* `offsets_invert_locations`: offsets and locations, in full.
-/

namespace Reexport.Text

/-! ## Whole lines -/

theorem splitLines_append : ∀ (n : Nat) (cs : List Char), (splitLines n cs).1 ++ (splitLines n cs).2 = cs := by
  intro n cs
  induction cs generalizing n with
  | nil => cases n <;> rfl
  | cons c cs ih =>
    cases n with
    | zero => rfl
    | succ n => simp [splitLines, ih]

/-- The text cut where line number `n + 1` starts. -/
theorem splitLines_of_endsLine {front : List Char} (h : EndsLine front) (back : List Char) :
    splitLines (front.count '\n') (front ++ back) = (front, back) := by
  rcases h with rfl | ⟨front, rfl⟩
  · simp [splitLines]
  · rw [List.count_append, List.append_assoc]
    exact splitLines_newline back front

/-- Where anything is left behind a number of lines, a line starts there. -/
theorem endsLine_splitLines : ∀ (n : Nat) {cs : List Char}, (splitLines n cs).2 ≠ [] →
    EndsLine (splitLines n cs).1 ∧ (splitLines n cs).1.count '\n' = n := by
  intro n cs
  induction cs generalizing n with
  | nil => cases n <;> exact fun h => absurd rfl h
  | cons c cs ih =>
    cases n with
    | zero => exact fun _ => ⟨.inl rfl, rfl⟩
    | succ n =>
      intro h
      by_cases hc : c = '\n'
      · subst hc
        obtain ⟨hends, hcount⟩ := @ih n (by simpa [splitLines] using h)
        refine ⟨?_, by simp [splitLines, hcount]⟩
        rcases hends with hnil | ⟨front, hfront⟩
        · exact .inr ⟨[], by simp [splitLines, hnil]⟩
        · exact .inr ⟨'\n' :: front, by simp [splitLines, hfront]⟩
      · obtain ⟨hends, hcount⟩ := @ih (n + 1) (by simpa [splitLines, hc] using h)
        refine ⟨?_, by simp [splitLines, hc, hcount]⟩
        rcases hends with hnil | ⟨front, hfront⟩
        · rw [hnil] at hcount
          cases hcount
        · exact .inr ⟨c :: front, by simp [splitLines, hc, hfront]⟩

/-! ## The table of line starts -/

/-- The lines of a text, each with the newline that ends it. -/
def linesOf : List Char → List (List Char)
  | [] => []
  | c :: cs =>
    if c = '\n' then [c] :: linesOf cs
    else
      match linesOf cs with
      | [] => [[c]]
      | line :: rest => (c :: line) :: rest

/-- The offsets at which lines start that follow each other from `offset` on. -/
def startsFrom (offset : Nat) : List (List Char) → List Nat
  | [] => []
  | line :: rest => offset :: startsFrom (offset + byteSize line) rest

/-- The offsets at which the lines of a text start. The empty text has one line. -/
def lineStarts (cs : List Char) : List Nat :=
  if cs.isEmpty then [0] else startsFrom 0 (linesOf cs)

/-- The offset of character number `n`, counted from 0. -/
def charStart? : Nat → List Char → Option Nat
  | _, [] => none
  | 0, _ :: _ => some 0
  | n + 1, c :: cs => (charStart? n cs).map (c.utf8Size + ·)

/-- The offset of a location: the start of its line by the table, and from there on character by
    character. Nothing results if the table has a start that is no border of a character. -/
def lookUp? (cs : List Char) (loc : Location) : Option Nat :=
  match (lineStarts cs)[loc.line - 1]? with
  | none => some (byteSize cs)
  | some start => do
    let (_, rest) ← split? start cs
    return (charStart? loc.column rest).elim (byteSize cs) (start + ·)

theorem startsFrom_linesOf : ∀ (cs : List Char) (n offset : Nat), (startsFrom offset (linesOf cs))[n]? =
    if (splitLines n cs).2 = [] then none else some (offset + byteSize (splitLines n cs).1) := by
  intro cs
  induction cs with
  | nil => intro n offset; cases n <;> rfl
  | cons c cs ih =>
    intro n offset
    cases n with
    | zero =>
      rw [linesOf]
      split
      · rfl
      · split <;> rfl
    | succ n =>
      by_cases hc : c = '\n'
      · simp [linesOf, startsFrom, splitLines, hc, ih, Nat.add_assoc]
      · cases hlines : linesOf cs with
        | nil =>
          cases cs with
          | nil => simp [linesOf, startsFrom, splitLines, hc]
          | cons d cs =>
            rw [linesOf] at hlines
            split at hlines
            · cases hlines
            · split at hlines <;> cases hlines
        | cons line rest =>
          have hrest := ih (n + 1) (offset + c.utf8Size)
          rw [hlines, startsFrom, List.getElem?_cons_succ] at hrest
          simp [linesOf, startsFrom, splitLines, hc, hlines, hrest, ← Nat.add_assoc]

theorem getElem?_lineStarts {cs : List Char} (hcs : cs ≠ []) (n : Nat) : (lineStarts cs)[n]? =
    if (splitLines n cs).2 = [] then none else some (byteSize (splitLines n cs).1) := by
  rw [lineStarts, if_neg (by simpa using hcs), startsFrom_linesOf, Nat.zero_add]

theorem charStart?_eq : ∀ (n : Nat) (cs : List Char),
    charStart? n cs = if n < cs.length then some (byteSize (cs.take n)) else none := by
  intro n cs
  induction cs generalizing n with
  | nil => simp [charStart?]
  | cons c cs ih =>
    cases n with
    | zero => rfl
    | succ n =>
      rw [charStart?, ih]
      by_cases h : n < cs.length <;> simp [h]

/-- The table of line starts gives every location its offset, and never a place inside a
    character. -/
theorem lookUp?_eq (cs : List Char) (loc : Location) : lookUp? cs loc = some (offsetAt cs loc) := by
  by_cases hcs : cs = []
  · subst hcs
    have hnil : splitLines (loc.line - 1) [] = ([], []) := by cases loc.line - 1 <;> rfl
    cases hline : loc.line - 1 with
    | zero => simp [lookUp?, lineStarts, hline, split?, charStart?, offsetAt, splitLines]
    | succ line => simp [lookUp?, lineStarts, hline, offsetAt, splitLines]
  · have happend := splitLines_append (loc.line - 1) cs
    rw [lookUp?, getElem?_lineStarts hcs, offsetAt]
    by_cases hleft : (splitLines (loc.line - 1) cs).2 = []
    · rw [hleft, List.append_nil] at happend
      simp [hleft, happend]
    · have hsplit := split?_append (splitLines (loc.line - 1) cs).1 (splitLines (loc.line - 1) cs).2
      rw [happend] at hsplit
      have hsize := congrArg byteSize happend
      rw [byteSize_append] at hsize
      simp only [if_neg hleft, hsplit, Option.bind_eq_bind, Option.bind_some, charStart?_eq]
      by_cases hcolumn : loc.column < (splitLines (loc.line - 1) cs).2.length
      · simp [hcolumn]
      · simp [hcolumn, List.take_of_length_le (Nat.le_of_not_lt hcolumn), hsize]

/-! ## The offset of a location -/

/-- The offset of a location behind whole lines and a part of what follows them. -/
theorem offsetAt_of_lines {front : List Char} (h : EndsLine front) (part back : List Char) :
    offsetAt (front ++ (part ++ back)) ⟨front.count '\n' + 1, part.length⟩ = byteSize (front ++ part) := by
  rw [offsetAt, Nat.add_sub_cancel, splitLines_of_endsLine h, byteSize_append]
  simp

/-- Where the line of a location starts, if it does, no more characters are left than its column
    counts. -/
def Location.PastEnd (loc : Location) (text : List Char) : Prop :=
  ∀ front back, text = front ++ back → EndsLine front → front.count '\n' = loc.line - 1 →
    back.length ≤ loc.column

theorem offsetAt_of_pastEnd {text : List Char} {loc : Location} (h : loc.PastEnd text) :
    offsetAt text loc = byteSize text := by
  have happend := splitLines_append (loc.line - 1) text
  have hall : (splitLines (loc.line - 1) text).2.take loc.column = (splitLines (loc.line - 1) text).2 := by
    by_cases hleft : (splitLines (loc.line - 1) text).2 = []
    · rw [hleft, List.take_nil]
    · obtain ⟨hends, hcount⟩ := endsLine_splitLines _ hleft
      exact List.take_of_length_le (h _ _ happend.symm hends hcount)
  rw [offsetAt]
  simp only
  rw [hall, ← byteSize_append, happend]

/-- Every location has an offset at a border of characters. -/
theorem offsetAt_border (text : List Char) (loc : Location) :
    ∃ before after, text = before ++ after ∧ offsetAt text loc = byteSize before := by
  refine ⟨(splitLines (loc.line - 1) text).1 ++ (splitLines (loc.line - 1) text).2.take loc.column,
    (splitLines (loc.line - 1) text).2.drop loc.column, ?_, ?_⟩
  · rw [List.append_assoc, List.take_append_drop, splitLines_append]
  · rw [byteSize_append]
    rfl

theorem byteSize_take_le {m n : Nat} (h : m ≤ n) (cs : List Char) :
    byteSize (cs.take m) ≤ byteSize (cs.take n) := by
  obtain ⟨rest, hrest⟩ := List.take_prefix_take_left h
  rw [← hrest, byteSize_append]
  exact Nat.le_add_right _ _

theorem offsetAt_le_of_column_le (text : List Char) (line : Nat) {a b : Nat} (h : a ≤ b) :
    offsetAt text ⟨line, a⟩ ≤ offsetAt text ⟨line, b⟩ :=
  Nat.add_le_add_left (byteSize_take_le h _) _

/-- The part of the last line is what stands behind the whole lines. -/
theorem lastLine_of_endsLine {whole part : List Char} (hwhole : EndsLine whole) (hpart : '\n' ∉ part) :
    Edit.lastLine (whole ++ part) = part := by
  have hnone : ∀ c ∈ part.reverse, (c != '\n') = true := by
    intro c hc
    rw [bne_iff_ne]
    rintro rfl
    exact hpart (List.mem_reverse.1 hc)
  rw [Edit.lastLine, List.reverse_append, List.takeWhile_append_of_pos hnone]
  rcases hwhole with rfl | ⟨front, rfl⟩ <;> simp

/-- The line of an offset and the characters since that line started lead back to the offset. -/
theorem offsetAt_lineAt (before after : List Char) : offsetAt (before ++ after)
    ⟨lineAt (before ++ after) (byteSize before), (Edit.lastLine before).length⟩ = byteSize before := by
  obtain ⟨whole, part, rfl, hpart, hwhole⟩ := exists_lines before
  have hcount : (whole ++ part).count '\n' = whole.count '\n' := by
    rw [List.count_append, List.count_eq_zero.2 hpart, Nat.add_zero]
  rw [lineAt_append, hcount, lastLine_of_endsLine hwhole hpart, List.append_assoc]
  exact offsetAt_of_lines hwhole part after

/-- **Offsets invert locations.** The line of an offset at a border of characters and the number of
    characters since that line started lead back to the offset. Every location has an offset at a
    border of characters, at most the size of the text, which the table of line starts gives too.
    Within one line offsets grow with the column, and a location past the end has the offset of
    the end. -/
theorem offsets_invert_locations (text : List Char) :
    (∀ before after, text = before ++ after →
      offsetAt text ⟨lineAt text (byteSize before), (Edit.lastLine before).length⟩ = byteSize before) ∧
    (∀ loc, lookUp? text loc = some (offsetAt text loc)) ∧
    (∀ loc, offsetAt text loc ≤ byteSize text ∧
      ∃ before after, text = before ++ after ∧ offsetAt text loc = byteSize before) ∧
    (∀ line a b, a ≤ b → offsetAt text ⟨line, a⟩ ≤ offsetAt text ⟨line, b⟩) ∧
    (∀ loc, loc.PastEnd text → offsetAt text loc = byteSize text) := by
  refine ⟨?_, lookUp?_eq text, fun loc => ?_, fun line a b h => offsetAt_le_of_column_le text line h,
    fun loc h => offsetAt_of_pastEnd h⟩
  · rintro before after rfl
    exact offsetAt_lineAt before after
  · obtain ⟨before, after, rfl, hoffset⟩ := offsetAt_border text loc
    refine ⟨?_, before, after, rfl, hoffset⟩
    rw [hoffset, byteSize_append]
    exact Nat.le_add_right _ _

/-- The end of a text that ends in a newline stands on a line of its own, and so does what lies
    past it. -/
theorem offsets_invert_locations_newline : ∃ text : List Char, text = "é\r\nb\n".toList ∧
    lineAt text (byteSize text) = 3 ∧ offsetAt text ⟨3, 0⟩ = 6 ∧
    Location.PastEnd ⟨9, 1⟩ text ∧ offsetAt text ⟨9, 1⟩ = 6 ∧
    offsetAt text ⟨1, 1⟩ ≤ offsetAt text ⟨1, 4⟩ := by
  obtain ⟨hinvert, -, -, hmono, hpast⟩ := offsets_invert_locations "é\r\nb\n".toList
  have hend : Location.PastEnd ⟨9, 1⟩ "é\r\nb\n".toList := by
    intro front back htext _ hcount
    have hle : front.count '\n' ≤ "é\r\nb\n".toList.count '\n' := by
      rw [htext, List.count_append]
      exact Nat.le_add_right _ _
    rw [hcount] at hle
    exact absurd hle (by decide)
  refine ⟨_, rfl, by decide, ?_, hend, ?_, hmono 1 1 4 (by decide)⟩
  · exact hinvert "é\r\nb\n".toList [] (List.append_nil _).symm
  · exact (hpast _ hend).trans (by decide)

end Reexport.Text
