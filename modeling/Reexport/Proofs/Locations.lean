import Mathlib.Tactic.Common
import Reexport.Text.Location

/-!
# Locations and offsets

A location is counted along a text, character by character. Locations grow with the part
of the text that has been passed, and the offset of the location after a part is the
size of that part.

Results:

* `before_pastAll`: what comes later stands at a later location.
* `offsetAt_pastAll`: the offset of the location after a part of a text.
* `lineAt_append`: the line of the end of a part of a text.
* `exists_at_location`: a text that is counted from inside the first line of another, with
  no line end in between, has the locations of characters of that other text.
-/

namespace Reexport.Text

/-! ## Passing over a text -/

@[simp] theorem Location.pastAll_nil (loc : Location) : loc.pastAll [] = loc := rfl

@[simp] theorem Location.pastAll_cons (loc : Location) (c : Char) (cs : List Char) :
    loc.pastAll (c :: cs) = (loc.past c).pastAll cs := rfl

@[simp] theorem Location.pastAll_append (loc : Location) (as bs : List Char) :
    loc.pastAll (as ++ bs) = (loc.pastAll as).pastAll bs := by
  simp [Location.pastAll]

/-- The location `a` comes before the location `b`. -/
def Location.Before (a b : Location) : Prop := a.line < b.line ∨ a.line = b.line ∧ a.column < b.column

theorem Location.Before.trans {a b c : Location} (hab : a.Before b) (hbc : b.Before c) : a.Before c := by
  unfold Location.Before at *
  omega

theorem Location.Before.irrefl (a : Location) : ¬ a.Before a := by
  unfold Location.Before
  omega

theorem Location.before_past (loc : Location) (c : Char) : loc.Before (loc.past c) := by
  unfold Location.past Location.Before
  split_ifs
  · exact .inl (Nat.lt_succ_self _)
  · exact .inr ⟨rfl, Nat.lt_succ_self _⟩

theorem Location.before_pastAll : ∀ {cs : List Char} (loc : Location), cs ≠ [] → loc.Before (loc.pastAll cs) := by
  intro cs
  induction cs with
  | nil => intro loc h; exact absurd rfl h
  | cons c cs ih =>
    intro loc _
    by_cases hcs : cs = []
    · subst hcs
      exact loc.before_past c
    · exact (loc.before_past c).trans (ih _ hcs)

/-- Of two parts of a text, the one with the earlier end is the shorter one. -/
theorem byteSize_lt_of_before {loc : Location} {as bs cs ds : List Char} (h : as ++ bs = cs ++ ds)
    (hbefore : (loc.pastAll as).Before (loc.pastAll cs)) : byteSize as < byteSize cs := by
  rcases List.append_eq_append_iff.1 h with ⟨rest, rfl, rfl⟩ | ⟨rest, rfl, rfl⟩
  · cases rest with
    | nil => exact absurd hbefore (by simpa using Location.Before.irrefl _)
    | cons c rest =>
      have hpos := c.utf8Size_pos
      simp only [byteSize_append, byteSize_cons]
      omega
  · by_cases hrest : rest = []
    · subst hrest
      exact absurd hbefore (by simpa using Location.Before.irrefl _)
    · rw [Location.pastAll_append] at hbefore
      exact absurd (hbefore.trans (Location.before_pastAll _ hrest)) (Location.Before.irrefl _)

/-! ## Within one line and across lines -/

theorem Location.pastAll_of_no_newline : ∀ {cs : List Char} (loc : Location), '\n' ∉ cs →
    loc.pastAll cs = ⟨loc.line, loc.column + cs.length⟩ := by
  intro cs
  induction cs with
  | nil => intro loc _; rfl
  | cons c cs ih =>
    intro loc h
    rw [List.mem_cons, not_or] at h
    rw [Location.pastAll_cons, ih _ h.2, Location.past, if_neg (Ne.symm h.1)]
    simp [Nat.add_assoc, Nat.add_comm 1]

/-- After a newline it does not matter in which column counting started. -/
theorem Location.pastAll_of_newline : ∀ {cs : List Char} (line column column' : Nat), '\n' ∈ cs →
    Location.pastAll ⟨line, column⟩ cs = Location.pastAll ⟨line, column'⟩ cs := by
  intro cs
  induction cs with
  | nil => intro line column column' h; cases h
  | cons c cs ih =>
    intro line column column' h
    by_cases hc : c = '\n'
    · subst hc
      rfl
    · have hcs : '\n' ∈ cs := (List.mem_cons.1 h).resolve_left (Ne.symm hc)
      simp only [Location.pastAll_cons, Location.past, hc, if_false]
      exact ih _ _ _ hcs

/-- A text that a line may start behind. -/
def EndsLine (cs : List Char) : Prop := cs = [] ∨ ∃ front, cs = front ++ ['\n']

/-- A text is made up of whole lines and a part of a line. -/
theorem exists_lines : ∀ (cs : List Char), ∃ whole part, cs = whole ++ part ∧ '\n' ∉ part ∧
    EndsLine whole := by
  intro cs
  induction cs with
  | nil => exact ⟨[], [], rfl, by simp, .inl rfl⟩
  | cons c cs ih =>
    obtain ⟨whole, part, rfl, hpart, rfl | ⟨front, rfl⟩⟩ := ih
    · by_cases hc : c = '\n'
      · exact ⟨['\n'], part, by simp [hc], hpart, .inr ⟨[], rfl⟩⟩
      · refine ⟨[], c :: part, rfl, ?_, .inl rfl⟩
        rw [List.mem_cons, not_or]
        exact ⟨Ne.symm hc, hpart⟩
    · exact ⟨c :: (front ++ ['\n']), part, rfl, hpart, .inr ⟨c :: front, rfl⟩⟩

theorem splitLines_newline (rest : List Char) : ∀ (front : List Char),
    splitLines (front.count '\n' + 1) (front ++ '\n' :: rest) = (front ++ ['\n'], rest) := by
  intro front
  induction front with
  | nil => simp [splitLines]
  | cons c front ih =>
    by_cases hc : c = '\n'
    · simp [splitLines, hc, ih]
    · simp [splitLines, hc, ih]

theorem Location.pastAll_line : ∀ (cs : List Char) (loc : Location),
    (loc.pastAll cs).line = loc.line + cs.count '\n' := by
  intro cs
  induction cs with
  | nil => intro loc; rfl
  | cons c cs ih =>
    intro loc
    rw [Location.pastAll_cons, ih, List.count_cons]
    by_cases hc : c = '\n'
    · simp [Location.past, hc, Nat.add_assoc, Nat.add_comm 1]
    · simp [Location.past, hc]

theorem Location.pastAll_newline (loc : Location) (cs : List Char) :
    loc.pastAll (cs ++ ['\n']) = ⟨loc.line + (cs.count '\n' + 1), 0⟩ := by
  simp [Location.past, Location.pastAll_line, Nat.add_assoc]

/-- The offset of the location after a part of a text is the size of that part. -/
theorem offsetAt_pastAll (as bs : List Char) :
    offsetAt (as ++ bs) (Location.first.pastAll as) = byteSize as := by
  obtain ⟨whole, part, rfl, hpart, rfl | ⟨front, rfl⟩⟩ := exists_lines as
  · simp [Location.pastAll_of_no_newline _ hpart, offsetAt, Location.first, splitLines]
  · have hsplit := splitLines_newline (part ++ bs) front
    rw [Location.pastAll_append, Location.pastAll_newline, Location.pastAll_of_no_newline _ hpart]
    simp [offsetAt, Location.first, hsplit, Nat.add_assoc]

/-! ## Lines of offsets -/

theorem newlinesBefore_append (n : Nat) (after : List Char) : ∀ (before : List Char),
    newlinesBefore (byteSize before + n) (before ++ after) = before.count '\n' + newlinesBefore n after := by
  intro before
  induction before with
  | nil => simp
  | cons c before ih =>
    have hpos := c.utf8Size_pos
    obtain ⟨k, hk⟩ : ∃ k, byteSize (c :: before) + n = k + 1 :=
      ⟨byteSize (c :: before) + n - 1, by rw [byteSize_cons]; omega⟩
    have hrest : k + 1 - c.utf8Size = byteSize before + n := by
      rw [← hk, byteSize_cons]
      omega
    rw [hk, List.cons_append, newlinesBefore, hrest, ih, List.count_cons]
    simp only [beq_iff_eq]
    omega

/-- The line of the end of a part of a text. -/
theorem lineAt_append (before after : List Char) :
    lineAt (before ++ after) (byteSize before) = before.count '\n' + 1 := by
  have h := newlinesBefore_append 0 after before
  rw [Nat.add_zero] at h
  rw [lineAt, h, newlinesBefore, Nat.add_zero]

/-! ## Counting from inside a line -/

/-- A body that `cut` stands in front of, counted from column `column` of the first line: the
    location of each of its characters is that of a character of the whole text. -/
theorem exists_at_location {cut as : List Char} {column : Nat} (bs : List Char) (hcut : '\n' ∉ cut)
    (hcolumn : column ≤ cut.length) : ∃ front back, cut ++ (as ++ bs) = front ++ back ∧
      Location.first.pastAll front = Location.pastAll ⟨1, column⟩ as := by
  by_cases hline : '\n' ∈ as
  · refine ⟨cut ++ as, bs, by simp, ?_⟩
    rw [Location.pastAll_append, Location.pastAll_of_no_newline _ hcut]
    exact Location.pastAll_of_newline _ _ _ hline
  · have hnone : '\n' ∉ (cut ++ as).take (column + as.length) := by
      intro hmem
      rcases List.mem_append.1 (List.mem_of_mem_take hmem) with h | h
      · exact hcut h
      · exact hline h
    refine ⟨(cut ++ as).take (column + as.length), (cut ++ as).drop (column + as.length) ++ bs, ?_, ?_⟩
    · rw [← List.append_assoc, ← List.append_assoc, List.take_append_drop]
    · rw [Location.pastAll_of_no_newline _ hnone, Location.pastAll_of_no_newline _ hline, List.length_take,
        List.length_append, Nat.min_eq_left (by omega)]
      simp [Location.first]

end Reexport.Text
