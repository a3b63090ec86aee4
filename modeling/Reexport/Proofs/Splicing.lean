import Mathlib.Data.List.Nodup
import Reexport.Edit

/-!
# Edits change the stars and nothing else

Edits are applied from the end of a text to its start, so what is left of the text in
front of the last edit is still the original. That is the invariant of the loop: the
buffer is a part of the original text followed by finished text, and all stars still to
come stand in the first part.

Results:

* `replace_star`: what one replacement does to such a buffer.
* `applyAll_stitched`: all edits together, from the loop invariant.
* `checkedAll_eq`: no range ever lies outside the text or cuts a character.
* `edits_change_stars`: the result of a list of edits, in full.
-/

namespace Reexport.Text

/-! ## Cutting texts -/

theorem slice?_append (as bs cs : List Char) :
    slice? (byteSize as) (byteSize as + byteSize bs) (as ++ (bs ++ cs)) = some bs := by
  simp only [slice?, Nat.le_add_right, if_true, split?_append, Option.bind_eq_bind, Option.bind_some,
    Nat.add_sub_cancel_left]
  rfl

theorem eq_append_of_slice? {start stop : Nat} {cs middle : List Char}
    (h : slice? start stop cs = some middle) :
    ∃ before after, cs = before ++ (middle ++ after) ∧ byteSize before = start ∧
      start + byteSize middle = stop := by
  unfold slice? at h
  split_ifs at h with hle
  simp only [Option.bind_eq_bind, Option.bind_eq_some_iff, Prod.exists] at h
  obtain ⟨before, rest, hbefore, inner, after, hinner, hmiddle⟩ := h
  cases hmiddle
  obtain ⟨rfl, hstart⟩ := eq_append_of_split? hbefore
  obtain ⟨rfl, hsize⟩ := eq_append_of_split? hinner
  exact ⟨before, after, rfl, hstart, by omega⟩

/-- Of two beginnings of a text the one with fewer bytes is a beginning of the other. -/
theorem exists_append_of_byteSize_le {as bs cs ds : List Char} (h : as ++ bs = cs ++ ds)
    (hle : byteSize as ≤ byteSize cs) : ∃ rest, cs = as ++ rest ∧ bs = rest ++ ds := by
  rcases List.append_eq_append_iff.1 h with ⟨rest, rfl, rfl⟩ | ⟨rest, rfl, rfl⟩
  · exact ⟨rest, rfl, rfl⟩
  · rw [byteSize_append] at hle
    cases rest with
    | nil => exact ⟨[], by simp, by simp⟩
    | cons c rest =>
      have hpos := c.utf8Size_pos
      rw [byteSize_cons] at hle
      omega

theorem eq_of_byteSize_eq {as bs cs ds : List Char} (h : as ++ bs = cs ++ ds)
    (hsize : byteSize as = byteSize cs) : as = cs ∧ bs = ds := by
  obtain ⟨rest, rfl, rfl⟩ := exists_append_of_byteSize_le h (Nat.le_of_eq hsize)
  rw [byteSize_append] at hsize
  cases rest with
  | nil => simp
  | cons c rest =>
    have hpos := c.utf8Size_pos
    rw [byteSize_cons] at hsize
    omega

end Reexport.Text

namespace Reexport.Edit

open Text

/-! ## One edit -/

/-- A star and nothing else stands where an edit says. -/
def Fresh (text : List Char) (e : Edit) : Prop := e.star.text? text = some ['*']

instance (text : List Char) : DecidablePred (Fresh text) :=
  fun e => inferInstanceAs (Decidable (e.star.text? text = some ['*']))

theorem fresh_iff {text : List Char} {e : Edit} :
    Fresh text e ↔ ∃ before after, text = before ++ '*' :: after ∧ byteSize before = e.star.start ∧
      e.star.stop = e.star.start + 1 := by
  have hstar : byteSize ['*'] = 1 := by decide
  constructor
  · intro h
    obtain ⟨before, after, htext, hstart, hstop⟩ := eq_append_of_slice? h
    exact ⟨before, after, htext, hstart, by omega⟩
  · rintro ⟨before, after, rfl, hstart, hstop⟩
    rw [Fresh, Span.text?, hstop, ← hstart, ← hstar]
    exact slice?_append before ['*'] after

theorem Fresh.start_lt {text : List Char} {e : Edit} (h : Fresh text e) :
    e.star.start < byteSize text := by
  obtain ⟨before, after, rfl, hstart, -⟩ := fresh_iff.1 h
  have hpos := Char.utf8Size_pos '*'
  rw [byteSize_append, byteSize_cons]
  omega

theorem rendered?_around {e : Edit} {before after : List Char} {width : Nat}
    (hstart : byteSize before = e.star.start) (hstop : e.star.stop = e.star.start + 1) :
    rendered? (before ++ '*' :: after) width e =
      some (render (newlineOf (before ++ '*' :: after)) width e.names before after) := by
  have hfresh : Fresh (before ++ '*' :: after) e := fresh_iff.2 ⟨before, after, rfl, hstart, hstop⟩
  simp only [rendered?, around?, show e.star.text? _ = some ['*'] from hfresh, if_true, ← hstart,
    split?_append, Option.map_some, List.drop_succ_cons, List.drop_zero]

theorem rendered?_isSome_iff {text : List Char} (width : Nat) {e : Edit} :
    (rendered? text width e).isSome = true ↔ Fresh text e := by
  constructor
  · intro h
    by_contra hstale
    rw [Fresh] at hstale
    simp [rendered?, around?, hstale] at h
  · intro h
    obtain ⟨before, after, rfl, hstart, hstop⟩ := fresh_iff.1 h
    rw [rendered?_around hstart hstop]
    rfl

theorem rendered?_of_stale {text : List Char} {width : Nat} {e : Edit} (h : ¬ Fresh text e) :
    rendered? text width e = none := by
  rw [← Option.not_isSome_iff_eq_none, rendered?_isSome_iff]
  exact h

/-- A range of a text replaced by a list; nothing results where it is no range of the text. -/
def replaceRange? (range : Span) (list out : List Char) : Option (List Char) :=
  if range.start ≤ range.stop then do
    let (before, rest) ← split? range.start out
    let (_, after) ← split? (range.stop - range.start) rest
    return before ++ list ++ after
  else none

/-- What one replacement does to a buffer that still starts like the text. -/
theorem replace_star {text done left : List Char} {e : Edit} (htext : text = done ++ left)
    (hfresh : Fresh text e) (hlt : e.star.start < byteSize done) (list : List Char) :
    ∃ before after, done = before ++ '*' :: after ∧ byteSize before = e.star.start ∧
      ∀ tail, replaceAt e.star.start list (done ++ tail) = before ++ (list ++ (after ++ tail)) ∧
        replaceRange? e.star list (done ++ tail) = some (before ++ (list ++ (after ++ tail))) := by
  obtain ⟨before, rest, hrest, hstart, hstop⟩ := fresh_iff.1 hfresh
  obtain ⟨middle, rfl, hmiddle⟩ := exists_append_of_byteSize_le (hrest.symm.trans htext) (by omega)
  cases middle with
  | nil => simp [hstart] at hlt
  | cons c after =>
    obtain ⟨rfl, -⟩ := List.cons.inj hmiddle
    refine ⟨before, after, rfl, hstart, fun tail => ⟨?_, ?_⟩⟩
    · rw [replaceAt, List.append_assoc, List.cons_append, ← hstart, split?_append]
      simp
    · have hone : split? (e.star.stop - e.star.start) ('*' :: (after ++ tail)) =
          some (['*'], after ++ tail) := by
        rw [hstop, Nat.add_sub_cancel_left]
        exact split?_append ['*'] (after ++ tail)
      rw [replaceRange?, if_pos (by omega), List.append_assoc, List.cons_append]
      nth_rewrite 1 [← hstart]
      rw [split?_append]
      simp [hone]

/-! ## All edits -/

/-- The text from byte `start` up to byte `stop`, with the stars of edits replaced by their
    lists. The edits are given in the order of their stars. -/
def stitched? (text : List Char) (width : Nat) : (start : Nat) → List Edit → (stop : Nat) →
    Option (List Char)
  | start, [], stop => slice? start stop text
  | start, e :: rest, stop => do
    let piece ← slice? start e.star.start text
    let list ← rendered? text width e
    let others ← stitched? text width (e.star.start + 1) rest stop
    return piece ++ (list ++ others)

theorem stitched?_append_singleton {text : List Char} {width : Nat} {e : Edit}
    {front list back : List Char} {stop : Nat} (hlist : rendered? text width e = some list)
    (hback : slice? (e.star.start + 1) stop text = some back) : ∀ {edits : List Edit} {start : Nat},
    stitched? text width start edits e.star.start = some front →
    stitched? text width start (edits ++ [e]) stop = some (front ++ (list ++ back)) := by
  intro edits
  induction edits generalizing front with
  | nil =>
    intro start hfront
    rw [stitched?] at hfront
    simp [stitched?, hfront, hlist, hback]
  | cons d rest ih =>
    intro start hfront
    simp only [stitched?, Option.bind_eq_bind, Option.bind_eq_some_iff] at hfront
    obtain ⟨piece, hpiece, dlist, hdlist, others, hothers, heq⟩ := hfront
    cases heq
    simp [stitched?, hpiece, hdlist, ih hothers]

/-- The loop invariant: while edits are taken from the end to the start, the buffer is a part
    of the text, with all stars to come, and then what is finished. -/
theorem applyAll_stitched {text : List Char} {width : Nat} : ∀ {edits : List Edit} {done left : List Char},
    text = done ++ left → edits.Pairwise (fun a b => b.star.start < a.star.start) →
    (∀ e ∈ edits, Fresh text e ∧ e.star.start < byteSize done) →
    ∃ front, stitched? text width 0 edits.reverse (byteSize done) = some front ∧
      ∀ tail, applyAll text width edits (done ++ tail) = .ok (front ++ tail) := by
  intro edits
  induction edits with
  | nil =>
    intro done left htext _ _
    refine ⟨done, ?_, fun tail => rfl⟩
    have hslice := slice?_append [] done left
    rw [byteSize_nil, Nat.zero_add, List.nil_append, ← htext] at hslice
    rw [List.reverse_nil, stitched?, hslice]
  | cons e rest ih =>
    intro done left htext hsorted hfresh
    obtain ⟨hbefore, hsorted⟩ := List.pairwise_cons.1 hsorted
    obtain ⟨hstar, hlt⟩ := hfresh e List.mem_cons_self
    obtain ⟨list, hlist⟩ := Option.isSome_iff_exists.1 ((rendered?_isSome_iff width).2 hstar)
    obtain ⟨before, after, rfl, hstart, hreplace⟩ := replace_star htext hstar hlt list
    have htext' : text = before ++ ('*' :: (after ++ left)) := by simp [htext]
    obtain ⟨front, hfront, hrest⟩ := ih htext' hsorted fun d hd =>
      ⟨(hfresh d (List.mem_cons_of_mem _ hd)).1, by rw [hstart]; exact hbefore d hd⟩
    refine ⟨front ++ (list ++ after), ?_, fun tail => ?_⟩
    · have hback : slice? (e.star.start + 1) (byteSize (before ++ '*' :: after)) text = some after := by
        have hslice := slice?_append (before ++ ['*']) after left
        have hsize : byteSize (before ++ '*' :: after) = byteSize (before ++ ['*']) + byteSize after := by
          simp [Nat.add_assoc]
        have hone : byteSize (before ++ ['*']) = e.star.start + 1 := by
          rw [byteSize_append, hstart]
          rfl
        rw [hsize, ← hone, htext']
        simpa using hslice
      rw [hstart] at hfront
      rw [List.reverse_cons]
      exact stitched?_append_singleton hlist hback hfront
    · rw [applyAll, hlist]
      simp only
      rw [(hreplace tail).1, hrest]
      simp

/-- Edits fail at the first stale one. -/
theorem applyAll_eq_error {text : List Char} {width offset : Nat} : ∀ {edits : List Edit} {out : List Char},
    applyAll text width edits out = .error offset →
    ∃ front e rest, edits = front ++ e :: rest ∧ (∀ d ∈ front, Fresh text d) ∧ ¬ Fresh text e ∧
      offset = min e.star.start (byteSize text) := by
  intro edits
  induction edits with
  | nil => intro out h; cases h
  | cons e rest ih =>
    intro out h
    rw [applyAll] at h
    by_cases hfresh : Fresh text e
    · obtain ⟨list, hlist⟩ := Option.isSome_iff_exists.1 ((rendered?_isSome_iff width).2 hfresh)
      simp only [hlist] at h
      obtain ⟨front, d, others, rfl, hfront, hstale, hoffset⟩ := ih h
      refine ⟨e :: front, d, others, rfl, ?_, hstale, hoffset⟩
      intro f hf
      rcases List.mem_cons.1 hf with rfl | hf
      · exact hfresh
      · exact hfront f hf
    · simp only [rendered?_of_stale hfresh, Except.error.injEq] at h
      exact ⟨[], e, rest, rfl, by simp, hfresh, h.symm⟩

theorem fresh_of_applyAll {text : List Char} {width : Nat} : ∀ {edits : List Edit} {out result : List Char},
    applyAll text width edits out = .ok result → ∀ e ∈ edits, Fresh text e := by
  intro edits
  induction edits with
  | nil => intro out result _ e he; cases he
  | cons e rest ih =>
    intro out result h d hd
    rw [applyAll] at h
    cases hlist : rendered? text width e with
    | none => simp [hlist] at h
    | some list =>
      simp only [hlist] at h
      rcases List.mem_cons.1 hd with rfl | hd
      · exact (rendered?_isSome_iff width).1 (by rw [hlist]; rfl)
      · exact ih h d hd

/-! ## Ranges -/

/-- The list with the text of its line before and after it. -/
def laidOut (newline : List Char) (width : Nat) (names : List String) (head tail : List Char) :
    List Char :=
  if names.isEmpty || head.length + (oneLine names).length + tail.length ≤ width then oneLine names
  else wrapped newline (head.takeWhile fun c => c == ' ' || c == '\t') names

/-- The bytes of a text up to its last newline and with it. -/
def lastLineStart (before : List Char) : Nat :=
  byteSize (before.reverse.dropWhile (· != '\n')).reverse

/-- The list of an edit from ranges of the text; nothing results where one of them is no range
    of the text. -/
def sliced? (text : List Char) (width : Nat) (e : Edit) : Option (List Char) := do
  let before ← slice? 0 e.star.start text
  let after ← slice? e.star.stop (byteSize text) text
  let head ← slice? (lastLineStart before) e.star.start text
  let tail ← slice? e.star.stop (e.star.stop + byteSize (after.takeWhile (· != '\n'))) text
  return laidOut (newlineOf text) width e.names head (dropRightWhile (· == '\r') tail)

/-- Applies edits as `applyAll` does; nothing results once a range is none of its text. -/
def checkedAll (text : List Char) (width : Nat) : List Edit → (out : List Char) →
    Option (Except Nat (List Char))
  | [], out => some (.ok out)
  | e :: rest, out =>
    if Fresh text e then do
      let list ← sliced? text width e
      let out ← replaceRange? e.star list out
      checkedAll text width rest out
    else some (.error (min e.star.start (byteSize text)))

theorem sliced?_eq {text : List Char} {width : Nat} {e : Edit} (h : Fresh text e) :
    sliced? text width e = rendered? text width e := by
  obtain ⟨before, after, rfl, hstart, hstop⟩ := fresh_iff.1 h
  have hone : byteSize (before ++ ['*']) = e.star.stop := by
    rw [byteSize_append, hstart, hstop]
    rfl
  have hbefore : slice? 0 e.star.start (before ++ '*' :: after) = some before := by
    have hslice := slice?_append [] before ('*' :: after)
    rwa [byteSize_nil, Nat.zero_add, hstart] at hslice
  have hafter : slice? e.star.stop (byteSize (before ++ '*' :: after)) (before ++ '*' :: after) =
      some after := by
    have hslice := slice?_append (before ++ ['*']) after []
    have hsize : byteSize (before ++ '*' :: after) = e.star.stop + byteSize after := by
      rw [← hone]
      simp [Nat.add_assoc]
    rw [hone] at hslice
    rw [hsize]
    simpa using hslice
  have hhead : slice? (lastLineStart before) e.star.start (before ++ '*' :: after) =
      some (lastLine before) := by
    have hline : (before.reverse.dropWhile (· != '\n')).reverse ++ lastLine before = before := by
      rw [lastLine, ← List.reverse_append, List.takeWhile_append_dropWhile, List.reverse_reverse]
    have hslice := slice?_append (before.reverse.dropWhile (· != '\n')).reverse (lastLine before)
      ('*' :: after)
    rw [← byteSize_append, ← List.append_assoc, hline, hstart] at hslice
    exact hslice
  have htail : slice? e.star.stop (e.star.stop + byteSize (after.takeWhile (· != '\n')))
      (before ++ '*' :: after) = some (after.takeWhile (· != '\n')) := by
    have hslice := slice?_append (before ++ ['*']) (after.takeWhile (· != '\n'))
      (after.dropWhile (· != '\n'))
    rw [List.takeWhile_append_dropWhile, hone] at hslice
    simpa using hslice
  rw [rendered?_around hstart hstop, sliced?, hbefore, hafter]
  simp only [Option.bind_eq_bind, Option.bind_some, hhead, htail]
  rfl

/-- No range lies outside its text or cuts a character. -/
theorem checkedAll_eq {text : List Char} {width : Nat} : ∀ {edits : List Edit} {done left tail : List Char},
    text = done ++ left → edits.Pairwise (fun a b => b.star.start < a.star.start) →
    (∀ e ∈ edits, Fresh text e → e.star.start < byteSize done) →
    checkedAll text width edits (done ++ tail) = some (applyAll text width edits (done ++ tail)) := by
  intro edits
  induction edits with
  | nil => intro done left tail _ _ _; rfl
  | cons e rest ih =>
    intro done left tail htext hsorted hlt
    obtain ⟨hbefore, hsorted⟩ := List.pairwise_cons.1 hsorted
    rw [checkedAll, applyAll]
    by_cases hfresh : Fresh text e
    · obtain ⟨list, hlist⟩ := Option.isSome_iff_exists.1 ((rendered?_isSome_iff width).2 hfresh)
      obtain ⟨before, after, rfl, hstart, hreplace⟩ :=
        replace_star htext hfresh (hlt e List.mem_cons_self hfresh) list
      rw [if_pos hfresh, sliced?_eq hfresh, hlist]
      simp only [Option.bind_eq_bind, Option.bind_some, (hreplace tail).1, (hreplace tail).2]
      have htext' : text = before ++ ('*' :: (after ++ left)) := by simp [htext]
      refine ih htext' hsorted fun d hd _ => ?_
      rw [hstart]
      exact hbefore d hd
    · rw [if_neg hfresh, rendered?_of_stale hfresh]

/-! ## The order of edits -/

theorem backwards_pairwise (edits : List Edit) :
    (backwards edits).Pairwise fun a b => b.star.start ≤ a.star.start := by
  have h : (backwards edits).Pairwise fun a b => decide (b.star.start ≤ a.star.start) = true :=
    List.pairwise_mergeSort (fun a b c => by simp only [decide_eq_true_eq]; omega)
      (fun a b => by simp only [Bool.or_eq_true, decide_eq_true_eq]; omega) edits
  exact h.imp of_decide_eq_true

/-- Edits from the start of the text to its end. -/
def forwards (edits : List Edit) : List Edit :=
  edits.mergeSort fun a b => a.star.start ≤ b.star.start

theorem forwards_pairwise (edits : List Edit) :
    (forwards edits).Pairwise fun a b => a.star.start ≤ b.star.start := by
  have h : (forwards edits).Pairwise fun a b => decide (a.star.start ≤ b.star.start) = true :=
    List.pairwise_mergeSort (fun a b c => by simp only [decide_eq_true_eq]; omega)
      (fun a b => by simp only [Bool.or_eq_true, decide_eq_true_eq]; omega) edits
  exact h.imp of_decide_eq_true

theorem backwards_perm (edits : List Edit) : (backwards edits).Perm edits := List.mergeSort_perm _ _

theorem forwards_perm (edits : List Edit) : (forwards edits).Perm edits := List.mergeSort_perm _ _

/-- No two edits start at one place. -/
def Apart (edits : List Edit) : Prop := (edits.map (·.star.start)).Nodup

instance (edits : List Edit) : Decidable (Apart edits) :=
  inferInstanceAs (Decidable (edits.map (·.star.start)).Nodup)

theorem Apart.eq {edits : List Edit} (h : Apart edits) {a b : Edit} (ha : a ∈ edits) (hb : b ∈ edits)
    (heq : a.star.start = b.star.start) : a = b :=
  List.inj_on_of_nodup_map h ha hb heq

theorem Apart.perm {edits others : List Edit} (h : Apart edits) (hperm : others.Perm edits) :
    Apart others :=
  ((hperm.map _).nodup_iff).2 h

theorem Apart.backwards_pairwise {edits : List Edit} (h : Apart edits) :
    (backwards edits).Pairwise fun a b => b.star.start < a.star.start := by
  have hne : (backwards edits).Pairwise fun a b => a.star.start ≠ b.star.start :=
    List.pairwise_map.1 (h.perm (backwards_perm edits))
  refine ((Edit.backwards_pairwise edits).and hne).imp ?_
  intro a b hab
  omega

theorem Apart.backwards_eq {edits others : List Edit} (h : Apart edits) (hperm : others.Perm edits) :
    backwards others = backwards edits := by
  refine List.Perm.eq_of_pairwise ?_ (Edit.backwards_pairwise others)
    (Edit.backwards_pairwise edits) ((backwards_perm others).trans (hperm.trans (backwards_perm edits).symm))
  intro a b ha hb hab hba
  rw [(backwards_perm others).mem_iff, hperm.mem_iff] at ha
  rw [(backwards_perm edits).mem_iff] at hb
  exact h.eq ha hb (Nat.le_antisymm hba hab)

theorem Apart.forwards_eq {edits : List Edit} (h : Apart edits) :
    forwards edits = (backwards edits).reverse := by
  refine List.Perm.eq_of_pairwise ?_ (forwards_pairwise edits)
    (List.pairwise_reverse.2 (Edit.backwards_pairwise edits))
    ((forwards_perm edits).trans
      ((backwards_perm edits).symm.trans (List.reverse_perm _).symm))
  intro a b ha hb hab hba
  rw [(forwards_perm edits).mem_iff] at ha
  rw [List.mem_reverse, (backwards_perm edits).mem_iff] at hb
  exact h.eq ha hb (Nat.le_antisymm hab hba)

/-! ## The result of a list of edits -/

/-- The list that stands in the place of the star of an edit. -/
def listFor (text : String) (width : Nat) (e : Edit) : String :=
  String.ofList ((rendered? text.toList width e).getD [])

theorem planEdits_eq (text : String) (edits : List Edit) (width : Nat) :
    planEdits text edits width =
      (applyAll text.toList width (backwards edits) text.toList).map fun out =>
        ⟨String.ofList out, edits.map (listFor text width)⟩ := by
  simp only [planEdits, bind, Except.bind, pure, Except.pure]
  cases applyAll text.toList width (backwards edits) text.toList <;> rfl

theorem fresh_of_planned {text : String} {edits : List Edit} {width : Nat} {planned : Planned}
    (h : planEdits text edits width = .ok planned) : ∀ e ∈ edits, Fresh text.toList e := by
  intro e he
  rw [planEdits_eq] at h
  cases happly : applyAll text.toList width (backwards edits) text.toList with
  | error offset => simp [happly, Except.map] at h
  | ok out => exact fresh_of_applyAll happly e ((backwards_perm edits).mem_iff.2 he)

theorem rendered_of_planned {text : String} {edits : List Edit} {width : Nat} {planned : Planned}
    (h : planEdits text edits width = .ok planned) : planned.rendered = edits.map (listFor text width) := by
  rw [planEdits_eq] at h
  cases happly : applyAll text.toList width (backwards edits) text.toList with
  | error offset => simp [happly, Except.map] at h
  | ok out =>
    rw [happly] at h
    cases h
    rfl

theorem exists_planned {text : String} {edits : List Edit} (width : Nat)
    (hfresh : ∀ e ∈ edits, Fresh text.toList e) : ∃ planned, planEdits text edits width = .ok planned := by
  rw [planEdits_eq]
  cases happly : applyAll text.toList width (backwards edits) text.toList with
  | ok out => exact ⟨_, rfl⟩
  | error offset =>
    obtain ⟨front, e, rest, hback, -, hstale, -⟩ := applyAll_eq_error happly
    exact absurd (hfresh e ((backwards_perm edits).mem_iff.1 (by simp [hback]))) hstale

variable {text : String} {edits : List Edit} (hapart : Apart edits)

include hapart

/-- All edits are fresh: their result. -/
theorem planEdits_of_fresh (width : Nat) (hfresh : ∀ e ∈ edits, Fresh text.toList e) :
    ∃ out, stitched? text.toList width 0 (forwards edits) (byteSize text.toList) = some out ∧
      planEdits text edits width = .ok ⟨String.ofList out, edits.map (listFor text width)⟩ := by
  have hall : ∀ e ∈ backwards edits, Fresh text.toList e ∧ e.star.start < byteSize text.toList := by
    intro e he
    have hstar := hfresh e ((backwards_perm edits).mem_iff.1 he)
    exact ⟨hstar, hstar.start_lt⟩
  obtain ⟨out, hstitched, happly⟩ :=
    applyAll_stitched (List.append_nil text.toList).symm hapart.backwards_pairwise hall
  refine ⟨out, by rw [hapart.forwards_eq, hstitched], ?_⟩
  have hout := happly []
  rw [List.append_nil, List.append_nil] at hout
  rw [planEdits_eq, hout]
  rfl

/-- Some edit is stale: the last such one is reported. -/
theorem planEdits_of_stale {width offset : Nat} (h : planEdits text edits width = .error offset) :
    ∃ e ∈ edits, ¬ Fresh text.toList e ∧
      (∀ d ∈ edits, ¬ Fresh text.toList d → d.star.start ≤ e.star.start) ∧
      offset = min e.star.start (byteSize text.toList) := by
  rw [planEdits_eq] at h
  cases happly : applyAll text.toList width (backwards edits) text.toList with
  | ok out => simp [happly, Except.map] at h
  | error found =>
    obtain rfl : found = offset := by simpa [happly, Except.map] using h
    obtain ⟨front, e, rest, hback, hfront, hstale, hoffset⟩ := applyAll_eq_error happly
    have hmem : ∀ d, d ∈ edits ↔ d ∈ front ++ e :: rest := fun d => by
      rw [← hback, (backwards_perm edits).mem_iff]
    have hsorted := hapart.backwards_pairwise
    rw [hback, List.pairwise_append, List.pairwise_cons] at hsorted
    refine ⟨e, (hmem e).2 (by simp), hstale, ?_, hoffset⟩
    intro d hd hd'
    rcases List.mem_append.1 ((hmem d).1 hd) with hd | hd
    · exact absurd (hfront d hd) hd'
    · rcases List.mem_cons.1 hd with rfl | hd
      · exact Nat.le_refl _
      · exact Nat.le_of_lt (hsorted.2.1.1 d hd)

/-- **Edits change the stars and nothing else.** They succeed if each of them finds its star.
    Then the text is cut at the stars and stitched together again with the lists in their
    places, and each list depends on the text, its own edit and the width alone. Otherwise the
    last of the stale edits is reported. The order in which the edits are given does not matter,
    and no range that is read or replaced lies outside its text or cuts a character. -/
theorem edits_change_stars (width : Nat) :
    ((∃ planned, planEdits text edits width = .ok planned) ↔ ∀ e ∈ edits, Fresh text.toList e) ∧
    (∀ planned, planEdits text edits width = .ok planned →
      stitched? text.toList width 0 (forwards edits) (byteSize text.toList) =
        some planned.text.toList ∧
      planned.rendered = edits.map (listFor text width) ∧
      ∀ e ∈ edits, rendered? text.toList width e = some (listFor text width e).toList) ∧
    (∀ offset, planEdits text edits width = .error offset → ∃ e ∈ edits, ¬ Fresh text.toList e ∧
      (∀ d ∈ edits, ¬ Fresh text.toList d → d.star.start ≤ e.star.start) ∧
      offset = min e.star.start (byteSize text.toList)) ∧
    (∀ others : List Edit, others.Perm edits → planEdits text others width =
      (planEdits text edits width).map fun planned =>
        ⟨planned.text, others.map (listFor text width)⟩) ∧
    checkedAll text.toList width (backwards edits) text.toList =
      some (applyAll text.toList width (backwards edits) text.toList) := by
  have hok : ∀ planned, planEdits text edits width = .ok planned → ∀ e ∈ edits, Fresh text.toList e := by
    intro planned h e he
    rw [planEdits_eq] at h
    cases happly : applyAll text.toList width (backwards edits) text.toList with
    | error offset => simp [happly, Except.map] at h
    | ok out => exact fresh_of_applyAll happly e ((backwards_perm edits).mem_iff.2 he)
  refine ⟨⟨fun ⟨planned, h⟩ => hok planned h, fun hfresh => ?_⟩, ?_, fun offset h => ?_, ?_, ?_⟩
  · obtain ⟨out, -, h⟩ := planEdits_of_fresh hapart width hfresh
    exact ⟨_, h⟩
  · intro planned h
    have hfresh := hok planned h
    obtain ⟨out, hstitched, hout⟩ := planEdits_of_fresh hapart width hfresh
    obtain rfl := Except.ok.inj (h.symm.trans hout)
    refine ⟨by rw [hstitched, String.toList_ofList], rfl, fun e he => ?_⟩
    obtain ⟨list, hlist⟩ := Option.isSome_iff_exists.1 ((rendered?_isSome_iff width).2 (hfresh e he))
    simp [listFor, hlist]
  · exact planEdits_of_stale hapart h
  · intro others hperm
    rw [planEdits_eq, planEdits_eq, hapart.backwards_eq hperm]
    cases applyAll text.toList width (backwards edits) text.toList <;> rfl
  · have hchecked := @checkedAll_eq text.toList width (backwards edits) text.toList [] []
      (List.append_nil _).symm hapart.backwards_pairwise fun e _ hfresh => hfresh.start_lt
    rwa [List.append_nil] at hchecked

omit hapart

/-- A text with a wide character and carriage returns. -/
def wideText : String := "pub use é::*;\r\npub use a::*;\r\n"

/-- Its two wildcards, the second one first. -/
def wideEdits : List Edit := [⟨⟨27, 28⟩, ["type"]⟩, ⟨⟨12, 13⟩, ["x", "y"]⟩]

theorem edits_change_stars_wide :
    Apart wideEdits ∧ ∃ planned, planEdits wideText wideEdits 18 = .ok planned ∧
      planned.rendered = ["\x7b\r\n    r#type,\r\n\x7d", "\x7bx, y\x7d"] ∧
      planEdits wideText wideEdits.reverse 18 = .ok ⟨planned.text, planned.rendered.reverse⟩ := by
  have hapart : Apart wideEdits := by decide
  obtain ⟨hok, hparts, -, hperm, -⟩ := @edits_change_stars wideText wideEdits hapart 18
  obtain ⟨planned, hplanned⟩ := hok.2 (by decide +kernel)
  obtain ⟨-, hrendered, -⟩ := hparts planned hplanned
  refine ⟨hapart, planned, hplanned, ?_, ?_⟩
  · rw [hrendered]
    decide +kernel
  · rw [hperm _ wideEdits.reverse_perm, hplanned, hrendered]
    rfl

end Reexport.Edit
