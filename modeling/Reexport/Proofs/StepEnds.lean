import Mathlib.Data.List.TakeWhile
import Reexport.Proofs.LiteralEnds

/-!
# Where steps of the lexer end

A step that ends in front of a star stays as it is when an opening brace takes the place of the
star, whatever follows either of them. One thing can change: a punctuation character right in
front of a star is joint, and one in front of a brace is not.

Results:

* `token?_cut`: tokens in front of a star.
* `comment?_cut`, `documentation_cut`: comments in front of a star.
* `Step.of_cut`: steps in front of a star.
-/

namespace Reexport.Source

open Text

/-! ## Tokens -/

theorem opensComment_append {v : List Char} (hv : v ≠ []) (hslash : v ≠ ['/']) (w : List Char) :
    opensComment (v ++ w) = opensComment v := by
  match v with
  | [] => exact absurd rfl hv
  | [c] =>
    have hc : c ≠ '/' := fun hc => hslash (by rw [hc])
    simp [opensComment, hc]
  | c :: d :: v => 
    by_cases hc : c = '/'
    · subst hc
      by_cases hd : d = '/'
      · subst hd
        rfl
      · by_cases hd' : d = '*'
        · subst hd'
          rfl
        · simp [opensComment, hd, hd']
    · simp [opensComment, hc]

theorem opensPunct_append {v : List Char} (hv : v ≠ []) (hslash : v ≠ ['/']) (w : List Char) :
    opensPunct (v ++ w) = opensPunct v := by
  rw [opensPunct, opensPunct, opensComment_append hv hslash, List.head?_append_of_ne_nil _ hv]

section EndsWord

variable {d : Char} (hd : EndsWord d) (q : List Char)
include hd

theorem apostrophe?_end (v : List Char) : apostrophe? (v ++ d :: q) = apostrophe? v := by
  have hliteral : ∀ cs, ((literal? cs).isNone && (word? cs).isSome) = (word? cs).isSome := by
    intro cs
    cases hword : (word? cs).isSome with
    | false => rw [Bool.and_false]
    | true => rw [literal?_eq_none_of_word hword]; rfl
  have hquote : d ≠ '\'' := hd.ne (by decide)
  have hmark : d ≠ '#' := hd.ne (by decide)
  simp only [apostrophe?, hliteral]
  rw [anyWord?_end hd, word?_end hd]
  refine Option.bind_congr fun found hfound => ?_
  obtain ⟨raw, name, n⟩ := found
  rw [List.drop_append_of_le_length (anyWord?_le hfound)]
  cases v.drop n with
  | nil => simp [hquote, hmark]
  | cons c rest => rfl

/-- An apostrophe in front of a word opens a literal or not whatever follows the word. -/
theorem literal?_apostrophe_end {v : List Char} (hv : (anyWord? v).isSome = true) :
    (literal? ('\'' :: (v ++ d :: q))).isNone = (literal? ('\'' :: v)).isNone := by
  obtain ⟨c, rest, rfl, hc⟩ := exists_of_anyWord? hv
  have hback : c ≠ '\\' := by
    rintro rfl
    exact absurd hc (by decide)
  have hliteral : ∀ cs, literal? ('\'' :: cs) = (characterLength? .full cs).map fun n => (.char, withSuffix (1 + n) ('\'' :: cs)) :=
    fun cs => rfl
  rw [hliteral, hliteral, Option.isNone_map, Option.isNone_map, List.cons_append, characterLength?_end hd q hback]

end EndsWord

/-- A punctuation character other than an apostrophe opens no literal. -/
theorem literal?_eq_none_of_punct {c : Char} (hc : c ∈ '(' :: punctuation) (hquote : c ≠ '\'') (cs : List Char) :
    literal? (c :: cs) = none := by
  have hall : ∀ c ∈ '(' :: punctuation, c ≠ '\'' → (∀ o ∈ openings, o.lead.head? ≠ some c) ∧ isDigit c = false :=
    List.all_iff_forall_prop.1 (by decide)
  exact literal?_eq_none (hall c hc hquote).1 (hall c hc hquote).2 cs

theorem token?_of_literal {cs : List Char} {kind : LiteralKind} {n : Nat} (h : literal? cs = some (kind, n)) :
    token? cs = some (.literal kind (String.ofList (cs.take n)), n) := by
  unfold token?
  rw [h]

theorem token?_of_no_literal {c : Char} {cs : List Char} (h : literal? (c :: cs) = none) : token? (c :: cs) =
    if opensPunct (c :: cs) then if c = '\'' then apostrophe? cs else some (.punct c (opensPunct cs), 1)
    else (word? (c :: cs)).elim
      (if lostMark.isPrefixOf (c :: cs) then some (.literal .lost (String.ofList lostMark), lostMark.length) else none)
      fun found => some (.word found.1 found.2.1, found.2.2) := by
  unfold token?
  rw [h]
  simp only
  split_ifs
  · rfl
  · rfl
  all_goals
    split
    all_goals
      rename_i heq
      rw [heq]
      rfl

/-- Punctuation in front of a star, and in front of a brace in its place. -/
theorem punct_cut {c : Char} {v q q' : List Char} {t : Token} {n : Nat} (hliteral : literal? (c :: (v ++ '*' :: q)) = none)
    (hopens : opensPunct (c :: v) = true) (hslash : c :: v ≠ ['/']) (hnext : n = 1 → v ≠ ['/'])
    (h : token? (c :: (v ++ '*' :: q)) = some (t, n)) :
    token? (c :: (v ++ '{' :: q')) = some (t, n) ∨
      v = [] ∧ t = .punct c true ∧ n = 1 ∧ token? (c :: (v ++ '{' :: q')) = some (.punct c false, 1) := by
  have hpunct := @opensPunct_append (c :: v) (List.cons_ne_nil c v) hslash
  simp only [List.cons_append] at hpunct
  rw [token?_of_no_literal hliteral, hpunct, if_pos hopens] at h
  by_cases hquote : c = '\''
  · subst hquote
    rw [if_pos rfl, apostrophe?_end endsWord_star] at h
    have hword : (anyWord? v).isSome = true := by
      unfold apostrophe? at h
      obtain ⟨found, hfound, -⟩ := Option.bind_eq_some_iff.1 h
      rw [hfound]
      rfl
    have hnone : literal? ('\'' :: (v ++ '{' :: q')) = none := by
      rw [← Option.isNone_iff_eq_none, literal?_apostrophe_end endsWord_brace q' hword,
        ← literal?_apostrophe_end endsWord_star q hword, hliteral]
      rfl
    rw [token?_of_no_literal hnone, hpunct, if_pos hopens, if_pos rfl, apostrophe?_end endsWord_brace]
    exact .inl h
  · have hc : c ∈ punctuation := by
      rw [opensPunct, Bool.and_eq_true] at hopens
      simpa using hopens.2
    rw [if_neg hquote] at h
    obtain ⟨rfl, rfl⟩ := Prod.mk.inj (Option.some.inj h)
    rw [token?_of_no_literal (literal?_eq_none_of_punct (List.mem_cons_of_mem _ hc) hquote _), hpunct, if_pos hopens,
      if_neg hquote]
    by_cases hempty : v = []
    · subst hempty
      exact .inr ⟨rfl, rfl, rfl, rfl⟩
    · rw [opensPunct_append hempty (hnext rfl), opensPunct_append hempty (hnext rfl)]
      exact .inl rfl

/-- A token in front of a star, and in front of a brace in its place. -/
theorem token?_cut {v q q' : List Char} {t : Token} {n : Nat} (h : token? (v ++ '*' :: q) = some (t, n))
    (hn : n ≤ v.length) (hv : v ≠ []) (hslash : v ≠ ['/']) (hnext : n = 1 → v.tail ≠ ['/']) :
    token? (v ++ '{' :: q') = some (t, n) ∨
      ∃ c, v = [c] ∧ t = .punct c true ∧ n = 1 ∧ token? (v ++ '{' :: q') = some (.punct c false, 1) := by
  have hstar := endsWord_star
  have hbrace := endsWord_brace
  cases hliteral : literal? (v ++ '*' :: q) with
  | some found =>
    obtain ⟨kind, m⟩ := found
    rw [token?_of_literal hliteral] at h
    cases h
    rw [token?_of_literal (literal?_cut hstar hbrace hliteral hn), List.take_append_of_le_length hn,
      List.take_append_of_le_length hn]
    exact .inl rfl
  | none =>
    obtain ⟨c, v, rfl⟩ := List.exists_cons_of_ne_nil hv
    have hpunct := opensPunct_append hv hslash
    have hword := word?_end hstar q (c :: v)
    have hword' := word?_end hbrace q' (c :: v)
    simp only [List.cons_append, List.tail_cons, List.length_cons] at *
    by_cases hopens : opensPunct (c :: v) = true
    · rcases punct_cut hliteral hopens hslash hnext h with hsame | ⟨rfl, rfl, rfl, hchanged⟩
      · exact .inl hsame
      · exact .inr ⟨c, rfl, rfl, rfl, hchanged⟩
    · left
      rw [token?_of_no_literal hliteral, hpunct, if_neg hopens, hword] at h
      cases hfound : word? (c :: v) with
      | some found =>
        have hnone : literal? (c :: (v ++ '{' :: q')) = none := literal?_eq_none_of_word (by rw [hword', hfound]; rfl)
        rw [hfound, Option.elim_some] at h
        rw [token?_of_no_literal hnone, hpunct, if_neg hopens, hword', hfound, Option.elim_some, h]
      | none =>
        rw [hfound, Option.elim_none] at h
        split_ifs at h with hlost
        obtain ⟨rfl, rfl⟩ := Prod.mk.inj (Option.some.inj h)
        obtain ⟨rest, hrest⟩ := List.isPrefixOf_iff_prefix.1 hlost
        obtain ⟨v', hv', -⟩ := @exists_of_append ('*' :: q) lostMark rest (c :: v) hrest.symm (by simpa using hn)
        have hlost' : lostMark.isPrefixOf (c :: (v ++ '{' :: q')) = true := by
          rw [List.isPrefixOf_iff_prefix, ← List.cons_append, hv', List.append_assoc]
          exact List.prefix_append _ _
        obtain rfl : c = '(' := (List.cons.inj hv').1
        rw [token?_of_no_literal (literal?_eq_none_of_punct List.mem_cons_self (by decide) _), hpunct, if_neg hopens,
          hword', hfound, Option.elim_none, if_pos hlost']

/-! ## Comments -/

theorem isSome_comment? (cs : List Char) : (comment? cs).isSome = opensComment cs := by
  unfold comment? opensComment
  split
  · rfl
  · rfl
  · rfl

/-- What a text does not start with. -/
theorem isPrefixOf_eq_false {p cs : List Char} (h : ∀ rest, cs = p ++ rest → False) : p.isPrefixOf cs = false := by
  rw [Bool.eq_false_iff, Ne, List.isPrefixOf_iff_prefix]
  rintro ⟨rest, rfl⟩
  exact h rest rfl

theorem comment?_line (rest : List Char) : comment? ('/' :: '/' :: rest) =
    some (if ['!'].isPrefixOf rest then .documents true else if ['/', '/'].isPrefixOf rest then .ordinary
      else if ['/'].isPrefixOf rest then .documents false else .ordinary, some (lineLength ('/' :: '/' :: rest))) := by
  unfold comment?
  simp only
  split
  · rfl
  · rfl
  · rename_i tail hsecond
    have h : ['/'].isPrefixOf tail = false := isPrefixOf_eq_false fun rest heq => hsecond rest (by rw [heq]; rfl)
    have h' : ['/', '/'].isPrefixOf ('/' :: tail) = false := h
    simp [h']
  · rename_i hbang htwo hone
    rw [isPrefixOf_eq_false fun rest heq => hbang rest heq, isPrefixOf_eq_false fun rest heq => htwo rest heq,
      isPrefixOf_eq_false fun rest heq => hone rest heq]
    rfl

theorem comment?_block (rest : List Char) : comment? ('/' :: '*' :: rest) =
    some (if ['!'].isPrefixOf rest then .documents true else if ['*', '/'].isPrefixOf rest then .ordinary
      else if ['*', '*'].isPrefixOf rest then .ordinary else if ['*'].isPrefixOf rest then .documents false
      else .ordinary, blockLength? 0 0 ('/' :: '*' :: rest)) := by
  unfold comment?
  simp only
  split
  · rfl
  · rfl
  · rfl
  · rename_i tail hclose htwo
    have h : ['*', '/'].isPrefixOf ('*' :: tail) = false := isPrefixOf_eq_false fun rest heq => hclose rest (List.cons.inj heq).2
    have h' : ['*', '*'].isPrefixOf ('*' :: tail) = false := isPrefixOf_eq_false fun rest heq => htwo rest (List.cons.inj heq).2
    simp [h, h']
  · rename_i hbang hclose htwo hone
    rw [isPrefixOf_eq_false fun rest heq => hbang rest heq, isPrefixOf_eq_false fun rest heq => hclose rest heq,
      isPrefixOf_eq_false fun rest heq => htwo rest heq, isPrefixOf_eq_false fun rest heq => hone rest heq]
    rfl

/-- A line comment that ends in front of a cut. -/
theorem comment?_line_cut {v w w' : List Char} (h : '\n' ∈ v) :
    comment? ('/' :: '/' :: (v ++ w)) = comment? ('/' :: '/' :: (v ++ w')) := by
  obtain ⟨front, back, rfl⟩ := List.append_of_mem h
  have hbegins : ∀ {p : List Char}, '\n' ∉ p → ∀ w, p.isPrefixOf (front ++ '\n' :: back ++ w) = p.isPrefixOf front := by
    intro p hp w
    rw [List.append_assoc, List.cons_append, isPrefixOf_end _ hp]
  have hlength : ∀ w, lineLength ('/' :: '/' :: (front ++ '\n' :: back ++ w)) = lineLength ('/' :: '/' :: front) := by
    intro w
    rw [lineLength, lineLength, List.append_assoc, List.cons_append, ← List.cons_append, ← List.cons_append,
      takeWhile_append_of_false (by decide)]
  simp only [comment?_line, hlength, hbegins (p := ['!']) (by decide), hbegins (p := ['/', '/']) (by decide),
    hbegins (p := ['/']) (by decide)]

theorem blockLength?_le {depth n m : Nat} {cs : List Char} (h : blockLength? depth n cs = some m) : n + 2 ≤ m := by
  fun_induction blockLength? depth n cs <;> grind

theorem blockLength?_other {c d : Char} (hopens : ¬ (c = '/' ∧ d = '*')) (hcloses : ¬ (c = '*' ∧ d = '/'))
    (depth n : Nat) (cs : List Char) : blockLength? depth n (c :: d :: cs) = blockLength? depth (n + 1) (d :: cs) := by
  rw [blockLength?]
  · rintro rest rfl heq
    exact hopens ⟨rfl, (List.cons.inj heq).1⟩
  · rintro rest rfl heq
    exact hcloses ⟨rfl, (List.cons.inj heq).1⟩

theorem blockLength?_cut {w w' v : List Char} {depth n m : Nat} (h : blockLength? depth n (v ++ w) = some m)
    (hm : m ≤ n + v.length) : blockLength? depth n (v ++ w') = some m := by
  have hshort : ∀ {v : List Char} {depth n : Nat}, blockLength? depth n (v ++ w) = some m → m ≤ n + v.length →
      2 ≤ v.length := by
    intro v depth n h hm
    have := blockLength?_le h
    omega
  fun_induction blockLength? depth n v with
  | case1 depth n cs ih => exact ih h (by simp only [List.length_cons] at hm; omega)
  | case2 depth n cs hdepth =>
    simp only [List.cons_append, blockLength?, hdepth, if_true] at h ⊢
    exact h
  | case3 depth n cs hdepth ih =>
    simp only [List.cons_append, blockLength?, hdepth, if_false] at h ⊢
    exact ih h (by simp only [List.length_cons] at hm; omega)
  | case4 depth n c cs hopens hcloses ih =>
    obtain ⟨d, cs, rfl⟩ : ∃ d rest, cs = d :: rest :=
      List.exists_cons_of_length_pos (by have := hshort h hm; rw [List.length_cons] at this; omega)
    have hnext := fun x => @blockLength?_other c d (fun hc => hopens cs hc.1 (by rw [hc.2]))
      (fun hc => hcloses cs hc.1 (by rw [hc.2])) depth n (cs ++ x)
    rw [List.cons_append, List.cons_append, hnext] at h ⊢
    exact ih h (by simp only [List.length_cons] at hm ⊢; omega)
  | case5 => exact absurd (hshort h hm) (by simp)

/-- A block comment that ends in front of a cut. -/
theorem comment?_block_cut {v w w' : List Char} {kind : CommentKind} {n : Nat}
    (h : comment? ('/' :: '*' :: (v ++ w)) = some (kind, some n)) (hn : n ≤ v.length + 2) :
    comment? ('/' :: '*' :: (v ++ w')) = some (kind, some n) := by
  rw [comment?_block] at h
  obtain ⟨hkind, hlength⟩ := Prod.mk.inj (Option.some.inj h)
  have htwo : 2 ≤ v.length := by
    have hinner : blockLength? 1 2 (v ++ w) = some n := hlength
    have := blockLength?_le hinner
    omega
  have hlength' : blockLength? 0 0 ('/' :: '*' :: (v ++ w')) = some n :=
    @blockLength?_cut w w' ('/' :: '*' :: v) 0 0 n hlength (by simpa using hn)
  have hone : 1 ≤ v.length := by omega
  rw [comment?_block, hlength', ← hkind]
  simp only [isPrefixOf_cut (p := ['!']) hone, isPrefixOf_cut (p := ['*', '/']) htwo,
    isPrefixOf_cut (p := ['*', '*']) htwo, isPrefixOf_cut (p := ['*']) hone]

theorem length_lt_lineLength {v : List Char} (h : '\n' ∉ v) {c : Char} (hc : c ≠ '\n') (q : List Char) :
    v.length < lineLength (v ++ c :: q) := by
  have hall : v.takeWhile (· != '\n') = v := by
    rw [List.takeWhile_eq_self_iff]
    intro d hd
    simpa using fun heq : d = '\n' => h (heq ▸ hd)
  rw [lineLength, List.takeWhile_append, hall, if_pos rfl, List.takeWhile_cons, if_pos (by simpa using hc)]
  simp

theorem opensComment_iff {cs : List Char} :
    opensComment cs = true ↔ (∃ rest, cs = '/' :: '/' :: rest) ∨ ∃ rest, cs = '/' :: '*' :: rest := by
  unfold opensComment
  split
  · simp
  · simp
  · rename_i hline hblock
    simp only [Bool.false_eq_true, false_iff, not_or, not_exists]
    exact ⟨fun rest heq => hline rest heq, fun rest heq => hblock rest heq⟩

/-- The comments that end in front of a star. -/
theorem comment?_inside {v q : List Char} {kind : CommentKind} {n : Nat}
    (h : comment? (v ++ '*' :: q) = some (kind, some n)) (hn : n ≤ v.length) :
    (∃ v', v = '/' :: '/' :: v' ∧ '\n' ∈ v' ∧ n < v.length) ∨ ∃ v', v = '/' :: '*' :: v' := by
  have hopens : opensComment (v ++ '*' :: q) = true := by
    rw [← isSome_comment?, h]
    rfl
  rcases opensComment_iff.1 hopens with ⟨rest, hrest⟩ | ⟨rest, hrest⟩
  · have hlength : n = lineLength (v ++ '*' :: q) := by
      rw [hrest, comment?_line] at h
      rw [hrest]
      exact (Option.some.inj (Prod.mk.inj (Option.some.inj h)).2).symm
    have htwo : 2 ≤ n := by
      rw [hlength, hrest, lineLength]
      simp
    have hnewline : '\n' ∈ v := by
      by_contra hmem
      have := length_lt_lineLength hmem (by decide : '*' ≠ '\n') q
      omega
    have hlt : n < v.length := by
      obtain ⟨front, back, rfl⟩ := List.append_of_mem hnewline
      rw [hlength, lineLength, List.append_assoc, List.cons_append, takeWhile_append_of_false (by decide)]
      have := (List.takeWhile_sublist (l := front) (· != '\n')).length_le
      rw [List.length_append, List.length_cons]
      omega
    obtain ⟨v, rfl, rfl⟩ := @exists_of_append _ ['/', '/'] rest v hrest (htwo.trans hn)
    exact .inl ⟨v, rfl, by simpa using hnewline, hlt⟩
  · have hfour : 4 ≤ n := by
      rw [hrest, comment?_block] at h
      have hinner : blockLength? 1 2 rest = some n := (Prod.mk.inj (Option.some.inj h)).2
      exact blockLength?_le hinner
    obtain ⟨v, rfl, rfl⟩ := @exists_of_append _ ['/', '*'] rest v hrest (by simp; omega)
    exact .inr ⟨v, rfl⟩

theorem comment?_cut {v q : List Char} {kind : CommentKind} {n : Nat}
    (h : comment? (v ++ '*' :: q) = some (kind, some n)) (hn : n ≤ v.length) (w : List Char) :
    comment? (v ++ w) = some (kind, some n) := by
  rcases comment?_inside h hn with ⟨v, rfl, hnewline, -⟩ | ⟨v, rfl⟩
  · exact (comment?_line_cut hnewline).symm.trans h
  · exact comment?_block_cut h (by simpa using hn)

theorem documentation_cut {v q : List Char} {kind : CommentKind} {n : Nat}
    (h : comment? (v ++ '*' :: q) = some (kind, some n)) (hn : n ≤ v.length) (w : List Char) :
    documentation (v ++ w) n = documentation (v ++ '*' :: q) n := by
  have htake : ∀ {k : Nat}, k ≤ n → ∀ w, (v ++ w).take k = v.take k := fun hk w =>
    List.take_append_of_le_length (hk.trans hn)
  rcases comment?_inside h hn with ⟨v, rfl, -, hlt⟩ | ⟨v, rfl⟩
  · have hline : ∀ w, documentation ('/' :: '/' :: v ++ w) n =
        if ((('/' :: '/' :: v ++ w).drop n).head? = some '\n' ∧
          ((('/' :: '/' :: v ++ w).take n).drop 3).getLast? = some '\r') then
          ((('/' :: '/' :: v ++ w).take n).drop 3).dropLast else (('/' :: '/' :: v ++ w).take n).drop 3 := fun w => rfl
    have hmore : ('/' :: '/' :: v).drop n ≠ [] := by
      rw [Ne, List.drop_eq_nil_iff]
      omega
    simp only [hline, htake (Nat.le_refl n), List.drop_append_of_le_length hn, List.head?_append_of_ne_nil _ hmore]
  · have hblock : ∀ w, documentation ('/' :: '*' :: v ++ w) n = (('/' :: '*' :: v ++ w).take (n - 2)).drop 3 := fun w => rfl
    rw [hblock, hblock, htake (Nat.sub_le n 2), htake (Nat.sub_le n 2)]

/-! ## Steps -/

namespace Step

theorem of_ordinary {cs : List Char} {n : Nat} (h : comment? cs = some (.ordinary, some n)) : of cs = .skip n := by
  unfold of
  rw [h]

theorem of_documents {cs : List Char} {inner : Bool} {n : Nat} (h : comment? cs = some (.documents inner, some n)) :
    of cs = if hasBareReturn (documentation cs n) then .fault
      else .documents inner (String.ofList (documentation cs n)) n := by
  unfold of
  rw [h]

theorem of_endless {cs : List Char} {kind : CommentKind} (h : comment? cs = some (kind, none)) : of cs = .fault := by
  unfold of
  rw [h]
  cases kind <;> rfl

theorem of_other {c : Char} {cs : List Char} (h : comment? (c :: cs) = none) : of (c :: cs) =
    if c = '(' then if lostMark.isPrefixOf (c :: cs) then ofToken (c :: cs) else .opening .paren
    else if c = '[' then .opening .bracket
    else if c = '{' then .opening .brace
    else if c = ')' then .closing .paren
    else if c = ']' then .closing .bracket
    else if c = '}' then .closing .brace
    else if isSeparator c then .skip 1 else ofToken (c :: cs) := by
  unfold of
  rw [h]
  simp only
  split
  · rename_i heq
    cases heq
  all_goals
    rename_i heq
    obtain ⟨rfl, rfl⟩ := List.cons.inj heq
  any_goals rfl
  rename_i h₁ h₂ h₃ h₄ h₅ h₆
  rw [if_neg h₁, if_neg h₂, if_neg h₃, if_neg h₄, if_neg h₅, if_neg h₆]

theorem ofToken_lost {cs : List Char} (h : lostMark.isPrefixOf cs = true) :
    ofToken cs = .token (.literal .lost (String.ofList lostMark)) lostMark.length := by
  obtain ⟨rest, rfl⟩ := List.isPrefixOf_iff_prefix.1 h
  have htoken : token? (lostMark ++ rest) = some (.literal .lost (String.ofList lostMark), lostMark.length) := by
    have hnone : literal? ('(' :: ("/*ERROR*/)".toList ++ rest)) = none :=
      literal?_eq_none_of_punct List.mem_cons_self (by decide) _
    have hopens : opensPunct ('(' :: ("/*ERROR*/)".toList ++ rest)) = false := rfl
    have hword : word? ('(' :: ("/*ERROR*/)".toList ++ rest)) = none := rfl
    have hread := token?_of_no_literal hnone
    rw [hopens, if_neg Bool.false_ne_true, hword, Option.elim_none] at hread
    exact hread.trans (if_pos h)
  rw [ofToken, htoken]

/-- A token in front of a star, and in front of a brace in its place. -/
theorem ofToken_cut {v q q' : List Char} (hv : v ≠ []) (hslash : v ≠ ['/'])
    (hstep : ofToken (v ++ '*' :: q) ≠ .fault) (hn : (ofToken (v ++ '*' :: q)).length ≤ v.length)
    (hnext : (ofToken (v ++ '*' :: q)).length = 1 → v.tail ≠ ['/']) :
    ofToken (v ++ '{' :: q') = ofToken (v ++ '*' :: q) ∨
      ∃ c, v = [c] ∧ ofToken (v ++ '*' :: q) = .token (.punct c true) 1 ∧
        ofToken (v ++ '{' :: q') = .token (.punct c false) 1 := by
  cases htoken : token? (v ++ '*' :: q) with
  | none => exact absurd (by rw [ofToken, htoken]) hstep
  | some found =>
    obtain ⟨t, n⟩ := found
    simp only [ofToken, htoken, length] at hn hnext ⊢
    rcases @token?_cut v q q' t n htoken hn hv hslash hnext with hsame | ⟨c, rfl, rfl, rfl, hchanged⟩
    · rw [hsame]
      exact .inl rfl
    · rw [hchanged]
      exact .inr ⟨c, rfl, rfl, rfl⟩

/-- A step in front of a star, and in front of a brace in its place. -/
theorem of_cut {v q q' : List Char} (hv : v ≠ []) (hstep : of (v ++ '*' :: q) ≠ .fault)
    (hn : (of (v ++ '*' :: q)).length ≤ v.length) (hnext : (of (v ++ '*' :: q)).length = 1 → v.tail ≠ ['/']) :
    of (v ++ '{' :: q') = of (v ++ '*' :: q) ∨
      ∃ c, v = [c] ∧ of (v ++ '*' :: q) = .token (.punct c true) 1 ∧ of (v ++ '{' :: q') = .token (.punct c false) 1 := by
  cases hcomment : comment? (v ++ '*' :: q) with
  | some found =>
    left
    obtain ⟨kind, length?⟩ := found
    cases length? with
    | none => exact absurd (of_endless hcomment) hstep
    | some n =>
      cases kind with
      | ordinary =>
        rw [of_ordinary hcomment] at hn ⊢
        rw [of_ordinary (comment?_cut hcomment hn _)]
      | documents inner =>
        rw [of_documents hcomment] at hstep hn ⊢
        by_cases hreturn : hasBareReturn (documentation (v ++ '*' :: q) n) = true
        · exact absurd (if_pos hreturn) hstep
        · rw [if_neg hreturn] at hn
          rw [of_documents (comment?_cut hcomment hn _), documentation_cut hcomment hn]
  | none =>
    obtain ⟨c, v, rfl⟩ := List.exists_cons_of_ne_nil hv
    have hslash : c :: v ≠ ['/'] := by
      rintro heq
      rw [heq] at hcomment
      cases hcomment
    have hcomment' : comment? (c :: v ++ '{' :: q') = none := by
      rw [← Option.not_isSome_iff_eq_none, isSome_comment?, opensComment_append hv hslash,
        ← opensComment_append hv hslash, ← isSome_comment?, hcomment]
      simp
    simp only [List.cons_append] at hstep hn hnext hcomment hcomment' ⊢
    rw [of_other hcomment] at hstep hn hnext ⊢
    rw [of_other hcomment'] 
    by_cases hparen : c = '('
    · rw [if_pos hparen] at hstep hn hnext 
      rw [if_pos hparen, if_pos hparen] 
      have hlost : lostMark.isPrefixOf (c :: (v ++ '{' :: q')) = lostMark.isPrefixOf (c :: (v ++ '*' :: q)) := by
        cases hstar : lostMark.isPrefixOf (c :: (v ++ '*' :: q)) with
        | true =>
          rw [hstar, if_pos rfl, ofToken_lost hstar] at hn
          rw [← List.cons_append, isPrefixOf_cut hn] at hstar ⊢
          exact hstar
        | false =>
          rw [← List.cons_append] at hstar ⊢
          rw [isPrefixOf_end _ (by decide)]
          rw [Bool.eq_false_iff] at hstar ⊢
          intro hbegins
          exact hstar (by rw [isPrefixOf_cut (length_le_of_isPrefixOf hbegins), hbegins])
      rw [hlost]
      split_ifs at hstep hn hnext ⊢
      · exact @ofToken_cut (c :: v) q q' (List.cons_ne_nil _ _) hslash hstep hn hnext
      · exact .inl rfl
    · rw [if_neg hparen] at hstep hn hnext 
      rw [if_neg hparen, if_neg hparen]
      split_ifs at hstep hn hnext ⊢
      any_goals exact .inl rfl
      exact @ofToken_cut (c :: v) q q' (List.cons_ne_nil _ _) hslash hstep hn hnext

end Step

end Reexport.Source
