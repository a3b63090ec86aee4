import Mathlib.Data.Bool.AllAny
import Mathlib.Data.List.Basic
import Mathlib.Data.List.Find
import Reexport.Source.Lexer

/-!
# Where literals and words end

What stands in a text behind a lexeme matters little for that lexeme. The length of a quoted
text that ends in front of some place does not depend on what follows that place (`_cut`).
Words and numbers go on as long as they can, but there are characters that end them wherever
they stand, and behind such a character nothing matters to them at all (`_end`).

Results:

* `quotedLength?_cut`, `rawLength?_cut`, `characterLength?_cut`: quoted texts.
* `numberLength?_end`, `anyWord?_end`, `word?_end`: numbers and words.
* `literal?_eq`, `literal?_cut`: the literals as a table, and each of them in front of a cut.
* `literal?_eq_none_of_word`: what opens a word opens no literal.
-/

namespace Reexport.Source

open Text

/-! ## Cuts and prefixes -/

section Cut

variable {w w' : List Char}

theorem exists_of_append {p r v : List Char} (h : v ++ w = p ++ r) (hle : p.length ≤ v.length) :
    ∃ v', v = p ++ v' ∧ r = v' ++ w := by
  rcases List.append_eq_append_iff.1 h with ⟨x, rfl, rfl⟩ | ⟨x, rfl, rfl⟩
  · rw [List.length_append] at hle
    obtain rfl : x = [] := List.eq_nil_of_length_eq_zero (by omega)
    exact ⟨[], by simp, by simp⟩
  · exact ⟨x, rfl, rfl⟩

theorem isPrefixOf_end {d : Char} (q : List Char) : ∀ {p v : List Char}, d ∉ p → p.isPrefixOf (v ++ d :: q) = p.isPrefixOf v := by
  intro p
  induction p with
  | nil => intro v _; simp [List.isPrefixOf]
  | cons c p ih =>
    intro v hd
    rw [List.mem_cons, not_or] at hd
    cases v with
    | nil => simp [List.isPrefixOf, Ne.symm hd.1]
    | cons e v => simp only [List.cons_append, List.isPrefixOf, ih hd.2]

theorem length_le_of_isPrefixOf {p v : List Char} (h : p.isPrefixOf v = true) : p.length ≤ v.length := 
  (List.isPrefixOf_iff_prefix.1 h).length_le
theorem isPrefixOf_cut {p v : List Char} (h : p.length ≤ v.length) (w : List Char) :
    p.isPrefixOf (v ++ w) = p.isPrefixOf v := by
  rw [Bool.eq_iff_iff, List.isPrefixOf_iff_prefix, List.isPrefixOf_iff_prefix]
  exact ⟨fun hp => List.prefix_of_prefix_length_le hp (List.prefix_append v w) h,
    fun hp => hp.trans (List.prefix_append v w)⟩

/-! ## Escapes -/

theorem codePoint?_lt {digits value n m k : Nat} {cs : List Char}
    (h : codePoint? digits value n cs = some (m, k)) : n < m := by
  fun_induction codePoint? digits value n cs <;> grind

theorem codePoint?_cut {v : List Char} {digits value n m k : Nat} 
    (h : codePoint? digits value n (v ++ w) = some (m, k)) (hm : m ≤ n + v.length) :
    codePoint? digits value n (v ++ w') = some (m, k) := by
  fun_induction codePoint? digits value n v <;> grind [codePoint?, → codePoint?_lt]

/-- What an escape looks like. -/
theorem escapeLength?_eq_some {alphabet : Alphabet} {cs : List Char} {m : Nat} (h : escapeLength? alphabet cs = some m) :
    (∃ a b rest, cs = 'x' :: a :: b :: rest ∧ m = 3) ∨
    (∃ rest n value, cs = 'u' :: '{' :: rest ∧ codePoint? 0 0 0 rest = some (n, value) ∧ m = n + 2) ∨
    (∃ c rest, cs = c :: rest ∧ c ∈ ['0', 'n', 'r', 't', '\\', '\'', '"'] ∧ m = 1) := by
  unfold escapeLength? at h
  split at h
  · rename_i a b rest
    simp only [Option.bind_eq_bind, Option.bind_eq_some_iff] at h
    obtain ⟨hi, -, lo, -, h⟩ := h
    split_ifs at h
    exact .inl ⟨a, b, rest, rfl, (Option.some.inj h).symm⟩
  · rename_i rest
    split at h
    · rename_i n value hcode
      exact .inr (.inl ⟨rest, n, value, rfl, hcode, (Option.some.inj h).symm⟩)
    · rename_i n value hcode
      split_ifs at h
      exact .inr (.inl ⟨rest, n, value, rfl, hcode, (Option.some.inj h).symm⟩)
    · cases h
  · rename_i rest
    split_ifs at h
    exact .inr (.inr ⟨_, rest, rfl, by simp, (Option.some.inj h).symm⟩)
  · rename_i c rest _ _ _
    split_ifs at h with hc
    exact .inr (.inr ⟨c, rest, rfl, List.mem_cons_of_mem _ hc, (Option.some.inj h).symm⟩)
  · cases h

theorem escapeLength?_cut {alphabet : Alphabet} {v : List Char} {m : Nat} 
    (h : escapeLength? alphabet (v ++ w) = some m) (hm : m ≤ v.length) :
    escapeLength? alphabet (v ++ w') = some m := by
  rcases escapeLength?_eq_some h with ⟨a, b, rest, hv, rfl⟩ | ⟨rest, n, value, hv, hcode, rfl⟩ | ⟨c, rest, hv, hc, rfl⟩
  · obtain ⟨v, rfl, rfl⟩ := @exists_of_append w ['x', a, b] rest v hv hm
    exact h
  · obtain ⟨v, rfl, rfl⟩ := @exists_of_append w ['u', '{'] rest v hv (by simp; omega)
    have hcode' := @codePoint?_cut w w' v 0 0 0 n value hcode (by simpa using hm)
    simp only [List.cons_append, List.nil_append, escapeLength?, hcode] at h
    simp only [List.cons_append, List.nil_append, escapeLength?, hcode']
    exact h
  · obtain ⟨v, rfl, rfl⟩ := @exists_of_append w [c] rest v hv hm
    simp only [List.mem_cons, List.not_mem_nil, or_false] at hc
    rcases hc with rfl | rfl | rfl | rfl | rfl | rfl | rfl
    all_goals exact h

theorem blanksLength?_le {returned : Bool} {n m : Nat} {cs : List Char}
    (h : blanksLength? returned n cs = some m) : n ≤ m := by
  fun_induction blanksLength? returned n cs <;> grind

theorem blanksLength?_cut {v : List Char} {returned : Bool} {n m : Nat} 
    (h : blanksLength? returned n (v ++ w) = some m) (hm : m < n + v.length) :
    blanksLength? returned n (v ++ w') = some m := by
  fun_induction blanksLength? returned n v <;> grind [blanksLength?, → blanksLength?_le]

theorem continuedLength?_cut {alphabet : Alphabet} {v : List Char} {m : Nat} 
    (h : continuedLength? alphabet (v ++ w) = some m) (hm : m < v.length) :
    continuedLength? alphabet (v ++ w') = some m := by
  obtain ⟨c, v, rfl⟩ : ∃ c v', v = c :: v' := List.exists_cons_of_length_pos (by omega)
  rw [List.length_cons] at hm
  rw [List.cons_append] at h ⊢
  by_cases hline : c = '\n'
  · subst hline
    exact blanksLength?_cut h (by omega)
  · by_cases hreturn : c = '\r'
    · subst hreturn
      exact blanksLength?_cut h (by omega)
    · have hescape : ∀ x, continuedLength? alphabet (c :: x) = escapeLength? alphabet (c :: x) := by
        intro x
        simp [continuedLength?, hline, hreturn]
      rw [hescape] at h ⊢
      exact @escapeLength?_cut w w' alphabet (c :: v) m h (by rw [List.length_cons]; omega)

/-! ## Quoted and raw texts -/

theorem quotedLength?_lt {alphabet : Alphabet} {skip n m : Nat} {cs : List Char}
    (h : quotedLength? alphabet skip n cs = some m) : n + skip < m := by
  fun_induction quotedLength? alphabet skip n cs <;> grind

theorem quotedLength?_cut {alphabet : Alphabet} {m : Nat} : ∀ {v : List Char} {skip n : Nat}, 
    quotedLength? alphabet skip n (v ++ w) = some m → m ≤ n + v.length →
    quotedLength? alphabet skip n (v ++ w') = some m := by
  intro v
  induction v with
  | nil =>
    intro skip n h hm
    exact absurd (quotedLength?_lt h) (by simp at hm ⊢; omega)
  | cons c v ih => 
    intro skip n h hm
    rw [List.length_cons] at hm
    have hlt := quotedLength?_lt h
    cases skip with
    | succ skip => exact ih h (by omega)
    | zero =>
      rw [List.cons_append, quotedLength?] at h ⊢
      split_ifs at h with hquote hreturn hline hback hadmit
      · rw [if_pos hquote, h]
      · have hlt := quotedLength?_lt h
        have hne : v ≠ [] := by
          rintro rfl
          simp at hm
          omega
        rw [List.head?_append_of_ne_nil _ hne] at hline
        rw [if_neg hquote, if_pos hreturn, List.head?_append_of_ne_nil _ hne, if_pos hline]
        exact ih h (by omega)
      · rw [if_neg hquote, if_neg hreturn, if_pos hback]
        split at h
        · rename_i k hk
          have hlt := quotedLength?_lt h
          rw [continuedLength?_cut hk (by omega)]
          exact ih h (by omega)
        · cases h
      · rw [if_neg hquote, if_neg hreturn, if_neg hback, if_pos hadmit]
        exact ih h (by omega)

theorem rawBodyLength?_le {alphabet : Alphabet} {hashes skip n m : Nat} {cs : List Char}
    (h : rawBodyLength? alphabet hashes skip n cs = some m) : n + skip + 1 + hashes ≤ m := by
  fun_induction rawBodyLength? alphabet hashes skip n cs <;> grind

theorem rawBodyLength?_cut {alphabet : Alphabet} {hashes m : Nat} : ∀ {v : List Char} {skip n : Nat}, 
    rawBodyLength? alphabet hashes skip n (v ++ w) = some m → m ≤ n + v.length →
    rawBodyLength? alphabet hashes skip n (v ++ w') = some m := by
  intro v
  induction v with
  | nil =>
    intro skip n h hm
    exact absurd (rawBodyLength?_le h) (by simp at hm ⊢; omega)
  | cons c v ih => 
    intro skip n h hm
    rw [List.length_cons] at hm
    have hle := rawBodyLength?_le h
    cases skip with
    | succ skip => exact ih h (by omega)
    | zero =>
      have hbegins := @isPrefixOf_cut (List.replicate hashes '#') v (by simp; omega)
      rw [List.cons_append, rawBodyLength?, hbegins] at h ⊢
      split_ifs at h with hquote hreturn hline hadmit
      · rw [if_pos hquote, h]
      · have hle := rawBodyLength?_le h
        have hne : v ≠ [] := by
          rintro rfl
          simp at hm
          omega
        rw [List.head?_append_of_ne_nil _ hne] at hline
        rw [if_neg hquote, if_pos hreturn, List.head?_append_of_ne_nil _ hne, if_pos hline]
        exact ih h (by omega)
      · rw [if_neg hquote, if_neg hreturn, if_pos hadmit]
        exact ih h (by omega)

theorem rawLength?_cut {alphabet : Alphabet} {v : List Char} {m : Nat} 
    (h : rawLength? alphabet (v ++ w) = some m) (hm : m ≤ v.length) :
    rawLength? alphabet (v ++ w') = some m := by
  unfold rawLength? at h
  simp only at h
  split at h
  · rename_i body hbody
    split_ifs at h with hmany
    have hle := rawBodyLength?_le h
    have hhashes : ∀ x, (v ++ x).takeWhile (· == '#') = v.takeWhile (· == '#') := by
      -- the hashes end where the quote stands
      have hv : v.takeWhile (· == '#') ≠ v := by
        intro hv
        rw [List.takeWhile_append, hv, if_pos rfl, List.length_append] at hle
        omega
      intro x
      rw [List.takeWhile_append, if_neg]
      exact fun hlength => hv ((List.takeWhile_prefix _).eq_of_length hlength)
    simp only [rawLength?, hhashes] at h hle hbody hmany ⊢
    rw [List.drop_append_of_le_length (by omega)] at hbody ⊢
    obtain ⟨v', hv', rfl⟩ := @exists_of_append w ['"'] body _ hbody (by simp; omega)
    have hlength := congrArg List.length hv'
    simp only [List.length_drop, List.length_append, List.length_singleton] at hlength
    rw [hv']
    simp only [List.cons_append, List.nil_append, hmany, if_true]
    exact rawBodyLength?_cut h (by omega)
  · cases h

theorem characterLength?_cut {alphabet : Alphabet} {v : List Char} {m : Nat} 
    (h : characterLength? alphabet (v ++ w) = some m) (hm : m ≤ v.length) :
    characterLength? alphabet (v ++ w') = some m := by
  unfold characterLength? at h
  split at h
  · rename_i rest hrest
    obtain ⟨k, hk, h⟩ := Option.bind_eq_some_iff.1 h
    split_ifs at h with hquote
    obtain rfl := Option.some.inj h
    obtain ⟨v, rfl, rfl⟩ := @exists_of_append w ['\\'] rest v hrest (by simp; omega)
    simp only [List.length_append, List.length_singleton] at hm
    have hlonger : v.drop k ≠ [] := by
      rw [Ne, List.drop_eq_nil_iff]
      omega
    rw [List.drop_append_of_le_length (by omega), List.head?_append_of_ne_nil _ hlonger] at hquote
    simp only [List.cons_append, List.nil_append, characterLength?, Option.bind_eq_bind]
    rw [escapeLength?_cut hk (by omega), Option.bind_some, List.drop_append_of_le_length (by omega), 
      List.head?_append_of_ne_nil _ hlonger, if_pos hquote]
  · rename_i c rest hc hrest
    split_ifs at h with hadmit
    obtain rfl := Option.some.inj h
    obtain ⟨v, rfl, rfl⟩ := @exists_of_append w [c, '\''] rest v hrest hm
    simp [characterLength?, hadmit]
  · cases h

end Cut

/-! ## Words and numbers -/

/-- A character that ends words and numbers wherever it stands and opens no literal. -/
structure EndsWord (d : Char) : Prop where
  start : isIdentStart d = false
  more : isIdentContinue d = false
  digit : isDigit d = false
  hex : hexValue? d = none
  other : d ∉ ['.', '_', '+', '-', '#', '"', '\'']

theorem endsWord_star : EndsWord '*' := by constructor <;> decide

theorem endsWord_brace : EndsWord '{' := by constructor <;> decide

theorem takeWhile_append_of_false {p : Char → Bool} {d : Char} (hd : p d = false) (v q : List Char) :
    (v ++ d :: q).takeWhile p = v.takeWhile p := by
  induction v with
  | nil => simp [hd]
  | cons c v ih => simp only [List.cons_append, List.takeWhile_cons, ih]

theorem wordLength?_le {v : List Char} {n : Nat} (h : wordLength? v = some n) : n ≤ v.length := by
  cases v with
  | nil => cases h
  | cons c v =>
    rw [wordLength?] at h
    split_ifs at h
    cases h
    have := (List.takeWhile_sublist (l := v) isIdentContinue).length_le
    rw [List.length_cons]
    omega

theorem withSuffix_le {n : Nat} {v : List Char} (hn : n ≤ v.length) : withSuffix n v ≤ v.length := by
  rw [withSuffix]
  cases h : wordLength? (v.drop n) with
  | none => simpa using hn
  | some m =>
    have := wordLength?_le h
    rw [List.length_drop] at this
    rw [Option.getD_some]
    omega

theorem exponentLength?_le {otherwise : Option Nat} {v : List Char} {signed valued : Bool} {n m : Nat}
    (hother : ∀ k, otherwise = some k → k ≤ n) (h : exponentLength? otherwise signed valued n v = some m) :
    m ≤ n + v.length := by
  fun_induction exponentLength? otherwise signed valued n v <;> grind

theorem decimalLength?_le {v : List Char} {dotted : Bool} {n m : Nat}
    (h : decimalLength? dotted n v = some m) : m ≤ n + v.length := by
  have hsome : ∀ (cs : List Char) (n : Nat), exponentLength? (some n) false false (n + 1) cs = some m →
      m ≤ n + 1 + cs.length := fun cs n => exponentLength?_le (by grind)
  have hnone : ∀ (cs : List Char) (n : Nat), exponentLength? none false false (n + 1) cs = some m →
      m ≤ n + 1 + cs.length := fun cs n => exponentLength?_le (by grind)
  fun_induction decimalLength? dotted n v <;> grind

theorem digitsLength?_le {base : Nat} {v : List Char} {empty : Bool} {n m : Nat}
    (h : digitsLength? base empty n v = some m) : m ≤ n + v.length := by
  fun_induction digitsLength? base empty n v <;> grind

theorem integerLength?_le {v : List Char} {m : Nat} (h : integerLength? v = some m) : m ≤ v.length := by
  unfold integerLength? at h
  split at h
  · have := digitsLength?_le h
    simp only [List.length_cons]
    omega
  · have := digitsLength?_le h
    simp only [List.length_cons]
    omega
  · have := digitsLength?_le h
    simp only [List.length_cons]
    omega
  · simpa using digitsLength?_le h

theorem integerLength?_eq (cs : List Char) : integerLength? cs =
    if ['0', 'x'].isPrefixOf cs then digitsLength? 16 true 2 (cs.drop 2)
    else if ['0', 'o'].isPrefixOf cs then digitsLength? 8 true 2 (cs.drop 2)
    else if ['0', 'b'].isPrefixOf cs then digitsLength? 2 true 2 (cs.drop 2)
    else digitsLength? 10 true 0 cs := by
  unfold integerLength?
  split
  · rfl
  · rfl
  · rfl
  · simp only [List.isPrefixOf_iff_prefix]
    rename_i hx ho hb
    rw [if_neg, if_neg, if_neg]
    · rintro ⟨rest, rfl⟩
      exact hb _ rfl
    · rintro ⟨rest, rfl⟩
      exact ho _ rfl
    · rintro ⟨rest, rfl⟩
      exact hx _ rfl

theorem anyWord?_eq (cs : List Char) : anyWord? cs =
    if ['r', '#'].isPrefixOf cs then
      (wordLength? (cs.drop 2)).bind fun n =>
        if neverRaw.contains (String.ofList ((cs.drop 2).take n)) then none
        else some (true, String.ofList ((cs.drop 2).take n), n + 2)
    else (wordLength? cs).bind fun n => some (false, String.ofList (cs.take n), n) := by
  unfold anyWord?
  split
  · rfl
  · rename_i hraw
    rw [if_neg]
    · rfl
    · rw [List.isPrefixOf_iff_prefix]
      rintro ⟨rest, rfl⟩
      exact hraw _ rfl

theorem anyWord?_le {v : List Char} {raw : Bool} {name : String} {n : Nat} (h : anyWord? v = some (raw, name, n)) :
    n ≤ v.length := by
  rw [anyWord?_eq] at h
  split_ifs at h with hraw
  · obtain ⟨m, hm, h⟩ := Option.bind_eq_some_iff.1 h
    split_ifs at h
    cases h
    have htwo : 2 ≤ v.length := length_le_of_isPrefixOf hraw
    have := wordLength?_le hm
    rw [List.length_drop] at this
    omega
  · obtain ⟨m, hm, h⟩ := Option.bind_eq_some_iff.1 h
    cases h
    exact wordLength?_le hm

/-- What a word starts with. -/
theorem exists_of_anyWord? {v : List Char} (h : (anyWord? v).isSome = true) :
    ∃ c rest, v = c :: rest ∧ isIdentStart c = true := by
  rw [anyWord?_eq] at h
  split_ifs at h with hraw
  · obtain ⟨rest, rfl⟩ := List.isPrefixOf_iff_prefix.1 hraw
    exact ⟨_, _, rfl, by decide⟩
  · cases v with
    | nil => simp [wordLength?] at h
    | cons c rest =>
      refine ⟨c, rest, rfl, ?_⟩
      by_contra hc
      simp [wordLength?, hc] at h

section EndsWord

variable {d : Char} (hd : EndsWord d) (q : List Char)
include hd

theorem EndsWord.ne {c : Char} (hc : isIdentStart c = true ∨ c ∈ ['.', '_', '+', '-', '#', '"', '\'']) : d ≠ c := by
  rintro rfl
  rcases hc with hc | hc
  · exact absurd hc (by simp [hd.start])
  · exact hd.other hc

theorem wordLength?_end (v : List Char) : wordLength? (v ++ d :: q) = wordLength? v := by
  cases v with
  | nil => simp [wordLength?, hd.start]
  | cons c v => simp only [List.cons_append, wordLength?, takeWhile_append_of_false hd.more]

theorem exponentLength?_end (otherwise : Option Nat) : ∀ (v : List Char) (signed valued : Bool) (n : Nat),
    exponentLength? otherwise signed valued n (v ++ d :: q) = exponentLength? otherwise signed valued n v := by
  have hplus : d ≠ '+' := hd.ne (by decide)
  have hminus : d ≠ '-' := hd.ne (by decide)
  have hunder : d ≠ '_' := hd.ne (by decide)
  intro v
  induction v with
  | nil => intro signed valued n; simp [exponentLength?, hplus, hminus, hd.digit, hunder]
  | cons c v ih => intro signed valued n; simp only [List.cons_append, exponentLength?, ih]

theorem decimalLength?_end : ∀ (v : List Char) (dotted : Bool) (n : Nat),
    decimalLength? dotted n (v ++ d :: q) = decimalLength? dotted n v := by
  have hexponent := fun otherwise v => exponentLength?_end hd q otherwise v false false
  have hdot : d ≠ '.' := hd.ne (by decide)
  have hunder : d ≠ '_' := hd.ne (by decide)
  have he : d ≠ 'e' := hd.ne (by decide)
  have hE : d ≠ 'E' := hd.ne (by decide)
  intro v
  induction v with
  | nil => intro dotted n; simp [decimalLength?, hd.digit, hunder, hdot, he, hE]
  | cons c v ih =>
    intro dotted n
    simp only [List.cons_append, decimalLength?, ih, hexponent]
    cases v with
    | nil => simp [decimalLength?, hd.start, hdot]
    | cons e v => rfl

theorem digitsLength?_end (base : Nat) : ∀ (v : List Char) (empty : Bool) (n : Nat),
    digitsLength? base empty n (v ++ d :: q) = digitsLength? base empty n v := by
  have hunder : d ≠ '_' := hd.ne (by decide)
  intro v
  induction v with
  | nil => intro empty n; simp [digitsLength?, hd.hex, hunder]
  | cons c v ih => intro empty n; simp only [List.cons_append, digitsLength?, ih]

theorem integerLength?_end (v : List Char) : integerLength? (v ++ d :: q) = integerLength? v := by
  have hbegins : ∀ c, c ∈ ['x', 'o', 'b'] → ['0', c].isPrefixOf (v ++ d :: q) = ['0', c].isPrefixOf v := by
    intro c hc
    refine isPrefixOf_end q ?_
    have hzero : d ≠ '0' := by
      rintro rfl
      exact absurd hd.digit (by decide)
    have hletters : ∀ c ∈ ['x', 'o', 'b'], isIdentStart c = true := List.all_iff_forall_prop.1 (by decide)
    have hc' : d ≠ c := hd.ne (.inl (hletters c hc))
    simp [hzero, hc']
  have hdrop : ∀ c, ['0', c].isPrefixOf v = true → (v ++ d :: q).drop 2 = v.drop 2 ++ d :: q := fun c hc =>
    List.drop_append_of_le_length (length_le_of_isPrefixOf hc)
  simp only [integerLength?_eq, hbegins 'x' (by decide), hbegins 'o' (by decide), hbegins 'b' (by decide)]
  split_ifs with hx ho hb
  · rw [hdrop _ hx, digitsLength?_end hd]
  · rw [hdrop _ ho, digitsLength?_end hd]
  · rw [hdrop _ hb, digitsLength?_end hd]
  · rw [digitsLength?_end hd]

theorem withSuffix_end {n : Nat} {v : List Char} (hn : n ≤ v.length) : withSuffix n (v ++ d :: q) = withSuffix n v := by
  rw [withSuffix, withSuffix, List.drop_append_of_le_length hn, wordLength?_end hd]

theorem endNumber_end {n : Nat} {v : List Char} (hn : n ≤ v.length) : endNumber (v ++ d :: q) n = endNumber v n := by
  rw [endNumber, endNumber, withSuffix_end hd q hn, List.drop_append_of_le_length (withSuffix_le hn)]
  cases v.drop (withSuffix n v) with
  | nil => simp [hd.more]
  | cons c v => rfl

theorem numberLength?_end (v : List Char) : numberLength? (v ++ d :: q) = numberLength? v := by
  cases v with
  | nil => simp [numberLength?, hd.digit]
  | cons c v =>
    have hbind : ∀ {length : Option Nat}, (∀ n, length = some n → n ≤ (c :: v).length) → 
        length.bind (endNumber (c :: v ++ d :: q)) = length.bind (endNumber (c :: v)) := by
      intro length hle
      cases length with
      | none => rfl
      | some n => exact endNumber_end hd q (hle n rfl)
    have hdecimal : ∀ n, decimalLength? false 1 v = some n → n ≤ (c :: v).length := by
      intro n hn
      have := decimalLength?_le hn
      rw [List.length_cons]
      omega
    have hnumber : ∀ x, numberLength? (c :: x) = if isDigit c then
        ((decimalLength? false 1 x).bind (endNumber (c :: x))).or ((integerLength? (c :: x)).bind (endNumber (c :: x)))
        else none := fun x => rfl
    rw [hnumber, List.cons_append, hnumber, decimalLength?_end hd, ← List.cons_append, integerLength?_end hd,
      hbind hdecimal, hbind fun n => integerLength?_le]

/-! ## Words -/

theorem anyWord?_end (v : List Char) : anyWord? (v ++ d :: q) = anyWord? v := by
  have hbegins : ['r', '#'].isPrefixOf (v ++ d :: q) = ['r', '#'].isPrefixOf v := by
    refine isPrefixOf_end q ?_
    have hr : d ≠ 'r' := hd.ne (by decide)
    have hmark : d ≠ '#' := hd.ne (by decide)
    simp [hr, hmark]
  have htake : ∀ {v : List Char} {n : Nat}, wordLength? v = some n → (v ++ d :: q).take n = v.take n := fun hn =>
    List.take_append_of_le_length (wordLength?_le hn)
  simp only [anyWord?_eq, hbegins]
  split_ifs with hraw
  · have htwo : 2 ≤ v.length := length_le_of_isPrefixOf hraw
    rw [List.drop_append_of_le_length htwo, wordLength?_end hd]
    refine Option.bind_congr fun n hn => ?_
    rw [htake hn]
  · rw [wordLength?_end hd]
    refine Option.bind_congr fun n hn => ?_
    rw [htake hn]

theorem word?_end (v : List Char) : word? (v ++ d :: q) = word? v := by
  have hopens : quoteOpenings.any (·.isPrefixOf (v ++ d :: q)) = quoteOpenings.any (·.isPrefixOf v) := by
    have hchars : ∀ c ∈ quoteOpenings.flatten, isIdentStart c = true ∨ c ∈ ['.', '_', '+', '-', '#', '"', '\''] :=
      List.all_iff_forall_prop.1 (by decide)
    rw [Bool.eq_iff_iff, List.any_eq_true, List.any_eq_true]
    refine exists_congr fun p => and_congr_right fun hp => ?_
    rw [isPrefixOf_end q fun hmem => hd.ne (hchars d (List.mem_flatten.2 ⟨p, hp, hmem⟩)) rfl]
  rw [word?, word?, hopens, anyWord?_end hd]

/-- A character literal whose first character is no backslash. -/
theorem characterLength?_end {alphabet : Alphabet} {c : Char} (hc : c ≠ '\\') (v : List Char) :
    characterLength? alphabet (c :: (v ++ d :: q)) = characterLength? alphabet (c :: v) := by
  have hquote : d ≠ '\'' := hd.ne (by decide)
  cases v with
  | nil => simp [characterLength?, hc, hquote]
  | cons e v =>
    by_cases he : e = '\''
    · subst he
      simp [characterLength?]
    · simp [characterLength?, hc, he]

end EndsWord

/-! ## Literals -/

/-- A literal that is known by the characters it starts with. -/
structure Opening where
  lead : List Char
  kind : LiteralKind
  /-- The length of what follows the lead, without the suffix. -/
  length? : List Char → Option Nat

/-- The literal that a text opens with if it is one of these. -/
def Opening.literal? (o : Opening) (cs : List Char) : Option (LiteralKind × Nat) :=
  (o.length? (cs.drop o.lead.length)).map fun n => (o.kind, withSuffix (o.lead.length + n) cs)

/-- The ways to open a quoted text. -/
def openings : List Opening :=
  [⟨['"'], .text, quotedLength? .full 0 0⟩, ⟨['r'], .text, rawLength? .full⟩,
    ⟨['b', '"'], .bytes, quotedLength? .ascii 0 0⟩, ⟨['b', 'r'], .bytes, rawLength? .ascii⟩,
    ⟨['c', '"'], .terminated, quotedLength? .nonzero 0 0⟩, ⟨['c', 'r'], .terminated, rawLength? .nonzero⟩,
    ⟨['b', '\''], .byte, characterLength? .ascii⟩, ⟨['\''], .char, characterLength? .full⟩]

/-- A text opens with a quoted text or with a number. -/
theorem literal?_eq (cs : List Char) : literal? cs =
    (openings.find? (·.lead.isPrefixOf cs)).elim ((numberLength? cs).map fun n => (.number, n))
      (·.literal? cs) := by
  unfold literal?
  simp only
  split
  all_goals try rfl
  rename_i h₁ h₂ h₃ h₄ h₅ h₆ h₇ h₈
  rw [List.find?_eq_none.2, Option.elim_none]
  simp only [openings, List.forall_mem_cons, List.isPrefixOf_iff_prefix]
  refine ⟨?_, ?_, ?_, ?_, ?_, ?_, ?_, ?_, by simp⟩
  all_goals rintro ⟨rest, rfl⟩
  · exact h₁ _ rfl
  · exact h₂ _ rfl
  · exact h₃ _ rfl
  · exact h₄ _ rfl
  · exact h₅ _ rfl
  · exact h₆ _ rfl
  · exact h₇ _ rfl
  · exact h₈ _ rfl

/-- A character that opens no literal. -/
theorem literal?_eq_none {c : Char} (hc : ∀ o ∈ openings, o.lead.head? ≠ some c) (hdigit : isDigit c = false)
    (cs : List Char) : literal? (c :: cs) = none := by
  have hfind : openings.find? (·.lead.isPrefixOf (c :: cs)) = none := by
    rw [List.find?_eq_none]
    intro o ho hbegins
    have hleads : ∀ o ∈ openings, o.lead ≠ [] := by decide
    obtain ⟨rest, hrest⟩ := List.isPrefixOf_iff_prefix.1 hbegins
    obtain ⟨e, lead, hlead⟩ := List.exists_cons_of_ne_nil (hleads o ho)
    rw [hlead, List.cons_append, List.cons.injEq] at hrest
    exact hc o ho (by rw [hlead, hrest.1]; rfl)
  rw [literal?_eq, hfind, Option.elim_none, numberLength?, if_neg (by simp [hdigit])]
  rfl

theorem opening_cut {o : Opening} (ho : o ∈ openings) {v w : List Char} {m : Nat} (w' : List Char)
    (h : o.length? (v ++ w) = some m) (hm : m ≤ v.length) : o.length? (v ++ w') = some m := by
  simp only [openings, List.mem_cons, List.not_mem_nil, or_false] at ho
  rcases ho with rfl | rfl | rfl | rfl | rfl | rfl | rfl | rfl
  · exact quotedLength?_cut h (by omega)
  · exact rawLength?_cut h hm
  · exact quotedLength?_cut h (by omega)
  · exact rawLength?_cut h hm
  · exact quotedLength?_cut h (by omega)
  · exact rawLength?_cut h hm
  · exact characterLength?_cut h hm
  · exact characterLength?_cut h hm

theorem find?_openings_end {d : Char} (hd : EndsWord d) (q v : List Char) :
    openings.find? (·.lead.isPrefixOf (v ++ d :: q)) = openings.find? (·.lead.isPrefixOf v) := by
  have hchars : ∀ c ∈ openings.flatMap (·.lead), isIdentStart c = true ∨ c ∈ ['.', '_', '+', '-', '#', '"', '\''] :=
    List.all_iff_forall_prop.1 (by decide)
  refine List.find?_congr fun o ho => ?_
  exact isPrefixOf_end q fun hmem => hd.ne (hchars d (List.mem_flatMap.2 ⟨o, ho, hmem⟩)) rfl

theorem le_withSuffix (n : Nat) (cs : List Char) : n ≤ withSuffix n cs := Nat.le_add_right _ _

theorem literal?_cut {d d' : Char} (hd : EndsWord d) (hd' : EndsWord d') {q q' v : List Char} {kind : LiteralKind}
    {n : Nat} (h : literal? (v ++ d :: q) = some (kind, n)) (hn : n ≤ v.length) :
    literal? (v ++ d' :: q') = some (kind, n) := by
  rw [literal?_eq, find?_openings_end hd] at h
  rw [literal?_eq, find?_openings_end hd']
  cases hfind : openings.find? (·.lead.isPrefixOf v) with
  | none =>
    rw [hfind, Option.elim_none, numberLength?_end hd] at h
    rw [Option.elim_none, numberLength?_end hd', h]
  | some o =>
    have hbegins : o.lead.isPrefixOf v = true := List.find?_some (p := fun o : Opening => o.lead.isPrefixOf v) hfind
    have hlead : o.lead.length ≤ v.length := length_le_of_isPrefixOf hbegins
    rw [hfind, Option.elim_some, Opening.literal?, List.drop_append_of_le_length hlead] at h
    obtain ⟨m, hm, heq⟩ := Option.map_eq_some_iff.1 h
    obtain ⟨rfl, rfl⟩ := Prod.mk.inj heq
    have hle : o.lead.length + m ≤ v.length := (le_withSuffix _ _).trans hn
    rw [Option.elim_some, Opening.literal?, List.drop_append_of_le_length hlead,
      opening_cut (List.mem_of_find?_eq_some hfind) _ hm (by rw [List.length_drop]; omega), Option.map_some,
      withSuffix_end hd _ hle, withSuffix_end hd' _ hle]

theorem rawLength?_opens {alphabet : Alphabet} {cs : List Char} {m : Nat} (h : rawLength? alphabet cs = some m) :
    ['"'].isPrefixOf cs = true ∨ ['#', '"'].isPrefixOf cs = true ∨ ['#', '#'].isPrefixOf cs = true := by
  unfold rawLength? at h
  simp only at h
  split at h
  · rename_i body hbody
    match cs, hbody with
    | c :: cs, hbody =>
      by_cases hc : c = '#'
      · subst hc
        cases cs with
        | nil => simp at hbody
        | cons d cs =>
          by_cases hd : d = '#'
          · simp [hd]
          · simp [hd] at hbody
            simp [hbody]
      · simp [hc] at hbody
        simp [hbody]
  · cases h

theorem isIdentStart_ascii {c : Char} (h : isIdentStart c = true) (hascii : c.toNat < 0x80) :
    65 ≤ c.toNat ∧ c.toNat ≤ 90 ∨ 97 ≤ c.toNat ∧ c.toNat ≤ 122 ∨ c.toNat = 95 := by
  rw [isIdentStart, if_pos hascii] at h
  change (decide (65 ≤ c.val ∧ c.val ≤ 90) || (decide (97 ≤ c.val) && decide (c.val ≤ 122)) || c == '_') = true at h
  simp only [Bool.or_eq_true, Bool.and_eq_true, decide_eq_true_eq, UInt32.le_iff_toNat_le, beq_iff_eq] at h
  change ((65 ≤ c.toNat ∧ c.toNat ≤ 90) ∨ (97 ≤ c.toNat ∧ c.toNat ≤ 122)) ∨ c = '_' at h
  rcases h with (h | h) | rfl
  · exact .inl h
  · exact .inr (.inl h)
  · exact .inr (.inr rfl)

theorem isDigit_eq_false_of_isIdentStart {c : Char} (h : isIdentStart c = true) : isDigit c = false := by
  by_contra hdigit
  rw [Bool.not_eq_false, isDigit, Bool.and_eq_true, decide_eq_true_eq, decide_eq_true_eq] at hdigit
  have hlow : 48 ≤ c.toNat := hdigit.1
  have hhigh : c.toNat ≤ 57 := hdigit.2
  have := isIdentStart_ascii h (by omega)
  omega

/-- What opens a word opens no literal. -/
theorem literal?_eq_none_of_word {cs : List Char} (h : (word? cs).isSome = true) : literal? cs = none := by
  rw [word?] at h
  split_ifs at h with hopens
  · cases h
  have hno : ∀ p ∈ quoteOpenings, p.isPrefixOf cs = false := by
    intro p hp
    rw [Bool.not_eq_true, List.any_eq_false] at hopens
    exact Bool.eq_false_iff.2 (hopens p hp)
  obtain ⟨c, rest, rfl, hc⟩ := exists_of_anyWord? h
  rw [literal?_eq]
  cases hfind : openings.find? (·.lead.isPrefixOf (c :: rest)) with
  | none => 
    rw [Option.elim_none, numberLength?, if_neg (by simp [isDigit_eq_false_of_isIdentStart hc])]
    rfl
  | some o =>
    have hbegins : o.lead.isPrefixOf (c :: rest) = true := List.find?_some (p := fun o : Opening => o.lead.isPrefixOf (c :: rest)) hfind
    have ho := List.mem_of_find?_eq_some hfind
    have hraw : ∀ {alphabet : Alphabet} {body : List Char}, (['"'].isPrefixOf body = false) → (['#', '"'].isPrefixOf body = false) → 
        (['#', '#'].isPrefixOf body = false) → rawLength? alphabet body = none := by
      intro alphabet body h₁ h₂ h₃
      cases hlength : rawLength? alphabet body with
      | none => rfl
      | some m => 
        have := rawLength?_opens hlength
        simp [h₁, h₂, h₃] at this
    have hmark : ∀ {body : List Char}, ['#'].isPrefixOf body = false → ∀ c, ['#', c].isPrefixOf body = false := by
      intro body hbody c
      cases body with
      | nil => rfl
      | cons e body =>
        have he : ('#' == e) = false := by simpa [List.isPrefixOf] using hbody
        simp [List.isPrefixOf, he]
    have hstart : isIdentStart '"' = false ∧ isIdentStart '\'' = false := by decide
    simp only [Option.elim_some]
    simp only [openings, List.mem_cons, List.not_mem_nil, or_false] at ho
    rcases ho with rfl | rfl | rfl | rfl | rfl | rfl | rfl | rfl
    all_goals
      obtain ⟨body, hbody⟩ := List.isPrefixOf_iff_prefix.1 hbegins
      simp only [List.cons_append, List.nil_append] at hbody
      obtain ⟨rfl, rfl⟩ := List.cons.inj hbody
    · simp [hstart] at hc
    · have h₁ := hno ['r', '"'] (by decide)
      have h₂ := hno ['r', '#', '"'] (by decide)
      have h₃ := hno ['r', '#', '#'] (by decide)
      simp only [List.isPrefixOf, beq_self_eq_true, Bool.true_and] at h₁ h₂ h₃
      simp [Opening.literal?, hraw h₁ h₂ h₃]
    · exact absurd (hno ['b', '"'] (by decide)) (by simp [List.isPrefixOf])
    · have h₁ := hno ['b', 'r', '"'] (by decide)
      have h₂ := hno ['b', 'r', '#'] (by decide)
      simp only [List.isPrefixOf, beq_self_eq_true, Bool.true_and] at h₁ h₂
      simp [Opening.literal?, hraw h₁ (hmark h₂ '"') (hmark h₂ '#')]
    · exact absurd (hno ['c', '"'] (by decide)) (by simp [List.isPrefixOf])
    · have h₁ := hno ['c', 'r', '"'] (by decide)
      have h₂ := hno ['c', 'r', '#'] (by decide)
      simp only [List.isPrefixOf, beq_self_eq_true, Bool.true_and] at h₁ h₂
      simp [Opening.literal?, hraw h₁ (hmark h₂ '"') (hmark h₂ '#')]
    · exact absurd (hno ['b', '\''] (by decide)) (by simp [List.isPrefixOf])
    · simp [hstart] at hc

end Reexport.Source
