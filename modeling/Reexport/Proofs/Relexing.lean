import Reexport.Proofs.Lexing
import Reexport.Proofs.StepEnds

/-!
# Lexing a text with a star replaced
-/

namespace Reexport.Source

open Text

/-! ## In front of a star -/

/-- Lexemes that stand in front of a star, and what they are in front of a brace: the last one may
    be a punctuation character that is joint no longer. -/
inductive Loosened : List Placed → List Placed → Prop where
  | same (placed : List Placed) : Loosened placed placed
  | last (placed : List Placed) (c : Char) (start stop : Location) :
      Loosened (placed ++ [⟨.token (.punct c true), start, stop⟩]) (placed ++ [⟨.token (.punct c false), start, stop⟩])

theorem Loosened.append {front front' : List Placed} (h : Loosened front front') (placed : List Placed) :
    Loosened (placed ++ front) (placed ++ front') := by
  cases h with
  | same => exact .same _
  | last front c start stop =>
    rw [← List.append_assoc, ← List.append_assoc]
    exact .last _ c start stop

/-- Where the lexer has not moved it has read nothing. -/
theorem Passes.eq_of_rest {a b : Cursor} {placed : List Placed} (h : Passes a placed b) (hrest : b.rest = a.rest) :
    placed = [] ∧ b = a := by
  cases h with
  | done => exact ⟨rfl, rfl⟩
  | @step here stack stack' c cs placed _ track others =>
    obtain ⟨passed, hpassed, -⟩ := others.passed
    have hlength := congrArg List.length hpassed
    simp only [hrest, List.length_drop, List.length_append, List.length_cons] at hlength
    omega

theorem Step.le_length_of_block {q : List Char} (h : Step.of ('/' :: '*' :: q) ≠ .fault) :
    4 ≤ (Step.of ('/' :: '*' :: q)).length := by
  obtain ⟨⟨kind, length?⟩, hcomment⟩ : ∃ found, comment? ('/' :: '*' :: q) = some found := ⟨_, comment?_block q⟩
  have hinner : blockLength? 1 2 q = length? := by
    rw [comment?_block] at hcomment
    exact (Prod.mk.inj (Option.some.inj hcomment)).2
  cases length? with
  | none => exact absurd (Step.of_endless hcomment) h
  | some n =>
    have hfour := blockLength?_le hinner
    cases kind with
    | ordinary =>
      rw [Step.of_ordinary hcomment]
      exact hfour
    | documents inner =>
      rw [Step.of_documents hcomment] at h ⊢
      by_cases hreturn : hasBareReturn (documentation ('/' :: '*' :: q) n) = true
      · exact absurd (if_pos hreturn) h
      · rw [if_neg hreturn]
        exact hfour

theorem Step.ne_fault_of_track {step : Step} {here : Location} {stack stack' : List (Delimiter × Location)}
    (h : step.track here stack = some stack') : step ≠ .fault := by
  rintro rfl
  cases h

/-- A slash that stands in front of a star is no step of its own. -/
theorem not_passes_slash {here : Location} {stack : List (Delimiter × Location)} {q : List Char} {placed : List Placed}
    {last : Cursor} (h : Passes ⟨here, stack, '/' :: '*' :: q⟩ placed last) : last.rest ≠ '*' :: q := by
  intro hlast
  cases h with
  | done => simp at hlast
  | step track others =>
    have hlong := Step.le_length_of_block (Step.ne_fault_of_track track)
    obtain ⟨passed, hrest, -⟩ := others.passed
    have hlength := congrArg List.length hrest
    simp only [hlast, List.length_drop, List.length_append, List.length_cons] at hlength
    omega

/-- A step that stands in front of a star ends in front of it. -/
theorem Passes.exists_front {here : Location} {stack : List (Delimiter × Location)} {c : Char} {cs v q : List Char} {n : Nat}
    {placed : List Placed} {last : Cursor} (others : Passes ⟨here, stack, cs.drop n⟩ placed last)
    (hfirst : c :: cs = v ++ '*' :: q) (hlast : last.rest = '*' :: q) :
    ∃ v', v = c :: v' ∧ cs = v' ++ '*' :: q ∧ n ≤ v'.length := by
  obtain ⟨passed, hpassed, -⟩ := others.passed
  have hlength := congrArg List.length hpassed
  simp only [hlast, List.length_drop, List.length_append, List.length_cons] at hlength
  cases v with
  | nil =>
    obtain ⟨rfl, rfl⟩ := List.cons.inj hfirst
    omega
  | cons d v =>
    rw [List.cons_append, List.cons.injEq] at hfirst
    obtain ⟨rfl, rfl⟩ := hfirst
    simp only [List.length_append, List.length_cons] at hlength
    exact ⟨v, rfl, rfl, by omega⟩

/-- The lexer passes over a text up to a brace as it does up to a star in the same place. -/
theorem Passes.cut {a last : Cursor} {front : List Placed} {q : List Char} (q' : List Char) (h : Passes a front last) :
    ∀ {v : List Char}, a.rest = v ++ '*' :: q → last.rest = '*' :: q →
    ∃ front', Passes ⟨a.here, a.stack, v ++ '{' :: q'⟩ front' ⟨last.here, last.stack, '{' :: q'⟩ ∧
      Loosened front front' := by
  induction h with
  | done cursor =>
    intro v ha hlast
    obtain rfl : v = [] := by
      rw [hlast] at ha
      simpa using ha.symm
    exact ⟨[], .done _, .same _⟩
  | @step here stack stack' c cs placed last track others ih =>
    intro v ha hlast
    obtain ⟨n, hn⟩ : ∃ n, n = (Step.of (c :: cs)).length - 1 := ⟨_, rfl⟩
    rw [← hn] at others ih
    obtain ⟨v, rfl, rfl, hle⟩ := others.exists_front ha hlast
    have htake : ∀ w, (v ++ w).take n = v.take n := fun w => List.take_append_of_le_length hle
    have hdrop : ∀ w, (v ++ w).drop n = v.drop n ++ w := fun w => List.drop_append_of_le_length hle
    obtain ⟨front', hfront', hloose⟩ := ih (v := v.drop n) (by simp only [hdrop]) hlast
    have hnext : (Step.of (c :: (v ++ '*' :: q))).length = 1 → v ≠ ['/'] := by
      rintro hone rfl
      rw [hone] at hn
      subst hn
      exact not_passes_slash others hlast
    have hshort : (Step.of (c :: (v ++ '*' :: q))).length ≤ (c :: v).length := by
      rw [List.length_cons]
      omega
    rcases @Step.of_cut (c :: v) q q' (List.cons_ne_nil c v) (Step.ne_fault_of_track track) hshort hnext with
      hsame | ⟨e, he, hstep, hstep'⟩
    · rw [List.cons_append, List.cons_append] at hsame
      refine ⟨_, @Passes.step here stack stack' c (v ++ '{' :: q') front' _ (by rw [hsame, track]) ?_, ?_⟩
      · rw [hsame, ← hn, htake, hdrop, ← htake ('*' :: q)]
        exact hfront'
      · have hlexemes : (Cursor.mk here stack (c :: (v ++ '{' :: q'))).lexemes =
            (Cursor.mk here stack (c :: (v ++ '*' :: q))).lexemes := by
          have htake' : ∀ w, (c :: (v ++ w)).take (Step.of (c :: (v ++ '*' :: q))).length =
              (c :: v).take (Step.of (c :: (v ++ '*' :: q))).length := by
            intro w
            show ((c :: v) ++ w).take _ = _
            exact List.take_append_of_le_length hshort
          simp only [Cursor.lexemes, hsame, htake']
        rw [hlexemes]
        exact hloose.append _
    · -- a punctuation character right in front of the star
      obtain ⟨rfl, rfl⟩ := List.cons.inj he
      rw [List.nil_append] at track others 
      rw [List.cons_append, List.nil_append] at hstep hstep'
      rw [hstep] at track
      obtain rfl : n = 0 := Nat.le_zero.1 hle
      obtain ⟨rfl, rfl⟩ := others.eq_of_rest hlast
      refine ⟨_, @Passes.step here stack stack' c ('{' :: q') [] _ (by rw [hstep', ← track]; rfl) ?_, ?_⟩
      · rw [hstep']
        exact .done _
      · simp only [Cursor.lexemes, hstep, hstep', List.nil_append, List.append_nil]
        exact .last [] c _ _

/-! ## Elsewhere -/

/-- What a text holds does not depend on where it starts. -/
theorem Passes.elsewhere {a last : Cursor} {placed : List Placed} (h : Passes a placed last) :
    ∀ (here' : Location) {stack' : List (Delimiter × Location)}, stack'.map Prod.fst = a.stack.map Prod.fst →
    ∃ placed' last', Passes ⟨here', stack', a.rest⟩ placed' last' ∧ last'.rest = last.rest ∧
      last'.stack.map Prod.fst = last.stack.map Prod.fst ∧ placed'.map (·.lexeme) = placed.map (·.lexeme) := by
  have htrack : ∀ {step : Step} {here here' : Location} {stack stack' next : List (Delimiter × Location)},
      stack'.map Prod.fst = stack.map Prod.fst → step.track here stack = some next →
      ∃ next', step.track here' stack' = some next' ∧ next'.map Prod.fst = next.map Prod.fst := by
    intro step here here' stack stack' next hstack hnext
    cases step with
    | fault => cases hnext
    | opening d =>
      cases hnext
      exact ⟨_, rfl, by simp [hstack]⟩
    | closing d =>
      cases stack with
      | nil => cases hnext
      | cons entry stack =>
        obtain ⟨entry', stack', rfl, hentry, hrest⟩ := List.map_eq_cons_iff.1 hstack
        obtain ⟨e, opened⟩ := entry
        obtain ⟨e', opened'⟩ := entry'
        simp only at hentry
        subst hentry
        simp only [Step.track] at hnext ⊢
        split_ifs at hnext ⊢ 
        cases hnext
        exact ⟨stack', rfl, hrest⟩
    | skip n => cases hnext; exact ⟨stack', rfl, hstack⟩
    | documents inner text n => cases hnext; exact ⟨stack', rfl, hstack⟩
    | token t n => cases hnext; exact ⟨stack', rfl, hstack⟩
  induction h with
  | done cursor => 
    intro here' stack' hstack
    exact ⟨[], _, .done _, rfl, hstack, rfl⟩
  | @step here stack next c cs placed last track others ih =>
    intro here' stack' hstack
    obtain ⟨next', hnext, hsame⟩ := @htrack _ here here' stack stack' next hstack track
    obtain ⟨placed', last', hpasses, hrest, hlast, hlexemes⟩ := ih
      ((here'.past c).pastAll (cs.take ((Step.of (c :: cs)).length - 1))) hsame
    refine ⟨_, last', .step hnext hpasses, hrest, hlast, ?_⟩
    rw [List.map_append, List.map_append, hlexemes]
    simp [Cursor.lexemes, Function.comp_def]

end Reexport.Source
