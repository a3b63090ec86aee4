import Mathlib.Data.List.TakeWhile
import Reexport.Proofs.Locations
import Reexport.Source.Lexer

/-!
# Lexing step by step

The lexer goes over a text in steps. Where it stands after some of them is a cursor; what
lies between two cursors has been passed over completely. A word or a punctuation mark in
the lexeme sequence is a step of its own, so the text can be cut in front of it and after it.

Results:

* `lexFrom_passes`: a lexeme sequence comes from passing over a whole text.
* `Passes.at_token`: where a token of the sequence stands in the text.
* `lexUnit_body`: what the lexer passes over of a unit.
* `token_offsets`: tokens that come later in the sequence stand further on in the text.
* `flattenAll_of_nest?`: the trees of a lexeme sequence hold its lexemes.
-/

namespace Reexport.Source

open Text

/-! ## Cursors -/

/-- Where the lexer stands. -/
structure Cursor where
  here : Location
  /-- The delimiters that are open, innermost first. -/
  stack : List (Delimiter × Location)
  rest : List Char

/-- The lexemes of the step at a cursor. -/
def Cursor.lexemes (cursor : Cursor) : List Placed :=
  let step := Step.of cursor.rest
  step.lexemes.map (⟨·, cursor.here, cursor.here.pastAll (cursor.rest.take step.length)⟩)

/-- The lexer passes over some steps from one cursor to another. -/
inductive Passes : Cursor → List Placed → Cursor → Prop where
  | done (cursor : Cursor) : Passes cursor [] cursor
  | step {here : Location} {stack stack' : List (Delimiter × Location)} {c : Char} {cs : List Char}
      {placed : List Placed} {last : Cursor}
      (track : (Step.of (c :: cs)).track here stack = some stack')
      (others : Passes ⟨(here.past c).pastAll (cs.take ((Step.of (c :: cs)).length - 1)), stack',
        cs.drop ((Step.of (c :: cs)).length - 1)⟩ placed last) :
      Passes ⟨here, stack, c :: cs⟩ ((Cursor.mk here stack (c :: cs)).lexemes ++ placed) last

theorem Passes.trans {a b c : Cursor} {as bs : List Placed} (hab : Passes a as b) (hbc : Passes b bs c) :
    Passes a (as ++ bs) c := by
  induction hab with
  | done => exact hbc
  | step track _ ih =>
    rw [List.append_assoc]
    exact .step track (ih hbc)

/-- The text between two cursors. -/
theorem Passes.passed {a b : Cursor} {placed : List Placed} (h : Passes a placed b) :
    ∃ passed, a.rest = passed ++ b.rest ∧ b.here = a.here.pastAll passed := by
  induction h with
  | done => exact ⟨[], rfl, rfl⟩
  | @step here stack stack' c cs _ last _ _ ih =>
    obtain ⟨passed, hrest, hhere⟩ := ih
    refine ⟨c :: (cs.take ((Step.of (c :: cs)).length - 1) ++ passed), ?_, ?_⟩
    · rw [List.cons_append, List.append_assoc, ← hrest, List.take_append_drop]
    · rw [hhere, Location.pastAll_cons, Location.pastAll_append]

theorem lexFrom_skip (stack : List (Delimiter × Location)) : ∀ (skip : Nat) (here : Location) (cs : List Char),
    lexFrom skip here stack cs = lexFrom 0 (here.pastAll (cs.take skip)) stack (cs.drop skip) := by
  intro skip
  induction skip with
  | zero => intro here cs; simp
  | succ skip ih =>
    intro here cs
    cases cs with
    | nil => cases stack <;> rfl
    | cons c cs =>
      rw [lexFrom, ih]
      rfl

/-- A lexeme sequence comes from passing over a whole text. -/
theorem lexFrom_passes {here : Location} {stack : List (Delimiter × Location)} {cs : List Char}
    {placed : List Placed} (h : lexFrom 0 here stack cs = .ok placed) :
    ∃ last, Passes ⟨here, stack, cs⟩ placed ⟨last, [], []⟩ := by
  induction hn : cs.length using Nat.strongRecOn generalizing here stack cs placed with
  | ind n ih =>
    subst hn
    cases cs with
    | nil =>
      cases stack with
      | nil =>
        cases h
        exact ⟨here, .done _⟩
      | cons => cases h
    | cons c cs =>
      rw [lexFrom] at h
      simp only at h
      split at h
      · cases h
      · rename_i stack' htrack
        split at h
        · cases h
        · rename_i rest hrest
          cases h
          rw [lexFrom_skip] at hrest
          have hshorter : (cs.drop ((Step.of (c :: cs)).length - 1)).length < (c :: cs).length := by
            rw [List.length_drop, List.length_cons]
            omega
          obtain ⟨last, hlast⟩ := ih _ hshorter hrest rfl
          exact ⟨last, .step htrack hlast⟩

theorem passes_lexFrom {a b : Cursor} {as bs : List Placed} (h : Passes a as b)
    (hb : lexFrom 0 b.here b.stack b.rest = .ok bs) :
    lexFrom 0 a.here a.stack a.rest = .ok (as ++ bs) := by
  induction h with
  | done => exact hb
  | step track _ ih =>
    have hrest := ih hb
    simp only at hrest
    rw [← lexFrom_skip] at hrest
    simp only [lexFrom, track, hrest, Cursor.lexemes, List.append_assoc]

/-! ## Tokens -/

/-- Wherever the token stands in a text it is spelled `spelling`, within a line, and no comment
    stands for it. -/
structure Token.Spells (t : Token) (spelling : List Char) : Prop where
  read : ∀ {cs : List Char} {n : Nat}, token? cs = some (t, n) →
    n = spelling.length ∧ ∃ rest, cs = spelling ++ rest
  plain : ∀ inner text, .token t ∉ documentationLexemes inner text
  nonempty : spelling ≠ []
  newline : '\n' ∉ spelling

theorem token?_punct {cs : List Char} {c : Char} {joint : Bool} {n : Nat}
    (h : token? cs = some (.punct c joint, n)) : n = 1 ∧ ∃ rest, cs = c :: rest := by
  unfold token? at h
  split at h
  · cases h
  · split at h
    · cases h
    · rename_i first rest _
      split_ifs at h with hpunct hquote
      · -- after an apostrophe there is a lifetime or a bare apostrophe
        unfold apostrophe? at h
        obtain ⟨⟨raw, name, n'⟩, -, h⟩ := Option.bind_eq_some_iff.1 h
        simp only at h
        split_ifs at h
        · cases h
        · cases h
          exact ⟨rfl, rest, by rw [hquote]⟩
      · cases h
        exact ⟨rfl, rest, rfl⟩
      all_goals
        split at h
        · cases h
        · cases h

/-- A punctuation mark that no documentation stands for. -/
theorem spells_punct {c : Char} (joint : Bool) (hplain : c ∉ ['#', '!', '=']) (hnewline : c ≠ '\n') :
    (Token.punct c joint).Spells [c] where
  read := token?_punct
  plain inner text := by
    simp only [List.mem_cons, List.not_mem_nil, or_false, not_or] at hplain
    cases inner <;> simp [documentationLexemes, hplain]
  nonempty := by simp
  newline := by simpa using Ne.symm hnewline

/-- A token of a text is a step of its own. -/
theorem step_token {t : Token} {spelling cs : List Char} (ht : t.Spells spelling)
    (h : .token t ∈ (Step.of cs).lexemes) :
    Step.of cs = .token t spelling.length ∧ ∃ rest, cs = spelling ++ rest := by
  have htoken : ∃ n, Step.of cs = .token t n := by
    cases hstep : Step.of cs with
    | token t n =>
      rw [hstep, Step.lexemes, List.mem_singleton] at h
      cases h
      exact ⟨n, rfl⟩
    | documents inner text n =>
      rw [hstep] at h
      exact absurd h (ht.plain inner text)
    | _ =>
      rw [hstep] at h
      simp [Step.lexemes] at h
  obtain ⟨n, hstep⟩ := htoken
  have hread : token? cs = some (t, n) := by
    have hof : Step.ofToken cs = .token t n := by
      unfold Step.of at hstep
      simp only at hstep
      repeat' split at hstep
      all_goals first | exact hstep | cases hstep
    unfold Step.ofToken at hof
    split at hof
    · rename_i heq
      cases hof
      exact heq
    · cases hof
  obtain ⟨rfl, hcs⟩ := ht.read hread
  exact ⟨hstep, hcs⟩

/-- Where a token of a lexeme sequence stands in the text. -/
theorem Passes.at_token {t : Token} {spelling : List Char} (ht : t.Spells spelling) {a z : Cursor}
    {placed : List Placed} (h : Passes a placed z) : ∀ {front : List Placed} {x : Placed} {back : List Placed},
    placed = front ++ x :: back → x.lexeme = .token t →
    ∃ (here : Location) (stack : List (Delimiter × Location)) (after : List Char),
      Passes a front ⟨here, stack, spelling ++ after⟩ ∧
      x = ⟨.token t, here, here.pastAll spelling⟩ ∧
      Step.of (spelling ++ after) = .token t spelling.length ∧
      Passes ⟨here.pastAll spelling, stack, after⟩ back z := by
  induction h with
  | done =>
    intro front x back hplaced _
    exact absurd hplaced.symm (by simp)
  | @step here stack stack' c cs placed last track others ih =>
    intro front x back hplaced hx
    rcases List.append_eq_append_iff.1 hplaced with ⟨middle, rfl, hback⟩ | ⟨middle, hfirst, hback⟩
    · obtain ⟨here', stack', after, hfront, heq, hstep, hrest⟩ := ih hback hx
      exact ⟨here', stack', after, .step track hfront, heq, hstep, hrest⟩
    · cases middle with
      | nil =>
        rw [List.append_nil] at hfirst
        obtain ⟨here', stack', after, hfront, heq, hstep, hrest⟩ := @ih [] x back hback.symm hx
        rw [← hfirst]
        have hall := Passes.step track hfront
        rw [List.append_nil] at hall
        exact ⟨here', stack', after, hall, heq, hstep, hrest⟩
      | cons found middle =>
        rw [List.cons_append, List.cons.injEq] at hback
        obtain ⟨rfl, rfl⟩ := hback
        -- the token is among the lexemes of this step, so it is the only one
        have hmem : .token t ∈ (Step.of (c :: cs)).lexemes := by
          have hin : x ∈ (Cursor.mk here stack (c :: cs)).lexemes := by
            rw [hfirst]
            simp
          obtain ⟨lexeme, hlexeme, rfl⟩ := List.mem_map.1 hin
          exact hx ▸ hlexeme
        obtain ⟨hstep, rest, hrest⟩ := step_token ht hmem
        have htake : (c :: cs).take spelling.length = spelling := by rw [hrest, List.take_left]
        have hone : front = [] ∧ x = ⟨.token t, here, here.pastAll spelling⟩ ∧ middle = [] := by
          simp only [Cursor.lexemes, hstep, Step.lexemes, Step.length, List.map_cons, List.map_nil,
            htake] at hfirst
          cases front with
          | nil =>
            obtain ⟨rfl, rfl⟩ := List.cons.inj hfirst
            exact ⟨rfl, rfl, rfl⟩
          | cons first front => simp at hfirst
        obtain ⟨rfl, rfl, rfl⟩ := hone
        rw [hstep] at track others
        cases track
        cases spelling with
        | nil => exact absurd rfl ht.nonempty
        | cons c' spelling =>
          rw [List.cons_append, List.cons.injEq] at hrest
          obtain ⟨rfl, rfl⟩ := hrest
          simp only [Step.length, List.length_cons, Nat.add_sub_cancel, List.take_left, List.drop_left] at others
          exact ⟨here, stack, rest, .done _, rfl, hstep, others⟩

/-! ## Stars -/

/-- A star as a lexeme. -/
def starLexeme (joint : Bool) : Lexeme := .token (.punct '*' joint)

theorem spells_star (joint : Bool) : (Token.punct '*' joint).Spells ['*'] :=
  spells_punct joint (by simp) (by simp)

/-- Where a star of a lexeme sequence stands in the text. -/
theorem Passes.at_star {a z : Cursor} {placed : List Placed} (h : Passes a placed z)
    {front : List Placed} {star : Placed} {back : List Placed} {joint : Bool}
    (hplaced : placed = front ++ star :: back) (hstar : star.lexeme = starLexeme joint) :
    ∃ (here : Location) (stack : List (Delimiter × Location)) (after : List Char),
      Passes a front ⟨here, stack, '*' :: after⟩ ∧
      star = ⟨starLexeme joint, here, here.past '*'⟩ ∧
      Step.of ('*' :: after) = .token (.punct '*' joint) 1 ∧
      Passes ⟨here.past '*', stack, after⟩ back z :=
  h.at_token (spells_star joint) hplaced hstar

/-! ## Where tokens stand -/

section Spells

variable {t u : Token} {first second : List Char} (ht : t.Spells first) (hu : u.Spells second)

include ht in
/-- A token stands at its location. -/
theorem token_at {here : Location} {cs : List Char} {front back : List Placed} {a : Placed}
    (h : lex here cs = .ok (front ++ a :: back)) (ha : a.lexeme = .token t) :
    ∃ before after, cs = before ++ (first ++ after) ∧ a.start = here.pastAll before ∧
      a.stop = here.pastAll (before ++ first) := by
  obtain ⟨last, hpasses⟩ := lexFrom_passes h
  obtain ⟨start, stack, after, hfront, rfl, -, -⟩ := hpasses.at_token ht rfl ha
  obtain ⟨passed, hcs, hstart⟩ := hfront.passed
  simp only at hcs hstart
  exact ⟨passed, after, hcs, hstart, by rw [hstart, Location.pastAll_append]⟩

include ht hu in
/-- Of two tokens the later one in the sequence has the later location. -/
theorem before_of_tokens {here : Location} {cs : List Char} {front middle back : List Placed} {a b : Placed}
    (h : lex here cs = .ok (front ++ a :: (middle ++ b :: back)))
    (ha : a.lexeme = .token t) (hb : b.lexeme = .token u) : a.start.Before b.start := by
  obtain ⟨last, hpasses⟩ := lexFrom_passes h
  obtain ⟨start, stack, after, -, rfl, -, hrest⟩ := hpasses.at_token ht rfl ha
  obtain ⟨start', stack', after', hmiddle, rfl, -, -⟩ := hrest.at_token hu rfl hb
  obtain ⟨passed, -, hpassed⟩ := hmiddle.passed
  simp only at hpassed ⊢
  rw [hpassed, ← Location.pastAll_append]
  exact start.before_pastAll (by simp [ht.nonempty])

end Spells

/-! ## Units -/

theorem withoutMark_eq (cs : List Char) : ∃ mark, cs = mark ++ withoutMark cs ∧ '\n' ∉ mark := by
  unfold withoutMark
  split
  · split_ifs with hmark
    · exact ⟨[_], rfl, by simp [hmark, byteOrderMark]⟩
    · exact ⟨[], rfl, by simp⟩
  · exact ⟨[], rfl, by simp⟩

/-- An interpreter line ends where the text does or in front of a newline. -/
theorem withoutInterpreter_eq (cs : List Char) :
    ∃ line, cs = line ++ withoutInterpreter cs ∧ '\n' ∉ line ∧
      (line = [] ∨ ∀ c ∈ (withoutInterpreter cs).head?, c = '\n') := by
  have hdrop : ∃ line, cs = line ++ cs.drop (lineLength cs) ∧ '\n' ∉ line ∧
      ∀ c ∈ (cs.drop (lineLength cs)).head?, c = '\n' := by
    have hsplit : cs.takeWhile (· != '\n') ++ cs.dropWhile (· != '\n') = cs :=
      List.takeWhile_append_dropWhile
    have hline : cs.drop (lineLength cs) = cs.dropWhile (· != '\n') := by
      have hleft : (cs.takeWhile (· != '\n') ++ cs.dropWhile (· != '\n')).drop (lineLength cs) =
          cs.dropWhile (· != '\n') := List.drop_left' rfl
      rwa [hsplit] at hleft
    refine ⟨cs.takeWhile (· != '\n'), ?_, ?_, ?_⟩
    · rw [hline, hsplit]
    · intro hmem
      simpa using List.mem_takeWhile_imp hmem
    · intro c hc
      have hstop := List.head?_dropWhile_not (· != '\n') cs
      rw [← hline, Option.mem_def.1 hc] at hstop
      simpa using hstop
  unfold withoutInterpreter
  split
  · split_ifs
    · exact ⟨[], rfl, by simp, .inl rfl⟩
    · obtain ⟨line, hcs, hline, hhead⟩ := hdrop
      exact ⟨line, hcs, hline, .inr hhead⟩
  · exact ⟨[], rfl, by simp, .inl rfl⟩

/-- What the lexer passes over of a unit: all but something at the start of its first line. -/
theorem lexUnit_body {cs : List Char} {placed : List Placed} (h : lexUnit cs = .ok placed) :
    ∃ cut body column, cs = cut ++ body ∧ '\n' ∉ cut ∧ column ≤ cut.length ∧
      lex ⟨1, column⟩ body = .ok placed := by
  obtain ⟨mark, hmark, hmark'⟩ := withoutMark_eq cs
  obtain ⟨line, hline, hline', -⟩ := withoutInterpreter_eq (withoutMark cs)
  obtain ⟨second, hsecond, hsecond'⟩ := withoutMark_eq (withoutInterpreter (withoutMark cs))
  have hcs : cs = mark ++ (line ++ second) ++ withoutMark (withoutInterpreter (withoutMark cs)) := by
    rw [List.append_assoc, List.append_assoc, ← hsecond, ← hline, ← hmark]
  have hcut : '\n' ∉ mark ++ (line ++ second) := by
    simp only [List.mem_append, not_or]
    exact ⟨hmark', hline', hsecond'⟩
  have hlength := congrArg List.length hsecond
  rw [List.length_append] at hlength
  unfold lexUnit at h
  simp only at h
  split_ifs at h with hsame
  · exact ⟨_, _, 0, hcs, hcut, Nat.zero_le _, h⟩
  · refine ⟨_, _, 1, hcs, hcut, ?_, h⟩
    simp only [List.length_append]
    omega

/-- Of two tokens the later one in the sequence stands further on in the text. -/
theorem token_offsets {t u : Token} {first second : List Char} (ht : t.Spells first) (hu : u.Spells second)
    {cs : List Char} {front middle back : List Placed} {a b : Placed}
    (h : lexUnit cs = .ok (front ++ a :: (middle ++ b :: back)))
    (ha : a.lexeme = .token t) (hb : b.lexeme = .token u) : offsetAt cs a.start < offsetAt cs b.start := by
  obtain ⟨cut, body, column, rfl, hcut, hcolumn, hlex⟩ := lexUnit_body h
  obtain ⟨part, rest, hbody, hstart, -⟩ := token_at ht hlex ha
  obtain ⟨part', rest', hbody', hstart', -⟩ := @token_at _ _ hu _ _ (front ++ a :: middle) back b (by simpa using hlex) hb
  have hlater := before_of_tokens ht hu hlex ha hb
  have hplace : ∀ {part rest : List Char}, body = part ++ rest → ∃ before after,
      cut ++ body = before ++ after ∧ Location.first.pastAll before = Location.pastAll ⟨1, column⟩ part := by
    rintro part rest rfl
    exact exists_at_location _ hcut hcolumn
  obtain ⟨before, after, hsplit, hat⟩ := hplace hbody
  obtain ⟨before', after', hsplit', hat'⟩ := hplace hbody'
  rw [hstart, hstart', ← hat, ← hat'] at hlater
  rw [hstart, hstart', ← hat, ← hat']
  have hsize := byteSize_lt_of_before (hsplit.symm.trans hsplit') hlater
  rw [hsplit, offsetAt_pastAll, ← hsplit, hsplit', offsetAt_pastAll]
  exact hsize

/-! ## Trees -/

/-- The lexemes of open groups, innermost first, and of the trees after them. -/
def flattenFrames : List (Delimiter × List Tree) → List Tree → List Lexeme
  | [], outer => flattenAll outer
  | (d, content) :: rest, outer => flattenAll content ++ .closing d :: flattenFrames rest outer

theorem flattenFrames_nestStep {lexeme : Lexeme} {frames frames' : List (Delimiter × List Tree)}
    {outer outer' : List Tree} (h : nestStep lexeme frames outer = some (frames', outer')) :
    flattenFrames frames' outer' = lexeme :: flattenFrames frames outer := by
  unfold nestStep at h
  split at h
  · cases h
    rfl
  · cases h
    rfl
  · cases h
    rfl
  · cases h
  · split_ifs at h with hd
    cases h
    subst hd
    simp [flattenFrames, flattenAll, Tree.flatten]
  · split_ifs at h with hd
    cases h
    subst hd
    simp [flattenFrames, flattenAll, Tree.flatten]

theorem flattenFrames_nestFrames : ∀ (lexemes : List Lexeme) {frames : List (Delimiter × List Tree)}
    {outer : List Tree}, nestFrames lexemes = some (frames, outer) →
    flattenFrames frames outer = lexemes := by
  intro lexemes
  induction lexemes with
  | nil =>
    intro frames outer h
    cases h
    rfl
  | cons lexeme lexemes ih =>
    intro frames outer h
    rw [nestFrames_cons] at h
    obtain ⟨⟨frames₁, outer₁⟩, hrest, hstep⟩ := Option.bind_eq_some_iff.1 h
    rw [flattenFrames_nestStep hstep, ih hrest]

/-- The trees of a lexeme sequence hold its lexemes. -/
theorem flattenAll_of_nest? {lexemes : List Lexeme} {trees : List Tree} (h : nest? lexemes = some trees) :
    flattenAll trees = lexemes := by
  unfold nest? at h
  split at h
  · rename_i hframes
    cases h
    exact flattenFrames_nestFrames lexemes hframes
  · cases h

theorem flattenAll_append (as bs : List Tree) : flattenAll (as ++ bs) = flattenAll as ++ flattenAll bs := by
  induction as with
  | nil => rfl
  | cons a as ih => simp [flattenAll, ih]

mutual

theorem Tree.length_flatten : (t : Tree) → t.flatten.length = t.size
  | .leaf _ => rfl
  | .group _ content => by simp [Tree.flatten, Tree.size, length_flattenAll content]

theorem length_flattenAll : (ts : List Tree) → (flattenAll ts).length = sizeAll ts
  | [] => rfl
  | t :: ts => by simp [flattenAll, sizeAll, t.length_flatten, length_flattenAll ts]

end

end Reexport.Source
