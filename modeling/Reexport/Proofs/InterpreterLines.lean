import Reexport.Proofs.DirectiveSpans
import Reexport.Proofs.ListLexemes
import Reexport.Proofs.Relexing

/-!
# Interpreter lines

A first line that starts with `#!` names an interpreter, unless a bracket follows: then an
attribute starts there. What follows is what comes after blanks and comments, and these need
not end with the line. So text further down can decide whether the first line is passed over.
It does not where the interpreter line leaves no block comment open.

Results:

* `Passes.brackets`: a bracket follows exactly if the first lexeme is one.
* `head?_afterSeparators_line`: what follows in a text with a newline in it.
* `lexUnit_replaced`: the lexemes of a unit with a list in the place of a star.
-/

namespace Reexport.Source

open Text

/-! ## Blanks and comments -/

theorem afterSeparators_skip : ∀ (skip : Nat) (cs : List Char),
    afterSeparators skip cs = afterSeparators 0 (cs.drop skip) := by
  intro skip
  induction skip with
  | zero => intro cs; rfl
  | succ skip ih =>
    intro cs
    cases cs with
    | nil => rfl
    | cons c cs => exact ih cs

theorem afterSeparators_ordinary {c : Char} {cs : List Char} {n : Nat} (h : comment? (c :: cs) = some (.ordinary, some n)) :
    afterSeparators 0 (c :: cs) = afterSeparators (n - 1) cs := by
  rw [afterSeparators, h]

/-- Comments that mean something or never end are not passed over. -/
theorem afterSeparators_comment {c : Char} {cs : List Char} {kind : CommentKind} {length? : Option Nat}
    (h : comment? (c :: cs) = some (kind, length?)) (hstays : kind = .ordinary → length? = none) :
    afterSeparators 0 (c :: cs) = c :: cs := by
  rw [afterSeparators, h]
  cases kind with
  | ordinary => rw [hstays rfl]
  | documents inner => rfl

theorem afterSeparators_other {c : Char} {cs : List Char} (h : comment? (c :: cs) = none) :
    afterSeparators 0 (c :: cs) = if isSeparator c then afterSeparators 0 cs else c :: cs := by
  rw [afterSeparators, h]

theorem isSeparator_delimiter {c : Char} (hc : c ∈ ['(', '[', '{', ')', ']', '}']) : isSeparator c = false := by
  have hall : ∀ c ∈ ['(', '[', '{', ')', ']', '}'], isSeparator c = false := List.all_iff_forall_prop.1 (by decide)
  exact hall c hc

theorem Step.lexemes_ofToken {cs : List Char} (h : Step.ofToken cs ≠ .fault) :
    ∃ t, (Step.ofToken cs).lexemes = [.token t] := by
  unfold ofToken at h ⊢
  split at h
  · rename_i t n _
    exact ⟨t, rfl⟩
  · exact absurd rfl h

/-- Blanks and ordinary comments are the steps without lexemes, and a bracket is a step of its own. -/
theorem afterSeparators_step {c : Char} {cs : List Char} (hfault : Step.of (c :: cs) ≠ .fault) :
    (Step.of (c :: cs)).lexemes = [] ∧
      afterSeparators 0 (c :: cs) = afterSeparators 0 (cs.drop ((Step.of (c :: cs)).length - 1)) ∨
    (Step.of (c :: cs)).lexemes ≠ [] ∧ afterSeparators 0 (c :: cs) = c :: cs ∧
      ((Step.of (c :: cs)).lexemes.head? = some (.opening .bracket) ↔ c = '[') := by
  cases hcomment : comment? (c :: cs) with
  | some found =>
    obtain ⟨kind, length?⟩ := found
    have hslash : c = '/' := by
      have hopens : opensComment (c :: cs) = true := by rw [← isSome_comment?, hcomment]; rfl
      rcases opensComment_iff.1 hopens with ⟨rest, heq⟩ | ⟨rest, heq⟩
      · exact (List.cons.inj heq).1
      · exact (List.cons.inj heq).1
    cases length? with
    | none => exact absurd (Step.of_endless hcomment) hfault
    | some n =>
      cases kind with
      | ordinary =>
        rw [afterSeparators_ordinary hcomment, Step.of_ordinary hcomment]
        exact .inl ⟨rfl, afterSeparators_skip (n - 1) cs⟩
      | documents inner =>
        rw [afterSeparators_comment hcomment (fun h => by cases h)]
        rw [Step.of_documents hcomment] at hfault ⊢
        split_ifs at hfault ⊢
        · exact absurd rfl hfault
        · refine .inr ⟨by cases inner <;> simp [Step.lexemes, documentationLexemes], rfl, ?_⟩
          subst hslash
          cases inner <;> simp [Step.lexemes, documentationLexemes]
  | none =>
    rw [afterSeparators_other hcomment]
    rw [Step.of_other hcomment] at hfault ⊢
    by_cases hdelimiter : c ∈ ['(', '[', '{', ')', ']', '}']
    · right
      rw [isSeparator_delimiter hdelimiter, if_neg Bool.false_ne_true]
      simp only [List.mem_cons, List.not_mem_nil, or_false] at hdelimiter
      rcases hdelimiter with rfl | rfl | rfl | rfl | rfl | rfl
      · rw [if_pos rfl] at hfault ⊢
        by_cases hlost : lostMark.isPrefixOf ('(' :: cs) = true
        · rw [if_pos hlost] at hfault ⊢
          obtain ⟨t, ht⟩ := Step.lexemes_ofToken hfault
          rw [ht]
          exact ⟨by simp, rfl, by simp⟩
        · rw [if_neg hlost]
          exact ⟨by simp [Step.lexemes], rfl, by simp [Step.lexemes]⟩
      all_goals exact ⟨by simp [Step.lexemes], rfl, by simp [Step.lexemes]⟩
    · simp only [List.mem_cons, List.not_mem_nil, or_false, not_or] at hdelimiter
      obtain ⟨h₁, h₂, h₃, h₄, h₅, h₆⟩ := hdelimiter
      rw [if_neg h₁, if_neg h₂, if_neg h₃, if_neg h₄, if_neg h₅, if_neg h₆] at hfault ⊢
      split_ifs at hfault ⊢
      · exact .inl ⟨rfl, rfl⟩
      · obtain ⟨t, ht⟩ := Step.lexemes_ofToken hfault
        rw [ht]
        exact .inr ⟨by simp, rfl, by simp [h₂]⟩

/-- After blanks and comments a bracket follows. -/
def Brackets (cs : List Char) : Prop := (afterSeparators 0 cs).head? = some '['

instance : DecidablePred Brackets := fun _ => inferInstanceAs (Decidable (_ = _))

/-- The lexeme is an opening bracket. -/
def Placed.isBracket (x : Placed) : Bool := x.lexeme = .opening .bracket

/-- A bracket follows exactly if the first lexeme is one. -/
theorem Passes.brackets {a last : Cursor} {placed : List Placed} (h : Passes a placed last) (hlast : last.rest = []) :
    Brackets a.rest ↔ (placed.map Placed.isBracket)[0]? = some true := by
  unfold Brackets
  induction h with
  | done cursor =>
    rw [hlast]
    simp [afterSeparators]
  | @step here stack stack' c cs placed last track others ih =>
    rcases afterSeparators_step (Step.ne_fault_of_track track) with ⟨hnone, heq⟩ | ⟨hsome, heq, hbracket⟩
    · have hlexemes : (Cursor.mk here stack (c :: cs)).lexemes = [] := by simp [Cursor.lexemes, hnone]
      rw [hlexemes, heq, List.nil_append]
      exact ih hlast
    · obtain ⟨first, rest, hfirst⟩ := List.exists_cons_of_ne_nil hsome
      rw [hfirst] at hbracket
      rw [heq]
      simpa [Cursor.lexemes, hfirst, Placed.isBracket] using hbracket.symm

/-! ## Within a line -/

theorem blockLength?_le_length {depth n m : Nat} {cs : List Char} (h : blockLength? depth n cs = some m) :
    m ≤ n + cs.length := by
  fun_induction blockLength? depth n cs <;> grind

/-- A comment that starts in a line, once a newline follows the line. -/
theorem comment?_newline {v : List Char} (hv : '\n' ∉ v) (w : List Char) :
    (comment? (v ++ '\n' :: w)).map Prod.fst = (comment? v).map Prod.fst ∧
    ∀ kind n, comment? v = some (kind, some n) → comment? (v ++ '\n' :: w) = some (kind, some n) ∧ n ≤ v.length := by
  have hbegins : ∀ {p rest : List Char}, '\n' ∉ p → p.isPrefixOf (rest ++ '\n' :: w) = p.isPrefixOf rest :=
    fun hp => isPrefixOf_end w hp
  by_cases hopens : opensComment v = true
  · rcases opensComment_iff.1 hopens with ⟨rest, rfl⟩ | ⟨rest, rfl⟩
    · have hlength : lineLength ('/' :: '/' :: (rest ++ '\n' :: w)) = lineLength ('/' :: '/' :: rest) := by
        rw [lineLength, lineLength, ← List.cons_append, ← List.cons_append, takeWhile_append_of_false (by decide)]
      have hsame : comment? ('/' :: '/' :: (rest ++ '\n' :: w)) = comment? ('/' :: '/' :: rest) := by
        rw [comment?_line, comment?_line, hlength, hbegins (p := ['!']) (by decide),
          hbegins (p := ['/', '/']) (by decide), hbegins (p := ['/']) (by decide)]
      rw [List.cons_append, List.cons_append, hsame]
      refine ⟨rfl, fun kind n h => ⟨h, ?_⟩⟩
      rw [comment?_line] at h
      obtain ⟨-, hn⟩ := Prod.mk.inj (Option.some.inj h)
      rw [← Option.some.inj hn]
      exact (List.takeWhile_sublist _).length_le
    · rw [List.cons_append, List.cons_append, comment?_block, comment?_block, hbegins (p := ['!']) (by decide),
        hbegins (p := ['*', '/']) (by decide), hbegins (p := ['*', '*']) (by decide), hbegins (p := ['*']) (by decide)]
      refine ⟨rfl, fun kind n h => ?_⟩
      obtain ⟨hkind, hn⟩ := Prod.mk.inj (Option.some.inj h)
      have hle := blockLength?_le_length hn
      rw [Nat.zero_add] at hle
      have hcut := @blockLength?_cut [] ('\n' :: w) ('/' :: '*' :: rest) 0 0 n (by rw [List.append_nil]; exact hn)
        (by rwa [Nat.zero_add])
      rw [← hkind]
      exact ⟨congrArg (fun length? => some (_, length?)) hcut, hle⟩
  · have hnone : comment? v = none := by
      rwa [← Option.not_isSome_iff_eq_none, isSome_comment?]
    have hopens' : opensComment (v ++ '\n' :: w) = false := by
      rw [Bool.not_eq_true] at hopens
      by_cases hslash : v = ['/']
      · subst hslash
        rfl
      · by_cases hempty : v = []
        · subst hempty
          rfl
        · rw [opensComment_append hempty hslash, hopens]
    have hnone' : comment? (v ++ '\n' :: w) = none := by
      rw [← Option.not_isSome_iff_eq_none, isSome_comment?, hopens']
      exact Bool.false_ne_true
    rw [hnone, hnone']
    exact ⟨rfl, fun kind n h => by cases h⟩

/-- A block comment that means nothing is open at the end of a line. -/
def LeftOpen (line : List Char) : Prop := comment? (afterSeparators 0 line) = some (.ordinary, none)

instance : DecidablePred LeftOpen := fun _ => inferInstanceAs (Decidable (_ = _))

/-- What follows in a line with more lines after it. -/
theorem head?_afterSeparators_line (w : List Char) : ∀ {line : List Char} (skip : Nat), '\n' ∉ line →
    skip ≤ line.length → comment? (afterSeparators skip line) ≠ some (.ordinary, none) →
    (afterSeparators skip (line ++ '\n' :: w)).head? =
      (afterSeparators skip line).head?.or (afterSeparators 0 ('\n' :: w)).head? := by
  intro line
  induction line with
  | nil =>
    intro skip _ hskip _
    obtain rfl : skip = 0 := Nat.le_zero.1 hskip
    simp [afterSeparators]
  | cons c line ih =>
    intro skip hline hskip hopen
    have hline' : '\n' ∉ line := fun hmem => hline (List.mem_cons_of_mem c hmem)
    cases skip with
    | succ skip => exact ih skip hline' (Nat.le_of_succ_le_succ hskip) hopen
    | zero =>
      obtain ⟨hkind, hlength⟩ := comment?_newline hline w
      simp only [List.cons_append] at hkind hlength ⊢
      cases hcomment : comment? (c :: line) with
      | none =>
        rw [hcomment, Option.map_none, Option.map_eq_none_iff] at hkind
        rw [afterSeparators_other hkind]
        rw [afterSeparators_other hcomment] at hopen ⊢
        split_ifs at hopen ⊢
        · exact ih 0 hline' (Nat.zero_le _) hopen
        · rfl
      | some found =>
        obtain ⟨kind, length?⟩ := found
        rw [hcomment, Option.map_some] at hkind
        obtain ⟨⟨kind', length'⟩, hcomment', rfl⟩ := Option.map_eq_some_iff.1 hkind
        by_cases hends : kind' = .ordinary ∧ length?.isSome
        · obtain ⟨rfl, hsome⟩ := hends
          obtain ⟨n, rfl⟩ := Option.isSome_iff_exists.1 hsome
          obtain ⟨hsame, hle⟩ := hlength .ordinary n hcomment
          rw [afterSeparators_ordinary hsame]
          rw [afterSeparators_ordinary hcomment] at hopen ⊢
          exact ih (n - 1) hline' (by rw [List.length_cons] at hle; omega) hopen
        · have hstays : kind' = .ordinary → length? = none := by
            rintro rfl
            simpa using hends
          have hdocuments : kind' ≠ .ordinary := by
            rintro rfl
            rw [afterSeparators_comment hcomment hstays, hcomment, hstays rfl] at hopen
            exact hopen rfl
          rw [afterSeparators_comment hcomment hstays, afterSeparators_comment hcomment' (absurd · hdocuments)]
          rfl

/-! ## A star replaced -/

theorem Loosened.isBracket {front front' : List Placed} (h : Loosened front front') :
    front'.map Placed.isBracket = front.map Placed.isBracket := by
  cases h with
  | same => rfl
  | last => simp [Placed.isBracket]

/-- The same lexemes are brackets up to a star and up to what stands in its place. -/
theorem Loosened.isBracket_append {front front' back back' : List Placed} {x y : Placed} (h : Loosened front front')
    (hx : x.isBracket = false) (hy : y.isBracket = false) {i : Nat} (hi : i ≤ front.length) :
    ((front' ++ y :: back').map Placed.isBracket)[i]? = ((front ++ x :: back).map Placed.isBracket)[i]? := by
  simp only [List.map_append, List.map_cons, h.isBracket, hx, hy]
  rcases Nat.lt_or_eq_of_le hi with hlt | rfl
  · have hlt' : i < (front.map Placed.isBracket).length := by rwa [List.length_map]
    rw [List.getElem?_append_left hlt', List.getElem?_append_left hlt']
  · have hle : (front.map Placed.isBracket).length ≤ front.length := Nat.le_of_eq (List.length_map _)
    rw [List.getElem?_append_right hle, List.getElem?_append_right hle, List.length_map, Nat.sub_self]
    rfl

/-- The lexer passes over a whole text that holds a star, and over the same text with something that
    starts with a brace in its place. -/
theorem lex_replaced {body : List Char} {front back : List Placed} {star : Placed} {joint : Bool}
    (h : lex .first body = .ok (front ++ star :: back)) (hstar : star.lexeme = starLexeme joint) :
    ∃ v q, body = v ++ '*' :: q ∧ star = ⟨starLexeme joint, Location.first.pastAll v, Location.first.pastAll (v ++ ['*'])⟩ ∧
      ∀ {x : List Char} {lexemes : List Lexeme}, Reads ('{' :: x) lexemes q →
        ∃ front' list back', lex .first (v ++ '{' :: (x ++ q)) = .ok (front' ++ (list ++ back')) ∧
          Loosened front front' ∧ list.map (·.lexeme) = lexemes ∧
          back'.map (·.lexeme) = back.map (·.lexeme) := by
  obtain ⟨last, hpasses⟩ := lexFrom_passes h
  obtain ⟨here, stack, q, hfront, rfl, -, hback⟩ := hpasses.at_star rfl hstar
  obtain ⟨v, hbody, hhere⟩ := hfront.passed
  simp only at hbody hhere
  subst hbody hhere
  refine ⟨v, q, rfl, by simp, fun {x lexemes} hreads => ?_⟩
  obtain ⟨front', hfront', hloose⟩ := hfront.cut (x ++ q) rfl rfl
  obtain ⟨list, hlist, hlexemes⟩ := hreads (Location.first.pastAll v) stack
  obtain ⟨back', last', hback', hrest, hstack, hsame⟩ :=
    hback.elsewhere ((Location.first.pastAll v).pastAll ('{' :: x)) rfl
  refine ⟨front', list, back', ?_, hloose, hlexemes, hsame⟩
  have hend : lexFrom 0 last'.here last'.stack last'.rest = .ok [] := by
    rw [hrest, List.map_eq_nil_iff.1 hstack]
    rfl
  have hall := passes_lexFrom ((hfront'.trans hlist).trans hback') hend
  rwa [List.append_nil, List.append_assoc] at hall

theorem Passes.of_punct {here : Location} {stack : List (Delimiter × Location)} {c : Char} {cs : List Char} {t : Token}
    {placed : List Placed} {last : Cursor} (h : Passes ⟨here, stack, c :: cs⟩ placed last) (hlast : last.rest = [])
    (hstep : Step.of (c :: cs) = .token t 1) :
    ∃ x others here', placed = x :: others ∧ x.lexeme = .token t ∧ Passes ⟨here', stack, cs⟩ others last := by
  cases h with
  | done => cases hlast
  | step track others =>
    rw [hstep] at track others
    cases track
    refine ⟨⟨.token t, here, here.pastAll [c]⟩, _, _, ?_, rfl, others⟩
    simp [Cursor.lexemes, hstep, Step.lexemes, Step.length]

/-- After `#!` a bracket follows exactly if the third lexeme is one, and neither of the first two is
    a star. -/
theorem Passes.brackets_hashBang {here : Location} {stack : List (Delimiter × Location)} {rest : List Char}
    {placed : List Placed} {last : Cursor} (h : Passes ⟨here, stack, '#' :: '!' :: rest⟩ placed last)
    (hlast : last.rest = []) : (Brackets rest ↔ (placed.map Placed.isBracket)[2]? = some true) ∧
      ∀ front star back joint, placed = front ++ star :: back → star.lexeme = starLexeme joint → 2 ≤ front.length := by
  have hhash : Step.of ('#' :: '!' :: rest) = .token (.punct '#' true) 1 := rfl
  have hbang : Step.of ('!' :: rest) = .token (.punct '!' (opensPunct rest)) 1 := rfl
  obtain ⟨x, others, here', rfl, hx, hothers⟩ := h.of_punct hlast hhash
  obtain ⟨y, others, here'', rfl, hy, hrest⟩ := hothers.of_punct hlast hbang
  refine ⟨hrest.brackets hlast, fun front star back joint hplaced hstar => ?_⟩
  match front with
  | [] =>
    obtain ⟨rfl, -⟩ := List.cons.inj hplaced
    simp [hstar, starLexeme] at hx
  | [first] =>
    obtain ⟨-, hrest⟩ := List.cons.inj hplaced
    obtain ⟨rfl, -⟩ := List.cons.inj hrest
    simp [hstar, starLexeme] at hy
  | _ :: _ :: front => simp

/-! ## Interpreter lines -/

/-- The first line names an interpreter, and a block comment that means nothing is open at its end. -/
def interpreterLeftOpen : List Char → Bool
  | '#' :: '!' :: rest => !Brackets rest && LeftOpen (rest.takeWhile (· != '\n'))
  | _ => false

theorem withoutInterpreter_hashBang (rest : List Char) : withoutInterpreter ('#' :: '!' :: rest) =
    if Brackets rest then '#' :: '!' :: rest else rest.dropWhile (· != '\n') := by
  have hdrop : ('#' :: '!' :: rest).drop (lineLength ('#' :: '!' :: rest)) = rest.dropWhile (· != '\n') := by
    have hleft : (rest.takeWhile (· != '\n') ++ rest.dropWhile (· != '\n')).drop (rest.takeWhile (· != '\n')).length =
        rest.dropWhile (· != '\n') := List.drop_left
    rw [List.takeWhile_append_dropWhile] at hleft
    simpa [lineLength] using hleft
  rw [← hdrop]
  rfl

theorem withoutInterpreter_other {cs : List Char} (h : ∀ rest, cs ≠ '#' :: '!' :: rest) : withoutInterpreter cs = cs := by
  unfold withoutInterpreter
  split
  · rename_i rest
    exact absurd rfl (h rest)
  · rfl

theorem interpreterLeftOpen_other {cs : List Char} (h : ∀ rest, cs ≠ '#' :: '!' :: rest) :
    interpreterLeftOpen cs = false := by
  unfold interpreterLeftOpen
  split
  · rename_i rest
    exact absurd rfl (h rest)
  · rfl

/-- There is no byte order mark at the start with something else in the place of a star. -/
theorem withoutMark_replaced {v q : List Char} (h : withoutMark (v ++ '*' :: q) = v ++ '*' :: q) (w : List Char) :
    withoutMark (v ++ '{' :: w) = v ++ '{' :: w := by
  cases v with
  | nil => rfl
  | cons c v =>
    have hc : c ≠ byteOrderMark := by
      intro hc
      have hlength := congrArg List.length h
      rw [List.cons_append, withoutMark, if_pos hc] at hlength
      simp at hlength
    rw [List.cons_append, withoutMark, if_neg hc]

/-- A mark other than `#` and `!` stands behind the start of an interpreter line. -/
theorem exists_of_hashBang {d : Char} (hhash : d ≠ '#') (hbang : d ≠ '!') {v w rest : List Char}
    (h : v ++ d :: w = '#' :: '!' :: rest) : ∃ v', v = '#' :: '!' :: v' ∧ rest = v' ++ d :: w := by
  have htwo : 2 ≤ v.length := by
    match v with
    | [] => exact absurd (List.cons.inj h).1 hhash
    | [c] => exact absurd (List.cons.inj (List.cons.inj h).2).1 hbang
    | c :: e :: v => simp
  exact @exists_of_append (d :: w) ['#', '!'] rest v h htwo

theorem dropWhile_line {line : List Char} (hline : '\n' ∉ line) (w : List Char) :
    (line ++ '\n' :: w).dropWhile (· != '\n') = '\n' :: w := by
  rw [List.dropWhile_append_of_pos fun c hc => by simpa using fun heq : c = '\n' => hline (heq ▸ hc)]
  rfl

theorem interpreterLeftOpen_line {line : List Char} (hline : '\n' ∉ line) (w : List Char) :
    interpreterLeftOpen ('#' :: '!' :: (line ++ '\n' :: w)) =
      (!Brackets (line ++ '\n' :: w) && LeftOpen line) := by
  rw [interpreterLeftOpen, takeWhile_append_of_false (by decide), List.takeWhile_eq_self_iff.2 fun c hc => by
    simpa using fun heq : c = '\n' => hline (heq ▸ hc)]

/-- Behind an interpreter line that leaves no comment open a bracket follows or not as it does in
    the lines after it. -/
theorem brackets_line {line w w' : List Char} (hline : '\n' ∉ line) (hopen : ¬ LeftOpen line)
    (h : Brackets ('\n' :: w') ↔ Brackets ('\n' :: w)) : Brackets (line ++ '\n' :: w') ↔ Brackets (line ++ '\n' :: w) := by
  unfold Brackets at h ⊢
  rw [head?_afterSeparators_line w' 0 hline (Nat.zero_le _) hopen, head?_afterSeparators_line w 0 hline (Nat.zero_le _) hopen]
  cases (afterSeparators 0 line).head? with
  | none => exact h
  | some c => exact Iff.rfl

/-- What a text holds that has a list in the place of the star between `front` and `back`. -/
structure Relexed (front back : List Placed) (lexemes : List Lexeme) (cs : List Char) : Prop where
  mark : withoutMark cs = cs
  line : interpreterLeftOpen cs = false
  lexed : ∃ front' list back', lexUnit cs = .ok (front' ++ (list ++ back')) ∧ Loosened front front' ∧
    list.map (·.lexeme) = lexemes ∧ back'.map (·.lexeme) = back.map (·.lexeme)

/-- Where the star stands in the text, and what a list in its place does. -/
def Replaceable (cs : List Char) (front : List Placed) (star : Placed) (back : List Placed) : Prop :=
  ∃ v q, cs = v ++ '*' :: q ∧ star.After v ['*'] ∧
    ∀ {x : List Char} {lexemes : List Lexeme}, Reads ('{' :: x) (.opening .brace :: lexemes) q →
      Relexed front back (.opening .brace :: lexemes) (v ++ '{' :: (x ++ q))

section Replaced

variable {front back : List Placed} {star : Placed} {joint : Bool} (hstar : star.lexeme = starLexeme joint)

include hstar

/-- The same lexemes are brackets up to the star and up to the list. -/
theorem isBracket_replaced {front' list back' : List Placed} {lexemes : List Lexeme} (hloose : Loosened front front')
    (hlist : list.map (·.lexeme) = .opening .brace :: lexemes) {i : Nat} (hi : i ≤ front.length) :
    ((front' ++ (list ++ back')).map Placed.isBracket)[i]? = ((front ++ star :: back).map Placed.isBracket)[i]? := by
  obtain ⟨y, list, rfl, hy, -⟩ := List.map_eq_cons_iff.1 hlist
  exact hloose.isBracket_append (by simp [Placed.isBracket, hstar, starLexeme]) (by simp [Placed.isBracket, hy]) hi

/-- The text does not start like an interpreter line. -/
theorem replaceable_other {cs : List Char} (hmark : withoutMark cs = cs) (hother : ∀ rest, cs ≠ '#' :: '!' :: rest)
    (h : lexUnit cs = .ok (front ++ star :: back)) : Replaceable cs front star back := by
  rw [lexUnit_eq hmark, withoutInterpreter_other hother] at h
  obtain ⟨v, q, rfl, hplaced, hreplace⟩ := lex_replaced h hstar
  refine ⟨v, q, rfl, by rw [hplaced]; exact ⟨rfl, rfl⟩, fun {x lexemes} hreads => ?_⟩
  have hother' : ∀ rest, v ++ '{' :: (x ++ q) ≠ '#' :: '!' :: rest := by
    intro rest heq
    obtain ⟨v', rfl, -⟩ := exists_of_hashBang (by decide) (by decide) heq
    exact hother _ rfl
  have hmark' := withoutMark_replaced hmark (x ++ q)
  refine ⟨hmark', interpreterLeftOpen_other hother', ?_⟩
  rw [lexUnit_eq hmark', withoutInterpreter_other hother']
  exact hreplace hreads

/-- The text starts with an attribute. -/
theorem replaceable_attribute {rest : List Char} (hmark : withoutMark ('#' :: '!' :: rest) = '#' :: '!' :: rest)
    (hbracket : Brackets rest) (h : lexUnit ('#' :: '!' :: rest) = .ok (front ++ star :: back)) :
    Replaceable ('#' :: '!' :: rest) front star back := by
  rw [lexUnit_eq hmark, withoutInterpreter_hashBang, if_pos hbracket] at h
  obtain ⟨v, q, hcs, hplaced, hreplace⟩ := lex_replaced h hstar
  obtain ⟨v', rfl, rfl⟩ := exists_of_hashBang (by decide) (by decide) hcs.symm
  obtain ⟨last, hpasses⟩ := lexFrom_passes h
  obtain ⟨hiff, htwo⟩ := hpasses.brackets_hashBang rfl
  refine ⟨_, q, rfl, by rw [hplaced]; exact ⟨rfl, rfl⟩, fun {x lexemes} hreads => ?_⟩
  obtain ⟨front', list, back', hlex, hloose, hlist, hback⟩ := hreplace hreads
  obtain ⟨last', hpasses'⟩ := lexFrom_passes hlex
  have hiff' : Brackets (v' ++ '{' :: (x ++ q)) ↔ _ := (Passes.brackets_hashBang hpasses' rfl).1
  have hbracket' : Brackets (v' ++ '{' :: (x ++ q)) := by
    rw [hiff', isBracket_replaced hstar hloose hlist (htwo _ _ _ _ rfl hstar), ← hiff]
    exact hbracket
  have hmark' := @withoutMark_replaced ('#' :: '!' :: v') q hmark (x ++ q)
  refine ⟨hmark', by simp [interpreterLeftOpen, hbracket'], front', list, back', ?_, hloose, hlist, hback⟩
  rw [lexUnit_eq hmark', List.cons_append, List.cons_append, withoutInterpreter_hashBang, if_pos hbracket']
  exact hlex

/-- The text starts with an interpreter line, behind which all lexemes stand. -/
theorem replaceable_line {line w : List Char} (hline : '\n' ∉ line) (hopen : ¬ LeftOpen line)
    (hmark : withoutMark ('#' :: '!' :: (line ++ '\n' :: w)) = '#' :: '!' :: (line ++ '\n' :: w))
    (hbracket : ¬ Brackets (line ++ '\n' :: w))
    (h : lexUnit ('#' :: '!' :: (line ++ '\n' :: w)) = .ok (front ++ star :: back)) :
    Replaceable ('#' :: '!' :: (line ++ '\n' :: w)) front star back := by
  rw [lexUnit_eq hmark, withoutInterpreter_hashBang, if_neg hbracket, dropWhile_line hline] at h
  obtain ⟨v, q, hbody, hplaced, hreplace⟩ := lex_replaced h hstar
  obtain ⟨v, rfl, rfl⟩ : ∃ v', v = '\n' :: v' ∧ w = v' ++ '*' :: q := by
    cases v with
    | nil => exact absurd (List.cons.inj hbody).1 (by decide)
    | cons c v =>
      obtain ⟨rfl, rfl⟩ := List.cons.inj hbody
      exact ⟨v, rfl, rfl⟩
  obtain ⟨last, hpasses⟩ := lexFrom_passes h
  refine ⟨'#' :: '!' :: (line ++ '\n' :: v), q, by simp, ?_, fun {x lexemes} hreads => ?_⟩
  · have hhash : '\n' ∉ '#' :: '!' :: line := by simpa using hline
    have hpast : ∀ w, Location.first.pastAll ('\n' :: w) = Location.first.pastAll ('#' :: '!' :: (line ++ '\n' :: w)) :=
      fun w => (pastAll_line hhash (.inr List.mem_cons_self)).symm
    rw [hplaced]
    refine ⟨hpast v, ?_⟩
    have hstop := hpast (v ++ ['*'])
    rw [← List.cons_append, ← List.append_assoc, ← List.cons_append, ← List.cons_append] at hstop
    exact hstop
  · obtain ⟨front', list, back', hlex, hloose, hlist, hback⟩ := hreplace hreads
    obtain ⟨last', hpasses'⟩ := lexFrom_passes hlex
    have hbrackets : Brackets ('\n' :: (v ++ '{' :: (x ++ q))) ↔ Brackets ('\n' :: (v ++ '*' :: q)) := by
      have hiff : Brackets ('\n' :: (v ++ '*' :: q)) ↔ _ := Passes.brackets hpasses rfl
      have hiff' : Brackets ('\n' :: (v ++ '{' :: (x ++ q))) ↔ _ := Passes.brackets hpasses' rfl
      rw [hiff, hiff', isBracket_replaced hstar hloose hlist (Nat.zero_le _)]
    have hbracket' : ¬ Brackets (line ++ '\n' :: (v ++ '{' :: (x ++ q))) := by
      rwa [brackets_line hline hopen hbrackets]
    have hsplit : '#' :: '!' :: (line ++ '\n' :: v) ++ '{' :: (x ++ q) =
        '#' :: '!' :: (line ++ '\n' :: (v ++ '{' :: (x ++ q))) := by simp
    have hmark' := @withoutMark_replaced ('#' :: '!' :: (line ++ '\n' :: v)) q (by simpa using hmark) (x ++ q)
    refine ⟨hmark', ?_, front', list, back', ?_, hloose, hlist, hback⟩
    · rw [hsplit, interpreterLeftOpen_line hline, decide_eq_false hopen, Bool.and_false]
    · rw [lexUnit_eq hmark', hsplit, withoutInterpreter_hashBang, if_neg hbracket', dropWhile_line hline]
      exact hlex

/-- What a list in the place of a star of a unit does. -/
theorem lexUnit_replaceable {cs : List Char} (hmark : withoutMark cs = cs) (hopen : interpreterLeftOpen cs = false)
    (h : lexUnit cs = .ok (front ++ star :: back)) : Replaceable cs front star back := by
  by_cases hhash : ∃ rest, cs = '#' :: '!' :: rest
  · obtain ⟨rest, rfl⟩ := hhash
    by_cases hbracket : Brackets rest
    · exact replaceable_attribute hstar hmark hbracket h
    · -- the unit holds lexemes, so the interpreter line ends
      obtain ⟨line, w, rfl, hline⟩ : ∃ line w, rest = line ++ '\n' :: w ∧ '\n' ∉ line := by
        refine List.eq_append_cons_of_mem (Classical.byContradiction fun hnone => ?_)
        have hempty : rest.dropWhile (· != '\n') = [] :=
          List.dropWhile_eq_nil_iff.2 fun c hc => by simpa using fun heq : c = '\n' => hnone (heq ▸ hc)
        rw [lexUnit_eq hmark, withoutInterpreter_hashBang, if_neg hbracket, hempty] at h
        cases front <;> cases h
      rw [interpreterLeftOpen_line hline, decide_eq_false hbracket, Bool.not_false, Bool.true_and,
        decide_eq_false_iff_not] at hopen
      exact replaceable_line hstar hline hopen hmark hbracket h
  · exact replaceable_other hstar hmark (fun rest heq => hhash ⟨rest, heq⟩) h

end Replaced

end Reexport.Source
