import Reexport.Edit
import Reexport.Proofs.Lexing
import Reexport.Proofs.ListedItems
import Reexport.Proofs.StepEnds

/-!
# Lists of names are read back as they stand

An edit writes a list of names in braces, on one line or with a line for each name. Whatever
stands around such a list, the lexer finds the names in it and nothing else.

Results:

* `Step.of_word`: a word is a step of its own.
* `Reads.oneLine`, `Reads.wrapped`: the two layouts of a list.
* `Reads.rendered`: the list of an edit.
-/

namespace Reexport.Source

open Text

/-! ## Words -/

theorem isSeparator_eq_false {c : Char} (h : isIdentStart c = true) : isSeparator c = false := by
  have hwide : ∀ n ∈ [0x85, 0xA0, 0x1680, 0x2000, 0x2001, 0x2002, 0x2003, 0x2004, 0x2005, 0x2006, 0x2007, 0x2008,
      0x2009, 0x200A, 0x200E, 0x200F, 0x2028, 0x2029, 0x202F, 0x205F, 0x3000], inRanges startRanges n = false := by
    -- the table as a list, which is evaluated much faster than the array
    have hlist : ∀ n, inRanges startRanges n = startRanges.toList.any fun range => range.1 ≤ n && n ≤ range.2 :=
      fun n => Array.any_toList.symm
    simp only [hlist]
    decide +kernel
  by_contra hblank
  rw [Bool.not_eq_false, isSeparator, isBlank] at hblank
  simp only [Bool.or_eq_true, Bool.and_eq_true, decide_eq_true_eq, beq_iff_eq] at hblank
  by_cases hascii : c.toNat < 0x80
  · have := isIdentStart_ascii h hascii
    omega
  · rw [isIdentStart, if_neg hascii, hwide c.toNat (by simp only [List.mem_cons, List.not_mem_nil, or_false]; omega)] at h
    cases h

/-- A word is a step of its own. -/
theorem Step.of_word {cs : List Char} {raw : Bool} {name : String} {n : Nat} (h : word? cs = some (raw, name, n)) :
    Step.of cs = .token (.word raw name) n := by
  have hany : (anyWord? cs).isSome = true := by
    rw [word?] at h
    split_ifs at h
    rw [h]
    rfl
  obtain ⟨c, rest, rfl, hc⟩ := exists_of_anyWord? hany
  have hpunct : ∀ c ∈ ['(', '[', '{', ')', ']', '}'] ++ punctuation, isIdentStart c = false :=
    List.all_iff_forall_prop.1 (by decide)
  have hne : ∀ d ∈ ['(', '[', '{', ')', ']', '}'] ++ punctuation, c ≠ d := by
    rintro d hd rfl
    rw [hpunct c hd] at hc
    cases hc
  have hcomment : comment? (c :: rest) = none := by
    rw [← Option.not_isSome_iff_eq_none, isSome_comment?, opensComment_iff]
    rintro (⟨rest, heq⟩ | ⟨rest, heq⟩)
    · exact hne '/' (by decide) (List.cons.inj heq).1
    · exact hne '/' (by decide) (List.cons.inj heq).1
  have hopens : opensPunct (c :: rest) = false := by
    have : c ∉ punctuation := fun hmem => hne c (List.mem_append_right _ hmem) rfl
    simp [opensPunct, this]
  have htoken : token? (c :: rest) = some (.word raw name, n) := by
    rw [token?_of_no_literal (literal?_eq_none_of_word (by rw [h]; rfl)), hopens, if_neg Bool.false_ne_true, h]
    rfl
  rw [of_other hcomment, if_neg (hne _ (by decide)), if_neg (hne _ (by decide)), if_neg (hne _ (by decide)), 
    if_neg (hne _ (by decide)), if_neg (hne _ (by decide)), if_neg (hne _ (by decide)), isSeparator_eq_false hc,
    if_neg Bool.false_ne_true, ofToken, htoken]

/-- A text that is an identifier. -/
def IsWord (name : String) : Prop := wordLength? name.toList = some name.toList.length

instance : DecidablePred IsWord := fun _ => inferInstanceAs (Decidable (_ = _))

/-- The characters of a word are no quotes and no marks. -/
theorem IsWord.ne {name : String} (h : IsWord name) {c d : Char} (hc : c ∈ name.toList) (hd : d ∈ ['"', '#', '\'']) : c ≠ d := by
  rintro rfl
  have hno : ∀ d ∈ ['"', '#', '\''], isIdentStart d = false ∧ isIdentContinue d = false :=
    List.all_iff_forall_prop.1 (by decide)
  rw [IsWord] at h
  cases hchars : name.toList with
  | nil =>
    rw [hchars] at hc
    cases hc
  | cons first rest =>
    rw [hchars, wordLength?] at h
    rw [hchars] at hc
    split_ifs at h with hfirst
    have hall : rest.takeWhile isIdentContinue = rest := by
      refine (List.takeWhile_prefix _).eq_of_length ?_
      have := Option.some.inj h
      rw [List.length_cons] at this
      omega
    rcases List.mem_cons.1 hc with rfl | hc
    · rw [(hno c hd).1] at hfirst
      cases hfirst
    · have hmore := List.takeWhile_eq_self_iff.1 hall c hc
      rw [(hno c hd).2] at hmore
      cases hmore

theorem word?_spelled {name : String} (hword : IsWord name) :
    word? (spelled name).toList = some (reservedNames.contains name, name, (spelled name).toList.length) := by
  rw [spelled]
  split_ifs with hreserved
  · have hall : ∀ name ∈ reservedNames, word? ("r#" ++ name).toList = some (true, name, ("r#" ++ name).toList.length) := by
      decide +kernel
    rw [hreserved]
    exact hall name (List.contains_iff_mem.1 hreserved)
  · have hbegins : ∀ {p : List Char}, (∃ d ∈ p, d ∈ ['"', '#', '\'']) → p.isPrefixOf name.toList = false := by
      rintro p ⟨d, hd, hquote⟩
      rw [Bool.eq_false_iff, Ne, List.isPrefixOf_iff_prefix]
      exact fun hp => hword.ne (hp.subset hd) hquote rfl
    have hopens : quoteOpenings.any (·.isPrefixOf name.toList) = false := by
      have hquotes : ∀ p ∈ quoteOpenings, (p.any fun d => d ∈ ['"', '#', '\'']) = true := by decide
      rw [List.any_eq_false]
      intro p hp
      rw [hbegins (List.any_iff_exists_prop.1 (hquotes p hp))]
      exact Bool.false_ne_true
    rw [word?, hopens, if_neg Bool.false_ne_true, anyWord?_eq, hbegins (p := ['r', '#']) ⟨'#', by decide, by decide⟩,
      if_neg Bool.false_ne_true, show wordLength? name.toList = _ from hword, Option.bind_some, List.take_length,
      String.ofList_toList, Bool.eq_false_iff.2 hreserved]

/-! ## What a text reads as -/

/-- The text `x` in front of `q` reads as some lexemes. -/
def Reads (x : List Char) (lexemes : List Lexeme) (q : List Char) : Prop :=
  ∀ here stack, ∃ placed, Passes ⟨here, stack, x ++ q⟩ placed ⟨here.pastAll x, stack, q⟩ ∧
    placed.map (·.lexeme) = lexemes

theorem Reads.nil (q : List Char) : Reads [] [] q := fun _ _ => ⟨[], .done _, rfl⟩

theorem Reads.append {x y : List Char} {xs ys : List Lexeme} {q : List Char} (hx : Reads x xs (y ++ q)) (hy : Reads y ys q) :
    Reads (x ++ y) (xs ++ ys) q := by
  intro here stack
  obtain ⟨placed, hplaced, hlexemes⟩ := hx here stack
  obtain ⟨placed', hplaced', hlexemes'⟩ := hy (here.pastAll x) stack
  refine ⟨placed ++ placed', ?_, by rw [List.map_append, hlexemes, hlexemes']⟩
  rw [List.append_assoc, Location.pastAll_append]
  exact hplaced.trans hplaced'

theorem Reads.of_step {x q : List Char} {step : Step} (hx : x ≠ []) (hstep : Step.of (x ++ q) = step)
    (hlength : step.length = x.length) (htrack : ∀ here stack, step.track here stack = some stack) :
    Reads x step.lexemes q := by
  intro here stack
  obtain ⟨c, x, rfl⟩ := List.exists_cons_of_ne_nil hx
  subst hstep
  simp only [List.cons_append, List.length_cons] at hlength
  refine ⟨_, @Passes.step here stack stack c (x ++ q) [] _ (htrack here stack) ?_, ?_⟩
  · rw [hlength, Nat.add_sub_cancel, List.take_left, List.drop_left]
    exact .done _
  · simp [Cursor.lexemes, Function.comp_def]

theorem Reads.name {name : String} (hword : IsWord name) {d : Char} (hd : EndsWord d) (q : List Char) :
    Reads (spelled name).toList [.token (.word (reservedNames.contains name) name)] (d :: q) := by
  have hread := word?_spelled hword
  have hstep : Step.of ((spelled name).toList ++ d :: q) =
      .token (.word (reservedNames.contains name) name) (spelled name).toList.length :=
    Step.of_word (by rw [word?_end hd, hread])
  refine Reads.of_step ?_ hstep rfl fun _ _ => rfl
  intro hempty
  rw [hempty] at hread
  cases hread

theorem Reads.blanks (q : List Char) : ∀ {x : List Char}, (∀ c ∈ x, c ∈ [' ', '\t', '\n', '\r']) → Reads x [] q := by
  intro x
  induction x with
  | nil => exact fun _ => .nil q
  | cons c x ih =>
    intro hx
    obtain ⟨hc, hx⟩ := List.forall_mem_cons.1 hx
    have hstep : Step.of (c :: (x ++ q)) = .skip 1 := by
      simp only [List.mem_cons, List.not_mem_nil, or_false] at hc
      rcases hc with rfl | rfl | rfl | rfl
      all_goals rfl
    have hone : Reads [c] [] (x ++ q) := Reads.of_step (List.cons_ne_nil c []) hstep rfl fun _ _ => rfl
    exact hone.append (ih hx)

theorem Reads.comma {c : Char} (hc : c ∈ [' ', '\n', '\r']) (q : List Char) :
    Reads [','] [.token (.punct ',' false)] (c :: q) := by
  have hstep : Step.of (',' :: c :: q) = .token (.punct ',' false) 1 := by
    simp only [List.mem_cons, List.not_mem_nil, or_false] at hc
    rcases hc with rfl | rfl | rfl
    all_goals rfl
  exact Reads.of_step (List.cons_ne_nil _ []) hstep rfl fun _ _ => rfl

theorem Reads.braces {x q : List Char} {lexemes : List Lexeme} (h : Reads x lexemes ('}' :: q)) :
    Reads ('{' :: (x ++ ['}'])) (.opening .brace :: (lexemes ++ [.closing .brace])) q := by
  intro here stack
  obtain ⟨placed, hplaced, hlexemes⟩ := h (here.past '{') ((.brace, here) :: stack)
  have hopens : Passes ⟨here, stack, '{' :: (x ++ '}' :: q)⟩ ([⟨.opening .brace, here, here.past '{'⟩] ++ [])
      ⟨here.past '{', (.brace, here) :: stack, x ++ '}' :: q⟩ := .step rfl (.done _)
  have hcloses : ∀ there, Passes ⟨there, (.brace, here) :: stack, '}' :: q⟩
      ([⟨.closing .brace, there, there.past '}'⟩] ++ []) ⟨there.past '}', stack, q⟩ := fun there => .step rfl (.done _)
  have hrest : '{' :: (x ++ ['}']) ++ q = '{' :: (x ++ '}' :: q) := by simp
  have hhere : here.pastAll ('{' :: (x ++ ['}'])) = ((here.past '{').pastAll x).past '}' := by simp
  rw [hrest, hhere]
  exact ⟨_, hopens.trans (hplaced.trans (hcloses _)), by simp [hlexemes]⟩

/-! ## Lists of names -/

open Grammar Edit

theorem endsWord_comma : EndsWord ',' := by constructor <;> decide

theorem endsWord_close : EndsWord '}' := by constructor <;> decide

/-- The lexemes of a list of names in braces. -/
def listLexemes (closed : Bool) (names : List String) : List Lexeme :=
  (Tree.group .brace (memberTrees closed names)).flatten

/-- The names of a list on one line are read back as they stand. -/
theorem Reads.oneLine {names : List String} (hnames : ∀ name ∈ names, IsWord name) (q : List Char) :
    Reads (oneLine names) (listLexemes false names) q := by
  have hinner : ∀ {names : List String}, (∀ name ∈ names, IsWord name) →
      Reads (separated [',', ' '] (names.map fun name => (spelled name).toList)) (flattenAll (memberTrees false names))
        ('}' :: q) := by
    intro names
    induction names with
    | nil => exact fun _ => .nil _
    | cons name rest ih =>
      intro hnames
      obtain ⟨hword, hrest⟩ := List.forall_mem_cons.1 hnames
      cases rest with
      | nil => exact Reads.name hword endsWord_close q
      | cons other rest =>
        have hcomma := (Reads.comma (c := ' ') (by decide) _).append
          ((Reads.blanks _ (x := [' ']) (List.all_iff_forall_prop.1 (by decide))).append (ih hrest))
        have htext : separated [',', ' '] ((name :: other :: rest).map fun name => (spelled name).toList) =
            (spelled name).toList ++ ([','] ++ ([' '] ++
              separated [',', ' '] ((other :: rest).map fun name => (spelled name).toList))) := by
          simp [separated]
        rw [htext]
        exact (Reads.name hword endsWord_comma _).append hcomma
  exact (hinner hnames).braces

/-- The names of a list with a line for each are read back as they stand. -/
theorem Reads.wrapped {newline indent : List Char} (hnewline : newline ∈ [['\n'], ['\r', '\n']])
    (hindent : ∀ c ∈ indent, c ∈ [' ', '\t', '\n', '\r']) {names : List String}
    (hnames : ∀ name ∈ names, IsWord name) (q : List Char) :
    Reads (wrapped newline indent names) (listLexemes true names) q := by
  obtain ⟨c, rest, rfl, hc, hblanks⟩ : ∃ c rest, newline = c :: rest ∧ c ∈ [' ', '\n', '\r'] ∧
      ∀ d ∈ newline, d ∈ [' ', '\t', '\n', '\r'] := by
    simp only [List.mem_cons, List.not_mem_nil, or_false] at hnewline
    rcases hnewline with rfl | rfl
    · exact ⟨_, _, rfl, by decide, List.all_iff_forall_prop.1 (by decide)⟩
    · exact ⟨_, _, rfl, by decide, List.all_iff_forall_prop.1 (by decide)⟩
  have hlead : ∀ d ∈ indent ++ [' ', ' ', ' ', ' '], d ∈ [' ', '\t', '\n', '\r'] := by
    intro d hd
    rcases List.mem_append.1 hd with hd | hd
    · exact hindent d hd
    · have hspaces : ∀ d ∈ [' ', ' ', ' ', ' '], d ∈ [' ', '\t', '\n', '\r'] :=
        List.all_iff_forall_prop.1 (by decide)
      exact hspaces d hd
  have hcomma : ∀ w w', Reads [','] [.token (.punct ',' false)] (c :: rest ++ w ++ w') := fun _ _ => Reads.comma hc _
  have hmembers : ∀ {names : List String} (q : List Char), (∀ name ∈ names, IsWord name) →
      Reads (names.flatMap fun name => indent ++ [' ', ' ', ' ', ' '] ++ (spelled name).toList ++ ',' :: c :: rest)
        (flattenAll (memberTrees true names)) q := by
    intro names
    induction names with
    | nil => exact fun q _ => .nil q
    | cons name others ih =>
      intro q hnames
      obtain ⟨hword, hothers⟩ := List.forall_mem_cons.1 hnames
      have hall := (Reads.blanks _ hlead).append ((Reads.name hword endsWord_comma _).append
        ((hcomma _ _).append ((Reads.blanks _ hblanks).append (ih q hothers))))
      have htrees : memberTrees true (name :: others) = nameTree name :: commaTree :: memberTrees true others := by
        simp [memberTrees]
      rw [htrees, List.flatMap_cons]
      simpa [flattenAll, nameTree, commaTree, Tree.flatten] using hall
  have hinner := (Reads.blanks _ hblanks).append ((hmembers (indent ++ '}' :: q) hnames).append (Reads.blanks ('}' :: q) hindent))
  have htext : Edit.wrapped (c :: rest) indent names = '{' :: ((c :: rest) ++ ((names.flatMap fun name =>
      indent ++ [' ', ' ', ' ', ' '] ++ (spelled name).toList ++ ',' :: c :: rest) ++ indent) ++ ['}']) := by
    simp [Edit.wrapped]
  rw [htext, listLexemes, Tree.flatten]
  rw [List.nil_append, List.append_nil] at hinner
  exact hinner.braces

/-- However a list is laid out, it is read back as it stands. -/
theorem Reads.rendered {text : List Char} {width : Nat} {e : Edit} {list : List Char}
    (hlist : rendered? text width e = some list) (hnames : ∀ name ∈ e.names, IsWord name) (q : List Char) :
    ∃ closed, Reads list (listLexemes closed e.names) q := by
  obtain ⟨⟨before, after⟩, -, rfl⟩ := Option.map_eq_some_iff.1 hlist
  have hnewline : newlineOf text ∈ [['\n'], ['\r', '\n']] := by
    rw [newlineOf]
    split_ifs <;> simp
  have hindent : ∀ c ∈ (lastLine before).takeWhile fun c => c == ' ' || c == '\t', c ∈ [' ', '\t', '\n', '\r'] := by
    intro c hc
    have := List.mem_takeWhile_imp hc
    simp only [Bool.or_eq_true, beq_iff_eq] at this
    rcases this with rfl | rfl <;> decide
  simp only [render]
  split_ifs
  · exact ⟨false, Reads.oneLine hnames q⟩
  · exact ⟨true, Reads.wrapped hnewline hindent hnames q⟩

end Reexport.Source
