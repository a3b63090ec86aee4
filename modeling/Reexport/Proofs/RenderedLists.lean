import Mathlib.Data.List.Forall2
import Mathlib.Data.List.TakeWhile
import Reexport.Proofs.LineStarts
import Reexport.Proofs.Splicing

/-!
# Rendered lists are read back piece by piece

A list of names stands in braces, with a comma between two names on one line, or with a comma
behind every name on a line of its own. One way of reading undoes both: what stands between the
braces is cut at the commas, blanks at the ends of a piece are dropped, and so are pieces of
blanks alone. Raw marks come off last.

Results:

* `pieces_oneLine`, `pieces_wrapped`: the pieces of the two layouts.
* `brokenBy_oneLine`, `brokenBy_wrapped`: which line ends stand in them.
* `newline_mem_render_iff`: which layout is taken.
* `rendered_lists_decode`: the list of an edit, in full.
-/

namespace Reexport.Edit

open Text

/-! ## Reading lists -/

/-- What stands between the commas of a text, without blanks at either end; pieces with nothing
    else are left out. -/
def pieces (inner : List Char) : List (List Char) :=
  ((inner.splitOn ',').map trim).filter (!·.isEmpty)

/-- A piece without its raw mark. -/
def withoutRaw : List Char → List Char
  | 'r' :: '#' :: name => name
  | name => name

/-- The names in a list without its braces. -/
def decode (inner : List Char) : List String :=
  (pieces inner).map fun piece => String.ofList (withoutRaw piece)

/-- A name that has its place in a list: not empty, and without blanks and without the marks that
    lists are written with. -/
def Listed (name : String) : Prop :=
  name ≠ "" ∧ ∀ c ∈ name.toList, isBlank c = false ∧ c ∉ [',', '{', '}', '#']

instance : DecidablePred Listed := fun name => @instDecidableAnd _ _ _ (List.decidableBAll _ name.toList)

/-! ## Blanks -/

theorem dropWhile_eq_self_of_none {p : Char → Bool} : ∀ {cs : List Char}, (∀ c ∈ cs, p c = false) →
    cs.dropWhile p = cs := by
  intro cs h
  cases cs with
  | nil => rfl
  | cons c cs => rw [List.dropWhile_cons_of_neg (by simp [h c List.mem_cons_self])]

theorem trim_of_padded {pad text : List Char} (hpad : ∀ c ∈ pad, isBlank c = true)
    (htext : ∀ c ∈ text, isBlank c = false) : trim (pad ++ text) = text := by
  have hleft : (pad ++ text).dropWhile isBlank = text := by
    rw [List.dropWhile_append_of_pos hpad, dropWhile_eq_self_of_none htext]
  have hright : text.reverse.dropWhile isBlank = text.reverse :=
    dropWhile_eq_self_of_none fun c hc => htext c (List.mem_reverse.1 hc)
  rw [trim, hleft, dropRightWhile, hright, List.reverse_reverse]

/-- Only what follows the last character that stays can be dropped at the end of a text. -/
theorem dropRightWhile_append {p : Char → Bool} {c : Char} (hc : p c = false) (as bs : List Char) :
    dropRightWhile p (as ++ c :: bs) = as ++ c :: dropRightWhile p bs := by
  rw [dropRightWhile, List.reverse_append, List.reverse_cons, List.append_assoc, List.dropWhile_append]
  split_ifs with hempty
  · have hnone : bs.reverse.dropWhile p = [] := by simpa using hempty
    simp [dropRightWhile, hnone, hc]
  · simp [dropRightWhile]

/-! ## Names as they are spelled -/

/-- A spelled name opens with the raw mark if it is reserved, and is the name itself otherwise. -/
theorem spelled_cases (name : String) :
    (name ∈ reservedNames ∧ (spelled name).toList = 'r' :: '#' :: name.toList) ∨
    (name ∉ reservedNames ∧ (spelled name).toList = name.toList) := by
  rw [spelled]
  split_ifs with hreserved
  · exact .inl ⟨List.contains_iff_mem.1 hreserved, by simp⟩
  · exact .inr ⟨fun hmem => hreserved (List.contains_iff_mem.2 hmem), rfl⟩

namespace Listed

variable {name : String} (h : Listed name)

include h

theorem no_mark : '#' ∉ name.toList := fun hmem => (h.2 '#' hmem).2 (by decide)

theorem spelled_ne_nil : (spelled name).toList ≠ [] := by
  rcases spelled_cases name with ⟨-, heq⟩ | ⟨-, heq⟩
  · simp [heq]
  · rw [heq]
    exact fun hnil => h.1 (String.toList_eq_nil_iff.1 hnil)

theorem spelled_no_blank : ∀ c ∈ (spelled name).toList, isBlank c = false := by
  rcases spelled_cases name with ⟨-, heq⟩ | ⟨-, heq⟩
  · rw [heq]
    exact List.forall_mem_cons.2 ⟨by decide, List.forall_mem_cons.2 ⟨by decide, fun c hc => (h.2 c hc).1⟩⟩
  · rw [heq]
    exact fun c hc => (h.2 c hc).1

theorem spelled_no_comma : ',' ∉ (spelled name).toList := by
  have hname : ',' ∉ name.toList := fun hmem => (h.2 ',' hmem).2 (by decide)
  rcases spelled_cases name with ⟨-, heq⟩ | ⟨-, heq⟩
  · simpa [heq] using hname
  · rwa [heq]

theorem withoutRaw_of_no_mark : withoutRaw name.toList = name.toList := by
  have hmark := h.no_mark
  unfold withoutRaw
  split
  · rename_i rest heq
    rw [heq] at hmark
    exact absurd (List.mem_cons_of_mem _ List.mem_cons_self) hmark
  · rfl

theorem withoutRaw_spelled : String.ofList (withoutRaw (spelled name).toList) = name := by
  rcases spelled_cases name with ⟨-, heq⟩ | ⟨-, heq⟩
  · rw [heq]
    exact String.ofList_toList
  · rw [heq, h.withoutRaw_of_no_mark, String.ofList_toList]

theorem raw_iff : ['r', '#'] <+: (spelled name).toList ↔ name ∈ reservedNames := by
  rcases spelled_cases name with ⟨hreserved, heq⟩ | ⟨hplain, heq⟩
  · rw [heq]
    exact iff_of_true ⟨name.toList, rfl⟩ hreserved
  · rw [heq]
    refine iff_of_false (fun hraw => h.no_mark (hraw.subset ?_)) hplain
    exact List.mem_cons_of_mem _ List.mem_cons_self

end Listed

/-- The spelled names of a list. -/
def spellings (names : List String) : List (List Char) := names.map fun name => (spelled name).toList

theorem filter_spellings {names : List String} (hnames : ∀ name ∈ names, Listed name) :
    (spellings names).filter (!·.isEmpty) = spellings names := by
  refine List.filter_eq_self.2 fun piece hpiece => ?_
  obtain ⟨name, hname, rfl⟩ := List.mem_map.1 hpiece
  simpa using (hnames name hname).spelled_ne_nil

/-! ## The pieces of the two layouts -/

theorem separated_eq (separator : List Char) : ∀ (texts : List (List Char)),
    separated separator texts = separator.intercalate texts := by
  intro texts
  induction texts with
  | nil => rfl
  | cons text rest ih =>
    cases rest with
    | nil => simp [separated]
    | cons other rest => rw [separated, ih, List.intercalate_cons_cons]; simp

theorem pieces_intercalate {parts : List (List Char)} (hne : parts ≠ []) (hcomma : ∀ part ∈ parts, ',' ∉ part) :
    pieces ([','].intercalate parts) = (parts.map trim).filter (!·.isEmpty) := by
  rw [pieces, List.splitOn_intercalate ',' hcomma hne]

/-- Padded names as pieces. -/
theorem map_trim_spellings {pad : List Char} (hpad : ∀ c ∈ pad, isBlank c = true) {names : List String}
    (hnames : ∀ name ∈ names, Listed name) :
    ((spellings names).map (pad ++ ·)).map trim = spellings names := by
  rw [List.map_map]
  refine (List.map_congr_left fun piece hpiece => ?_).trans (List.map_id _)
  obtain ⟨name, hname, rfl⟩ := List.mem_map.1 hpiece
  exact trim_of_padded hpad (hnames name hname).spelled_no_blank

theorem not_mem_padded {c : Char} {pad : List Char} (hpad : c ∉ pad) {names : List String}
    (hnames : ∀ name ∈ names, c ∉ (spelled name).toList) :
    ∀ part ∈ (spellings names).map (pad ++ ·), c ∉ part := by
  intro part hpart
  obtain ⟨piece, hpiece, rfl⟩ := List.mem_map.1 hpart
  obtain ⟨name, hname, rfl⟩ := List.mem_map.1 hpiece
  rw [List.mem_append, not_or]
  exact ⟨hpad, hnames name hname⟩

theorem intercalate_comma_blank : ∀ (texts : List (List Char)) (text : List Char),
    [',', ' '].intercalate (text :: texts) = [','].intercalate (text :: texts.map ([' '] ++ ·)) := by
  intro texts
  induction texts with
  | nil => intro text; simp
  | cons other rest ih =>
    intro text
    rw [List.intercalate_cons_cons, ih, List.map_cons, List.intercalate_cons_cons]
    cases rest <;> simp [List.intercalate_cons_cons]

/-- The pieces of a list on one line. -/
theorem pieces_oneLine {names : List String} (hnames : ∀ name ∈ names, Listed name) :
    ∃ inner, oneLine names = '{' :: (inner ++ ['}']) ∧ pieces inner = spellings names := by
  refine ⟨[',', ' '].intercalate (spellings names), by rw [oneLine, separated_eq]; rfl, ?_⟩
  cases names with
  | nil => rfl
  | cons name rest =>
    obtain ⟨hname, hrest⟩ := List.forall_mem_cons.1 hnames
    have hblank : ∀ c ∈ [' '], isBlank c = true := List.forall_mem_singleton.2 (by decide)
    have htrim : trim (spelled name).toList = (spelled name).toList :=
      @trim_of_padded [] _ (by simp) hname.spelled_no_blank
    show pieces ([',', ' '].intercalate ((spelled name).toList :: spellings rest)) = _
    rw [intercalate_comma_blank, pieces_intercalate (by simp), List.map_cons, htrim,
      map_trim_spellings hblank hrest]
    · exact filter_spellings hnames
    · refine List.forall_mem_cons.2 ⟨hname.spelled_no_comma, not_mem_padded (by decide) ?_⟩
      exact fun other hother => (hrest other hother).spelled_no_comma

/-- What stands between the braces of a wrapped list. -/
theorem wrapped_eq (newline indent : List Char) (names : List String) :
    wrapped newline indent names = '{' :: ([','].intercalate
      ((spellings names).map (newline ++ (indent ++ [' ', ' ', ' ', ' ']) ++ ·) ++ [newline ++ indent]) ++ ['}']) := by
  have hinner : ∀ texts : List (List Char),
      newline ++ (texts.flatMap fun text => indent ++ [' ', ' ', ' ', ' '] ++ text ++ ',' :: newline) ++ indent =
        [','].intercalate (texts.map (newline ++ (indent ++ [' ', ' ', ' ', ' ']) ++ ·) ++ [newline ++ indent]) := by
    intro texts
    induction texts with
    | nil => simp
    | cons text rest ih =>
      have hcons : ∃ part parts, rest.map (newline ++ (indent ++ [' ', ' ', ' ', ' ']) ++ ·) ++ [newline ++ indent] =
          part :: parts := List.exists_cons_of_ne_nil (by simp)
      obtain ⟨part, parts, hparts⟩ := hcons
      rw [List.map_cons, List.cons_append, hparts, List.intercalate_cons_cons, ← hparts, ← ih]
      simp
  have h := hinner (spellings names)
  rw [spellings, List.flatMap_map] at h
  rw [spellings, ← h, wrapped]
  simp

/-- The pieces of a list with a line for each name. -/
theorem pieces_wrapped {newline indent : List Char} (hnewline : ∀ c ∈ newline, isBlank c = true)
    (hindent : ∀ c ∈ indent, isBlank c = true) {names : List String} (hnames : ∀ name ∈ names, Listed name) :
    ∃ inner, wrapped newline indent names = '{' :: (inner ++ ['}']) ∧ pieces inner = spellings names := by
  refine ⟨_, wrapped_eq newline indent names, ?_⟩
  have hblank : ∀ {texts : List Char}, (∀ c ∈ texts, isBlank c = true) → ',' ∉ texts :=
    fun htexts hmem => absurd (htexts ',' hmem) (by decide)
  have hpad : ∀ c ∈ newline ++ (indent ++ [' ', ' ', ' ', ' ']), isBlank c = true := by
    simp only [List.forall_mem_append]
    exact ⟨hnewline, hindent, List.all_eq_true.1 (by decide)⟩
  have hlast : ∀ c ∈ newline ++ indent, isBlank c = true := List.forall_mem_append.2 ⟨hnewline, hindent⟩
  have hempty : trim (newline ++ indent) = [] := by
    have h := @trim_of_padded _ [] hlast (by simp)
    rwa [List.append_nil] at h
  rw [pieces_intercalate (by simp), List.map_append, map_trim_spellings hpad hnames, List.filter_append,
    filter_spellings hnames, List.map_singleton, hempty]
  · simp
  · refine List.forall_mem_append.2 ⟨not_mem_padded (hblank hpad) ?_, List.forall_mem_singleton.2 (hblank hlast)⟩
    exact fun name hname => (hnames name hname).spelled_no_comma

/-! ## Line ends -/

/-- The text is made of lines with `newline` between them, and no other line ends stand in it. -/
def BrokenBy (newline text : List Char) : Prop :=
  ∃ lines : List (List Char), text = newline.intercalate lines ∧ ∀ line ∈ lines, '\n' ∉ line ∧ '\r' ∉ line

theorem not_mem_of_no_blank {c : Char} (hc : isBlank c = true) {text : List Char}
    (htext : ∀ d ∈ text, isBlank d = false) : c ∉ text := by
  intro hmem
  rw [htext c hmem] at hc
  cases hc

theorem no_break_spelled {name : String} (h : Listed name) :
    '\n' ∉ (spelled name).toList ∧ '\r' ∉ (spelled name).toList :=
  ⟨not_mem_of_no_blank (by decide) h.spelled_no_blank, not_mem_of_no_blank (by decide) h.spelled_no_blank⟩

theorem mem_separated {separator : List Char} {c : Char} : ∀ {texts : List (List Char)},
    c ∈ separated separator texts → c ∈ separator ∨ ∃ text ∈ texts, c ∈ text := by
  intro texts
  induction texts with
  | nil => exact fun h => absurd h List.not_mem_nil
  | cons text rest ih =>
    cases rest with
    | nil => exact fun h => .inr ⟨text, List.mem_cons_self, h⟩
    | cons other rest =>
      intro h
      have happend : separated separator (text :: other :: rest) =
          text ++ (separator ++ separated separator (other :: rest)) := List.append_assoc _ _ _
      rw [happend, List.mem_append, List.mem_append] at h
      rcases h with h | h | h
      · exact .inr ⟨text, List.mem_cons_self, h⟩
      · exact .inl h
      · exact (ih h).imp_right fun ⟨found, hfound, hc⟩ => ⟨found, List.mem_cons_of_mem _ hfound, hc⟩

theorem no_break_oneLine {names : List String} (hnames : ∀ name ∈ names, Listed name) :
    '\n' ∉ oneLine names ∧ '\r' ∉ oneLine names := by
  have hnone : ∀ c, c ∉ ['{', ',', ' ', '}'] → (∀ name ∈ names, c ∉ (spelled name).toList) → c ∉ oneLine names := by
    intro c hc hspelled hmem
    simp only [List.mem_cons, List.not_mem_nil, or_false, not_or] at hc
    rw [oneLine, List.cons_append, List.mem_cons, List.mem_append, List.mem_singleton] at hmem
    rcases hmem with rfl | hmem | rfl
    · exact hc.1 rfl
    · rcases mem_separated hmem with hseparator | ⟨text, htext, hmem⟩
      · simp only [List.mem_cons, List.not_mem_nil, or_false] at hseparator
        exact hseparator.elim hc.2.1 hc.2.2.1
      · obtain ⟨name, hname, rfl⟩ := List.mem_map.1 htext
        exact hspelled name hname hmem
    · exact hc.2.2.2 rfl
  exact ⟨hnone _ (by decide) fun name hname => (no_break_spelled (hnames name hname)).1,
    hnone _ (by decide) fun name hname => (no_break_spelled (hnames name hname)).2⟩

/-- A list on one line has no line end. -/
theorem brokenBy_oneLine (newline : List Char) {names : List String} (hnames : ∀ name ∈ names, Listed name) :
    BrokenBy newline (oneLine names) := by
  refine ⟨[oneLine names], by simp, ?_⟩
  exact List.forall_mem_singleton.2 (no_break_oneLine hnames)

/-- The lines of a wrapped list. -/
theorem wrapped_lines (newline indent : List Char) (names : List String) :
    wrapped newline indent names = newline.intercalate (['{'] ::
      ((spellings names).map (fun text => indent ++ [' ', ' ', ' ', ' '] ++ text ++ [',']) ++ [indent ++ ['}']])) := by
  have hlines : ∀ texts : List (List Char), ∀ first : List Char,
      first ++ newline ++ (texts.flatMap fun text => indent ++ [' ', ' ', ' ', ' '] ++ text ++ ',' :: newline) ++
          indent ++ ['}'] =
        newline.intercalate (first ::
          (texts.map (fun text => indent ++ [' ', ' ', ' ', ' '] ++ text ++ [',']) ++ [indent ++ ['}']])) := by
    intro texts
    induction texts with
    | nil => intro first; simp [List.intercalate_cons_cons]
    | cons text rest ih =>
      intro first
      rw [List.map_cons, List.cons_append, List.intercalate_cons_cons, ← ih]
      simp
  have h := hlines (spellings names) ['{']
  rw [spellings, List.flatMap_map] at h
  rw [spellings, ← h, wrapped]
  simp

/-- A wrapped list has the line ends that it is given. -/
theorem brokenBy_wrapped (newline : List Char) {indent : List Char} (hindent : ∀ c ∈ indent, c = ' ' ∨ c = '\t')
    {names : List String} (hnames : ∀ name ∈ names, Listed name) :
    BrokenBy newline (wrapped newline indent names) := by
  have hnone : '\n' ∉ indent ∧ '\r' ∉ indent :=
    ⟨fun h => absurd (hindent _ h) (by decide), fun h => absurd (hindent _ h) (by decide)⟩
  refine ⟨_, wrapped_lines newline indent names, List.forall_mem_cons.2 ⟨by decide, ?_⟩⟩
  refine List.forall_mem_append.2 ⟨fun line hline => ?_, List.forall_mem_singleton.2 (by simpa using hnone)⟩
  obtain ⟨text, htext, rfl⟩ := List.mem_map.1 hline
  obtain ⟨name, hname, rfl⟩ := List.mem_map.1 htext
  simpa using ⟨⟨hnone.1, (no_break_spelled (hnames name hname)).1⟩, hnone.2,
    (no_break_spelled (hnames name hname)).2⟩

theorem hasReturns_iff (text : List Char) : hasReturns text = true ↔ ['\r', '\n'] <:+: text := by
  fun_induction hasReturns text with
  | case1 cs => exact iff_of_true rfl ⟨[], cs, rfl⟩
  | case2 c cs hnot ih =>
    rw [ih, List.infix_cons_iff]
    refine ⟨.inr, fun h => h.resolve_left fun ⟨rest, heq⟩ => ?_⟩
    obtain ⟨rfl, rfl⟩ := List.cons.inj heq
    exact hnot _ rfl rfl
  | case3 => simp

/-! ## The layout that is taken -/

/-- The line of a text that a star stands on: `head`, the star and `tail`. -/
def StarLine (text : List Char) (star : Nat) (head tail : List Char) : Prop :=
  ∃ front back, text = front ++ (head ++ '*' :: (tail ++ back)) ∧ byteSize (front ++ head) = star ∧
    EndsLine front ∧ '\n' ∉ head ∧ '\n' ∉ tail ∧ (back = [] ∨ ∃ rest, back = '\n' :: rest)

theorem exists_starLine (before after : List Char) : ∃ tail,
    StarLine (before ++ '*' :: after) (byteSize before) (lastLine before) tail ∧
      firstLine after = dropRightWhile (· == '\r') tail := by
  obtain ⟨front, head, rfl, hhead, hfront⟩ := exists_lines before
  rw [lastLine_of_endsLine hfront hhead]
  refine ⟨after.takeWhile (· != '\n'), ⟨front, after.dropWhile (· != '\n'), ?_, rfl, hfront, hhead, ?_, ?_⟩, rfl⟩
  · rw [List.takeWhile_append_dropWhile, List.append_assoc]
  · intro hmem
    simpa using List.mem_takeWhile_imp hmem
  · cases hback : after.dropWhile (· != '\n') with
    | nil => exact .inl rfl
    | cons c rest =>
      have hc := List.head?_dropWhile_not (· != '\n') after
      rw [hback] at hc
      exact .inr ⟨rest, by simpa using hc⟩

/-- The line of the star with a list on one line in its place. -/
theorem length_oneLine_line (names : List String) (head tail : List Char) :
    (dropRightWhile (· == '\r') (head ++ (oneLine names ++ tail))).length =
      head.length + (oneLine names).length + (dropRightWhile (· == '\r') tail).length := by
  obtain ⟨front, hfront⟩ : ∃ front, oneLine names = front ++ ['}'] := ⟨_, rfl⟩
  have hend : ('}' == '\r') = false := by decide
  have hline : head ++ (oneLine names ++ tail) = (head ++ front) ++ '}' :: tail := by simp [hfront]
  rw [hline, dropRightWhile_append (p := (· == '\r')) hend, hfront]
  simp
  omega

/-- A list is broken into lines if it has names and its line would be too wide. -/
theorem newline_mem_render_iff {newline : List Char} (hnewline : '\n' ∈ newline) (width : Nat) {names : List String}
    (hnames : ∀ name ∈ names, Listed name) (before after : List Char) :
    '\n' ∈ render newline width names before after ↔ names ≠ [] ∧
      width < (lastLine before).length + (oneLine names).length + (firstLine after).length := by
  simp only [render]
  split_ifs with hfits
  · refine iff_of_false (no_break_oneLine hnames).1 fun ⟨hne, hwide⟩ => ?_
    rw [Bool.or_eq_true, List.isEmpty_iff, decide_eq_true_eq] at hfits
    exact hfits.elim hne (Nat.not_le.2 hwide)
  · refine iff_of_true ?_ ?_
    · rw [wrapped, List.mem_append, List.mem_append, List.mem_append]
      exact .inl (.inl (.inl (List.mem_cons_of_mem _ hnewline)))
    · rw [Bool.or_eq_true, List.isEmpty_iff, decide_eq_true_eq, not_or] at hfits
      exact ⟨hfits.1, Nat.not_le.1 hfits.2⟩

/-! ## Rendered lists -/

theorem render_layout {newline : List Char} (hnewline : ∀ c ∈ newline, isBlank c = true) (width : Nat)
    {names : List String} (hnames : ∀ name ∈ names, Listed name) (before after : List Char) :
    BrokenBy newline (render newline width names before after) ∧
    ∃ inner, render newline width names before after = '{' :: (inner ++ ['}']) ∧ pieces inner = spellings names := by
  have hindent : ∀ c ∈ (lastLine before).takeWhile fun c => c == ' ' || c == '\t', c = ' ' ∨ c = '\t' := by
    intro c hc
    simpa using List.mem_takeWhile_imp hc
  have hblank : ∀ c ∈ (lastLine before).takeWhile fun c => c == ' ' || c == '\t', isBlank c = true := by
    intro c hc
    rcases hindent c hc with rfl | rfl <;> decide
  simp only [render]
  split_ifs
  · exact ⟨brokenBy_oneLine newline hnames, pieces_oneLine hnames⟩
  · exact ⟨brokenBy_wrapped newline hindent hnames, pieces_wrapped hnewline hblank hnames⟩

/-- **Rendered lists are read back.** The list of an edit stands in braces, and in either layout
    what stands between them decodes to the names of the edit, with a raw mark where the name is
    reserved. It has the line ends of the text, and it has any only if there are names and the
    line of the star would be too wide with all of them on it, carriage returns at its end not
    counted. -/
theorem rendered_lists_decode {text : List Char} {width : Nat} {e : Edit} (hfresh : Fresh text e)
    (hnames : ∀ name ∈ e.names, Listed name) : ∃ list head tail,
    rendered? text width e = some list ∧ StarLine text e.star.start head tail ∧
    (∃ inner, list = '{' :: (inner ++ ['}']) ∧ decode inner = e.names ∧
      List.Forall₂ (fun piece name => ['r', '#'] <+: piece ↔ name ∈ reservedNames) (pieces inner) e.names) ∧
    (['\r', '\n'] <:+: text → BrokenBy ['\r', '\n'] list) ∧ (¬ ['\r', '\n'] <:+: text → BrokenBy ['\n'] list) ∧
    ('\n' ∈ list ↔ e.names ≠ [] ∧
      width < (dropRightWhile (· == '\r') (head ++ (oneLine e.names ++ tail))).length) := by
  obtain ⟨before, after, rfl, hstart, hstop⟩ := fresh_iff.1 hfresh
  obtain ⟨tail, hline, hfirst⟩ := exists_starLine before after
  have hnewline : '\n' ∈ newlineOf (before ++ '*' :: after) ∧
      ∀ c ∈ newlineOf (before ++ '*' :: after), isBlank c = true := by
    rw [newlineOf]
    split_ifs
    all_goals exact ⟨by decide, List.all_eq_true.1 (by decide)⟩
  obtain ⟨hbroken, inner, hlist, hpieces⟩ := render_layout hnewline.2 width hnames before after
  refine ⟨_, lastLine before, tail, rendered?_around hstart hstop, hstart ▸ hline, ⟨inner, hlist, ?_, ?_⟩, fun hcr => ?_,
    fun hlf => ?_, ?_⟩
  · rw [decode, hpieces, spellings, List.map_map]
    exact (List.map_congr_left fun name hname => (hnames name hname).withoutRaw_spelled).trans (List.map_id _)
  · rw [hpieces, spellings, List.forall₂_map_left_iff]
    exact List.forall₂_same.2 fun name hname => (hnames name hname).raw_iff
  · have hreturns : newlineOf (before ++ '*' :: after) = ['\r', '\n'] := if_pos ((hasReturns_iff _).2 hcr)
    exact hreturns ▸ hbroken
  · have hfeeds : newlineOf (before ++ '*' :: after) = ['\n'] := if_neg (mt (hasReturns_iff _).1 hlf)
    exact hfeeds ▸ hbroken
  · rw [newline_mem_render_iff hnewline.1 width hnames, hfirst, length_oneLine_line]

/-- A star in an indented line with wide characters and a stray carriage return at its end. -/
def indentedText : String := "// ü\r\n    pub use é::*; // ö\r\r\n"

/-- A list for that star with a reserved name. -/
def indentedEdit : Edit := ⟨⟨23, 24⟩, ["match", "x"]⟩

theorem rendered_lists_decode_indented : Fresh indentedText.toList indentedEdit ∧
    (∀ name ∈ indentedEdit.names, Listed name) ∧
    ∃ inner, rendered? indentedText.toList 32 indentedEdit =
        some "\x7b\r\n        r#match,\r\n        x,\r\n    \x7d".toList ∧
      "\x7b\r\n        r#match,\r\n        x,\r\n    \x7d".toList = '{' :: (inner ++ ['}']) ∧
      decode inner = ["match", "x"] := by
  have hfresh : Fresh indentedText.toList indentedEdit := by decide +kernel
  have hnames : ∀ name ∈ indentedEdit.names, Listed name := by decide +kernel
  obtain ⟨list, head, tail, hlist, -, ⟨inner, hinner, hdecode, -⟩, -⟩ :=
    @rendered_lists_decode indentedText.toList 32 indentedEdit hfresh hnames
  have hrendered : rendered? indentedText.toList 32 indentedEdit =
      some "\x7b\r\n        r#match,\r\n        x,\r\n    \x7d".toList := by decide +kernel
  refine ⟨hfresh, hnames, inner, hrendered, ?_, hdecode⟩
  rw [← hinner]
  exact Option.some.inj (hrendered.symm.trans hlist)

end Reexport.Edit
