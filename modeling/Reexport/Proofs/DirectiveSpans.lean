import Reexport.Proofs.LiteralEnds
import Reexport.Proofs.StarSpans

/-!
# What the spans of a unit hold

The parser counts places in lexemes, the lexer counts lines and columns of a text without its
byte order mark, and the spans of directives are byte ranges of the text with it. All three
agree: the span of a directive starts at its word `pub` and stops after its semicolon, and
the span of a star holds a star.

Results:

* `Source.lexUnit_tokens`: where two tokens of a unit stand in its text.
* `Grammar.parseUnit_ends`: where the first and last tokens of visible `use` items stand.
* `scan_spans`: what the spans of a unit's directives hold.
-/

namespace Reexport

open Source Grammar Text

/-! ## Words and semicolons -/

namespace Source

theorem anyWord?_of_token? {cs : List Char} {raw : Bool} {name : String} {n : Nat}
    (h : token? cs = some (.word raw name, n)) : anyWord? cs = some (raw, name, n) := by
  unfold token? at h
  split at h
  · cases h
  · split at h
    · cases h
    · split_ifs at h with hpunct hquote
      · -- an apostrophe starts no word
        unfold apostrophe? at h
        obtain ⟨⟨raw', name', n'⟩, -, h⟩ := Option.bind_eq_some_iff.1 h
        simp only at h
        split_ifs at h
        all_goals cases h
      · cases h
      · split at h
        · rename_i hword
          cases h
          unfold word? at hword
          split_ifs at hword
          exact hword
        · cases h
      · split at h
        · rename_i hword
          cases h
          unfold word? at hword
          split_ifs at hword
          exact hword
        · cases h

/-- The raw mark, where a word carries it. -/
def rawMark (raw : Bool) : List Char := if raw then ['r', '#'] else []

/-- A word is written with its name, behind the raw mark if it carries it. -/
theorem token?_word {cs : List Char} {raw : Bool} {name : String} {n : Nat} (h : token? cs = some (.word raw name, n)) :
    n = (rawMark raw ++ name.toList).length ∧ ∃ rest, cs = rawMark raw ++ name.toList ++ rest := by
  have hword := anyWord?_of_token? h
  rw [anyWord?_eq] at hword
  split_ifs at hword with hraw
  · obtain ⟨rest, rfl⟩ := List.isPrefixOf_iff_prefix.1 hraw
    obtain ⟨m, hm, h⟩ := Option.bind_eq_some_iff.1 hword
    split_ifs at h
    cases h
    rw [show (['r', '#'] ++ rest).drop 2 = rest from rfl] at hm ⊢
    rw [String.toList_ofList]
    refine ⟨?_, rest.drop m, ?_⟩
    · simp [rawMark, Nat.min_eq_left (wordLength?_le hm)]
    · simp [rawMark, List.take_append_drop]
  · obtain ⟨m, hm, h⟩ := Option.bind_eq_some_iff.1 hword
    cases h
    rw [String.toList_ofList]
    refine ⟨?_, cs.drop n, ?_⟩
    · simp [rawMark, Nat.min_eq_left (wordLength?_le hm)]
    · simp [rawMark, List.take_append_drop]

theorem spells_pub : (Token.word false "pub").Spells "pub".toList where
  read := token?_word
  plain inner text := by cases inner <;> simp [documentationLexemes]
  nonempty := by simp
  newline := by simp

theorem spells_semicolon (joint : Bool) : (Token.punct ';' joint).Spells [';'] :=
  spells_punct joint (by simp) (by simp)

/-! ## Tokens of a unit -/

/-- Without a second byte order mark a unit is lexed from its start or from the end of its
    interpreter line. -/
theorem lexUnit_eq {cs : List Char} (hmark : withoutMark cs = cs) : lexUnit cs = lex .first (withoutInterpreter cs) := by
  obtain ⟨line, hcs, -, hhead⟩ := withoutInterpreter_eq cs
  have hbody : withoutMark (withoutInterpreter cs) = withoutInterpreter cs := by
    rcases hhead with rfl | hhead
    · rw [← show cs = withoutInterpreter cs from hcs, hmark]
    · cases hinterpreter : withoutInterpreter cs with
      | nil => rfl
      | cons c rest =>
        have hc : c = '\n' := hhead c (by rw [hinterpreter]; rfl)
        rw [withoutMark, if_neg (by rw [hc]; decide)]
  simp only [lexUnit, hmark, hbody, if_true]

theorem lexUnit_line {cs : List Char} {placed : List Placed} (hmark : withoutMark cs = cs)
    (h : lexUnit cs = .ok placed) : ∃ line body, cs = line ++ body ∧ '\n' ∉ line ∧
      (line = [] ∨ ∀ c ∈ body.head?, c = '\n') ∧ lex .first body = .ok placed := by
  obtain ⟨line, hcs, hline, hhead⟩ := withoutInterpreter_eq cs
  exact ⟨line, withoutInterpreter cs, hcs, hline, hhead, by rw [← lexUnit_eq hmark, h]⟩

/-- Behind an interpreter line locations are counted as if the line were there. -/
theorem pastAll_line {line part : List Char} (hline : '\n' ∉ line) (h : line = [] ∨ '\n' ∈ part) :
    Location.first.pastAll (line ++ part) = Location.first.pastAll part := by
  rcases h with rfl | h
  · rfl
  · rw [Location.pastAll_append, Location.pastAll_of_no_newline _ hline]
    exact Location.pastAll_of_newline _ _ _ h

/-- The lexeme is spelled `spelling` and stands after `before`. -/
structure Placed.After (x : Placed) (before spelling : List Char) : Prop where
  start : x.start = Location.first.pastAll before
  stop : x.stop = Location.first.pastAll (before ++ spelling)

/-- Where two tokens of a unit stand. -/
theorem lexUnit_tokens {cs : List Char} (hmark : withoutMark cs = cs) {front middle back : List Placed}
    {x y : Placed} (h : lexUnit cs = .ok (front ++ x :: (middle ++ y :: back))) {t u : Token}
    {first second : List Char} (ht : t.Spells first) (hx : x.lexeme = .token t) (hu : u.Spells second)
    (hy : y.lexeme = .token u) : ∃ before between after,
      cs = before ++ (first ++ (between ++ (second ++ after))) ∧ x.After before first ∧
        y.After (before ++ (first ++ between)) second := by
  obtain ⟨line, body, rfl, hline, hhead, hlex⟩ := lexUnit_line hmark h
  obtain ⟨last, hpasses⟩ := lexFrom_passes hlex
  obtain ⟨here, stack, after, hfront, rfl, -, hrest⟩ := hpasses.at_token ht rfl hx
  obtain ⟨here', stack', after', hmiddle, rfl, -, -⟩ := hrest.at_token hu rfl hy
  obtain ⟨part, hbody, hhere⟩ := hfront.passed
  obtain ⟨between, hafter, hhere'⟩ := hmiddle.passed
  simp only at hbody hhere hafter hhere'
  subst hhere hhere' hafter hbody
  have hpart : line = [] ∨ '\n' ∈ part := by
    rcases hhead with hhead | hhead
    · exact .inl hhead
    · cases part with
      | cons c part =>
        obtain rfl := hhead c rfl
        exact .inr List.mem_cons_self
      | nil =>
        -- the token would start with a newline
        cases first with
        | nil => exact absurd rfl ht.nonempty
        | cons c first =>
          obtain rfl := hhead c rfl
          exact absurd List.mem_cons_self ht.newline
  refine ⟨line ++ part, between, after', by simp, ⟨?_, ?_⟩, ⟨?_, ?_⟩⟩
  all_goals
    simp only [Location.pastAll_append, ← pastAll_line hline hpart]

end Source

/-! ## Visible use items -/

namespace Grammar

/-- The places of the word `pub` and of the semicolon of a visible `use` item. -/
def Item.ends? : Item → Option (Place × Place)
  | .imports u =>
    match u.visibility with
    | .visible first => some (first, u.semicolon)
    | .inherited | .restricted => none
  | .declaration .. | .other => none

/-- Where the tokens of a visible `use` item stand. -/
structure Item.EndsAt (item : Item) (first last : Place) (trees : List Tree) (after : Nat) : Prop where
  pub : LeafAt (.word false "pub") first trees after
  semicolon : ∃ ending, LeafAt (.punct ';' ending) last trees after
  order : last < first
  star : ∀ star, item.star? = some star →
    (∃ joint, LeafAt (.punct '*' joint) star trees after) ∧ last < star ∧ star < first

theorem item_ends {fuel : Nat} {s later : State} {item : Item} {first last : Place}
    (h : parse fuel .item s = .ok item later) (hends : item.ends? = some (first, last)) :
    item.EndsAt first last s.rest s.after ∧ later.place < last := by
  unfold Item.ends? at hends
  split at hends
  · rename_i u
    split at hends
    · rename_i place hplace
      cases hends
      obtain ⟨front, root, body, ending, hrest, hafter, hat⟩ := item_written h hplace
      have hfirst : @Eq Nat first (sizeAll (itemTrees root body ending later.rest) + s.after) :=
        Visibility.visible.inj (hplace.symm.trans hat.visibility)
      have hlast : @Eq Nat u.semicolon (1 + (sizeAll later.rest + s.after)) := hat.semicolon
      have hlater : @Eq Nat later.place (sizeAll later.rest + s.after) := by rw [State.place, hafter]
      refine ⟨⟨⟨front, _, hrest, hfirst.trans (Nat.add_assoc 1 _ _)⟩, ⟨ending, front ++ .leaf (.word false "pub") ::
        .leaf (.word false "use") :: (rootTrees root ++ body), later.rest, by rw [hrest]; simp [itemTrees], hlast⟩, ?_,
        fun star hstar => ?_⟩, ?_⟩
      · rw [sizeAll_itemTrees] at hfirst
        show (_ : Nat) < _
        omega
      · obtain ⟨u, path, heq, htree⟩ := Item.star?_eq_some hstar
        cases heq
        have hwritten := hat.tree
        rw [htree] at hwritten
        obtain ⟨segments, rest, rfl, -, rfl, hglob⟩ := written_chain_iff.1 hwritten
        cases hglob with
        | glob joint =>
          refine ⟨⟨joint, front ++ .leaf (.word false "pub") :: .leaf (.word false "use") ::
            (rootTrees root ++ segmentTrees segments), .leaf (.punct ';' ending) :: later.rest,
            by rw [hrest]; simp [itemTrees, starTree], ?_⟩, ?_, ?_⟩
          · simp only [sizeAll, Tree.size, Nat.add_assoc]
          · show (_ : Nat) < _
            omega
          · rw [sizeAll_itemTrees] at hfirst
            show (_ : Nat) < _
            omega
      · show (_ : Nat) < _
        omega
    · cases hends
    · cases hends
  · cases hends
  · cases hends

/-- Where the tokens of visible `use` items stand, one item after the other. -/
theorem parseUnit_ends {trees : List Tree} {items : List Item} (h : parseUnit trees = .ok items) :
    (items.filterMap Item.ends?).Pairwise (fun a b => b.1 < a.2) ∧
      ∀ item ∈ items, ∀ first last, item.ends? = some (first, last) → item.EndsAt first last trees 0 := by
  obtain ⟨s, before, hitems, rfl, hafter⟩ := items_of_parseUnit h
  constructor
  · refine List.pairwise_filterMap.2 (Items.pairwise ?_ hitems)
    intro fuel fuel' s middle s₁ later a b ha hleads hb (first, last) hends (first', last') hends'
    obtain ⟨-, hlt⟩ := item_ends ha hends
    obtain ⟨hat, -⟩ := item_ends hb hends'
    exact Nat.lt_of_le_of_lt (LeafAt.of_leads hleads hat.pub).le_place hlt
  · intro item hitem first last hends
    obtain ⟨fuel, s₁, later, hleads, hparse⟩ := hitems.of_mem item hitem
    obtain ⟨hat, -⟩ := item_ends hparse hends
    have hback : ∀ {t : Token} {place : Place}, LeafAt t place s₁.rest s₁.after →
        LeafAt t place (before ++ s.rest) 0 := fun h => hafter ▸ (LeafAt.of_leads hleads h).append before
    obtain ⟨ending, hsemicolon⟩ := hat.semicolon
    refine ⟨hback hat.pub, ⟨ending, hback hsemicolon⟩, hat.order, fun star hstar => ?_⟩
    obtain ⟨⟨joint, hleaf⟩, horder⟩ := hat.star star hstar
    exact ⟨⟨joint, hback hleaf⟩, horder⟩

end Grammar

/-! ## Spans -/

namespace Scan

variable {mark text : List Char}

theorem offset_pastAll {before after : List Char} {lexemes : Array Placed} :
    (Lexed.mk (byteSize mark) (before ++ after) lexemes).offset (Location.first.pastAll before) =
      byteSize (mark ++ before) := by
  rw [Lexed.offset, offsetAt_pastAll, byteSize_append]

/-- What two tokens of a unit span, counted with the mark in front of its text. -/
theorem span_of_leaves {placed : List Placed} {trees : List Tree} (hmark : withoutMark text = text)
    (hlex : lexUnit text = .ok placed) (hnest : nest? (placed.map (·.lexeme)) = some trees)
    {t u : Token} {first second : List Char} {p q : Place} (ht : t.Spells first) (hp : LeafAt t p trees 0)
    (hu : u.Spells second) (hq : LeafAt u q trees 0) (hlt : q < p) : ∃ before between after,
      mark ++ text = before ++ (first ++ (between ++ (second ++ after))) ∧
      (Lexed.mk (byteSize mark) text placed.toArray).span p =
        ⟨byteSize before, byteSize (before ++ first)⟩ ∧
      (Lexed.mk (byteSize mark) text placed.toArray).span q =
        ⟨byteSize (before ++ (first ++ between)), byteSize (before ++ (first ++ (between ++ second)))⟩ := by
  obtain ⟨x, hx, hxt⟩ := placedAt_of_leafAt hnest hp
  obtain ⟨y, hy, hyu⟩ := placedAt_of_leafAt hnest hq
  obtain ⟨front, middle, back, rfl⟩ := hx.between hy hlt
  obtain ⟨before, between, after, htext, hfirst, hsecond⟩ := lexUnit_tokens hmark hlex ht hxt hu hyu
  refine ⟨mark ++ before, between, after, by rw [htext, List.append_assoc], ?_, ?_⟩
  all_goals simp only [Lexed.span, Lexed.start, Lexed.stop, hx.at?, hy.at?, Option.elim_some, Span.mk.injEq]
  · rw [hfirst.start, hfirst.stop]
    constructor
    · rw [htext, offset_pastAll]
    · rw [htext, ← List.append_assoc, offset_pastAll, List.append_assoc]
  · rw [hsecond.start, hsecond.stop]
    have hleft : before ++ (first ++ (between ++ (second ++ after))) =
        before ++ (first ++ between) ++ (second ++ after) := by simp
    constructor
    · rw [htext, hleft, offset_pastAll, List.append_assoc]
    · rw [htext, hleft, ← List.append_assoc _ second, offset_pastAll]
      simp

end Scan

/-- Where a directive stands in the text of its unit, and its star in it. -/
structure Directive.Spans (d : Directive) (source : List Char) : Prop where
  text : ∃ middle, d.span.text? source = some ("pub".toList ++ (middle ++ [';']))
  line : ∃ before after, source = before ++ after ∧ byteSize before = d.span.start ∧
    d.line = before.count '\n' + 1
  star : ∀ star, d.star? = some star →
    d.span.start ≤ star.start ∧ star.stop ≤ d.span.stop ∧ star.text? source = some ['*']

namespace Scan

section Items

variable {path : String} {mark text : List Char} {lexed : Lexed} {found : List Item}
  (hmark : withoutMark text = text) (hitems : items (byteSize mark) text = .ok (lexed, found))

include hmark hitems

theorem spans_of_item (hnewline : '\n' ∉ mark) {item : Item} (hitem : item ∈ found) {d : Directive}
    (hd : directive? path lexed item = some d) : d.Spans (mark ++ text) := by
  obtain ⟨placed, trees, hlex, hnest, hparse, rfl⟩ := items_eq_ok hitems
  have hstars := fun span => @star_of_directive? path _ item d span hd
  obtain ⟨u, first, rfl, hvis, rfl⟩ := directive?_eq_some hd
  have hends := (parseUnit_ends hparse).2 _ hitem first u.semicolon (by simp only [Item.ends?, hvis])
  obtain ⟨ending, hsemicolon⟩ := hends.semicolon
  obtain ⟨before, between, after, hsource, hpub, hlast⟩ := @span_of_leaves mark text placed trees hmark hlex hnest _ _ _ _ _ _
    spells_pub hends.pub (spells_semicolon ending) hsemicolon hends.order
  have hstart := congrArg Span.start hpub
  have hstop := congrArg Span.stop hlast
  refine ⟨⟨between, ?_⟩, ?_, fun span hspan => ?_⟩
  · have hspan : (directive path _ first u).span =
        ⟨byteSize before, byteSize (before ++ ("pub".toList ++ (between ++ [';'])))⟩ :=
      congrArg₂ Span.mk hstart hstop
    have hslice := slice?_append before ("pub".toList ++ (between ++ [';'])) after
    rw [hspan, Span.text?, hsource]
    simpa [byteSize_append, Nat.add_assoc] using hslice
  · obtain ⟨part, rfl, hpart⟩ := exists_append_of_byteSize_le hsource (by
      rw [← show _ = byteSize before from hstart]
      exact Nat.le_add_right _ _)
    refine ⟨mark ++ part, _, hsource, hstart.symm, ?_⟩
    have hoffset : offsetAt text ((Lexed.mk (byteSize mark) text placed.toArray).start first) = byteSize part := by
      have hsum : byteSize mark + offsetAt text ((Lexed.mk (byteSize mark) text placed.toArray).start first) =
        byteSize (mark ++ part) := hstart
      rw [byteSize_append] at hsum
      exact Nat.add_left_cancel hsum
    show lineAt text (offsetAt text _) = _
    rw [hoffset, hpart, lineAt_append, List.count_append, List.count_eq_zero.2 hnewline, Nat.zero_add]
  · obtain ⟨star, hstar, rfl⟩ := hstars span hspan
    obtain ⟨⟨joint, hleaf⟩, hlow, hhigh⟩ := hends.star star hstar
    obtain ⟨b₁, m₁, a₁, hsource₁, hpub₁, hstar₁⟩ := @span_of_leaves mark text placed trees hmark hlex hnest _ _ _ _ _ _
      spells_pub hends.pub (spells_star joint) hleaf hhigh
    obtain ⟨b₂, m₂, a₂, -, hstar₂, hlast₂⟩ := @span_of_leaves mark text placed trees hmark hlex hnest _ _ _ _ _ _
      (spells_star joint) hleaf (spells_semicolon ending) hsemicolon hlow
    refine ⟨?_, ?_, ?_⟩
    · show (Lexed.span _ first).start ≤ _
      rw [hpub₁, hstar₁]
      simp
    · show _ ≤ (Lexed.span _ u.semicolon).stop
      rw [hstar₂, hlast₂]
      simp only [byteSize_append]
      omega
    · have hslice := slice?_append (b₁ ++ ("pub".toList ++ m₁)) ['*'] a₁
      rw [hstar₁, Span.text?, hsource₁]
      simpa [byteSize_append, Nat.add_assoc] using hslice

theorem spans_increase : (found.filterMap (directive? path lexed)).Pairwise fun a b =>
    a.span.stop ≤ b.span.start := by
  obtain ⟨placed, trees, hlex, hnest, hparse, rfl⟩ := items_eq_ok hitems
  obtain ⟨hpairwise, hends⟩ := parseUnit_ends hparse
  refine List.pairwise_filterMap.2 ((List.pairwise_filterMap.1 hpairwise).imp_of_mem ?_)
  intro a b ha hb hlt d hd d' hd'
  obtain ⟨u, first, rfl, hvis, rfl⟩ := directive?_eq_some hd
  obtain ⟨u', first', rfl, hvis', rfl⟩ := directive?_eq_some hd'
  have hu : Item.ends? (.imports u) = some (first, u.semicolon) := by simp only [Item.ends?, hvis]
  have hu' : Item.ends? (.imports u') = some (first', u'.semicolon) := by simp only [Item.ends?, hvis']
  obtain ⟨ending, hsemicolon⟩ := (hends _ ha _ _ hu).semicolon
  obtain ⟨before, between, after, -, hlast, hpub⟩ := @span_of_leaves mark text placed trees hmark hlex hnest _ _ _ _ _ _
    (spells_semicolon ending) hsemicolon spells_pub (hends _ hb _ _ hu').pub (hlt _ hu _ hu')
  show (Lexed.span _ u.semicolon).stop ≤ (Lexed.span _ first').start
  rw [hlast, hpub]
  simp

end Items

end Scan

/-- **Spans hold what they are spans of.** In a unit with at most one byte order mark the span of
    a directive runs from its `pub` to its semicolon, its line is the line of that `pub`, and the
    span of its star lies in it and holds a star. The spans of directives come one after the
    other. So no two stars have one span, and edits for stars of the unit are never stale. -/
theorem scan_spans {path source : String} {found : Scan}
    (hmark : withoutMark (withoutMark source.toList) = withoutMark source.toList)
    (h : scan path source = .ok found) :
    (∀ d ∈ found.directives, d.Spans source.toList) ∧
    found.directives.Pairwise (fun a b => a.span.stop ≤ b.span.start) ∧
    (found.directives.filterMap Directive.star?).Nodup ∧
    ∀ (edits : List Edit) (width : Nat),
      (∀ e ∈ edits, ∃ d ∈ found.directives, d.star? = some e.star) →
      ∃ planned, planEdits source edits width = .ok planned := by
  have hstars := scan_stars h
  obtain ⟨lexed, items, hitems, rfl⟩ := scan_eq_ok h
  obtain ⟨mark, hsource, hnewline⟩ := withoutMark_eq source.toList
  have hlead : byteSize source.toList - byteSize (withoutMark source.toList) = byteSize mark := by
    have hsize := congrArg byteSize hsource
    rw [byteSize_append] at hsize
    omega
  rw [hlead] at hitems
  have hspans : ∀ d ∈ items.filterMap (Scan.directive? path lexed), d.Spans source.toList := by
    intro d hd
    obtain ⟨item, hitem, hd⟩ := List.mem_filterMap.1 hd
    rw [hsource]
    exact Scan.spans_of_item hmark hitems hnewline hitem hd
  refine ⟨hspans, Scan.spans_increase hmark hitems, ?_, fun edits width hedits => ?_⟩
  · refine List.pairwise_filterMap.2 (hstars.imp ?_)
    intro a b hlt star hstar star' hstar' heq
    have := hlt star hstar star' hstar'
    rw [heq] at this
    exact Nat.lt_irrefl _ this
  · refine Edit.exists_planned width fun e he => ?_
    obtain ⟨d, hd, hstar⟩ := hedits e he
    exact ((hspans d hd).star e.star hstar).2.2

/-- A unit with a byte order mark, wide characters, carriage returns and a comment inside an item. -/
def markedText : String :=
  "\uFEFF// é\r\npub use é::*;\r\n#[a] pub /* ü */ use b::\x7bc, d\x7d; pub use f::*;"

theorem scan_spans_marked :
    withoutMark (withoutMark markedText.toList) = withoutMark markedText.toList ∧
    ∃ found, scan "lib.rs" markedText = .ok found ∧
      found.directives.map (fun d => (d.span, d.line, d.star?)) =
        [(⟨10, 24⟩, 2, some ⟨22, 23⟩), (⟨31, 58⟩, 3, none), (⟨59, 72⟩, 3, some ⟨70, 71⟩)] ∧
      (∀ d ∈ found.directives, d.Spans markedText.toList) ∧
      ∃ planned, planEdits markedText [⟨⟨70, 71⟩, []⟩, ⟨⟨22, 23⟩, ["x", "y"]⟩] 80 = .ok planned := by
  have hmark : withoutMark (withoutMark markedText.toList) = withoutMark markedText.toList := by
    decide +kernel
  have hfound : (scan "lib.rs" markedText).toOption.map (fun found =>
      found.directives.map fun d => (d.span, d.line, d.star?)) =
      some [(⟨10, 24⟩, 2, some ⟨22, 23⟩), (⟨31, 58⟩, 3, none), (⟨59, 72⟩, 3, some ⟨70, 71⟩)] := by
    decide +kernel
  cases hscan : scan "lib.rs" markedText with
  | error line =>
    rw [hscan] at hfound
    cases hfound
  | ok found =>
    rw [hscan] at hfound
    have hdirectives := Option.some.inj hfound
    obtain ⟨hspans, -, -, hplan⟩ := scan_spans hmark hscan
    refine ⟨hmark, found, rfl, hdirectives, hspans, hplan _ 80 fun e he => ?_⟩
    have hstars : found.directives.map Directive.star? = [some ⟨22, 23⟩, none, some ⟨70, 71⟩] := by
      have hmap := congrArg (List.map fun entry => entry.2.2) hdirectives
      rwa [List.map_map] at hmap
    have hmem : some e.star ∈ found.directives.map Directive.star? := by
      rw [hstars]
      rcases List.mem_pair.1 he with rfl | rfl <;> decide
    obtain ⟨d, hd, hstar⟩ := List.mem_map.1 hmem
    exact ⟨d, hd, hstar⟩

end Reexport
