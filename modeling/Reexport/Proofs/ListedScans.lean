import Reexport.Proofs.InterpreterLines
import Reexport.Proofs.ListedItems

/-!
# Scans of units with a list in the place of a star

A list in the place of a star changes one item of a unit. The items in front of it are the same,
though all their places are counted from further on, and their stars have the spans that they had.
The items behind it are the same, though they stand elsewhere in the text.

Results:

* `UseTree.form_map`: what a tree does, wherever its stars stand.
* `loosened_wild`: the trees in front of a list are those in front of the star.
* `Scan.items_listed`: the items of a unit with a list in the place of a star.
* `Readable.listed`: the scan of a unit with a list in the place of a star.
-/

namespace Reexport

open Source Grammar Text

/-! ## Forms -/

/-- Leaves with other knowledge of where the stars stand. -/
def Leaves.map {ι κ : Type} (f : ι → κ) (leaves : Leaves ι) : Leaves κ :=
  ⟨leaves.pins, leaves.stars.map fun star => ⟨star.path, f star.place, star.grouped⟩⟩

mutual

theorem UseTree.leaves_map {ι κ : Type} (f : ι → κ) : ∀ (tree : UseTree ι) (lead : List String) (grouped : Bool),
    (tree.map f).leaves lead grouped = (tree.leaves lead grouped).map f
  | .path segment rest, lead, grouped => rest.leaves_map f (lead ++ [segment]) grouped
  | .name _, _, _ => rfl
  | .rename _ _, _, _ => rfl
  | .glob _, _, _ => rfl
  | .group items, lead, _ => leavesAll_map f items lead

theorem leavesAll_map {ι κ : Type} (f : ι → κ) : ∀ (items : List (UseTree ι)) (lead : List String),
    leavesAll lead (mapAll f items) = (leavesAll lead items).map f
  | [], _ => rfl
  | tree :: rest, lead => by
    rw [mapAll, leavesAll, leavesAll, tree.leaves_map f lead true, leavesAll_map f rest lead]
    simp [Leaves.map, Leaves.append]

end

theorem UseTree.form_map {ι κ : Type} (f : ι → κ) (tree : UseTree ι) : (tree.map f).form = tree.form.map f := by
  unfold UseTree.form
  rw [tree.leaves_map f [] false]
  obtain ⟨pins, stars⟩ := tree.leaves [] false
  rcases stars with _ | ⟨⟨way, star, _ | _⟩, _ | ⟨other, rest⟩⟩ <;> rcases pins with _ | ⟨pin, pins⟩ <;> rfl

/-- The pins of a list of names after a path. -/
def listPins (path names : List String) : List Pin := names.map fun name => ⟨path, name, none⟩

theorem form_list {ι : Type} (path names : List String) :
    (UseTree.chain path (.group (names.map .name)) : UseTree ι).form = .explicit (listPins path names) := by
  have hall : leavesAll path (names.map (.name : String → UseTree ι)) = ⟨listPins path names, []⟩ := by
    induction names with
    | nil => rfl
    | cons name rest ih =>
      rw [List.map_cons, leavesAll, ih]
      rfl
  simp only [UseTree.form, UseTree.leaves_chain, UseTree.leaves, List.nil_append, hall]

/-! ## In front of a list -/

namespace Source

/-- Everything but the last mark stays where and what it is. -/
theorem Loosened.places {front front' : List Placed} (h : Loosened front front') :
    front'.map (fun x => (x.start, x.stop)) = front.map fun x => (x.start, x.stop) := by
  cases h with
  | same => rfl
  | last => simp

/-- Of the trees in front of a star only the last one may change, if it is a mark. -/
theorem Loosened.flattened {front front' : List Placed} {trees : List Tree} {t : Token}
    (h : Loosened front front') (hflat : front.map (·.lexeme) = flattenAll (trees ++ [.leaf t])) :
    ∃ t', front'.map (·.lexeme) = flattenAll (trees ++ [.leaf t']) ∧
      (t' = t ∨ ∃ c, t = .punct c true ∧ t' = .punct c false) := by
  cases h with
  | same => exact ⟨t, hflat, .inl rfl⟩
  | last front c start stop =>
    rw [List.map_append, flattenAll_append] at hflat
    obtain ⟨hfront, ht⟩ := List.append_inj' hflat rfl
    obtain rfl : Token.punct c true = t := Lexeme.token.inj (List.cons.inj ht).1
    refine ⟨.punct c false, ?_, .inr ⟨c, rfl, rfl⟩⟩
    rw [List.map_append, flattenAll_append, hfront]
    rfl

end Source

namespace Grammar

/-- The trees in front of the star of a wildcard, after its `use`. -/
def wildFront (root : Option Bool) (segments : List Segment) : List Tree :=
  .leaf (.word false "use") :: (rootTrees root ++ segmentTrees segments)

theorem wildFront_root (joint : Bool) :
    wildFront (some joint) [] = [.leaf (.word false "use"), .leaf (.punct ':' true)] ++ [.leaf (.punct ':' joint)] := rfl

theorem wildFront_segment (root : Option Bool) (segments : List Segment) (segment : Segment) :
    wildFront root (segments ++ [segment]) = .leaf (.word false "use") :: (rootTrees root ++ (segmentTrees segments ++
      [.leaf (.word segment.raw segment.name), .leaf (.punct ':' true)])) ++ [.leaf (.punct ':' segment.joint)] := by
  simp [wildFront, segmentTrees, Segment.trees]

/-- The trees in front of a list are those in front of the star, though the last `::` may have been
    joint with the star. -/
theorem loosened_wild {front front' : List Placed} {trees : List Tree} {root : Option Bool} {segments : List Segment}
    (hloose : Loosened front front') (h : front.map (·.lexeme) = flattenAll (trees ++ wildFront root segments)) :
    ∃ root' segments', root'.isSome = root.isSome ∧ SameWords segments segments' ∧
      front'.map (·.lexeme) = flattenAll (trees ++ wildFront root' segments') := by
  have hmark : ∀ {t' : Token} {joint : Bool}, (t' = .punct ':' joint ∨ ∃ c, Token.punct ':' joint = .punct c true ∧
      t' = .punct c false) → ∃ joint', t' = .punct ':' joint' := by
    rintro t' joint (rfl | ⟨c, heq, rfl⟩)
    · exact ⟨joint, rfl⟩
    · obtain ⟨rfl, -⟩ := Token.punct.inj heq
      exact ⟨false, rfl⟩
  rcases List.eq_nil_or_concat segments with rfl | ⟨others, segment, rfl⟩
  · cases root with
    | none =>
      obtain ⟨t', hfront', rfl | ⟨c, heq, -⟩⟩ := hloose.flattened h
      · exact ⟨none, [], rfl, rfl, hfront'⟩
      · cases heq
    | some joint =>
      rw [wildFront_root, ← List.append_assoc] at h
      obtain ⟨t', hfront', ht'⟩ := hloose.flattened h
      obtain ⟨joint', rfl⟩ := hmark ht'
      exact ⟨some joint', [], rfl, rfl, by rw [wildFront_root, ← List.append_assoc, hfront']⟩
  · rw [List.concat_eq_append, wildFront_segment, ← List.append_assoc] at h
    obtain ⟨t', hfront', ht'⟩ := hloose.flattened h
    obtain ⟨joint', rfl⟩ := hmark ht'
    refine ⟨root, others ++ [⟨segment.raw, segment.name, joint'⟩], rfl, by simp [SameWords], ?_⟩
    rw [wildFront_segment, ← List.append_assoc, hfront']

theorem flattenAll_wildTrees (front : List Tree) (root : Option Bool) (segments : List Segment) (joint ending : Bool)
    (back : List Tree) : flattenAll (front ++ wildTrees root segments joint ending back) =
      flattenAll (front ++ [.leaf (.word false "pub")] ++ wildFront root segments) ++
        starLexeme joint :: .token (.punct ';' ending) :: flattenAll back := by
  simp [wildTrees, wildFront, flattenAll_append, flattenAll, Tree.flatten, starTree, starLexeme]

theorem flattenAll_listedTrees (front : List Tree) (root : Option Bool) (segments : List Segment) (closed : Bool)
    (names : List String) (ending : Bool) (back : List Tree) :
    flattenAll (front ++ listedTrees root segments closed names ending back) =
      flattenAll (front ++ [.leaf (.word false "pub")] ++ wildFront root segments) ++
        (listLexemes closed names ++ .token (.punct ';' ending) :: flattenAll back) := by
  simp [listedTrees, wildFront, flattenAll_append, flattenAll, Tree.flatten, listLexemes]

theorem length_listLexemes (closed : Bool) (names : List String) :
    (listLexemes closed names).length = sizeAll (memberTrees closed names) + 2 := by
  rw [listLexemes, Tree.length_flatten, Tree.size]

end Grammar

/-! ## One list -/

namespace Scan

/-- A lexeme in front of a star stands where it stood once a list is in the place of the star. -/
theorem PlacedAt.moved {front front' : List Placed} {back back' : List Placed} {place : Place} {x : Placed}
    (hloose : Loosened front front') (hx : PlacedAt (front ++ back) place x) (hlt : back.length < place) {δ : Nat}
    (hδ : back'.length = back.length + δ) : ∃ x', PlacedAt (front' ++ back') (place + δ) x' ∧
      x'.start = x.start ∧ x'.stop = x.stop := by
  obtain ⟨before, after, hplaced, rfl⟩ := hx
  obtain ⟨middle, rfl, rfl⟩ : ∃ middle, front = before ++ x :: middle ∧ after = middle ++ back := by
    rcases List.append_eq_append_iff.1 hplaced with ⟨middle, hbefore, hback⟩ | ⟨middle, hfront, hafter⟩
    · have hlength := congrArg List.length hback
      simp only [List.length_append, List.length_cons] at hlength
      omega
    · cases middle with
      | nil =>
        have hlength := congrArg List.length hafter
        simp only [List.nil_append, List.length_cons] at hlength
        omega
      | cons first middle =>
        rw [List.cons_append, List.cons.injEq] at hafter
        obtain ⟨rfl, rfl⟩ := hafter
        exact ⟨middle, hfront, rfl⟩
  have hplaces := hloose.places
  rw [List.map_append, List.map_cons] at hplaces
  obtain ⟨before', others, rfl, -, hothers⟩ := List.map_eq_append_iff.1 hplaces
  obtain ⟨x', middle', rfl, hx', hmiddle⟩ := List.map_eq_cons_iff.1 hothers
  have hlength := congrArg List.length hmiddle
  simp only [List.length_map] at hlength
  refine ⟨x', ⟨before', middle' ++ back', by simp, ?_⟩, (Prod.mk.inj hx').1, (Prod.mk.inj hx').2⟩
  show 1 + (middle ++ back).length + δ = 1 + (middle' ++ back').length
  rw [List.length_append, List.length_append, hlength, hδ]
  omega

/-- The span of a lexeme that stands after `before`. -/
theorem span_of_after {lead : Nat} {before spelling after : List Char} {placed : List Placed} {place : Place} {x : Placed}
    (hx : PlacedAt placed place x) (hafter : x.After before spelling) :
    (Lexed.mk lead (before ++ (spelling ++ after)) placed.toArray).span place =
      ⟨lead + byteSize before, lead + byteSize (before ++ spelling)⟩ := by
  simp only [Lexed.span, Lexed.start, Lexed.stop, Lexed.offset, hx.at?, Option.elim_some, hafter.start, hafter.stop]
  rw [offsetAt_pastAll, ← List.append_assoc, offsetAt_pastAll]

/-- A star in front of another one stands in the text in front of it. -/
theorem exists_after_of_between {text v q : List Char} (hmark : withoutMark text = text) {placed : List Placed}
    (hlex : lexUnit text = .ok placed) {p p' : Place} {x y : Placed} {i j : Bool} (hx : PlacedAt placed p x)
    (hxstar : x.lexeme = starLexeme i) (hy : PlacedAt placed p' y) (hystar : y.lexeme = starLexeme j) (hlt : p' < p)
    (htext : text = v ++ '*' :: q) (hv : y.After v ['*']) : ∃ before between, v = before ++ (['*'] ++ between) ∧
      x.After before ['*'] := by
  obtain ⟨front, middle, back, rfl⟩ := hx.between hy hlt
  obtain ⟨before, between, after, hsplit, hfirst, hsecond⟩ :=
    lexUnit_tokens hmark hlex (spells_star i) hxstar (spells_star j) hystar
  have hwhole : v ++ '*' :: q = (before ++ (['*'] ++ between)) ++ (['*'] ++ after) := by
    rw [← htext, hsplit]
    simp
  have hsize : byteSize v = byteSize (before ++ (['*'] ++ between)) := by
    rw [← offsetAt_pastAll v ('*' :: q), ← hv.start, hsecond.start, hwhole, offsetAt_pastAll]
  exact ⟨before, between, (eq_of_byteSize_eq hwhole hsize).1, hfirst⟩

/-- A star in front of another one has the span that it had once a list is in the place of that
    other star. -/
theorem span_moved {lead : Nat} {v q : List Char} (hmark : withoutMark (v ++ '*' :: q) = v ++ '*' :: q)
    {front front' back back' : List Placed} {y : Placed} {j : Bool} (hlex : lexUnit (v ++ '*' :: q) = .ok (front ++ y :: back))
    (hystar : y.lexeme = starLexeme j) (hv : y.After v ['*']) (hloose : Loosened front front') {δ : Nat}
    (hδ : back'.length = (y :: back).length + δ) {place : Place} {x : Placed} {i : Bool}
    (hx : PlacedAt (front ++ y :: back) place x) (hxstar : x.lexeme = starLexeme i) (hlt : (y :: back).length < place)
    (w : List Char) : (Lexed.mk lead (v ++ w) (front' ++ back').toArray).span (place + δ) =
      (Lexed.mk lead (v ++ '*' :: q) (front ++ y :: back).toArray).span place := by
  have hy : PlacedAt (front ++ y :: back) (1 + back.length) y := ⟨front, back, rfl, rfl⟩
  rw [List.length_cons, Nat.add_comm] at hlt
  obtain ⟨before, between, rfl, hafter⟩ := exists_after_of_between hmark hlex hx hxstar hy hystar hlt rfl hv
  obtain ⟨x', hx', hstart, hstop⟩ := hx.moved hloose (by rwa [List.length_cons, Nat.add_comm]) hδ
  have hafter' : x'.After before ['*'] := ⟨hstart.trans hafter.start, hstop.trans hafter.stop⟩
  simp only [List.append_assoc, span_of_after hx hafter, span_of_after hx' hafter']

/-- What a unit holds with a list in the place of a star. -/
theorem items_listed {lead : Nat} {text : List Char} {lexed : Lexed} {before after : List Item} {u : UseItem}
    {first star : Place} {path : List String} (hmark : withoutMark text = text)
    (hopen : interpreterLeftOpen text = false) (h : items lead text = .ok (lexed, before ++ .imports u :: after))
    (hvis : u.visibility = .visible first) (htree : u.tree = .chain path (.glob star)) :
    ∃ v q, text = v ++ '*' :: q ∧ (lexed.span star).start = lead + byteSize v ∧
      ∀ {x : List Char} {closed : Bool} {names : List String}, Reads ('{' :: x) (listLexemes closed names) q →
        (∀ name ∈ names, Listable name) →
        withoutMark (v ++ '{' :: (x ++ q)) = v ++ '{' :: (x ++ q) ∧
        interpreterLeftOpen (v ++ '{' :: (x ++ q)) = false ∧
        ∃ lexed' δ, items lead (v ++ '{' :: (x ++ q)) =
            .ok (lexed', before.map (Item.moved δ) ++ .imports (u.listing δ path names) :: after) ∧
          ∀ item ∈ before, ∀ place, item.star? = some place → lexed'.span (place + δ) = lexed.span place := by
  obtain ⟨placed, trees, hlex, hnest, hparse, rfl⟩ := items_eq_ok h
  obtain ⟨hstars, hplaces⟩ := parseUnit_stars hparse
  obtain ⟨front, root, segments, joint, ending, back, rfl, -, hstar, hedit⟩ := parseUnit_listed hparse hvis htree
  -- the lexemes around the star
  have hplaced := (flattenAll_of_nest? hnest).symm
  rw [flattenAll_wildTrees] at hplaced
  obtain ⟨pf, others, rfl, hpf, hothers⟩ := List.map_eq_append_iff.1 hplaced
  obtain ⟨y, pb, rfl, hy, hpb⟩ := List.map_eq_cons_iff.1 hothers
  have hstar' : star = 1 + pb.length := by
    have hlength := congrArg List.length hpb
    rw [List.length_map, List.length_cons, length_flattenAll] at hlength
    exact hstar.trans (show 2 + sizeAll back = 1 + pb.length by omega)
  obtain ⟨v, q, rfl, hv, hreplace⟩ := lexUnit_replaceable hy hmark hopen hlex
  refine ⟨v, q, rfl, ?_, fun {x closed names} hreads hnames => ?_⟩
  · have hat : PlacedAt (pf ++ y :: pb) star y := ⟨pf, pb, rfl, hstar'⟩
    exact congrArg Span.start (span_of_after hat hv)
  · obtain ⟨hmark', hopen', pf', list, pb', hlex', hloose, hlist, hpb'⟩ := hreplace hreads
    replace hlist : list.map (·.lexeme) = listLexemes closed names := hlist
    obtain ⟨root', segments', hroot, hwords, hpf'⟩ := loosened_wild hloose hpf
    have hnest' : nest? ((pf' ++ (list ++ pb')).map (·.lexeme)) =
        some (front ++ listedTrees root' segments' closed names ending back) := by
      rw [← nest?_flatten, flattenAll_listedTrees, List.map_append, List.map_append, hpf', hlist, hpb', hpb]
    have hparse' := @hedit _ root' segments' closed names hroot hwords hnames rfl
    refine ⟨hmark', hopen', ⟨lead, v ++ '{' :: (x ++ q), (pf' ++ (list ++ pb')).toArray⟩, sizeAll (memberTrees closed names) + 1, ?_, ?_⟩
    · simp only [items, hlex', hnest', hparse']
    · intro item hitem place hplace
      obtain ⟨joint', hleaf⟩ := hplaces place (List.mem_filterMap.2 ⟨item, List.mem_append_left _ hitem, hplace⟩)
      obtain ⟨z, hz, hzstar⟩ := placedAt_of_leafAt hnest hleaf
      have hlt : (y :: pb).length < place := by
        rw [List.filterMap_append, List.pairwise_append] at hstars
        have hu : Item.star? (.imports u) = some star := by
          rw [Item.star?, form_eq_wildcard_iff.2 htree]
        have hgt := hstars.2.2 place (List.mem_filterMap.2 ⟨item, hitem, hplace⟩) star
          (List.mem_filterMap.2 ⟨_, List.mem_cons_self, hu⟩)
        rw [List.length_cons, Nat.add_comm, ← hstar']
        exact hgt
      refine span_moved hmark hlex hy hv hloose ?_ hz hzstar hlt ('{' :: (x ++ q))
      have hsize := congrArg List.length hlist
      have hsize' := congrArg List.length hpb'
      rw [List.length_map, length_listLexemes] at hsize
      rw [List.length_map, List.length_map] at hsize'
      rw [List.length_append, List.length_cons, hsize, hsize']
      omega

end Scan

/-! ## Scans -/

/-- The name and the kind of a symbol. -/
def Symbol.label (s : Symbol) : String × SymbolKind := (s.name, s.kind)

/-- What a directive does. -/
def Directive.meaning (d : Directive) : Bool × Form Span := (d.absolute, d.form)

/-- What a directive does, wherever its star stands. -/
def Directive.outline (d : Directive) : Bool × Form Unit := (d.absolute, d.form.map fun _ => ())

namespace Scan

variable {path : String} {lexed lexed' : Lexed}

theorem symbol?_moved (δ : Nat) (item : Item) :
    (symbol? path lexed' (item.moved δ)).map Symbol.label = (symbol? path lexed item).map Symbol.label := by
  cases item with
  | declaration vis kind name place =>
    cases vis with
    | visible first =>
      simp only [Item.moved, Visibility.moved, symbol?]
      split_ifs <;> rfl
    | inherited => rfl
    | restricted => rfl
  | imports u => rfl
  | other => rfl

theorem symbol?_label (item : Item) :
    (symbol? path lexed' item).map Symbol.label = (symbol? path lexed item).map Symbol.label := by
  have h := @symbol?_moved path lexed lexed' 0 item
  rwa [Item.moved_zero] at h

theorem directive?_moved {δ : Nat} {item : Item}
    (h : ∀ place, item.star? = some place → lexed'.span (place + δ) = lexed.span place) :
    (directive? path lexed' (item.moved δ)).map Directive.meaning = (directive? path lexed item).map Directive.meaning := by
  cases item with
  | declaration vis kind name place => rfl
  | other => rfl
  | imports u =>
    cases hvis : u.visibility with
    | inherited => simp only [Item.moved, UseItem.moved, Visibility.moved, directive?, hvis, Option.map_none]
    | restricted => simp only [Item.moved, UseItem.moved, Visibility.moved, directive?, hvis, Option.map_none]
    | visible first =>
      simp only [Item.moved, UseItem.moved, Visibility.moved, directive?, hvis, Option.map_some, Directive.meaning, directive,
        UseTree.form_map, Option.some.injEq, Prod.mk.injEq, true_and]
      cases hform : u.tree.form with
      | wildcard way place =>
        have hspan := h place (by rw [Item.star?, hform])
        simp only [Form.map, hspan]
      | explicit pins => rfl
      | ambiguous why => rfl

theorem directive?_outline (item : Item) :
    (directive? path lexed' item).map Directive.outline = (directive? path lexed item).map Directive.outline := by
  cases item with
  | declaration vis kind name place => rfl
  | other => rfl
  | imports u =>
    simp only [directive?]
    split
    · simp only [Option.map_some, Directive.outline, directive]
      cases u.tree.form <;> rfl
    · rfl
    · rfl

end Scan

theorem map_filterMap_congr {α β γ : Type} {f g : α → Option β} {label : β → γ} {l : List α}
    (h : ∀ a ∈ l, (f a).map label = (g a).map label) : (l.filterMap f).map label = (l.filterMap g).map label := by
  rw [List.map_filterMap, List.map_filterMap]
  exact List.filterMap_congr h

theorem exists_mark (cs : List Char) : ∃ mark, cs = mark ++ withoutMark cs ∧ (mark = [] ∨ mark = [byteOrderMark]) := by
  cases cs with
  | nil => exact ⟨[], rfl, .inl rfl⟩
  | cons c cs =>
    by_cases hc : c = byteOrderMark
    · exact ⟨[byteOrderMark], by rw [withoutMark, if_pos hc, hc]; rfl, .inr rfl⟩
    · exact ⟨[], by rw [withoutMark, if_neg hc]; rfl, .inl rfl⟩

theorem withoutMark_append {mark text : List Char} (hmark : mark = [] ∨ mark = [byteOrderMark])
    (h : withoutMark text = text) : withoutMark (mark ++ text) = text := by
  rcases hmark with rfl | rfl
  · exact h
  · rw [List.singleton_append, withoutMark, if_pos rfl]

/-- The scan of a text with its items. -/
theorem scan_of_items (path : String) {mark text : List Char} {lexed : Scan.Lexed} {items : List Item}
    (hmark : mark = [] ∨ mark = [byteOrderMark]) (htext : withoutMark text = text)
    (h : Scan.items (byteSize mark) text = .ok (lexed, items)) : scan path (String.ofList (mark ++ text)) =
      .ok ⟨path, String.ofList (mark ++ text), items.filterMap (Scan.symbol? path lexed),
        items.filterMap (Scan.directive? path lexed)⟩ := by
  have hlead : byteSize (mark ++ text) - byteSize text = byteSize mark := by
    rw [byteSize_append, Nat.add_sub_cancel]
  simp only [scan, String.toList_ofList, withoutMark_append hmark htext, hlead, h, bind, Except.bind, pure, Except.pure]

/-- A text with at most one byte order mark whose interpreter line leaves no comment open, and its
    scan. -/
structure Readable (path : String) (source : List Char) (found : Scan) : Prop where
  mark : withoutMark (withoutMark source) = withoutMark source
  line : interpreterLeftOpen (withoutMark source) = false
  scanned : scan path (String.ofList source) = .ok found

/-- What the scan of a unit is with a list in the place of a star. -/
theorem Readable.listed {path : String} {source : List Char} {found : Scan} (h : Readable path source found)
    {front back : List Directive} {d : Directive} {way : List String} {star : Span}
    (hd : found.directives = front ++ d :: back) (hform : d.form = .wildcard way star) :
    ∃ v q, source = v ++ '*' :: q ∧ byteSize v = star.start ∧
      ∀ {x : List Char} {closed : Bool} {names : List String}, Reads ('{' :: x) (listLexemes closed names) q →
        (∀ name ∈ names, Listable name) → ∃ found', Readable path (v ++ '{' :: (x ++ q)) found' ∧
          found'.symbols.map Symbol.label = found.symbols.map Symbol.label ∧
          ∃ front' d' back', found'.directives = front' ++ d' :: back' ∧
            front'.map Directive.meaning = front.map Directive.meaning ∧
            d'.meaning = (d.absolute, .explicit (listPins way names)) ∧
            back'.map Directive.outline = back.map Directive.outline := by
  obtain ⟨hmark, hopen, hscan⟩ := h
  obtain ⟨lexed, items, hitems, rfl⟩ := scan_eq_ok hscan
  rw [String.toList_ofList] at hitems
  obtain ⟨mark, hsource, hlead⟩ := exists_mark source
  obtain ⟨text, htext⟩ : ∃ text, text = withoutMark source := ⟨_, rfl⟩
  rw [← htext] at hmark hopen hitems hsource
  subst hsource
  rw [byteSize_append, Nat.add_sub_cancel] at hitems
  -- the item of the directive
  obtain ⟨left, right, rfl, rfl, hright⟩ := List.filterMap_eq_append_iff.1 hd
  obtain ⟨skipped, item, after, rfl, hskipped, hitem, rfl⟩ := List.filterMap_eq_cons_iff.1 hright
  obtain ⟨u, first, rfl, hvis, rfl⟩ := Scan.directive?_eq_some hitem
  have hfront : left.filterMap (Scan.directive? path lexed) = (left ++ skipped).filterMap (Scan.directive? path lexed) := by
    rw [List.filterMap_append, List.filterMap_eq_nil_iff.2 hskipped, List.append_nil]
  rw [← List.append_assoc] at hitems
  obtain ⟨place, hplace, rfl⟩ : ∃ place, u.tree.form = .wildcard way place ∧ lexed.span place = star := by
    simp only [Scan.directive] at hform
    cases htree : u.tree.form with
    | wildcard path place =>
      rw [htree] at hform
      obtain ⟨rfl, rfl⟩ := Form.wildcard.inj hform
      exact ⟨place, rfl, rfl⟩
    | explicit pins => rw [htree] at hform; cases hform
    | ambiguous why => rw [htree] at hform; cases hform
  obtain ⟨v, q, rfl, hstart, hlist⟩ := Scan.items_listed hmark hopen hitems hvis (form_eq_wildcard_iff.1 hplace)
  refine ⟨mark ++ v, q, by rw [List.append_assoc], by rw [byteSize_append, hstart], fun {x closed names} hreads hnames => ?_⟩
  obtain ⟨hmark', hopen', lexed', δ, hitems', hspan⟩ := hlist hreads hnames
  have hscan' := scan_of_items path hlead hmark' hitems'
  have hwithout := withoutMark_append hlead hmark'
  rw [← List.append_assoc] at hscan' hwithout
  refine ⟨_, ⟨by rw [hwithout, hmark'], by rw [hwithout, hopen'], hscan'⟩, ?_, ?_⟩
  · simp only [← List.append_assoc left]
    rw [List.filterMap_append, List.filterMap_append, List.filterMap_map, List.map_append, List.map_append,
      List.filterMap_cons_none rfl, List.filterMap_cons_none rfl]
    exact congrArg₂ _ (map_filterMap_congr fun item _ => Scan.symbol?_moved δ item)
      (map_filterMap_congr fun item _ => Scan.symbol?_label item)
  · have hvis' : (u.listing δ way names).visibility = .visible (first + δ) := by simp only [UseItem.listing, hvis, Visibility.moved]
    have hd' : Scan.directive? path lexed' (.imports (u.listing δ way names)) =
        some (Scan.directive path lexed' (first + δ) (u.listing δ way names)) := by
      simp only [Scan.directive?, hvis']
    have hdirectives := List.filterMap_append.trans
      (congrArg (((left ++ skipped).map (Item.moved δ)).filterMap (Scan.directive? path lexed') ++ ·)
        (List.filterMap_cons_some hd' (l := after)))
    refine ⟨_, _, _, hdirectives, ?_, ?_, ?_⟩
    · rw [hfront, List.filterMap_map]
      exact map_filterMap_congr fun item hitem => Scan.directive?_moved (hspan item hitem)
    · simp only [Directive.meaning, Scan.directive, UseItem.listing, form_list, Form.map]
    · exact map_filterMap_congr fun item _ => Scan.directive?_outline item

end Reexport
