import Reexport.Proofs.DirectiveSpans
import Reexport.Proofs.ListedScans
import Reexport.Proofs.UseTrees

/-!
# The trees of directives

The grammar reads a use tree just where one is written, and no two use trees are written alike,
so a directive has one tree, which stands between its `pub use` and its semicolon. What the tree
is decides the form of the directive.

Results:

* `parseUnit_written`, `parseUnit_of_written`: the visible `use` items of a unit.
* `readFrom_of_scan`, `Directive.ReadFrom.unique`: the tree of a directive.
* `scan_of_written`: a unit of visible `use` items has their directives.
* `use_trees_flattened`: which forms directives have.
-/

namespace Reexport

namespace Grammar

open Source

/-! ## Units -/

/-- What a unit says with a visible `use` item. -/
theorem parseUnit_written {trees : List Tree} {items : List Item} (h : parseUnit trees = .ok items) {u : UseItem}
    {first : Place} (hu : .imports u ∈ items) (hvis : u.visibility = .visible first) :
    ∃ front root body ending back, trees = front ++ itemTrees root body ending back ∧ u.At root body ending back 0 := by
  obtain ⟨s, before, hitems, rfl, hafter⟩ := items_of_parseUnit h
  obtain ⟨fuel, s₁, later, hleads, hparse⟩ := hitems.of_mem _ hu
  obtain ⟨front, root, body, ending, hrest, -, hat⟩ := item_written hparse hvis
  obtain ⟨middle, hmiddle⟩ := hleads.rest
  rw [hleads.after, hafter] at hat
  exact ⟨before ++ (middle ++ front), root, body, ending, later.rest, by rw [← hmiddle, hrest]; simp, hat⟩

/-- Units that hold nothing but visible `use` items. -/
inductive WrittenItems : List (Bool × UseTree Place) → List Tree → Prop where
  | nil : WrittenItems [] []
  | cons {root : Option Bool} {tree : UseTree Place} {items : List (Bool × UseTree Place)}
      {body back : List Tree} (ending : Bool) :
      Written (1 + sizeAll back) tree body → WrittenItems items back →
      WrittenItems ((root.isSome, tree) :: items) (itemTrees root body ending back)

/-- A visible `use` item and whether its tree starts with `::`. -/
def Item.imported? : Item → Option (Bool × UseTree Place)
  | .imports ⟨.visible _, _, absolute, tree, _⟩ => some (absolute, tree)
  | _ => none

theorem items_of_written {items : List (Bool × UseTree Place)} {trees : List Tree} (h : WrittenItems items trees) :
    ∀ {fuel : Nat} {s : State}, s.rest = trees → s.after = 0 → sizeAll trees + 2 < fuel →
    ∃ found braced, parse fuel .items s = .ok found ⟨[], 0, s.stray, braced⟩ ∧
      found.map Item.imported? = items.map some := by
  induction h with
  | nil =>
    intro fuel s hrest hafter hfuel
    obtain ⟨fuel, rfl⟩ : ∃ n, fuel = n + 1 := ⟨fuel - 1, by omega⟩
    obtain ⟨rest, after, stray, braced⟩ := s
    obtain rfl : rest = [] := hrest
    obtain rfl : after = 0 := hafter
    exact ⟨[], braced, by rw [parse_items, if_pos (read?_nothing.2 rfl)], rfl⟩
  | @cons root tree items body back ending hwritten _ ih =>
    intro fuel s hrest hafter hfuel
    have hdepth := hwritten.depth_le
    rw [sizeAll_itemTrees] at hfuel
    obtain ⟨fuel, rfl⟩ : ∃ n, fuel = n + 3 := ⟨fuel - 3, by omega⟩
    obtain ⟨u, hitem, rfl, hat⟩ := @item_of_written fuel s root body back ending tree hrest
      (by rwa [hafter, Nat.add_zero]) (by omega)
    obtain ⟨found, braced, hitems, hfound⟩ := @ih (fuel + 2) ⟨back, s.after, s.stray, false⟩ rfl hafter (by omega)
    refine ⟨.imports u :: found, braced, ?_, ?_⟩
    · rw [parse_items, if_neg (by rw [hrest]; simp [itemTrees, Class.read?]), hitem, Outcome.bind_ok, hitems,
        Outcome.bind_ok]
    · obtain ⟨vis, word, absolute, tree, semicolon⟩ := u
      obtain ⟨rfl, rfl, -, -⟩ := hat
      rw [List.map_cons, List.map_cons, hfound]
      rfl

/-- A unit that holds nothing but visible `use` items is read as these items. -/
theorem parseUnit_of_written {items : List (Bool × UseTree Place)} {trees : List Tree} (h : WrittenItems items trees) :
    ∃ found, parseUnit trees = .ok found ∧
      found.map Item.imported? = items.map some := by
  obtain ⟨fuel, hfuel⟩ : ∃ fuel, 64 * (sizeAll trees + 2) = fuel + 2 := ⟨64 * (sizeAll trees + 2) - 2, by omega⟩
  have hattributes : parse (fuel + 1) .innerAttributes ⟨trees, 0, none, false⟩ = .ok () ⟨trees, 0, none, false⟩ := by
    cases h <;> rfl
  obtain ⟨found, braced, hitems, hfound⟩ := @items_of_written _ _ h (fuel + 1) ⟨trees, 0, none, false⟩ rfl rfl (by omega)
  refine ⟨found, ?_, hfound⟩
  rw [parseUnit, hfuel, parse_unit, hattributes, Outcome.bind_ok, hitems]
  rfl

end Grammar

/-! ## Directives -/

open Source Grammar Text

/-- The lexemes of a unit in its text. -/
def Scan.lexed (source : String) (placed : List Placed) : Scan.Lexed :=
  ⟨byteSize source.toList - byteSize (withoutMark source.toList), withoutMark source.toList, placed.toArray⟩

/-- The directive is an item among the lexemes of its unit, from `pub` to the semicolon, with this tree. -/
def Directive.ReadFrom (d : Directive) (source : String) (placed : List Placed) (tree : UseTree Place) : Prop :=
  ∃ front root body ending back,
    nest? (placed.map (·.lexeme)) = some (front ++ itemTrees root body ending back) ∧
    d.span = ⟨((Scan.lexed source placed).span (sizeAll (itemTrees root body ending back))).start,
      ((Scan.lexed source placed).span (1 + sizeAll back)).stop⟩ ∧
    d.absolute = root.isSome ∧ Written (1 + sizeAll back) tree body

/-- Every directive of a unit has a tree, which stands in its span and decides its form. -/
theorem readFrom_of_scan {path source : String} {found : Scan} (h : scan path source = .ok found) :
    ∃ placed, lexUnit (withoutMark source.toList) = .ok placed ∧ ∀ d ∈ found.directives, ∃ tree,
      d.ReadFrom source placed tree ∧ d.form = (tree.map (Scan.lexed source placed).span).form := by
  obtain ⟨lexed, items, hitems, rfl⟩ := scan_eq_ok h
  obtain ⟨placed, trees, hlex, hnest, hparse, rfl⟩ := Scan.items_eq_ok hitems
  refine ⟨placed, hlex, fun d hd => ?_⟩
  obtain ⟨item, hitem, hd⟩ := List.mem_filterMap.1 hd
  obtain ⟨u, first, rfl, hvis, rfl⟩ := Scan.directive?_eq_some hd
  obtain ⟨front, root, body, ending, back, rfl, hat⟩ := parseUnit_written hparse hitem hvis
  have hfirst := hat.visibility
  rw [hvis] at hfirst
  cases hfirst
  refine ⟨u.tree, ⟨front, root, body, ending, back, hnest, ?_, hat.absolute, hat.tree⟩, ?_⟩
  · rw [Scan.directive, hat.semicolon]
    rfl
  · rw [UseTree.form_map]
    rfl

/-- Ends of one sequence of trees are equal when they have the same number of lexemes. -/
theorem eq_of_append_eq {front front' back back' : List Tree} (h : front ++ back = front' ++ back')
    (hsize : sizeAll back = sizeAll back') : back = back' := by
  have hnil : ∀ {middle trees : List Tree}, sizeAll (middle ++ trees) = sizeAll trees → middle = [] := by
    rintro (_ | ⟨_ | _, _⟩) trees hsize
    · rfl
    all_goals
      rw [sizeAll_append] at hsize
      simp only [sizeAll, Tree.size] at hsize
      omega
  rcases List.append_eq_append_iff.1 h with ⟨middle, -, rfl⟩ | ⟨middle, -, rfl⟩
  · rw [hnil hsize, List.nil_append]
  · rw [hnil hsize.symm, List.nil_append]

/-- The span of a directive tells which item it is. -/
theorem Directive.ReadFrom.unique {d : Directive} {source : String} {placed : List Placed} {tree tree' : UseTree Place}
    (hlex : lexUnit (withoutMark source.toList) = .ok placed) (h : d.ReadFrom source placed tree)
    (h' : d.ReadFrom source placed tree') : tree = tree' := by
  obtain ⟨front, root, body, ending, back, hnest, hspan, -, hwritten⟩ := h
  obtain ⟨front', root', body', ending', back', hnest', hspan', -, hwritten'⟩ := h'
  have htrees := Option.some.inj (hnest.symm.trans hnest')
  have hplaced : ∀ {front back : List Tree}, nest? (placed.map (·.lexeme)) = some (front ++ .leaf (.word false "pub") :: back) →
      ∃ x, Scan.PlacedAt placed (sizeAll (.leaf (.word false "pub") :: back)) x ∧ x.lexeme = .token (.word false "pub") :=
    fun hnest => Scan.placedAt_of_leafAt hnest ⟨_, _, rfl, by simp [sizeAll, Tree.size]⟩
  obtain ⟨x, hx, hxpub⟩ := hplaced hnest
  obtain ⟨y, hy, hypub⟩ := hplaced hnest'
  have hoffset : offsetAt (withoutMark source.toList) x.start = offsetAt (withoutMark source.toList) y.start := by
    have hstart := congrArg Span.start (hspan.symm.trans hspan')
    simp only [Scan.Lexed.span, Scan.Lexed.start, Scan.lexed, itemTrees, hx.at?, hy.at?, Option.elim_some,
      Scan.Lexed.offset] at hstart
    exact Nat.add_left_cancel hstart
  have hlater : ∀ {p q : Place} {x y : Placed}, Scan.PlacedAt placed p x → Scan.PlacedAt placed q y →
      x.lexeme = .token (.word false "pub") → y.lexeme = .token (.word false "pub") → q < p →
      offsetAt (withoutMark source.toList) x.start < offsetAt (withoutMark source.toList) y.start := by
    intro p q x y hx hy hxpub hypub hlt
    obtain ⟨front, middle, back, rfl⟩ := hx.between hy hlt
    exact token_offsets spells_pub spells_pub hlex hxpub hypub
  have hsize : sizeAll (itemTrees root body ending back) = sizeAll (itemTrees root' body' ending' back') := by
    rcases Nat.lt_trichotomy (sizeAll (itemTrees root body ending back)) (sizeAll (itemTrees root' body' ending' back'))
      with hlt | heq | hlt
    · exact absurd hoffset (hlater hy hx hypub hxpub hlt).ne'
    · exact heq
    · exact absurd hoffset (hlater hx hy hxpub hypub hlt).ne
  exact hwritten.unique_item (eq_of_append_eq htrees hsize) hwritten'

/-- What the directive of a visible `use` item says. -/
theorem Scan.directive?_meaning (path : String) (lexed : Scan.Lexed) (item : Item) :
    (Scan.directive? path lexed item).map Directive.meaning =
      item.imported?.map fun (absolute, tree) => (absolute, (tree.map lexed.span).form) := by
  rcases item with _ | ⟨_ | _ | _, word, absolute, tree, semicolon⟩ | _
  case imports.visible =>
    simp only [Scan.directive?, Scan.directive, Item.imported?, Directive.meaning, Option.map_some, UseTree.form_map]
  all_goals rfl

/-- A unit that holds nothing but visible `use` items has their directives. -/
theorem scan_of_written (path : String) {source : String} {placed : List Placed} {trees : List Tree}
    {items : List (Bool × UseTree Place)} (hlex : lexUnit (withoutMark source.toList) = .ok placed)
    (htrees : nest? (placed.map (·.lexeme)) = some trees) (h : WrittenItems items trees) :
    ∃ found, scan path source = .ok found ∧ found.directives.map Directive.meaning =
      items.map fun (absolute, tree) => (absolute, (tree.map (Scan.lexed source placed).span).form) := by
  obtain ⟨found, hparse, hfound⟩ := parseUnit_of_written h
  have hitems : Scan.items (byteSize source.toList - byteSize (withoutMark source.toList)) (withoutMark source.toList) =
      .ok (Scan.lexed source placed, found) := by
    simp only [Scan.items, hlex, htrees, hparse]
    rfl
  refine ⟨⟨path, source, found.filterMap (Scan.symbol? path (Scan.lexed source placed)),
    found.filterMap (Scan.directive? path (Scan.lexed source placed))⟩, ?_, ?_⟩
  · simp only [scan, hitems, bind, Except.bind, pure, Except.pure]
  · simp only [List.map_filterMap, Scan.directive?_meaning]
    have hall := congrArg (List.filterMap fun imported => imported.map fun (absolute, tree) =>
      (absolute, (tree.map (Scan.lexed source placed).span).form)) hfound
    simpa [List.filterMap_map, Function.comp_def] using hall

/-- **Use trees are classified and flattened.** A tree is a wildcard just when it is a path that
    ends in a star, lists names just when no star stands in it, and is ambiguous otherwise, mixed
    if it has a name. The names are its tips from left to right, each with the way that leads to
    it. Lists of names are the same just when the trees are regroupings of each other.

    The tree of a directive is the one that stands between its `pub use` and its semicolon, a raw
    mark being no part of a name. Every unit that is written as visible `use` items has the
    directives of their trees. -/
theorem use_trees_flattened :
    (∀ {ι : Type} (tree : UseTree ι), tree.Classified tree.form ∧
      (∀ way leaf, ⟨way, leaf⟩ ∈ tree.tips ↔ tree.Leads way leaf ∧ leaf.isEnd = true) ∧
      tree.Regroups (.group (tree.tips.map Tip.tree))) ∧
    (∀ {ι : Type} {t u : UseTree ι}, ¬ t.HasStar → (t.form = u.form ↔ t.Regroups u)) ∧
    (∀ {path source : String} {found : Scan}, scan path source = .ok found →
      ∃ placed, lexUnit (withoutMark source.toList) = .ok placed ∧ ∀ d ∈ found.directives,
        (∃ tree, d.ReadFrom source placed tree) ∧ ∀ tree, d.ReadFrom source placed tree →
          (tree.map (Scan.lexed source placed).span).Classified d.form) ∧
    (∀ {path source : String} {placed : List Placed} {trees : List Tree} {items : List (Bool × UseTree Place)},
      lexUnit (withoutMark source.toList) = .ok placed → nest? (placed.map (·.lexeme)) = some trees →
      WrittenItems items trees → ∃ found, scan path source = .ok found ∧ found.directives.map Directive.meaning =
        items.map fun (absolute, tree) => (absolute, (tree.map (Scan.lexed source placed).span).form)) ∧
    ∀ {cs : List Char} {raw : Bool} {name : String} {n : Nat}, token? cs = some (.word raw name, n) →
      ∃ rest, cs = rawMark raw ++ name.toList ++ rest := by
  refine ⟨fun tree => ⟨tree.form_classified, fun _ _ => UseTree.mem_tips_iff, .expand tree⟩,
    UseTree.form_eq_iff_regroups, fun h => ?_, fun hlex htrees => scan_of_written _ hlex htrees, fun h => (token?_word h).2⟩
  obtain ⟨placed, hlex, hread⟩ := readFrom_of_scan h
  refine ⟨placed, hlex, fun d hd => ?_⟩
  obtain ⟨tree, htree, hform⟩ := hread d hd
  refine ⟨⟨tree, htree⟩, fun other hother => ?_⟩
  rw [hother.unique hlex htree, hform]
  exact (tree.map _).form_classified

/-- A wildcard, names with raw marks in a group in a group, and stars in groups. -/
def bundleText : String :=
  "pub use a::b::*;\npub use kw::\x7br#match as r#try, \x7bself,\x7d\x7d;\npub use ::c::\x7bd::*, e\x7d;\n#[a] pub use \x7bf::*\x7d;\n"

/-- The second of its items alone, with its tree, the trees of that, and the tree without groups. -/
def bundleItem : String := "pub use kw::\x7br#match as r#try, \x7bself,\x7d\x7d;"

def bundleTree : UseTree Place := .path "kw" (.group [.rename "match" "try", .group [.name "self"]])

def bundleBody : List Tree :=
  [.leaf (.word false "kw"), .leaf (.punct ':' true), .leaf (.punct ':' false), .group .brace
    [.leaf (.word true "match"), .leaf (.word false "as"), .leaf (.word true "try"), commaOf false,
      .group .brace [.leaf (.word false "self"), commaOf false]]]

def bundlePlain : UseTree Place := .group [.path "kw" (.rename "match" "try"), .path "kw" (.name "self")]

theorem use_trees_flattened_bundle :
    (¬ bundleTree.HasStar ∧ (bundleTree.form = bundlePlain.form ↔ bundleTree.Regroups bundlePlain)) ∧
    (∃ found placed, scan "lib.rs" bundleText = .ok found ∧ found.directives.map Directive.meaning =
        [(false, .wildcard ["a", "b"] ⟨14, 15⟩),
          (false, .explicit [⟨["kw"], "match", some "try"⟩, ⟨["kw"], "self", none⟩]),
          (true, .ambiguous .mixed), (false, .ambiguous .grouped)] ∧
      lexUnit (withoutMark bundleText.toList) = .ok placed ∧ ∀ d ∈ found.directives,
        (∃ tree, d.ReadFrom bundleText placed tree) ∧ ∀ tree, d.ReadFrom bundleText placed tree →
          (tree.map (Scan.lexed bundleText placed).span).Classified d.form) ∧
    (∃ placed, lexUnit (withoutMark bundleItem.toList) = .ok placed ∧
      nest? (placed.map (·.lexeme)) = some (itemTrees none bundleBody false []) ∧
      WrittenItems [(false, bundleTree)] (itemTrees none bundleBody false []) ∧
      ∃ found, scan "lib.rs" bundleItem = .ok found ∧ found.directives.map Directive.meaning =
        [(false, (bundleTree.map (Scan.lexed bundleItem placed).span).form)]) ∧
    token? "r#match as".toList = some (.word true "match", 7) ∧
      ∃ rest, "r#match as".toList = rawMark true ++ "match".toList ++ rest := by
  have hplain : ¬ bundleTree.HasStar := by
    rw [UseTree.hasStar_iff]
    simp [bundleTree, UseTree.tips, tipsAll, Tip.behind]
  have htoken : token? "r#match as".toList = some (.word true "match", 7) := by decide +kernel
  have hscan : (scan "lib.rs" bundleText).toOption.map (fun found => found.directives.map Directive.meaning) =
      some [(false, .wildcard ["a", "b"] ⟨14, 15⟩),
        (false, .explicit [⟨["kw"], "match", some "try"⟩, ⟨["kw"], "self", none⟩]),
        (true, .ambiguous .mixed), (false, .ambiguous .grouped)] := by
    decide +kernel
  have hlex : (lexUnit (withoutMark bundleItem.toList)).toOption.map (fun placed => placed.map (·.lexeme)) =
      some (flattenAll (itemTrees none bundleBody false [])) := by
    decide +kernel
  have hwritten : WrittenItems [(false, bundleTree)] (itemTrees none bundleBody false []) :=
    @WrittenItems.cons none _ _ _ _ false
      (.path ⟨false, "kw", false⟩ (.inr (.inl (by decide)))
        (.group (.cons false (.rename (.inl rfl) (.inl rfl))
          (.last (.group (.cons false (.name (.inr (.inr (by decide)))) .nil)))))) .nil
  refine ⟨⟨hplain, use_trees_flattened.2.1 hplain⟩, ?_, ?_, htoken, use_trees_flattened.2.2.2.2 htoken⟩
  · cases hfound : scan "lib.rs" bundleText with
    | error line =>
      rw [hfound] at hscan
      cases hscan
    | ok found =>
      rw [hfound] at hscan
      obtain ⟨placed, hlex, hread⟩ := use_trees_flattened.2.2.1 hfound
      exact ⟨found, placed, rfl, Option.some.inj hscan, hlex, hread⟩
  · cases hplaced : lexUnit (withoutMark bundleItem.toList) with
    | error fault =>
      rw [hplaced] at hlex
      cases hlex
    | ok placed =>
      rw [hplaced] at hlex
      have hnest : nest? (placed.map (·.lexeme)) = some (itemTrees none bundleBody false []) := by
        rw [← nest?_flatten, ← Option.some.inj hlex]
      exact ⟨placed, rfl, hnest, hwritten, use_trees_flattened.2.2.2.1 hplaced hnest hwritten⟩

end Reexport
