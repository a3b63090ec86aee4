import Reexport.Job
import Reexport.Proofs.Lexing
import Reexport.Proofs.Splicing
import Reexport.Proofs.Surveyed
import Reexport.Proofs.UseItems

/-!
# Where the stars of a unit stand

The wildcards of a unit come in the order of their stars. So the edits that the plans of
a module ask for are given from the start of its text to the end, and no two of them are
for one star.

Results:

* `scan_stars`: the stars of a unit's wildcards are in order.
* `Edit.forwards_eq_self`, `Edit.apart_of_increasing`: what that says about edits.
* `Survey.run_scanned`: the directives of a module come from scanning its text.
-/

namespace Reexport

open Source Grammar Text

/-! ## Wildcards of a unit -/

/-- The star of a directive, if it is a wildcard. -/
def Directive.star? (d : Directive) : Option Span :=
  match d.form with
  | .wildcard _ star => some star
  | _ => none

/-- Wildcards in the order of their stars. -/
def StarsIncrease (directives : List Directive) : Prop :=
  directives.Pairwise fun a b => ∀ star, a.star? = some star → ∀ star', b.star? = some star' →
    star.start < star'.start

namespace Scan

/-- The lexeme at `place` of a sequence is `x`. -/
def PlacedAt (placed : List Placed) (place : Place) (x : Placed) : Prop :=
  ∃ before after, placed = before ++ x :: after ∧ place = 1 + after.length

theorem PlacedAt.at? {placed : List Placed} {place : Place} {x : Placed} (h : PlacedAt placed place x)
    (lead : Nat) (text : List Char) : (Lexed.mk lead text placed.toArray).at? place = some x := by
  obtain ⟨before, after, rfl, rfl⟩ := h
  have hindex : (before ++ x :: after).toArray.size - (1 + after.length) = before.length := by
    simp only [List.size_toArray, List.length_append, List.length_cons]
    omega
  rw [Lexed.at?, hindex]
  simp

/-- Of two lexemes the one at the lower place comes later. -/
theorem PlacedAt.between {placed : List Placed} {place place' : Place} {x y : Placed} (hx : PlacedAt placed place x)
    (hy : PlacedAt placed place' y) (hlt : place' < place) :
    ∃ front middle back, placed = front ++ x :: (middle ++ y :: back) := by
  obtain ⟨before, after, hplaced, rfl⟩ := hx
  obtain ⟨before', after', hplaced', rfl⟩ := hy
  have hshorter : after'.length < after.length := Nat.lt_of_add_lt_add_left hlt
  refine ⟨before, ?_⟩
  rcases List.append_eq_append_iff.1 (hplaced.symm.trans hplaced') with ⟨middle, -, htail⟩ | ⟨middle, -, htail⟩
  · cases middle with
    | nil =>
      have := congrArg List.length htail
      simp at this
      omega
    | cons first middle =>
      obtain ⟨-, rfl⟩ := List.cons.inj htail
      exact ⟨middle, after', hplaced⟩
  · have := congrArg List.length htail
    simp at this
    omega

/-- A token that is a tree of its own is a lexeme of the sequence. -/
theorem placedAt_of_leafAt {placed : List Placed} {trees : List Tree} {t : Token} {place : Place}
    (hnest : nest? (placed.map (·.lexeme)) = some trees) (h : LeafAt t place trees 0) :
    ∃ x, PlacedAt placed place x ∧ x.lexeme = .token t := by
  obtain ⟨front, back, rfl, rfl⟩ := h
  have hflat := flattenAll_of_nest? hnest
  rw [flattenAll_append, flattenAll, Tree.flatten, List.singleton_append, eq_comm,
    List.map_eq_append_iff] at hflat
  obtain ⟨before, others, rfl, -, hothers⟩ := hflat
  obtain ⟨x, after, rfl, hx, hafter⟩ := List.map_eq_cons_iff.1 hothers
  refine ⟨x, ⟨before, after, rfl, ?_⟩, hx⟩
  rw [← length_flattenAll, ← hafter, List.length_map, Nat.add_zero]

/-- What the items of a text are read from. -/
theorem items_eq_ok {lead : Nat} {text : List Char} {lexed : Lexed} {found : List Item}
    (h : items lead text = .ok (lexed, found)) : ∃ placed trees, lexUnit text = .ok placed ∧
      nest? (placed.map (·.lexeme)) = some trees ∧ parseUnit trees = .ok found ∧
      lexed = ⟨lead, text, placed.toArray⟩ := by
  unfold items at h
  split at h
  · cases h
  · rename_i placed hlex
    simp only at h
    split at h
    · cases h
    · rename_i trees hnest
      split at h
      · cases h
      · rename_i items hparse
        cases h
        exact ⟨placed, trees, hlex, hnest, hparse, rfl⟩

/-- The stars of items stand in the text in the order of the items. -/
theorem items_increase {lead : Nat} {text : List Char} {lexed : Lexed} {found : List Item}
    (h : items lead text = .ok (lexed, found)) :
    found.Pairwise fun a b => ∀ star, a.star? = some star → ∀ star', b.star? = some star' →
      (lexed.span star).start < (lexed.span star').start := by
  obtain ⟨placed, trees, hlex, hnest, hparse, rfl⟩ := items_eq_ok h
  obtain ⟨hpairwise, hplaces⟩ := parseUnit_stars hparse
  have hstar : ∀ {item : Item} {star : Place}, item ∈ found → item.star? = some star →
      ∃ x joint, PlacedAt placed star x ∧ x.lexeme = starLexeme joint := by
    intro item star hitem hitem'
    obtain ⟨joint, hat⟩ := hplaces star (List.mem_filterMap.2 ⟨item, hitem, hitem'⟩)
    obtain ⟨x, hx, hlexeme⟩ := placedAt_of_leafAt hnest hat
    exact ⟨x, joint, hx, hlexeme⟩
  refine (List.pairwise_filterMap.1 hpairwise).imp_of_mem ?_
  intro a b ha hb hgt star ha' star' hb'
  obtain ⟨x, i, hx, hxstar⟩ := hstar ha ha'
  obtain ⟨y, j, hy, hystar⟩ := hstar hb hb'
  obtain ⟨front, middle, back, hplaced⟩ := hx.between hy (hgt star ha' star' hb')
  have hoffset := token_offsets (spells_star i) (spells_star j) (hplaced ▸ hlex) hxstar hystar
  simp only [Lexed.span, Lexed.start, hx.at?, hy.at?, Option.elim_some, Lexed.offset]
  omega

end Scan

/-- The directive of an item. -/
theorem Scan.directive?_eq_some {path : String} {lexed : Scan.Lexed} {item : Item} {d : Directive}
    (h : Scan.directive? path lexed item = some d) : ∃ u first, item = .imports u ∧
      u.visibility = .visible first ∧ d = Scan.directive path lexed first u := by
  unfold Scan.directive? at h
  split at h
  · rename_i u
    split at h
    · rename_i first hvis
      cases h
      exact ⟨u, first, rfl, hvis, rfl⟩
    · cases h
    · cases h
  · cases h
  · cases h

/-- The star of a directive is the star of its item. -/
theorem Scan.star_of_directive? {path : String} {lexed : Scan.Lexed} {item : Item} {d : Directive} {span : Span}
    (h : Scan.directive? path lexed item = some d) (hspan : d.star? = some span) :
    ∃ star, item.star? = some star ∧ span = lexed.span star := by
  obtain ⟨u, first, rfl, -, rfl⟩ := Scan.directive?_eq_some h
  simp only [Directive.star?, Scan.directive, Item.star?] at hspan ⊢
  cases hform : u.tree.form with
  | wildcard path star =>
    rw [hform] at hspan
    cases hspan
    exact ⟨star, rfl, rfl⟩
  | explicit pins => rw [hform] at hspan; cases hspan
  | ambiguous why => rw [hform] at hspan; cases hspan

/-- What a unit holds is read from its text without the byte order mark. -/
theorem scan_eq_ok {path source : String} {found : Scan} (h : scan path source = .ok found) :
    ∃ lexed items, Scan.items (byteSize source.toList - byteSize (withoutMark source.toList))
        (withoutMark source.toList) = .ok (lexed, items) ∧
      found = ⟨path, source, items.filterMap (Scan.symbol? path lexed),
        items.filterMap (Scan.directive? path lexed)⟩ := by
  unfold scan at h
  simp only [bind, Except.bind, pure, Except.pure] at h
  split at h
  · cases h
  · rename_i result hitems
    obtain ⟨lexed, items⟩ := result
    cases h
    exact ⟨lexed, items, hitems, rfl⟩

/-- The wildcards of a unit come in the order of their stars. -/
theorem scan_stars {path source : String} {found : Scan} (h : scan path source = .ok found) :
    StarsIncrease found.directives := by
  obtain ⟨lexed, items, hitems, rfl⟩ := scan_eq_ok h
  refine List.pairwise_filterMap.2 ((Scan.items_increase hitems).imp ?_)
  intro a b hlt d hd d' hd' span hspan span' hspan'
  obtain ⟨star, ha, rfl⟩ := Scan.star_of_directive? hd hspan
  obtain ⟨star', hb, rfl⟩ := Scan.star_of_directive? hd' hspan'
  exact hlt star ha star' hb

/-! ## Edits -/

/-- Edits from the start of a text to its end. -/
def Edit.Increase (edits : List Edit) : Prop := edits.Pairwise fun a b => a.star.start < b.star.start

theorem Edit.apart_of_increase {edits : List Edit} (h : Edit.Increase edits) : Edit.Apart edits := by
  rw [Edit.Apart, List.nodup_iff_pairwise_ne, List.pairwise_map]
  exact h.imp fun hlt => Nat.ne_of_lt hlt

theorem Edit.forwards_eq_self {edits : List Edit} (h : Edit.Increase edits) : Edit.forwards edits = edits :=
  List.mergeSort_of_pairwise (h.imp fun hlt => decide_eq_true (Nat.le_of_lt hlt))

/-- The edits for wildcards in order are in order. -/
theorem Job.edits_increase : ∀ {directives : List Directive} {statuses : List Status},
    StarsIncrease directives → Edit.Increase (Job.edits (directives.zip statuses)) := by
  have hstar : ∀ {d : Directive} {status : Status} {e : Edit}, Job.edit? d status = some e →
      d.star? = some e.star := by
    intro d status e he
    unfold Job.edit? at he
    split at he
    · rename_i hform
      cases he
      simp [Directive.star?, hform]
    · cases he
  intro directives
  induction directives with
  | nil => intro statuses _; exact .nil
  | cons d rest ih =>
    intro statuses h
    obtain ⟨hfirst, hrest⟩ := List.pairwise_cons.1 h
    cases statuses with
    | nil => exact .nil
    | cons status statuses =>
      have hothers := @ih statuses hrest
      cases he : Job.edit? d status with
      | none =>
        simp only [Job.edits, List.zip_cons_cons, List.filterMap_cons, he]
        exact hothers
      | some e =>
        simp only [Job.edits, List.zip_cons_cons, List.filterMap_cons, he]
        refine List.pairwise_cons.2 ⟨fun other hother => ?_, hothers⟩
        obtain ⟨⟨d', status'⟩, hmem, he'⟩ := List.mem_filterMap.1 hother
        exact hfirst d' (List.of_mem_zip hmem).1 _ (hstar he) _ (hstar he')

/-! ## Modules -/

namespace Survey

/-- The directives of modules come from scanning their texts. -/
def Scanned (tree : ModuleTree) : Prop :=
  ∀ (id : ModuleId) (text : String), (tree.get id).source = some text →
    ∃ path found, scan path text = .ok found ∧ (tree.get id).directives = found.directives

theorem scan_of_scanFile {disk : Disk} {path : String} {found : Scan}
    (h : scanFile disk path = .ok found) : scan path found.source = .ok found := by
  unfold scanFile at h
  cases hread : disk.readText path with
  | error fault => simp [hread] at h
  | ok source =>
    simp only [hread] at h
    cases hscan : scan path source with
    | error line => simp [hscan] at h
    | ok scanned =>
      simp only [hscan, Except.ok.injEq] at h
      subst h
      rw [source_of_scan hscan, hscan]

theorem scanModule_scanned (disk : Disk) {found : Surveyed} (id : ModuleId) (h : Scanned found.tree) :
    Scanned (scanModule disk found id).tree := by
  have hmodify : ∀ {f : Module → Module}, (∀ text, (f (found.tree.get id)).source = some text →
      ∃ path scanned, scan path text = .ok scanned ∧
        (f (found.tree.get id)).directives = scanned.directives) →
      Scanned (found.tree.modify id f) := by
    intro f hf other text hsource
    rcases ModuleTree.get_modify_cases found.tree id other f with hsame | ⟨rfl, hself⟩
    · rw [hsame] at hsource ⊢
      exact h other text hsource
    · rw [hself] at hsource ⊢
      exact hf text hsource
  unfold scanModule
  split
  · exact h
  · rename_i path _
    split
    · rename_i scanned hscan
      refine hmodify fun text htext => ?_
      cases htext
      exact ⟨path, scanned, scan_of_scanFile hscan, rfl⟩
    · exact hmodify (h id)

theorem scanAll_scanned (disk : Disk) {tree : ModuleTree} (problems : List Problem) (h : Planted tree) :
    Scanned (scanAll disk tree problems).tree := by
  have hfold : ∀ (ids : List ModuleId) (found : Surveyed), Scanned found.tree →
      Scanned (ids.foldl (scanModule disk) found).tree := by
    intro ids
    induction ids with
    | nil => intro found hfound; exact hfound
    | cons id rest ih => intro found hfound; exact ih _ (scanModule_scanned disk id hfound)
  refine hfold _ _ fun id text htext => ?_
  rw [h.source id] at htext
  cases htext

theorem run_scanned {survey : Survey} {disk : Disk} {surveyed : Surveyed}
    (h : survey.run disk = .ok surveyed) : Scanned surveyed.tree := by
  unfold run at h
  split at h
  · cases h
    exact scanAll_scanned disk _ (planted_plantAll _ (.new _ _) Nat.zero_lt_one).1
  · cases h

end Survey

end Reexport
