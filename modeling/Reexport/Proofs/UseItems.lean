import Reexport.Proofs.Writings

/-!
# Use items with a star

A wildcard comes from a `use` item whose tree is a path that ends in a star. The trees
that such an item is read from are known: the word `use`, perhaps `::`, the segments with
`::` after each, the star and a semicolon. The stars of a unit's wildcards stand in the
order of its items.

Results:

* `form_eq_wildcard_iff`: which trees are wildcards.
* `written_chain_iff`, `useItem_star`: what an item with a star is read from.
* `item_star`: where the star of an item stands.
* `parseUnit_stars`: the stars of a unit stand in the order of its items.
-/

namespace Reexport

/-! ## Wildcards -/

variable {ι : Type}

/-- A path that ends in a tree. -/
def UseTree.chain (segments : List String) (tree : UseTree ι) : UseTree ι := segments.foldr .path tree

@[simp] theorem UseTree.chain_nil (tree : UseTree ι) : UseTree.chain [] tree = tree := rfl

@[simp] theorem UseTree.chain_cons (segment : String) (rest : List String) (tree : UseTree ι) :
    UseTree.chain (segment :: rest) tree = .path segment (.chain rest tree) := rfl

mutual

theorem UseTree.grouped_leaves (lead : List String) : ∀ (tree : UseTree ι),
    ∀ star ∈ (tree.leaves lead true).stars, star.grouped = true
  | .path segment rest => rest.grouped_leaves (lead ++ [segment])
  | .name _ => by simp [UseTree.leaves]
  | .rename _ _ => by simp [UseTree.leaves]
  | .glob _ => by simp [UseTree.leaves]
  | .group items => grouped_leavesAll lead items

theorem grouped_leavesAll (lead : List String) : ∀ (items : List (UseTree ι)),
    ∀ star ∈ (leavesAll lead items).stars, star.grouped = true
  | [] => by simp [leavesAll]
  | tree :: rest => by
    intro star hstar
    rw [leavesAll, Leaves.append, List.mem_append] at hstar
    rcases hstar with hstar | hstar
    · exact tree.grouped_leaves lead star hstar
    · exact grouped_leavesAll lead rest star hstar

end

theorem UseTree.leaves_chain (segments : List String) (tree : UseTree ι) (grouped : Bool) :
    ∀ (lead : List String), (UseTree.chain segments tree).leaves lead grouped =
      tree.leaves (lead ++ segments) grouped := by
  induction segments with
  | nil => intro lead; simp
  | cons segment rest ih => intro lead; simp [UseTree.leaves, ih]

theorem UseTree.eq_chain_of_leaves {star : ι} : ∀ {tree : UseTree ι} {lead way : List String},
    (tree.leaves lead false).stars = [⟨way, star, false⟩] →
    ∃ segments, tree = .chain segments (.glob star) ∧ way = lead ++ segments
  | .path segment rest, lead, way, h => by
    have hrest : (rest.leaves (lead ++ [segment]) false).stars = [⟨way, star, false⟩] := h
    obtain ⟨segments, rfl, rfl⟩ := UseTree.eq_chain_of_leaves hrest
    exact ⟨segment :: segments, rfl, by simp⟩
  | .name _, _, _, h => by simp [UseTree.leaves] at h
  | .rename _ _, _, _, h => by simp [UseTree.leaves] at h
  | .glob _, _, _, h => by
    simp only [UseTree.leaves, List.cons.injEq, Star.mk.injEq, and_true] at h
    obtain ⟨rfl, rfl⟩ := h
    exact ⟨[], rfl, by simp⟩
  | .group items, lead, way, h => by
    have hgrouped := grouped_leavesAll lead items ⟨way, star, false⟩ (by
      rw [UseTree.leaves] at h
      rw [h]
      exact List.mem_singleton_self _)
    cases hgrouped

/-- A wildcard is a path that ends in a star. -/
theorem form_eq_wildcard_iff {tree : UseTree ι} {path : List String} {star : ι} :
    tree.form = .wildcard path star ↔ tree = .chain path (.glob star) := by
  constructor
  · intro h
    unfold UseTree.form at h
    simp only at h
    split at h
    · cases h
    · rename_i hstars hpins
      cases h
      obtain ⟨segments, rfl, rfl⟩ := UseTree.eq_chain_of_leaves hstars
      simp
    · cases h
    · cases h
  · rintro rfl
    simp [UseTree.form, UseTree.leaves_chain, UseTree.leaves]

theorem UseTree.depth_chain (segments : List String) (tree : UseTree ι) :
    (UseTree.chain segments tree).depth = segments.length + tree.depth := by
  induction segments with
  | nil => simp
  | cons segment rest ih =>
    rw [UseTree.chain_cons, UseTree.depth, ih, List.length_cons]
    omega

namespace Grammar

open Source

/-! ## Use items -/

/-- The trees of segments. -/
def segmentTrees (segments : List Segment) : List Tree := segments.flatMap Segment.trees

/-- What a path that ends in a tree is written with. -/
theorem written_chain_iff {after : Nat} {tree : UseTree Place} : ∀ {path : List String} {body : List Tree},
    Written after (.chain path tree) body ↔ ∃ segments rest, path = segments.map Segment.name ∧
      (∀ segment ∈ segments, OpensSegment segment.raw segment.name) ∧ body = segmentTrees segments ++ rest ∧
      Written after tree rest := by
  intro path
  induction path with
  | nil =>
    refine fun {body} => ⟨fun h => ⟨[], body, rfl, by simp, rfl, h⟩, ?_⟩
    rintro ⟨segments, rest, hnil, -, rfl, htree⟩
    obtain rfl := List.map_eq_nil_iff.1 hnil.symm
    exact htree
  | cons name path ih =>
    refine fun {body} => ⟨fun h => ?_, ?_⟩
    · cases h with
      | path segment hopens hpath =>
        obtain ⟨segments, rest, rfl, hall, rfl, htree⟩ := ih.1 hpath
        exact ⟨segment :: segments, rest, rfl, List.forall_mem_cons.2 ⟨hopens, hall⟩, by simp [segmentTrees], htree⟩
    · rintro ⟨_ | ⟨segment, segments⟩, rest, hcons, hall, rfl, htree⟩
      · cases hcons
      · obtain ⟨rfl, rfl⟩ := List.cons.inj hcons
        obtain ⟨hopens, hall⟩ := List.forall_mem_cons.1 hall
        have hpath := Written.path segment hopens (ih.2 ⟨segments, rest, rfl, hall, rfl, htree⟩)
        rwa [← List.append_assoc] at hpath

/-- What a `use` item with a star is read from. -/
theorem useItem_star {fuel : Nat} {vis : Visibility} {s later : State} {u : UseItem} {path : List String}
    {star : Place} (h : (Rule.useItem vis).exec (parse fuel) s = .ok (.imports u) later)
    (htree : u.tree = .chain path (.glob star)) : ∃ root segments joint ending,
      path = segments.map Segment.name ∧ (∀ segment ∈ segments, OpensSegment segment.raw segment.name) ∧
      s.rest = .leaf (.word false "use") :: (rootTrees root ++ (segmentTrees segments ++
        starTree joint :: .leaf (.punct ';' ending) :: later.rest)) ∧
      star = 2 + (sizeAll later.rest + s.after) ∧
      u = ⟨vis, s.place, root.isSome, .chain path (.glob star), 1 + (sizeAll later.rest + s.after)⟩ ∧
      later = ⟨later.rest, s.after, s.stray, false⟩ := by
  obtain ⟨root, body, ending, hrest, hwritten, hu, hlater, -⟩ := useItem_written h
  rw [htree] at hwritten hu
  obtain ⟨segments, rest, rfl, hall, rfl, hstar⟩ := written_chain_iff.1 hwritten
  cases hstar with
  | glob joint =>
    refine ⟨root, segments, joint, ending, rfl, hall, by rw [hrest, List.append_assoc]; rfl, ?_, hu, hlater⟩
    rw [← Nat.add_assoc]

/-! ## Items -/

/-- Where the star of an item stands, if the item is a wildcard. -/
def Item.star? : Item → Option Place
  | .imports u =>
    match u.tree.form with
    | .wildcard _ star => some star
    | _ => none
  | _ => none

theorem Item.star?_eq_some {item : Item} {star : Place} (h : item.star? = some star) :
    ∃ u path, item = .imports u ∧ u.tree = .chain path (.glob star) := by
  unfold Item.star? at h
  split at h
  · rename_i u
    split at h
    · rename_i path star' hform
      cases h
      exact ⟨u, path, rfl, form_eq_wildcard_iff.1 hform⟩
    · cases h
  · cases h

/-- The token stands at `place` as a tree of its own; `after` lexemes follow the trees. -/
def LeafAt (t : Token) (place : Place) (trees : List Tree) (after : Nat) : Prop :=
  ∃ front back, trees = front ++ .leaf t :: back ∧ place = 1 + (sizeAll back + after)

theorem LeafAt.append {t : Token} {place : Place} {trees : List Tree} {after : Nat} (h : LeafAt t place trees after)
    (before : List Tree) : LeafAt t place (before ++ trees) after := by
  obtain ⟨front, back, rfl, hplace⟩ := h
  exact ⟨before ++ front, back, by rw [List.append_assoc], hplace⟩

theorem LeafAt.of_leads {t : Token} {place : Place} {s later : State} (hleads : s.Leads later)
    (h : LeafAt t place later.rest later.after) : LeafAt t place s.rest s.after := by
  obtain ⟨before, hbefore⟩ := hleads.rest
  rw [← hbefore, ← hleads.after]
  exact h.append before

theorem LeafAt.le_place {t : Token} {place : Place} {s : State} (h : LeafAt t place s.rest s.after) :
    place ≤ s.place := by
  obtain ⟨front, back, hrest, rfl⟩ := h
  show 1 + (sizeAll back + s.after) ≤ sizeAll s.rest + s.after
  rw [hrest, sizeAll_append]
  simp only [sizeAll, Tree.size]
  omega

/-- Where the star of a `use` item stands: in front of its semicolon. -/
theorem useItem_leaf {fuel : Nat} {vis : Visibility} {s later : State} {u : UseItem} {star : Place}
    (h : (Rule.useItem vis).exec (parse fuel) s = .ok (.imports u) later)
    (hstar : Item.star? (.imports u) = some star) :
    (∃ joint, LeafAt (.punct '*' joint) star s.rest s.after) ∧ star = 1 + u.semicolon ∧
      u.semicolon = 1 + later.place := by
  obtain ⟨u, path, heq, htree⟩ := Item.star?_eq_some hstar
  cases heq
  obtain ⟨root, segments, joint, ending, -, -, hrest, rfl, hu, hlater⟩ := useItem_star h htree
  refine ⟨⟨joint, .leaf (.word false "use") :: (rootTrees root ++ segmentTrees segments),
    .leaf (.punct ';' ending) :: later.rest, ?_, ?_⟩, ?_, ?_⟩
  · rw [hrest]
    simp [starTree]
  · show (2 + (sizeAll later.rest + s.after) : Nat) = 1 + (1 + sizeAll later.rest + s.after)
    omega
  · rw [hu]
    show (2 + (sizeAll later.rest + s.after) : Nat) = 1 + (1 + (sizeAll later.rest + s.after))
    omega
  · rw [hu, hlater]
    rfl

/-- Where the star of an item stands. -/
theorem item_star {fuel : Nat} {s later : State} {item : Item} {star : Place}
    (h : parse fuel .item s = .ok item later) (hstar : item.star? = some star) :
    (∃ joint, LeafAt (.punct '*' joint) star s.rest s.after) ∧ later.place < star := by
  obtain ⟨u, path, rfl, -⟩ := Item.star?_eq_some hstar
  obtain ⟨fuel, s₁, s₂, attributes, vis, rfl, hattributes, hvis, -, huse⟩ := item_imports h
  have hleads : s.Leads s₂ := (parse_leads _ _ _ _ _ hattributes).trans (parse_leads _ _ _ _ _ hvis)
  obtain ⟨⟨joint, hat⟩, hsemicolon, hplace⟩ := useItem_leaf huse hstar
  refine ⟨⟨joint, .of_leads hleads hat⟩, ?_⟩
  rw [hsemicolon, hplace]
  exact Nat.lt_of_lt_of_le (Nat.lt_add_of_pos_left Nat.zero_lt_one) (Nat.le_add_left _ _)

/-! ## Units -/

/-- The stars of a unit stand one after the other. -/
theorem parseUnit_stars {trees : List Tree} {items : List Item} (h : parseUnit trees = .ok items) :
    (items.filterMap Item.star?).Pairwise (· > ·) ∧
      ∀ star ∈ items.filterMap Item.star?, ∃ joint, LeafAt (.punct '*' joint) star trees 0 := by
  obtain ⟨s, before, hitems, rfl, hafter⟩ := items_of_parseUnit h
  constructor
  · refine List.pairwise_filterMap.2 (Items.pairwise ?_ hitems)
    intro fuel fuel' s middle s₁ later a b ha hleads hb star hstar star' hstar'
    obtain ⟨-, hlt⟩ := item_star ha hstar
    obtain ⟨⟨joint, hat⟩, -⟩ := item_star hb hstar'
    exact Nat.lt_of_le_of_lt (LeafAt.of_leads hleads hat).le_place hlt
  · intro star hstar
    obtain ⟨item, hitem, hstar⟩ := List.mem_filterMap.1 hstar
    obtain ⟨fuel, s₁, later, hleads, hparse⟩ := hitems.of_mem item hitem
    obtain ⟨⟨joint, hat⟩, -⟩ := item_star hparse hstar
    exact ⟨joint, hafter ▸ (LeafAt.of_leads hleads hat).append before⟩

end Grammar

end Reexport
