import Mathlib.Data.List.Basic
import Reexport.Proofs.UseItems

/-!
# What use trees list

Flattening hands the segments in front of a tree down to its leaves. Read from the leaves up,
a tree is the list of its tips: the names and stars that it ends in, from left to right, each
with the segments that lead to it. The form of a tree is a matter of its tips alone, save that
a star outside all groups makes a wildcard.

Two trees have the same tips just when one can be regrouped into the other: taking a segment
into a group, dissolving a group in a group, and dropping the braces around a single tree.

Results:

* `UseTree.mem_tips_iff`: the tips are what the ways through a tree end in.
* `UseTree.leaves_eq`: flattening collects the tips.
* `UseTree.form_classified`: what a tree looks like that has a given form.
* `UseTree.tips_eq_iff_regroups`: regrouping keeps the tips and nothing else.
* `UseTree.form_eq_iff_regroups`: regrouping is all that a list of names forgets.
-/

namespace Reexport

variable {ι : Type}

/-! ## Ways and tips -/

/-- The segments `way` lead from a tree down to another one. Groups are passed for free. -/
inductive UseTree.Leads : UseTree ι → List String → UseTree ι → Prop where
  | here (tree : UseTree ι) : Leads tree [] tree
  | path {segment : String} {rest below : UseTree ι} {way : List String} :
      Leads rest way below → Leads (.path segment rest) (segment :: way) below
  | member {items : List (UseTree ι)} {item below : UseTree ι} {way : List String} :
      item ∈ items → Leads item way below → Leads (.group items) way below

/-- The name that a pin stands for, without the path to it. -/
def Pin.leaf (pin : Pin) : UseTree ι :=
  match pin.rename with
  | none => .name pin.name
  | some newName => .rename pin.name newName

/-- A star stands somewhere in the tree. -/
def UseTree.HasStar (tree : UseTree ι) : Prop := ∃ way star, tree.Leads way (.glob star)

/-- A name stands somewhere in the tree, renamed or not. -/
def UseTree.HasName (tree : UseTree ι) : Prop := ∃ pin : Pin, tree.Leads pin.path pin.leaf

/-- Whether a tree is a name or a star. -/
def UseTree.isEnd : UseTree ι → Bool
  | .name _ | .rename .. | .glob _ => true
  | .path .. | .group _ => false

/-- A name or star that a tree ends in, with the way to it. -/
structure Tip (ι : Type) where
  way : List String
  leaf : UseTree ι

namespace Tip

/-- A tip after further segments. -/
def behind (lead : List String) (tip : Tip ι) : Tip ι := ⟨lead ++ tip.way, tip.leaf⟩

/-- The tree that has a single tip. -/
def tree (tip : Tip ι) : UseTree ι := .chain tip.way tip.leaf

/-- The pin of a tip, if it is a name. -/
def pin? (tip : Tip ι) : Option Pin :=
  match tip.leaf with
  | .name name => some ⟨tip.way, name, none⟩
  | .rename name newName => some ⟨tip.way, name, some newName⟩
  | _ => none

/-- The way and the place of a tip, if it is a star. -/
def star? (tip : Tip ι) : Option (List String × ι) :=
  match tip.leaf with
  | .glob star => some (tip.way, star)
  | _ => none

@[simp] theorem behind_nil (tip : Tip ι) : tip.behind [] = tip := rfl

@[simp] theorem behind_behind (lead more : List String) (tip : Tip ι) :
    (tip.behind more).behind lead = tip.behind (lead ++ more) := by
  simp [behind]

@[simp] theorem tree_behind (segment : String) (tip : Tip ι) :
    (tip.behind [segment]).tree = .path segment tip.tree := rfl

theorem star?_eq_some {tip : Tip ι} {way : List String} {star : ι} :
    tip.star? = some (way, star) ↔ tip = ⟨way, .glob star⟩ := by
  obtain ⟨way', leaf⟩ := tip
  cases leaf <;> simp [star?]

end Tip

/-- A pin as a tip. -/
def Pin.tip (pin : Pin) : Tip ι := ⟨pin.path, pin.leaf⟩

theorem Pin.tip_injective : Function.Injective (@Pin.tip ι) := by
  rintro ⟨path, name, rename⟩ ⟨path', name', rename'⟩ h
  cases rename <;> cases rename' <;> simp_all [Pin.tip, Pin.leaf]

theorem Tip.pin?_eq_some {tip : Tip ι} {pin : Pin} : tip.pin? = some pin ↔ tip = pin.tip := by
  obtain ⟨way, leaf⟩ := tip
  obtain ⟨path, name, rename⟩ := pin
  cases leaf <;> cases rename <;> simp [pin?, Pin.tip, Pin.leaf, and_comm]

mutual
/-- The tips of a tree from left to right. -/
def UseTree.tips : UseTree ι → List (Tip ι)
  | .path segment rest => rest.tips.map (Tip.behind [segment])
  | .name name => [⟨[], .name name⟩]
  | .rename name newName => [⟨[], .rename name newName⟩]
  | .glob star => [⟨[], .glob star⟩]
  | .group items => tipsAll items
/-- The tips of the members of a group. -/
def tipsAll : List (UseTree ι) → List (Tip ι)
  | [] => []
  | tree :: rest => tree.tips ++ tipsAll rest
end

@[simp] theorem tipsAll_append (items others : List (UseTree ι)) :
    tipsAll (items ++ others) = tipsAll items ++ tipsAll others := by
  induction items with
  | nil => rfl
  | cons tree rest ih => simp [tipsAll, ih]

@[simp] theorem tipsAll_map_path (segment : String) (items : List (UseTree ι)) :
    tipsAll (items.map (.path segment)) = (tipsAll items).map (Tip.behind [segment]) := by
  induction items with
  | nil => rfl
  | cons tree rest ih => simp [tipsAll, UseTree.tips, ih]

mutual

theorem UseTree.leads_of_mem_tips : ∀ {tree : UseTree ι} {tip : Tip ι}, tip ∈ tree.tips →
    tree.Leads tip.way tip.leaf ∧ tip.leaf.isEnd = true
  | .path segment rest, tip, h => by
    obtain ⟨tip, hrest, rfl⟩ := List.mem_map.1 h
    obtain ⟨hleads, hend⟩ := rest.leads_of_mem_tips hrest
    exact ⟨.path hleads, hend⟩
  | .name _, tip, h => by
    cases List.mem_singleton.1 h
    exact ⟨.here _, rfl⟩
  | .rename _ _, tip, h => by
    cases List.mem_singleton.1 h
    exact ⟨.here _, rfl⟩
  | .glob _, tip, h => by
    cases List.mem_singleton.1 h
    exact ⟨.here _, rfl⟩
  | .group items, tip, h => by
    obtain ⟨item, hitem, hleads, hend⟩ := leads_of_mem_tipsAll h
    exact ⟨.member hitem hleads, hend⟩

theorem leads_of_mem_tipsAll : ∀ {items : List (UseTree ι)} {tip : Tip ι}, tip ∈ tipsAll items →
    ∃ item ∈ items, item.Leads tip.way tip.leaf ∧ tip.leaf.isEnd = true
  | [], tip, h => absurd h List.not_mem_nil
  | tree :: rest, tip, h => by
    rcases List.mem_append.1 h with h | h
    · exact ⟨tree, List.mem_cons_self, tree.leads_of_mem_tips h⟩
    · obtain ⟨item, hitem, hleads⟩ := leads_of_mem_tipsAll h
      exact ⟨item, List.mem_cons_of_mem _ hitem, hleads⟩

end

theorem tips_subset_tipsAll {item : UseTree ι} {items : List (UseTree ι)} (h : item ∈ items) :
    item.tips ⊆ tipsAll items := by
  obtain ⟨before, after, rfl⟩ := List.append_of_mem h
  simp [tipsAll]

/-- The tips of a tree are what the ways through it end in. -/
theorem UseTree.mem_tips_iff {tree leaf : UseTree ι} {way : List String} :
    ⟨way, leaf⟩ ∈ tree.tips ↔ tree.Leads way leaf ∧ leaf.isEnd = true := by
  refine ⟨leads_of_mem_tips, ?_⟩
  rintro ⟨hleads, hend⟩
  induction hleads with
  | here tree =>
    cases tree with
    | name | rename | glob => exact List.mem_singleton_self _
    | path | group => cases hend
  | path _ ih => exact List.mem_map_of_mem (ih hend)
  | member hitem _ ih => exact tips_subset_tipsAll hitem (ih hend)

theorem UseTree.hasStar_iff {tree : UseTree ι} : tree.HasStar ↔ ∃ way star, ⟨way, .glob star⟩ ∈ tree.tips := by
  simp only [HasStar, mem_tips_iff, isEnd, and_true]

theorem UseTree.hasName_iff {tree : UseTree ι} : tree.HasName ↔ ∃ pin : Pin, pin.tip ∈ tree.tips := by
  have hend : ∀ pin : Pin, (pin.leaf : UseTree ι).isEnd = true := by
    rintro ⟨_, _, _ | _⟩ <;> rfl
  simp only [HasName, Pin.tip, mem_tips_iff, hend, and_true]

/-! ## Flattening -/

/-- The leaves are the pins and the stars of the tips, in their order. -/
structure Leaves.Of (leaves : Leaves ι) (tips : List (Tip ι)) : Prop where
  pins : leaves.pins = tips.filterMap Tip.pin?
  stars : leaves.stars.map (fun star => (star.path, star.place)) = tips.filterMap Tip.star?

theorem Leaves.Of.append {a b : Leaves ι} {tips others : List (Tip ι)} (ha : a.Of tips) (hb : b.Of others) :
    (a.append b).Of (tips ++ others) where
  pins := by rw [Leaves.append, List.filterMap_append, ha.pins, hb.pins]
  stars := by rw [Leaves.append, List.filterMap_append, List.map_append, ha.stars, hb.stars]

mutual

/-- Flattening carries along the way that it has come, and behind a member of a group that way
    is what it was before. -/
theorem UseTree.leaves_of : ∀ (tree : UseTree ι) (lead : List String) (grouped : Bool),
    (tree.leaves lead grouped).Of (tree.tips.map (Tip.behind lead))
  | .path segment rest, lead, grouped => by
    have hrest := rest.leaves_of (lead ++ [segment]) grouped
    simp only [UseTree.tips, List.map_map]
    rwa [show Tip.behind lead ∘ Tip.behind [segment] = @Tip.behind ι (lead ++ [segment]) from
      funext (Tip.behind_behind lead [segment])]
  | .name _, lead, _ => ⟨by simp [UseTree.leaves, UseTree.tips, Tip.behind, Tip.pin?], rfl⟩
  | .rename _ _, lead, _ => ⟨by simp [UseTree.leaves, UseTree.tips, Tip.behind, Tip.pin?], rfl⟩
  | .glob _, lead, _ => ⟨rfl, by simp [UseTree.leaves, UseTree.tips, Tip.behind, Tip.star?]⟩
  | .group items, lead, _ => leavesAll_of items lead

theorem leavesAll_of : ∀ (items : List (UseTree ι)) (lead : List String),
    (leavesAll lead items).Of ((tipsAll items).map (Tip.behind lead))
  | [], _ => ⟨rfl, rfl⟩
  | tree :: rest, lead => by
    rw [leavesAll, tipsAll, List.map_append]
    exact (tree.leaves_of lead true).append (leavesAll_of rest lead)

end

theorem UseTree.leaves_of_tips (tree : UseTree ι) : (tree.leaves [] false).Of tree.tips := by
  simpa [show @Tip.behind ι [] = id from rfl] using tree.leaves_of [] false

theorem UseTree.stars_eq_nil_iff (tree : UseTree ι) : (tree.leaves [] false).stars = [] ↔ ¬ tree.HasStar := by
  rw [← List.map_eq_nil_iff, tree.leaves_of_tips.stars, List.filterMap_eq_nil_iff, hasStar_iff]
  constructor
  · rintro hnone ⟨way, star, hmem⟩
    cases hnone _ hmem
  · intro hstar tip htip
    refine Option.eq_none_iff_forall_ne_some.2 fun (way, star) hsome => hstar ⟨way, star, ?_⟩
    rwa [← Tip.star?_eq_some.1 hsome]

theorem UseTree.pins_eq_nil_iff (tree : UseTree ι) : (tree.leaves [] false).pins = [] ↔ ¬ tree.HasName := by
  rw [tree.leaves_of_tips.pins, List.filterMap_eq_nil_iff, hasName_iff]
  constructor
  · rintro hnone ⟨pin, hmem⟩
    cases (hnone _ hmem).symm.trans (Tip.pin?_eq_some.2 rfl)
  · intro hname tip htip
    refine Option.eq_none_iff_forall_ne_some.2 fun pin hsome => hname ⟨pin, ?_⟩
    rwa [← Tip.pin?_eq_some.1 hsome]

/-- Tips without a star are pins. -/
theorem UseTree.tips_eq_map_tip {tree : UseTree ι} (h : ¬ tree.HasStar) :
    tree.tips = (tree.leaves [] false).pins.map Pin.tip := by
  have hpin : ∀ tip ∈ tree.tips, ∃ pin : Pin, tip = pin.tip := by
    intro tip htip
    obtain ⟨hleads, hend⟩ := leads_of_mem_tips htip
    obtain ⟨way, leaf⟩ := tip
    cases leaf with
    | name name => exact ⟨⟨way, name, none⟩, rfl⟩
    | rename name newName => exact ⟨⟨way, name, some newName⟩, rfl⟩
    | glob star => exact absurd ⟨way, star, hleads⟩ h
    | path | group => cases hend
  rw [tree.leaves_of_tips.pins]
  generalize tree.tips = tips at hpin
  induction tips with
  | nil => rfl
  | cons tip rest ih =>
    obtain ⟨⟨pin, rfl⟩, hrest⟩ := List.forall_mem_cons.1 hpin
    rw [List.filterMap_cons_some (Tip.pin?_eq_some.2 rfl), List.map_cons, ← ih hrest]

/-! ## Forms -/

/-- What a tree looks like that has this form. -/
structure UseTree.Classified (tree : UseTree ι) (form : Form ι) : Prop where
  /-- A wildcard is a path that ends in a star, without any group. -/
  wildcard (path : List String) (star : ι) : form = .wildcard path star ↔ tree = .chain path (.glob star)
  explicit : (∃ pins, form = .explicit pins) ↔ ¬ tree.HasStar
  /-- The names that are listed are the tips in their order, each with the whole way to it. -/
  names (pins : List Pin) : form = .explicit pins → tree.tips = pins.map Pin.tip
  ambiguous (why : Ambiguity) : form = .ambiguous why ↔
    tree.HasStar ∧ (∀ path star, tree ≠ .chain path (.glob star)) ∧
      (why = .mixed ∧ tree.HasName ∨ why = .grouped ∧ ¬ tree.HasName)

theorem UseTree.hasStar_chain (path : List String) (star : ι) : (UseTree.chain path (.glob star)).HasStar := by
  refine ⟨path, star, ?_⟩
  induction path with
  | nil => exact .here _
  | cons segment path ih => exact .path ih

/-- The form of a tree that is no wildcard depends on whether there are stars and names. -/
theorem UseTree.form_of_not_chain {tree : UseTree ι} (h : ∀ path star, tree ≠ .chain path (.glob star)) :
    (¬ tree.HasStar ∧ tree.form = .explicit (tree.leaves [] false).pins) ∨
      (tree.HasStar ∧ tree.HasName ∧ tree.form = .ambiguous .mixed) ∨
      (tree.HasStar ∧ ¬ tree.HasName ∧ tree.form = .ambiguous .grouped) := by
  have hwild : ∀ path star, tree.form ≠ .wildcard path star := fun path star hform =>
    h path star (form_eq_wildcard_iff.1 hform)
  have hstar : ∀ {stars}, (tree.leaves [] false).stars = stars → (stars ≠ [] ↔ tree.HasStar) := fun heq => by
    rw [← heq, Ne, tree.stars_eq_nil_iff, not_not]
  have hname : ∀ {pins}, (tree.leaves [] false).pins = pins → (pins ≠ [] ↔ tree.HasName) := fun heq => by
    rw [← heq, Ne, tree.pins_eq_nil_iff, not_not]
  rw [← hstar rfl, ← hname rfl]
  unfold form at hwild ⊢
  simp only at hwild ⊢
  split
  · rename_i hnil
    exact .inl ⟨by simp [hnil], rfl⟩
  · rename_i hone hnone
    simp [hone, hnone] at hwild
  · rename_i hnil hsome _
    exact .inr (.inr ⟨hsome, by simp [hnil], rfl⟩)
  · rename_i hcons hsome
    exact .inr (.inl ⟨hsome, by simp [hcons], rfl⟩)

theorem UseTree.form_classified (tree : UseTree ι) : tree.Classified tree.form := by
  by_cases hchain : ∃ path star, tree = .chain path (.glob star)
  · obtain ⟨path, star, rfl⟩ := hchain
    have hstar := hasStar_chain path star
    have hform := form_eq_wildcard_iff.2 (rfl : UseTree.chain path (.glob star) = _)
    refine ⟨fun _ _ => form_eq_wildcard_iff, by simp [hform, hstar], by simp [hform], fun why => ?_⟩
    rw [hform]
    exact ⟨fun h => (by cases h), fun ⟨_, hchain, _⟩ => absurd rfl (hchain path star)⟩
  · push Not at hchain
    rcases form_of_not_chain hchain with ⟨hstar, hform⟩ | ⟨hstar, hname, hform⟩ | ⟨hstar, hname, hform⟩
    · refine ⟨fun _ _ => form_eq_wildcard_iff, by simp [hform, hstar], fun pins hpins => ?_, by simp [hform, hstar]⟩
      cases hform.symm.trans hpins
      exact tips_eq_map_tip hstar
    all_goals
      exact ⟨fun _ _ => form_eq_wildcard_iff, by simp [hform, hstar], by simp [hform],
        by simp [hform, hstar, hchain, hname, eq_comm]⟩

/-! ## Regrouping -/

/-- One tree is the other with its leaves grouped in another way. -/
inductive UseTree.Regroups : UseTree ι → UseTree ι → Prop where
  | refl (tree : UseTree ι) : Regroups tree tree
  | symm {t u : UseTree ι} : Regroups t u → Regroups u t
  | trans {t u v : UseTree ι} : Regroups t u → Regroups u v → Regroups t v
  /-- Below a segment. -/
  | path {t u : UseTree ι} (segment : String) : Regroups t u → Regroups (.path segment t) (.path segment u)
  /-- In a group. -/
  | member {t u : UseTree ι} (before after : List (UseTree ι)) :
      Regroups t u → Regroups (.group (before ++ t :: after)) (.group (before ++ u :: after))
  /-- `{a}` is `a`. -/
  | single (tree : UseTree ι) : Regroups (.group [tree]) tree
  /-- `{a, {b, c}, d}` is `{a, b, c, d}`. -/
  | splice (before items after : List (UseTree ι)) :
      Regroups (.group (before ++ .group items :: after)) (.group (before ++ items ++ after))
  /-- `s::{a, b}` is `{s::a, s::b}`. -/
  | share (segment : String) (items : List (UseTree ι)) :
      Regroups (.path segment (.group items)) (.group (items.map (.path segment)))

theorem UseTree.Regroups.tips_eq {t u : UseTree ι} (h : t.Regroups u) : t.tips = u.tips := by
  induction h with
  | refl => rfl
  | symm _ ih => exact ih.symm
  | trans _ _ ih₁ ih₂ => exact ih₁.trans ih₂
  | path _ _ ih => simp [tips, ih]
  | member _ _ _ ih => simp [tips, tipsAll, ih]
  | single => simp [tips, tipsAll]
  | splice => simp [tips, tipsAll]
  | share => simp [tips]

mutual

/-- Every tree is a group of tips that stand alone, once all its groups are dissolved. -/
theorem UseTree.Regroups.expand : ∀ (tree : UseTree ι), tree.Regroups (.group (tree.tips.map Tip.tree))
  | .path segment rest => by
    have hshare := Regroups.share segment (rest.tips.map Tip.tree)
    have hmap : (rest.tips.map Tip.tree).map (.path segment) = (UseTree.path segment rest).tips.map Tip.tree := by
      simp [tips]
    rw [hmap] at hshare
    exact (Regroups.path segment (.expand rest)).trans hshare
  | .name _ | .rename _ _ | .glob _ => .symm (.single _)
  | .group items => .expandAll [] items

theorem UseTree.Regroups.expandAll : ∀ (before items : List (UseTree ι)),
    (UseTree.group (before ++ items)).Regroups (.group (before ++ (tipsAll items).map Tip.tree))
  | before, [] => .refl _
  | before, tree :: rest => by
    have hfirst := Regroups.member before rest (.expand tree)
    have hsplice := Regroups.splice before (tree.tips.map Tip.tree) rest
    have hrest := Regroups.expandAll (before ++ tree.tips.map Tip.tree) rest
    rw [List.append_assoc _ _ (List.map _ _), ← List.map_append] at hrest
    exact hfirst.trans (hsplice.trans hrest)

end

/-- Regrouping keeps the tips in their order, and trees with the same tips can be regrouped into
    each other. -/
theorem UseTree.tips_eq_iff_regroups {t u : UseTree ι} : t.tips = u.tips ↔ t.Regroups u := by
  refine ⟨fun h => ?_, Regroups.tips_eq⟩
  have hexpand := Regroups.expand t
  rw [h] at hexpand
  exact hexpand.trans (.symm (.expand u))

/-- Directives that list names list the same ones, in the same order, just when they are regrouped. -/
theorem UseTree.form_eq_iff_regroups {t u : UseTree ι} (h : ¬ t.HasStar) : t.form = u.form ↔ t.Regroups u := by
  obtain ⟨pins, hpins⟩ := t.form_classified.explicit.2 h
  rw [← tips_eq_iff_regroups]
  constructor
  · intro hform
    rw [t.form_classified.names pins hpins, u.form_classified.names pins (hform ▸ hpins)]
  · intro htips
    have hu : ¬ u.HasStar := by rwa [hasStar_iff, ← htips, ← hasStar_iff]
    obtain ⟨pins', hpins'⟩ := u.form_classified.explicit.2 hu
    rw [hpins, hpins']
    have hmap : pins.map (@Pin.tip ι) = pins'.map Pin.tip := by
      rw [← t.form_classified.names pins hpins, htips, u.form_classified.names pins' hpins']
    rw [List.map_injective_iff.2 Pin.tip_injective hmap]

end Reexport
