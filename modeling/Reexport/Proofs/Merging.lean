import Reexport.Proofs.Items
import Reexport.Proofs.QualifiedNames

/-!
# Contributions that are merged

Contributions to one name are told apart by their identities alone. Where nothing is
put on record about a name, all its contributions have one identity. Whether they then
stand for one item depends on what an identity tells: the unit and the name of a
declaration, the qualified name of a module, but of something outside the tree only
the path as it is written. A path that starts with `self` or `super` means another item
in another module.

Results:

* `identity_eq_of_quiet`: contributions of a name without record have one identity.
* `Item.same_of_identity`: what one identity says about two items.
* `merged_same_or_alike`: what is merged is one item, or is written by one relative path.
-/

namespace Reexport

/-! ## Names without record -/

/-- Contributions that neither collide nor hide one another have one identity. -/
theorem identity_eq_of_quiet {m : Module} {name : String} {routes : List Contribution}
    (hcollision : collision? m name routes = none) (hshadowing : shadowing? m name routes = none) :
    ∀ a ∈ routes, ∀ b ∈ routes, a.entry.identity = b.entry.identity := by
  have hwinners : differ (winners routes) = false := by
    unfold collision? at hcollision
    split_ifs at hcollision with hdiffer
    simpa using hdiffer
  cases hdirect : routes.filter (·.via.isDirect) with
  | nil =>
    rw [winners_of_no_direct (by simpa using hdirect)] at hwinners
    exact differ_eq_false hwinners
  | cons kept others =>
    have hkept : kept ∈ routes.filter (·.via.isDirect) := hdirect ▸ List.mem_cons_self
    rw [winners_of_direct (List.mem_of_mem_filter hkept) (List.mem_filter.1 hkept).2,
      hdirect] at hwinners
    simp only [shadowing?, hdirect, hwinners, Bool.false_eq_true, if_false] at hshadowing
    split_ifs at hshadowing with hhidden
    rw [List.isEmpty_iff, List.filter_eq_nil_iff] at hhidden
    intro a ha b hb
    have ha' : a.entry.identity = kept.entry.identity := by simpa using hhidden a ha
    have hb' : b.entry.identity = kept.entry.identity := by simpa using hhidden b hb
    rw [ha', hb']

namespace Draft

variable (draft : Draft) (m : Module) {name : String}

theorem collision?_eq_none (hname : name ∈ draft.names)
    (h : ∀ c ∈ (draft.settle m).collisions, c.name ≠ name) :
    collision? m name (draft.routes name) = none := by
  by_contra hsome
  obtain ⟨c, hc⟩ := Option.ne_none_iff_exists'.1 hsome
  refine h c (List.mem_filterMap.2 ⟨name, hname, hc⟩) ?_
  unfold collision? at hc
  split_ifs at hc
  cases hc
  rfl

theorem shadowing?_eq_none (hname : name ∈ draft.names)
    (h : ∀ s ∈ (draft.settle m).shadowed, s.name ≠ name) :
    shadowing? m name (draft.routes name) = none := by
  by_contra hsome
  obtain ⟨s, hs⟩ := Option.ne_none_iff_exists'.1 hsome
  refine h s (List.mem_filterMap.2 ⟨name, hname, hs⟩) ?_
  unfold shadowing? at hs
  split at hs
  · cases hs
  · dsimp only at hs
    split_ifs at hs
    cases hs
    rfl

end Draft

/-! ## Identities of different kinds -/

theorem hash_not_mem_intercalate : ∀ {texts : List String}, (∀ s ∈ texts, IsPlain s) →
    '#' ∉ ("::".intercalate texts).toList := by
  intro texts
  induction texts with
  | nil => simp
  | cons s rest ih =>
    intro hplain hmem
    obtain ⟨hs, hrest⟩ := List.forall_mem_cons.1 hplain
    rw [toList_intercalate_cons, List.mem_append] at hmem
    rcases hmem with hmem | hmem
    · exact hs.2.1 hmem
    · cases rest with
      | nil => simp [joinedTail] at hmem
      | cons t rest => exact ih hrest (by simpa [joinedTail] using hmem)

theorem Identity.declared_ne {origin name : String} {other : Identity} (h : '#' ∉ other.text.toList) :
    Identity.declared origin name ≠ other := by
  rintro rfl
  simp [Identity.declared] at h

theorem Identity.module_ne_external (qualified path : String) :
    Identity.module qualified ≠ .external path := by
  intro h
  have htext := congrArg (fun identity : Identity => identity.text.toList.head?) h
  simp [Identity.module, Identity.external] at htext

namespace Resolution

/-! ## Items of a tree -/

/-- The names of a tree are plain. -/
structure PlainNames (tree : ModuleTree) : Prop where
  symbols : ∀ id, ∀ s ∈ (tree.get id).symbols, IsPlain s.name
  segments : ∀ id, ∀ segment ∈ (tree.get id).segments, IsPlain segment
  paths : ∀ id, ∀ p ∈ listedPins (tree.get id), ∀ segment ∈ p.2.itemPath, IsPlain segment

instance (tree : ModuleTree) : Decidable (PlainNames tree) :=
  decidable_of_iff (∀ id < tree.size, (∀ s ∈ (tree.get id).symbols, IsPlain s.name) ∧
      (∀ segment ∈ (tree.get id).segments, IsPlain segment) ∧
      ∀ p ∈ listedPins (tree.get id), ∀ segment ∈ p.2.itemPath, IsPlain segment) <| by
    constructor
    · intro h
      have hall : ∀ id, (∀ s ∈ (tree.get id).symbols, IsPlain s.name) ∧
          (∀ segment ∈ (tree.get id).segments, IsPlain segment) ∧
          ∀ p ∈ listedPins (tree.get id), ∀ segment ∈ p.2.itemPath, IsPlain segment := by
        intro id
        by_cases hid : id < tree.size
        · exact h id hid
        · rw [ModuleTree.get_of_size_le (by simpa using hid)]
          exact ⟨List.forall_mem_nil _, List.forall_mem_nil _, List.forall_mem_nil _⟩
      exact ⟨fun id => (hall id).1, fun id => (hall id).2.1, fun id => (hall id).2.2⟩
    · exact fun h id _ => ⟨h.symbols id, h.segments id, h.paths id⟩

/-- An item that is declared or listed somewhere in a tree, or is a module of it. -/
inductive Item.InTree (tree : ModuleTree) : Item → Prop
  | declared {id : ModuleId} {s : Symbol} : s ∈ (tree.get id).symbols → InTree tree (.declared s)
  | module {id : ModuleId} : id < tree.size → InTree tree (.module id)
  | external {user : ModuleId} {d : Directive} {pin : Pin} : (d, pin) ∈ listedPins (tree.get user) →
      InTree tree (.external user d pin.itemPath)

theorem Exports.inTree {tree : ModuleTree} (h : tree.WellFormed) {id : ModuleId} {name : String}
    {item : Item} (he : Exports tree id name item) : id < tree.size → item.InTree tree := by
  induction he with
  | own hs => exact fun _ => .declared hs
  | pinned _ _ _ hkey _ ih => exact fun hid => ih (pinKey?_lt h hid hkey)
  | module _ _ _ ht => exact fun hid => .module (h.resolvePath_lt hid ht)
  | external hpin _ => exact fun _ => .external hpin
  | wildcard hedge _ ih => exact fun hid => ih (hedge.lt h hid)

/-! ## Paths from the root -/

/-- A path from the root on, for one that starts at module `id` and may step up. -/
def fromRoot (tree : ModuleTree) (id : ModuleId) : List String → List String
  | [] => "crate" :: (tree.get id).segments
  | segment :: rest =>
    if segment = "super" then
      match (tree.get id).parent with
      | some parent => fromRoot tree parent rest
      | none => "crate" :: ((tree.get id).segments ++ segment :: rest)
    else "crate" :: ((tree.get id).segments ++ segment :: rest)

/-- The path of something outside the tree, `self`, `super` and `crate` expanded for the
    module `user` that it is written in. -/
def absolutePath (tree : ModuleTree) (user : ModuleId) (d : Directive) (path : List String) :
    List String :=
  if d.absolute then path
  else
    match path with
    | "crate" :: rest => fromRoot tree ModuleTree.root rest
    | "self" :: rest => fromRoot tree user rest
    | "super" :: rest => fromRoot tree user ("super" :: rest)
    | path => path

/-- A path that means something else in another module. -/
def IsRelative (path : List String) : Prop :=
  path.head? = some "self" ∨ path.head? = some "super"

theorem fromRoot_root {tree : ModuleTree} (h : tree.WellFormed) (hplaced : tree.Placed)
    (path : List String) : fromRoot tree ModuleTree.root path = "crate" :: path := by
  have hparent : (tree.get ModuleTree.root).parent = none := by
    cases hp : (tree.get ModuleTree.root).parent with
    | none => rfl
    | some parent => exact absurd (h.parent_lt hp) (Nat.not_lt_zero parent)
  cases path with
  | nil => rw [fromRoot, hplaced.root_segments]
  | cons segment rest => simp [fromRoot, hparent, hplaced.root_segments]

/-- A path that is not relative means the same everywhere. -/
theorem absolutePath_eq {tree : ModuleTree} (h : tree.WellFormed) (hplaced : tree.Placed)
    (user : ModuleId) (d : Directive) {path : List String} (hpath : ¬ IsRelative path) :
    absolutePath tree user d path = path := by
  unfold absolutePath
  split_ifs
  · rfl
  · split
    · exact fromRoot_root h hplaced _
    · exact absurd (.inl rfl) hpath
    · exact absurd (.inr rfl) hpath
    · rfl

/-! ## One identity -/

/-- Two items are the same: one name of one unit, one module, or one path from the
    root. -/
def Item.Same (tree : ModuleTree) : Item → Item → Prop
  | .declared s, .declared t => s.origin = t.origin ∧ s.name = t.name
  | .module a, .module b => a = b
  | .external user d path, .external user' d' path' =>
    absolutePath tree user d path = absolutePath tree user' d' path'
  | _, _ => False

/-- Two items from outside the tree that are written by one relative path. -/
def Item.WrittenAlike (a b : Item) : Prop :=
  ∃ user d user' d' path, a = .external user d path ∧ b = .external user' d' path ∧ IsRelative path

section SameIdentity

variable {tree : ModuleTree} (h : tree.WellFormed) (hplaced : tree.Placed)
  (hdistinct : tree.DistinctSiblings) (hplain : PlainNames tree)

include h hplaced hplain

omit h hplaced in
/-- Only the identity of a declaration has a mark in it. -/
theorem Item.InTree.no_mark {item : Item} (hin : item.InTree tree) (hne : ∀ s, item ≠ .declared s) :
    '#' ∉ (item.identity tree).text.toList := by
  cases hin with
  | declared _ => exact absurd rfl (hne _)
  | @module id _ =>
    have hcrate : IsPlain "crate" := by decide
    have hnot := hash_not_mem_intercalate (List.forall_mem_cons.2 ⟨hcrate, hplain.segments id⟩)
    rw [← qualifiedName_eq] at hnot
    simpa [Item.identity, Identity.module] using hnot
  | external hpin =>
    have hnot := hash_not_mem_intercalate (hplain.paths _ _ hpin)
    simpa [Item.identity, Identity.external] using hnot

include hdistinct

/-- Items of one identity are the same, or are written by one relative path. -/
theorem Item.same_of_identity {a b : Item} (ha : a.InTree tree) (hb : b.InTree tree)
    (hidentity : a.identity tree = b.identity tree) : Item.Same tree a b ∨ Item.WrittenAlike a b := by
  cases ha with
  | declared hs =>
    cases hb with
    | declared ht =>
      exact .inl (Identity.declared_inj (hplain.symbols _ _ hs) (hplain.symbols _ _ ht) hidentity)
    | module hlt =>
      exact absurd hidentity (Identity.declared_ne ((InTree.module hlt).no_mark hplain (by simp)))
    | external hpin =>
      exact absurd hidentity (Identity.declared_ne ((InTree.external hpin).no_mark hplain (by simp)))
  | module hlt =>
    cases hb with
    | declared _ =>
      exact absurd hidentity.symm (Identity.declared_ne ((InTree.module hlt).no_mark hplain (by simp)))
    | module hlt' =>
      have hname : Identity.module _ = Identity.module _ := hidentity
      refine .inl (hplaced.eq_of_qualifiedName hdistinct hplain.segments hlt hlt' ?_)
      simpa [Identity.module] using hname
    | external _ => exact absurd hidentity (Identity.module_ne_external _ _)
  | @external user d pin hpin =>
    cases hb with
    | declared _ =>
      exact absurd hidentity.symm
        (Identity.declared_ne ((InTree.external hpin).no_mark hplain (by simp)))
    | module _ => exact absurd hidentity.symm (Identity.module_ne_external _ _)
    | @external user' d' pin' hpin' =>
      have htext : Identity.external _ = Identity.external _ := hidentity
      have hpath : pin.itemPath = pin'.itemPath :=
        intercalate_inj (hplain.paths _ _ hpin) (hplain.paths _ _ hpin')
          (by simpa [Identity.external] using htext)
      rw [← hpath]
      by_cases hrelative : IsRelative pin.itemPath
      · exact .inr ⟨user, d, user', d', pin.itemPath, rfl, rfl, hrelative⟩
      · refine .inl ?_
        show absolutePath tree user d pin.itemPath = absolutePath tree user' d' pin.itemPath
        rw [absolutePath_eq h hplaced user d hrelative, absolutePath_eq h hplaced user' d' hrelative]

end SameIdentity

/-! ## Main result -/

/-- **What is merged.** If neither a collision nor a shadowing is on record for a name
    of a module, every contribution to it stands for an item that the module exports
    under that name, and any two of these items are the same, unless they come from
    outside the tree and are written by one relative path. -/
theorem merged_same_or_alike {tree : ModuleTree} (h : tree.Built) (hdistinct : tree.DistinctSiblings)
    (hplain : PlainNames tree) {id : ModuleId} (hid : id < tree.size) {name : String}
    (hcollision : ∀ c ∈ (resolvedAt tree id).collisions, c.name ≠ name)
    (hshadowing : ∀ s ∈ (resolvedAt tree id).shadowed, s.name ≠ name) :
    (∀ c ∈ (draftAt tree id).routes name,
      ∃ item, Exports tree id name item ∧ item.Describes tree c.entry) ∧
    ∀ c ∈ (draftAt tree id).routes name, ∀ c' ∈ (draftAt tree id).routes name, ∀ a b,
      Exports tree id name a → a.Describes tree c.entry →
      Exports tree id name b → b.Describes tree c'.entry →
      Item.Same tree a b ∨ Item.WrittenAlike a b := by
  have hwf := h.wellFormed
  refine ⟨fun c hc => ?_, fun c hc c' hc' a b ha hac hb hbc => ?_⟩
  · obtain ⟨hmem, rfl⟩ := (Draft.mem_routes _).1 hc
    exact (justified_passedOn tree).contribution hmem
  · have hname : name ∈ (draftAt tree id).names :=
      (Draft.mem_names _).2 ⟨c, (Draft.mem_routes _).1 hc⟩
    rw [(drafted_draftAt hwf hid).settled] at hcollision hshadowing
    have hsame := identity_eq_of_quiet (Draft.collision?_eq_none _ _ hname hcollision)
      (Draft.shadowing?_eq_none _ _ hname hshadowing) c hc c' hc'
    refine Item.same_of_identity hwf h.placed hdistinct hplain (ha.inTree hwf hid)
      (hb.inTree hwf hid) ?_
    rw [← hac.identity, ← hbc.identity, hsame]

/-- Name `x` of the last module comes in twice, by two ways from one declaration. -/
theorem merged_same_or_alike_diamond :
    ((draftAt diamond 4).routes "x").length = 2 ∧
    (∀ c ∈ (resolvedAt diamond 4).collisions, c.name ≠ "x") ∧
    (∀ s ∈ (resolvedAt diamond 4).shadowed, s.name ≠ "x") ∧
    ∀ c ∈ (draftAt diamond 4).routes "x", ∀ c' ∈ (draftAt diamond 4).routes "x", ∀ a b,
      Exports diamond 4 "x" a → a.Describes diamond c.entry →
      Exports diamond 4 "x" b → b.Describes diamond c'.entry →
      Item.Same diamond a b ∨ Item.WrittenAlike a b := by
  have hcollision : ∀ c ∈ (resolvedAt diamond 4).collisions, c.name ≠ "x" := by decide +kernel
  have hshadowing : ∀ s ∈ (resolvedAt diamond 4).shadowed, s.name ≠ "x" := by decide +kernel
  refine ⟨by decide +kernel, hcollision, hshadowing, ?_⟩
  exact (merged_same_or_alike (ModuleTree.built_flat _) (by decide +kernel) (by decide +kernel)
    (by decide +kernel) hcollision hshadowing).2

/-- A unit lists `X` of something of its own that is called `inner`. -/
def listsInner (unit : String) : Directive :=
  { Directive.list [⟨["self", "inner"], "X", none⟩] with unit := unit }

/-- Two modules list `X` of what is called `inner` in both, and a third one passes on
    both. -/
def twins : ModuleTree :=
  .flat [
    ("a", [], [listsInner "a"]),
    ("b", [], [listsInner "b"]),
    ("top", [], [.star ["super", "a"], .star ["super", "b"]])]

/-- Different items that are written by one relative path are merged without record. -/
theorem relative_twins_merged :
    (resolvedAt twins 3).collisions = [] ∧ (resolvedAt twins 3).shadowed = [] ∧
    (∃ e, (resolvedAt twins 3).exports.find? "X" = some e ∧ e.ambiguous = false) ∧
    (resolvedAt twins 3).plans = [.replaced ["X"] [], .replaced [] []] ∧
    ∃ c ∈ (draftAt twins 3).routes "X", ∃ c' ∈ (draftAt twins 3).routes "X", ∃ a b,
      Exports twins 3 "X" a ∧ a.Describes twins c.entry ∧
      Exports twins 3 "X" b ∧ b.Describes twins c'.entry ∧ ¬ Item.Same twins a b := by
  let pin : Pin := ⟨["self", "inner"], "X", none⟩
  let path := pin.itemPath
  let c : Contribution := ⟨external (listsInner "a") "X" path, .wildcard 0⟩
  let c' : Contribution := ⟨external (listsInner "b") "X" path, .wildcard 1⟩
  have hfind : (resolvedAt twins 3).exports.find? "X" = some c.entry := by decide +kernel
  have hroutes : (draftAt twins 3).routes "X" = [c, c'] := by decide +kernel
  have hpin : (listsInner "a", pin) ∈ listedPins (twins.get 1) :=
    mem_listedPins.2 ⟨List.mem_singleton_self _, [pin], rfl, List.mem_singleton_self _⟩
  have hpin' : (listsInner "b", pin) ∈ listedPins (twins.get 2) :=
    mem_listedPins.2 ⟨List.mem_singleton_self _, [pin], rfl, List.mem_singleton_self _⟩
  have hedge : Edge twins 3 1 := ⟨.star ["super", "a"], List.mem_cons_self, by decide +kernel⟩
  have hedge' : Edge twins 3 2 :=
    ⟨.star ["super", "b"], List.mem_cons_of_mem _ (List.mem_singleton_self _), by decide +kernel⟩
  have ha : Exports twins 3 "X" (.external 1 (listsInner "a") path) :=
    .wildcard hedge (.external hpin rfl)
  have hb : Exports twins 3 "X" (.external 2 (listsInner "b") path) :=
    .wildcard hedge' (.external hpin' rfl)
  refine ⟨by decide +kernel, by decide +kernel, ⟨_, hfind, rfl⟩, by decide +kernel,
    c, by simp [hroutes], c', by simp [hroutes], _, _, ha, ⟨rfl, rfl, rfl, rfl⟩,
    hb, ⟨rfl, rfl, rfl, rfl⟩, ?_⟩
  show absolutePath twins 1 (listsInner "a") path ≠ absolutePath twins 2 (listsInner "b") path
  decide +kernel

end Resolution

end Reexport
