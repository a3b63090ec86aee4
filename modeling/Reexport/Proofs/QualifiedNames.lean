import Reexport.Export
import Reexport.Proofs.TreeShape

/-!
# Qualified names

The texts by which declarations, modules and paths are told apart are put together
from names. Where names are plain, such a text can be taken apart again, and where
siblings have different names, a module is known by its qualified name.

Results:

* `Identity.declared_inj`, `intercalate_inj`: what a text is put together from.
* `Built.placed`: the segments of a module are those of its parent and its name.
* `eq_of_qualifiedName`: modules of one qualified name are the same.
-/

namespace Reexport

/-- A name as units write it: not empty, and without the marks that texts are put
    together with. -/
def IsPlain (s : String) : Prop := s ≠ "" ∧ '#' ∉ s.toList ∧ ':' ∉ s.toList

instance (s : String) : Decidable (IsPlain s) :=
  inferInstanceAs (Decidable (_ ∧ _ ∧ _))

/-! ## Taking texts apart -/

/-- What stands before a mark is found again if it is free of the mark. -/
theorem append_inj_of_mark {α : Type} {mark : α} {as bs xs ys : List α} (ha : mark ∉ as) (hb : mark ∉ bs)
    (hx : ∀ x ∈ xs.head?, x = mark) (hy : ∀ y ∈ ys.head?, y = mark) (h : as ++ xs = bs ++ ys) :
    as = bs ∧ xs = ys := by
  induction as generalizing bs with
  | nil =>
    cases bs with
    | nil => exact ⟨rfl, h⟩
    | cons b bs =>
      obtain rfl : xs = b :: (bs ++ ys) := h
      obtain rfl : b = mark := hx b rfl
      exact absurd List.mem_cons_self hb
  | cons a as ih =>
    cases bs with
    | nil =>
      obtain rfl : a :: (as ++ xs) = ys := h
      obtain rfl : a = mark := hy a rfl
      exact absurd List.mem_cons_self ha
    | cons b bs =>
      obtain ⟨rfl, hrest⟩ := List.cons.inj h
      rw [List.mem_cons, not_or] at ha hb
      obtain ⟨rfl, rfl⟩ := ih ha.2 hb.2 hrest
      exact ⟨rfl, rfl⟩

/-- The identity of a declaration tells its unit and its name. -/
theorem Identity.declared_inj {origin origin' name name' : String} (hname : IsPlain name)
    (hname' : IsPlain name') (h : Identity.declared origin name = .declared origin' name') :
    origin = origin' ∧ name = name' := by
  have htext := congrArg (fun identity : Identity => identity.text.toList.reverse) h
  simp only [Identity.declared, String.toList_append, List.reverse_append] at htext
  -- the name is what stands behind the last mark
  have hfree : '#' ∉ name.toList.reverse := by simpa using hname.2.1
  have hfree' : '#' ∉ name'.toList.reverse := by simpa using hname'.2.1
  obtain ⟨hn, ho⟩ := append_inj_of_mark hfree hfree' (by simp) (by simp) htext
  refine ⟨?_, ?_⟩
  · rw [← String.toList_inj]
    simpa using ho
  · rw [← String.toList_inj]
    simpa using hn

/-- What follows the first of the texts that are joined. -/
def joinedTail : List String → List Char
  | [] => []
  | s :: rest => "::".toList ++ ("::".intercalate (s :: rest)).toList

theorem toList_intercalate_cons (s : String) (rest : List String) :
    ("::".intercalate (s :: rest)).toList = s.toList ++ joinedTail rest := by
  cases rest with
  | nil => simp [joinedTail]
  | cons t rest => simp [joinedTail, String.intercalate_cons_cons]

theorem head?_joinedTail (rest : List String) : ∀ c ∈ (joinedTail rest).head?, c = ':' := by
  cases rest with
  | nil => simp [joinedTail]
  | cons s rest => simp [joinedTail]

/-- Joined plain texts tell which ones were joined. -/
theorem intercalate_inj : ∀ {as bs : List String}, (∀ s ∈ as, IsPlain s) → (∀ s ∈ bs, IsPlain s) →
    "::".intercalate as = "::".intercalate bs → as = bs := by
  intro as
  induction as with
  | nil =>
    intro bs _ hb h
    cases bs with
    | nil => rfl
    | cons b bs =>
      have hempty := congrArg String.toList h
      rw [toList_intercalate_cons] at hempty
      have hb' : b = "" := by simpa using (List.append_eq_nil_iff.1 hempty.symm).1
      exact absurd hb' (hb b List.mem_cons_self).1
  | cons a as ih =>
    intro bs ha hb h
    cases bs with
    | nil =>
      have hempty := congrArg String.toList h
      rw [toList_intercalate_cons] at hempty
      have ha' : a = "" := by simpa using (List.append_eq_nil_iff.1 hempty).1
      exact absurd ha' (ha a List.mem_cons_self).1
    | cons b bs =>
      have htext := congrArg String.toList h
      rw [toList_intercalate_cons, toList_intercalate_cons] at htext
      obtain ⟨hab, htail⟩ := append_inj_of_mark (ha a List.mem_cons_self).2.2
        (hb b List.mem_cons_self).2.2 (head?_joinedTail as) (head?_joinedTail bs) htext
      have hrest : "::".intercalate as = "::".intercalate bs := by
        cases as with
        | nil =>
          cases bs with
          | nil => rfl
          | cons b' bs => simp [joinedTail] at htail
        | cons a' as =>
          cases bs with
          | nil => simp [joinedTail] at htail
          | cons b' bs => exact String.toList_inj.1 (List.append_cancel_left htail)
      rw [String.toList_inj.1 hab, ih (fun s hs => ha s (List.mem_cons_of_mem _ hs))
        (fun s hs => hb s (List.mem_cons_of_mem _ hs)) hrest]

theorem foldl_qualified (start : String) (segments : List String) :
    segments.foldl (fun path segment => path ++ "::" ++ segment) start =
      "::".intercalate (start :: segments) := by
  induction segments generalizing start with
  | nil => simp
  | cons segment rest ih =>
    rw [List.foldl_cons, ih, String.intercalate_cons_append, String.intercalate_cons_cons]

theorem qualifiedName_eq (m : Module) :
    m.qualifiedName = "::".intercalate ("crate" :: m.segments) :=
  foldl_qualified _ _

namespace ModuleTree

/-! ## Where modules stand -/

/-- Every module but the root stands below its parent. -/
structure Placed (tree : ModuleTree) : Prop where
  root_segments : (tree.get root).segments = []
  below : ∀ {id : Nat}, 0 < id → id < tree.size → ∃ parent < id, tree.Child parent id ∧
    (tree.get id).parent = some parent ∧
    (tree.get id).segments = (tree.get parent).segments ++ [(tree.get id).name]

theorem place_modify {tree : ModuleTree} {f : Module → Module} (hf : KeepsPlace f) (id other : Nat) :
    ((tree.modify id f).get other).name = (tree.get other).name ∧
      ((tree.modify id f).get other).segments = (tree.get other).segments := by
  by_cases hid : id = other
  · subst hid
    by_cases hlt : id < tree.size
    · rw [get_modify_self f hlt]
      exact ⟨(hf _).1, (hf _).2.1⟩
    · rw [get_of_size_le (by simpa using hlt), get_of_size_le (by simpa using hlt)]
      exact ⟨rfl, rfl⟩
  · rw [get_modify_ne f hid]
    exact ⟨rfl, rfl⟩

theorem place_addChild {tree : ModuleTree} {parent : Nat} {name : String} {dir manifest : Option String}
    {id : Nat} (h : id < tree.size) :
    ((tree.addChild parent name dir manifest).get id).name = (tree.get id).name ∧
      ((tree.addChild parent name dir manifest).get id).segments = (tree.get id).segments := by
  rw [get_addChild_of_lt name dir manifest h]
  by_cases hid : parent = id
  · subst hid
    rw [get_modify_self _ h]
    exact ⟨rfl, rfl⟩
  · rw [get_modify_ne _ hid]
    exact ⟨rfl, rfl⟩

theorem Placed.modify {tree : ModuleTree} {f : Module → Module} (h : tree.Placed) (hf : KeepsPlace f)
    (id : Nat) : (tree.modify id f).Placed where
  root_segments := by rw [(place_modify hf id root).2, h.root_segments]
  below := by
    intro other h0 hlt
    rw [size_modify] at hlt
    obtain ⟨parent, hparent, hchild, hp, hsegments⟩ := h.below h0 hlt
    refine ⟨parent, hparent, (child_modify hf id parent other).2 hchild, ?_, ?_⟩
    · rw [parent_modify hf, hp]
    · rw [(place_modify hf id other).1, (place_modify hf id other).2, (place_modify hf id parent).2,
        hsegments]

theorem Placed.addChild {tree : ModuleTree} {parent : Nat} {name : String}
    {dir manifest : Option String} (h : tree.Placed) (hwf : tree.WellFormed)
    (hp : parent < tree.size) : (tree.addChild parent name dir manifest).Placed where
  root_segments := (place_addChild hwf.root_lt).2.trans h.root_segments
  below := by
    intro id h0 hlt
    rw [size_addChild] at hlt
    by_cases hid : id < tree.size
    · obtain ⟨above, habove, hchild, hparent, hsegments⟩ := h.below h0 hid
      refine ⟨above, habove, (child_addChild hp above id).2 (.inl hchild), ?_, ?_⟩
      · rw [parent_addChild hid, hparent]
      · rw [(place_addChild hid).1, (place_addChild hid).2, (place_addChild (by omega)).2, hsegments]
    · obtain rfl : id = tree.size := by omega
      refine ⟨parent, hp, (child_addChild hp parent _).2 (.inr ⟨rfl, rfl⟩), ?_, ?_⟩
      · rw [get_addChild_size]
        rfl
      · rw [get_addChild_size, (place_addChild hp).2]
        rfl

/-- In every tree that is built, the segments of a module are those of its parent and
    its name. -/
theorem Built.placed {tree : ModuleTree} (h : tree.Built) : tree.Placed := by
  induction h with
  | new rootDir manifest =>
    refine ⟨rfl, fun h0 hlt => ?_⟩
    simp only [size, ModuleTree.new, List.size_toArray, List.length_cons, List.length_nil] at hlt
    omega
  | addChild name dir manifest hbuilt hp ih => exact ih.addChild hbuilt.wellFormed hp
  | modify id _ hf ih => exact ih.modify hf id

/-- Children of one module have different names. -/
def DistinctSiblings (tree : ModuleTree) : Prop :=
  ∀ {parent a b : Nat}, tree.Child parent a → tree.Child parent b →
    (tree.get a).name = (tree.get b).name → a = b

instance (tree : ModuleTree) : Decidable tree.DistinctSiblings :=
  decidable_of_iff (∀ parent < tree.size, ∀ a ∈ (tree.get parent).children,
      ∀ b ∈ (tree.get parent).children, (tree.get a).name = (tree.get b).name → a = b) <| by
    refine ⟨fun h parent a b ha hb => ?_, fun h parent _ a ha b hb => h ha hb⟩
    by_cases hparent : parent < tree.size
    · exact h parent hparent a ha b hb
    · exact absurd ha (not_child_of_size_le tree a (by simpa using hparent))

/-- The way from the root tells the module. -/
theorem Placed.eq_of_segments {tree : ModuleTree} (h : tree.Placed)
    (hdistinct : tree.DistinctSiblings) :
    ∀ {a b : Nat}, a < tree.size → b < tree.size →
      (tree.get a).segments = (tree.get b).segments → a = b := by
  intro a
  induction a using Nat.strongRecOn with
  | _ a ih =>
    intro b ha hb hsegments
    rcases Nat.eq_zero_or_pos a with rfl | ha0
    · rcases Nat.eq_zero_or_pos b with rfl | hb0
      · rfl
      · obtain ⟨_, -, -, -, hbelow⟩ := h.below hb0 hb
        rw [show (tree.get 0).segments = [] from h.root_segments, hbelow] at hsegments
        simp at hsegments
    · obtain ⟨parent, hparent, hchild, -, hbelow⟩ := h.below ha0 ha
      rcases Nat.eq_zero_or_pos b with rfl | hb0
      · rw [show (tree.get 0).segments = [] from h.root_segments, hbelow] at hsegments
        simp at hsegments
      · obtain ⟨parent', hparent', hchild', -, hbelow'⟩ := h.below hb0 hb
        rw [hbelow, hbelow'] at hsegments
        obtain ⟨habove, hname⟩ := List.append_inj' hsegments rfl
        obtain rfl := ih parent hparent (by omega) (by omega) habove
        exact hdistinct hchild hchild' (by simpa using hname)

/-- Modules of one qualified name are the same. -/
theorem Placed.eq_of_qualifiedName {tree : ModuleTree} (h : tree.Placed)
    (hdistinct : tree.DistinctSiblings)
    (hplain : ∀ id, ∀ segment ∈ (tree.get id).segments, IsPlain segment) {a b : Nat}
    (ha : a < tree.size) (hb : b < tree.size)
    (hname : (tree.get a).qualifiedName = (tree.get b).qualifiedName) : a = b := by
  rw [qualifiedName_eq, qualifiedName_eq] at hname
  have hcrate : IsPlain "crate" := by decide
  have hlist := intercalate_inj (List.forall_mem_cons.2 ⟨hcrate, hplain a⟩)
    (List.forall_mem_cons.2 ⟨hcrate, hplain b⟩) hname
  exact h.eq_of_segments hdistinct ha hb (List.cons.inj hlist).2

end ModuleTree

end Reexport
