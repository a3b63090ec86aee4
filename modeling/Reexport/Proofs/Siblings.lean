import Mathlib.Data.List.Nodup
import Reexport.Proofs.QualifiedNames

/-!
# Children in order

A module is listed once, by its parent, and the children of a module stand in the order
of their names. So where siblings have different names, the list of children is known once
it is known which modules they are.

Results:

* `Built.filed`: what the lists of children of a tree hold, and in which order.
* `Filed.child_iff`: the children of a module are the modules that name it as their parent.
* `Filed.postOrder_nodup`: the post-order walk meets no module twice.
-/

namespace Reexport.ModuleTree

/-- Every child names its parent, and the children of a module are listed once, in the order
    of their names. -/
structure Filed (tree : ModuleTree) : Prop where
  parent_of_child : ∀ {parent child : Nat}, tree.Child parent child →
    (tree.get child).parent = some parent
  nodup : ∀ parent : Nat, (tree.get parent).children.Nodup
  sorted : ∀ parent : Nat, (tree.get parent).children.Pairwise fun a b =>
    (tree.get a).name ≤ (tree.get b).name

/-- A number put in its place keeps a list of children in the order of the names `f`. -/
theorem insertByName_pairwise {tree : ModuleTree} {id : Nat} {name : String} {f : Nat → String}
    (hid : f id = name) {siblings : List Nat} (hf : ∀ a ∈ siblings, f a = (tree.get a).name)
    (h : siblings.Pairwise fun a b => f a ≤ f b) :
    (tree.insertByName id name siblings).Pairwise fun a b => f a ≤ f b := by
  induction siblings with
  | nil => exact List.pairwise_singleton _ _
  | cons sibling rest ih =>
    obtain ⟨hsibling, hrest⟩ := List.pairwise_cons.1 h
    rw [insertByName, ← hf sibling List.mem_cons_self]
    split_ifs with hlt
    · refine List.pairwise_cons.2 ⟨?_, h⟩
      rw [hid]
      refine List.forall_mem_cons.2 ⟨Std.le_of_lt hlt, fun a ha => ?_⟩
      exact String.le_trans (Std.le_of_lt hlt) (hsibling a ha)
    · refine List.pairwise_cons.2 ⟨?_, ih (fun a ha => hf a (List.mem_cons_of_mem _ ha)) hrest⟩
      intro a ha
      rcases (mem_insertByName tree id name rest a).1 ha with rfl | ha
      · rw [hid]
        exact hlt
      · exact hsibling a ha

theorem insertByName_nodup {tree : ModuleTree} {id : Nat} (name : String) {siblings : List Nat}
    (hid : id ∉ siblings) (h : siblings.Nodup) : (tree.insertByName id name siblings).Nodup := by
  induction siblings with
  | nil => exact List.pairwise_singleton _ _
  | cons sibling rest ih =>
    obtain ⟨hsibling, hrest⟩ := List.nodup_cons.1 h
    obtain ⟨hne, hnot⟩ := not_or.1 (mt List.mem_cons.2 hid)
    rw [insertByName]
    split_ifs
    · exact List.nodup_cons.2 ⟨hid, h⟩
    · refine List.nodup_cons.2 ⟨?_, ih hnot hrest⟩
      rw [mem_insertByName]
      rintro (rfl | hmem)
      · exact hne rfl
      · exact hsibling hmem

theorem Filed.modify {tree : ModuleTree} {f : Module → Module} (h : tree.Filed) (hf : KeepsPlace f)
    (id : Nat) : (tree.modify id f).Filed := by
  have hchildren : ∀ parent : Nat,
      ((tree.modify id f).get parent).children = (tree.get parent).children := by
    intro parent
    rcases get_modify_cases tree id parent f with hsame | ⟨-, hself⟩
    · rw [hsame]
    · rw [hself, (hf _).2.2.2]
  refine ⟨fun {parent child} hc => ?_, fun parent => ?_, fun parent => ?_⟩
  · rw [parent_modify hf]
    exact h.parent_of_child ((child_modify hf id parent child).1 hc)
  · rw [hchildren]
    exact h.nodup parent
  · rw [hchildren]
    refine (h.sorted parent).imp fun {a b} hab => ?_
    rw [(place_modify hf id a).1, (place_modify hf id b).1]
    exact hab

theorem Filed.addChild {tree : ModuleTree} {parent : Nat} {name : String}
    {dir manifest : Option String} (h : tree.Filed) (hwf : tree.WellFormed)
    (hp : parent < tree.size) : (tree.addChild parent name dir manifest).Filed := by
  -- of the lists of children only that of `parent` changes
  have hcases : ∀ above : Nat, ((tree.addChild parent name dir manifest).get above).children =
        (tree.get above).children ∨
      above = parent ∧ ((tree.addChild parent name dir manifest).get above).children =
        tree.insertByName tree.size name (tree.get parent).children := by
    intro above
    rcases Nat.lt_trichotomy above tree.size with hlt | rfl | hgt
    · rw [get_addChild_of_lt name dir manifest hlt]
      by_cases hid : parent = above
      · subst hid
        rw [get_modify_self _ hlt]
        exact .inr ⟨rfl, rfl⟩
      · rw [get_modify_ne _ hid]
        exact .inl rfl
    · rw [get_addChild_size, get_of_size_le (Nat.le_refl _)]
      exact .inl rfl
    · rw [get_of_size_le (by rw [size_addChild]; omega), get_of_size_le (Nat.le_of_lt hgt)]
      exact .inl rfl
  have hold : ∀ {above child : Nat}, child ∈ (tree.get above).children →
      ((tree.addChild parent name dir manifest).get child).name = (tree.get child).name :=
    fun hc => (place_addChild (hwf.child_lt hc)).1
  have hsorted : ∀ above : Nat, (tree.get above).children.Pairwise fun a b =>
      ((tree.addChild parent name dir manifest).get a).name ≤
        ((tree.addChild parent name dir manifest).get b).name := by
    intro above
    refine (h.sorted above).imp_of_mem fun {a b} ha hb hab => ?_
    rw [hold ha, hold hb]
    exact hab
  refine ⟨fun {above child} hc => ?_, fun above => ?_, fun above => ?_⟩
  · rcases (child_addChild hp above child).1 hc with hc | ⟨rfl, rfl⟩
    · rw [parent_addChild (hwf.child_lt hc)]
      exact h.parent_of_child hc
    · rw [get_addChild_size]
      rfl
  · rcases hcases above with hsame | ⟨rfl, hnew⟩
    · rw [hsame]
      exact h.nodup above
    · rw [hnew]
      refine insertByName_nodup name (fun hmem => ?_) (h.nodup above)
      exact Nat.lt_irrefl _ (hwf.child_lt hmem)
  · rcases hcases above with hsame | ⟨rfl, hnew⟩
    · rw [hsame]
      exact hsorted above
    · rw [hnew]
      refine insertByName_pairwise ?_ (fun a ha => hold ha) (hsorted above)
      rw [get_addChild_size]
      rfl

/-- The lists of children of every tree that is built. -/
theorem Built.filed {tree : ModuleTree} (h : tree.Built) : tree.Filed := by
  induction h with
  | new rootDir manifest =>
    have hnone : ∀ parent : Nat, ((ModuleTree.new rootDir manifest).get parent).children = [] := by
      intro parent
      cases parent with
      | zero => rfl
      | succ parent => rw [get_of_size_le (by simp [size, ModuleTree.new])]; rfl
    refine ⟨fun {parent child} hc => ?_, fun parent => ?_, fun parent => ?_⟩
    · rw [Child, hnone] at hc
      cases hc
    · rw [hnone]
      exact List.nodup_nil
    · rw [hnone]
      exact List.Pairwise.nil
  | addChild name dir manifest hbuilt hp ih => exact ih.addChild hbuilt.wellFormed hp
  | modify id _ hf ih => exact ih.modify hf id

theorem Built.root_name {tree : ModuleTree} (h : tree.Built) : (tree.get root).name = "crate" := by
  induction h with
  | new rootDir manifest => rfl
  | addChild name dir manifest hbuilt hp ih =>
    exact (place_addChild hbuilt.wellFormed.root_lt).1.trans ih
  | modify id _ hf ih => exact (place_modify hf id root).1.trans ih

/-- The children of a module are the modules that name it as their parent. -/
theorem Filed.child_iff {tree : ModuleTree} (h : tree.Filed) (hwf : tree.WellFormed)
    (hplaced : tree.Placed) {parent child : Nat} :
    tree.Child parent child ↔ child < tree.size ∧ (tree.get child).parent = some parent := by
  constructor
  · intro hc
    exact ⟨hwf.child_lt hc, h.parent_of_child hc⟩
  · rintro ⟨hlt, hparent⟩
    have h0 : 0 < child := Nat.lt_of_le_of_lt (Nat.zero_le parent) (hwf.parent_lt hparent)
    obtain ⟨above, -, hchild, habove, -⟩ := hplaced.below h0 hlt
    rw [hparent] at habove
    cases habove
    exact hchild

/-! ## The post-order walk -/

section PostOrder

variable {tree : ModuleTree} (h : tree.Filed)

include h

/-- Of two modules above a third one, one is above the other. -/
theorem Filed.above_total {a b c : Nat} (ha : Relation.ReflTransGen tree.Child a c)
    (hb : Relation.ReflTransGen tree.Child b c) :
    Relation.ReflTransGen tree.Child a b ∨ Relation.ReflTransGen tree.Child b a := by
  have hunique : Relator.RightUnique (Function.swap tree.Child) := fun child a b ha hb =>
    Option.some.inj ((h.parent_of_child ha).symm.trans (h.parent_of_child hb))
  have htotal := Relation.ReflTransGen.total_of_right_unique hunique
    (Relation.reflTransGen_swap.2 ha) (Relation.reflTransGen_swap.2 hb)
  exact htotal.symm.imp Relation.reflTransGen_swap.1 Relation.reflTransGen_swap.1

/-- No module is below two children of one module. -/
theorem Filed.eq_of_below (hwf : tree.WellFormed) {parent a b c : Nat} (ha : tree.Child parent a)
    (hb : tree.Child parent b) (hac : Relation.ReflTransGen tree.Child a c)
    (hbc : Relation.ReflTransGen tree.Child b c) : a = b := by
  have hnot : ∀ {x y : Nat}, tree.Child parent x → tree.Child parent y →
      Relation.ReflTransGen tree.Child x y → x = y := by
    intro x y hx hy hxy
    rcases Relation.ReflTransGen.cases_tail hxy with heq | ⟨above, hxabove, habove⟩
    · exact heq.symm
    · -- the parent of `y` would be below one of its own children
      obtain rfl := Option.some.inj ((h.parent_of_child habove).symm.trans (h.parent_of_child hy))
      exact absurd (hwf.le_of_above hxabove) (Nat.not_le.2 (hwf.lt_child hx))
  rcases h.above_total hac hbc with hab | hba
  · exact hnot ha hb hab
  · exact (hnot hb ha hba).symm

omit h in
theorem above_of_postOrderFrom : ∀ (depth : Nat) {id other : Nat}, other ∈ tree.postOrderFrom depth id →
    Relation.ReflTransGen tree.Child id other := by
  intro depth
  induction depth with
  | zero => intro id other hother; cases hother
  | succ depth ih =>
    intro id other hother
    rw [postOrderFrom, List.mem_append, List.mem_flatMap] at hother
    rcases hother with ⟨child, hchild, hother⟩ | hother
    · exact .head hchild (ih hother)
    · rw [List.mem_singleton.1 hother]

theorem Filed.postOrderFrom_nodup (hwf : tree.WellFormed) : ∀ (depth id : Nat),
    (tree.postOrderFrom depth id).Nodup := by
  intro depth
  induction depth with
  | zero => intro id; exact List.nodup_nil
  | succ depth ih =>
    intro id
    rw [postOrderFrom, List.nodup_append]
    refine ⟨List.nodup_flatMap.2 ⟨fun child _ => ih child, ?_⟩, List.nodup_singleton id, ?_⟩
    · refine (h.nodup id).pairwise_of_forall_ne ?_
      intro a ha b hb hne other hother hother'
      exact hne (h.eq_of_below hwf ha hb (above_of_postOrderFrom depth hother)
        (above_of_postOrderFrom depth hother'))
    · rintro other hother _ hid rfl
      obtain ⟨child, hchild, hother⟩ := List.mem_flatMap.1 hother
      rw [List.mem_singleton.1 hid] at hother
      have hle := hwf.le_of_above (above_of_postOrderFrom depth hother)
      exact absurd (hwf.lt_child hchild) (Nat.not_lt.2 hle)

/-- The post-order walk meets no module twice. -/
theorem Filed.postOrder_nodup (hwf : tree.WellFormed) : tree.postOrder.Nodup :=
  h.postOrderFrom_nodup hwf tree.size root

end PostOrder

end Reexport.ModuleTree
