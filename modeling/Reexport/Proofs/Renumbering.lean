import Mathlib.Data.Finset.Card
import Reexport.Proofs.Completeness
import Reexport.Proofs.Siblings

/-!
# Numbers of modules do not matter

Two trees that hold the same modules may number them differently, depending on the order in
which the modules were added. Every operation on trees and on memos commutes with the change
of numbers: paths lead to corresponding modules, walks meet them in the same order, and
corresponding memos stay so. Hence resolution finds the same in both trees.

Results:

* `exists_renumbered`: trees with the same modules are renumberings of each other.
* `Renumbered.calls`: the operations of the resolution commute with renumbering.
* `resolution_independent_of_numbers`: the same is found out about corresponding modules.
-/

namespace Reexport.ModuleTree

/-! ## Renumbered trees -/

/-- Two modules that agree in everything but their numbers and those of their relatives. -/
structure SameModule (m n : Module) : Prop where
  segments : n.segments = m.segments
  dir : n.dir = m.dir
  manifest : n.manifest = m.manifest
  symbols : n.symbols = m.symbols
  directives : n.directives = m.directives
  scanFailed : n.scanFailed = m.scanFailed

instance (m n : Module) : Decidable (SameModule m n) :=
  decidable_of_iff (n.segments = m.segments ∧ n.dir = m.dir ∧ n.manifest = m.manifest ∧
      n.symbols = m.symbols ∧ n.directives = m.directives ∧ n.scanFailed = m.scanFailed)
    ⟨fun ⟨h1, h2, h3, h4, h5, h6⟩ => ⟨h1, h2, h3, h4, h5, h6⟩,
      fun h => ⟨h.segments, h.dir, h.manifest, h.symbols, h.directives, h.scanFailed⟩⟩

/-- Two trees hold the same modules. -/
structure SameModules (a b : ModuleTree) : Prop where
  forth : ∀ i < a.size, ∃ j < b.size, SameModule (a.get i) (b.get j)
  back : ∀ j < b.size, ∃ i < a.size, SameModule (a.get i) (b.get j)

/-- The module with number `id` of `a` has number `f id` in `b`. -/
structure Renumbered (f : ModuleId → ModuleId) (a b : ModuleTree) : Prop where
  size : b.size = a.size
  lt : ∀ {id : Nat}, id < a.size → f id < a.size
  inj : ∀ {i j : Nat}, i < a.size → j < a.size → f i = f j → i = j
  root : f root = root
  same : ∀ {id : Nat}, id < a.size → SameModule (a.get id) (b.get (f id))
  name : ∀ {id : Nat}, id < a.size → (b.get (f id)).name = (a.get id).name
  parent : ∀ {id : Nat}, id < a.size → (b.get (f id)).parent = (a.get id).parent.map f
  children : ∀ {id : Nat}, id < a.size → (b.get (f id)).children = (a.get id).children.map f

/-! ## Trees with the same modules -/

section SameModules

variable {a b : ModuleTree}

/-- The number in `b` of the module that stands where number `id` stands in `a`. -/
def numberIn (a b : ModuleTree) (id : ModuleId) : ModuleId :=
  ((List.range b.size).find? fun j => (b.get j).segments == (a.get id).segments).getD id

theorem SameModules.symm (h : SameModules a b) : SameModules b a := by
  have hflip : ∀ {m n : Module}, SameModule m n → SameModule n m := fun hmn =>
    ⟨hmn.segments.symm, hmn.dir.symm, hmn.manifest.symm, hmn.symbols.symm, hmn.directives.symm,
      hmn.scanFailed.symm⟩
  refine ⟨fun j hj => ?_, fun i hi => ?_⟩
  · obtain ⟨i, hi, hij⟩ := h.back j hj
    exact ⟨i, hi, hflip hij⟩
  · obtain ⟨j, hj, hij⟩ := h.forth i hi
    exact ⟨j, hj, hflip hij⟩

theorem SameModules.numberIn (h : SameModules a b) (hb : b.Placed) (hdb : b.DistinctSiblings)
    {id : Nat} (hid : id < a.size) :
    numberIn a b id < b.size ∧ SameModule (a.get id) (b.get (numberIn a b id)) := by
  obtain ⟨j, hj, hsame⟩ := h.forth id hid
  have hnumber : ModuleTree.numberIn a b id = j := by
    rw [ModuleTree.numberIn]
    cases hfind : (List.range b.size).find? fun j => (b.get j).segments == (a.get id).segments with
    | none =>
      have hnot := List.find?_eq_none.1 hfind j (List.mem_range.2 hj)
      simp [hsame.segments] at hnot
    | some found =>
      have hfound := List.mem_range.1 (List.mem_of_find?_eq_some hfind)
      have hsegments := List.find?_some hfind
      exact hb.eq_of_segments hdb hfound hj ((beq_iff_eq.1 hsegments).trans hsame.segments.symm)
  rw [hnumber]
  exact ⟨hj, hsame⟩

/-- A module of `b` with the segments of a module of `a` is its counterpart. -/
theorem SameModules.eq_numberIn (h : SameModules a b) (hb : b.Placed) (hdb : b.DistinctSiblings)
    {i j : Nat} (hi : i < a.size) (hj : j < b.size)
    (hsegments : (b.get j).segments = (a.get i).segments) : j = ModuleTree.numberIn a b i := by
  obtain ⟨hlt, hsame⟩ := h.numberIn hb hdb hi
  exact hb.eq_of_segments hdb hj hlt (hsegments.trans hsame.segments.symm)

variable (h : SameModules a b) (ha : a.Built) (hb : b.Built) (hdb : b.DistinctSiblings)

include h ha hb hdb

theorem numberIn_root : numberIn a b root = root := by
  have hsegments : (b.get root).segments = (a.get root).segments := by
    rw [hb.placed.root_segments, ha.placed.root_segments]
  exact (h.eq_numberIn hb.placed hdb ha.wellFormed.root_lt hb.wellFormed.root_lt hsegments).symm

/-- Below the root, names and parents correspond. -/
theorem numberIn_below {id : Nat} (h0 : 0 < id) (hid : id < a.size) :
    (b.get (numberIn a b id)).name = (a.get id).name ∧
      ∃ parent < id, (a.get id).parent = some parent ∧
        (b.get (numberIn a b id)).parent = some (numberIn a b parent) := by
  obtain ⟨hlt, hsame⟩ := h.numberIn hb.placed hdb hid
  obtain ⟨parent, hparent, -, hp, hsegments⟩ := ha.placed.below h0 hid
  have h0' : 0 < numberIn a b id := by
    rcases Nat.eq_zero_or_pos (numberIn a b id) with hzero | hpos
    · have hnil := hsame.segments
      rw [hzero, show (b.get 0).segments = [] from hb.placed.root_segments, hsegments] at hnil
      simp at hnil
    · exact hpos
  obtain ⟨parent', hparent', -, hp', hsegments'⟩ := hb.placed.below h0' hlt
  have hjoined := hsame.segments
  rw [hsegments, hsegments'] at hjoined
  obtain ⟨habove, hname⟩ := List.append_inj' hjoined rfl
  refine ⟨by simpa using hname, parent, hparent, hp, ?_⟩
  have hlt' : parent' < b.size := Nat.lt_trans hparent' hlt
  rw [hp', h.eq_numberIn hb.placed hdb (Nat.lt_trans hparent hid) hlt' habove]

theorem numberIn_name {id : Nat} (hid : id < a.size) :
    (b.get (numberIn a b id)).name = (a.get id).name := by
  rcases Nat.eq_zero_or_pos id with rfl | h0
  · exact (congrArg (fun id => (b.get id).name) (numberIn_root h ha hb hdb)).trans
      (hb.root_name.trans ha.root_name.symm)
  · exact (numberIn_below h ha hb hdb h0 hid).1

theorem numberIn_parent {id : Nat} (hid : id < a.size) :
    (b.get (numberIn a b id)).parent = (a.get id).parent.map (numberIn a b) := by
  rcases Nat.eq_zero_or_pos id with rfl | h0
  · rw [show numberIn a b 0 = root from numberIn_root h ha hb hdb]
    have hnone : ∀ {tree : ModuleTree}, tree.WellFormed → (tree.get 0).parent = none := by
      intro tree hwf
      rw [Option.eq_none_iff_forall_ne_some]
      intro parent hp
      exact Nat.not_lt_zero _ (hwf.parent_lt hp)
    rw [show (b.get root).parent = none from hnone hb.wellFormed, hnone ha.wellFormed]
    rfl
  · obtain ⟨-, parent, -, hp, hp'⟩ := numberIn_below h ha hb hdb h0 hid
    rw [hp, hp']
    rfl

variable (hda : a.DistinctSiblings)

include hda

theorem numberIn_inj {i j : Nat} (hi : i < a.size) (hj : j < a.size)
    (hij : numberIn a b i = numberIn a b j) : i = j := by
  have hsame := (h.numberIn hb.placed hdb hi).2.segments
  rw [hij, (h.numberIn hb.placed hdb hj).2.segments] at hsame
  exact ha.placed.eq_of_segments hda hi hj hsame.symm

theorem size_le_of_sameModules : a.size ≤ b.size := by
  have hcard := Finset.card_le_card_of_injOn (s := Finset.range a.size) (t := Finset.range b.size)
    (numberIn a b)
    (fun i hi => Finset.mem_range.2 (h.numberIn hb.placed hdb (Finset.mem_range.1 hi)).1)
    fun i hi j hj hij =>
      numberIn_inj h ha hb hdb hda (Finset.mem_range.1 hi) (Finset.mem_range.1 hj) hij
  simpa using hcard

/-- Both lists of children are in the order of the names, and names are different. -/
theorem numberIn_children {id : Nat} (hid : id < a.size) :
    (b.get (numberIn a b id)).children = (a.get id).children.map (numberIn a b) := by
  have hmem : ∀ {child : Nat}, child ∈ (a.get id).children → child < a.size :=
    fun hc => ha.wellFormed.child_lt hc
  have hiff : ∀ child : Nat, child ∈ (b.get (numberIn a b id)).children ↔
      child ∈ (a.get id).children.map (numberIn a b) := by
    intro child
    rw [List.mem_map]
    constructor
    · intro hc
      obtain ⟨hlt, hp⟩ := (hb.filed.child_iff hb.wellFormed hb.placed).1 hc
      obtain ⟨i, hi, hsame⟩ := h.back child hlt
      obtain rfl := h.eq_numberIn hb.placed hdb hi hlt hsame.segments
      refine ⟨i, (ha.filed.child_iff ha.wellFormed ha.placed).2 ⟨hi, ?_⟩, rfl⟩
      rw [numberIn_parent h ha hb hdb hi, Option.map_eq_some_iff] at hp
      obtain ⟨parent, hp, heq⟩ := hp
      have hlt := ha.wellFormed.parent_lt hp
      rw [hp, numberIn_inj h ha hb hdb hda (by omega) hid heq]
    · rintro ⟨i, hi, rfl⟩
      obtain ⟨hlt, hp⟩ := (ha.filed.child_iff ha.wellFormed ha.placed).1 hi
      refine (hb.filed.child_iff hb.wellFormed hb.placed).2 ⟨(h.numberIn hb.placed hdb hlt).1, ?_⟩
      rw [numberIn_parent h ha hb hdb hlt, hp]
      rfl
  have hnodup : ((a.get id).children.map (numberIn a b)).Nodup := by
    refine List.Nodup.map_on (fun i hi j hj hij => ?_) (ha.filed.nodup id)
    exact numberIn_inj h ha hb hdb hda (hmem hi) (hmem hj) hij
  have hperm := (List.perm_ext_iff_of_nodup (hb.filed.nodup _) hnodup).2 hiff
  have hsorted : ((a.get id).children.map (numberIn a b)).Pairwise fun x y =>
      (b.get x).name ≤ (b.get y).name := by
    refine List.pairwise_map.2 ((ha.filed.sorted id).imp_of_mem fun {i j} hi hj hij => ?_)
    rw [numberIn_name h ha hb hdb (hmem hi), numberIn_name h ha hb hdb (hmem hj)]
    exact hij
  refine List.Perm.eq_of_pairwise ?_ (hb.filed.sorted _) hsorted hperm
  intro x y hx hy hxy hyx
  exact hdb hx ((hiff y).2 hy) (String.le_antisymm hxy hyx)

/-- Trees with the same modules are renumberings of each other. -/
theorem renumbered_numberIn : Renumbered (numberIn a b) a b := by
  have hsize : b.size = a.size := Nat.le_antisymm
    (size_le_of_sameModules h.symm hb ha hda hdb) (size_le_of_sameModules h ha hb hdb hda)
  exact {
    size := hsize
    lt := fun hid => hsize ▸ (h.numberIn hb.placed hdb hid).1
    inj := fun hi hj hij => numberIn_inj h ha hb hdb hda hi hj hij
    root := numberIn_root h ha hb hdb
    same := fun hid => (h.numberIn hb.placed hdb hid).2
    name := fun hid => numberIn_name h ha hb hdb hid
    parent := fun hid => numberIn_parent h ha hb hdb hid
    children := fun hid => numberIn_children h ha hb hdb hda hid }

end SameModules

/-! ## Walks and paths -/

namespace Renumbered

variable {f : ModuleId → ModuleId} {a b : ModuleTree} (h : Renumbered f a b) (hwf : a.WellFormed)

include h hwf

theorem child? {id : Nat} (hid : id < a.size) (name : String) :
    b.child? (f id) name = (a.child? id name).map f := by
  have hlt : ∀ child ∈ (a.get id).children, child < a.size := fun child hc => hwf.child_lt hc
  rw [ModuleTree.child?, ModuleTree.child?, h.children hid]
  generalize (a.get id).children = siblings at hlt
  induction siblings with
  | nil => rfl
  | cons child rest ih =>
    rw [List.map_cons, List.find?_cons, List.find?_cons, h.name (hlt child List.mem_cons_self)]
    split
    · rfl
    · exact ih fun other hother => hlt other (List.mem_cons_of_mem _ hother)

theorem descend? : ∀ (path : List String) {id : Nat}, id < a.size →
    b.descend? (f id) path = (a.descend? id path).map f := by
  intro path
  induction path with
  | nil => intro id _; rfl
  | cons segment rest ih =>
    intro id hid
    rw [ModuleTree.descend?, ModuleTree.descend?, h.child? hwf hid]
    cases hchild : a.child? id segment with
    | none => rfl
    | some child => exact ih (hwf.child?_lt hchild)

theorem climb? : ∀ (path : List String) {id : Nat}, id < a.size →
    b.climb? (f id) path = (a.climb? id path).map f := by
  intro path
  induction path with
  | nil => intro id _; rfl
  | cons segment rest ih =>
    intro id hid
    rw [ModuleTree.climb?, ModuleTree.climb?, h.parent hid, h.descend? hwf _ hid]
    split_ifs
    · cases hparent : (a.get id).parent with
      | none => rfl
      | some parent =>
        have hlt := hwf.parent_lt hparent
        exact ih (by omega)
    · rfl

theorem resolvePath {id : Nat} (hid : id < a.size) (path : List String) :
    b.resolvePath (f id) path = (a.resolvePath id path).map f := by
  unfold ModuleTree.resolvePath
  split
  · rename_i rest
    have hclimb := h.climb? hwf rest hwf.root_lt
    rw [show f 0 = ModuleTree.root from h.root] at hclimb
    exact hclimb
  · exact h.climb? hwf _ hid
  · exact h.climb? hwf _ hid

theorem isAbove {ancestor : Nat} (hancestor : ancestor < a.size) : ∀ (steps : Nat) {id : Nat},
    id < a.size → b.isAbove (f ancestor) steps (f id) = a.isAbove ancestor steps id := by
  intro steps
  induction steps with
  | zero => intro id _; rfl
  | succ steps ih =>
    intro id hid
    rw [ModuleTree.isAbove, ModuleTree.isAbove, h.parent hid]
    cases hparent : (a.get id).parent with
    | none => rfl
    | some parent =>
      have hlt : parent < a.size := Nat.lt_trans (hwf.parent_lt hparent) hid
      have hsame : (f parent == f ancestor) = (parent == ancestor) := by
        rw [Bool.eq_iff_iff, beq_iff_eq, beq_iff_eq]
        exact ⟨h.inj hlt hancestor, congrArg f⟩
      simp only [Option.map_some, hsame, ih hlt]

theorem isAncestor {ancestor id : Nat} (hancestor : ancestor < a.size) (hid : id < a.size) :
    b.isAncestor (f ancestor) (f id) = a.isAncestor ancestor id := by
  rw [ModuleTree.isAncestor, ModuleTree.isAncestor, h.size]
  exact h.isAbove hwf hancestor _ hid

theorem postOrderFrom : ∀ (depth : Nat) {id : Nat}, id < a.size →
    b.postOrderFrom depth (f id) = (a.postOrderFrom depth id).map f := by
  intro depth
  induction depth with
  | zero => intro id _; rfl
  | succ depth ih =>
    intro id hid
    have hlt : ∀ child ∈ (a.get id).children, child < a.size := fun child hc => hwf.child_lt hc
    rw [ModuleTree.postOrderFrom, ModuleTree.postOrderFrom, h.children hid, List.map_append,
      List.map_flatMap, List.flatMap_map]
    congr 1
    exact List.flatMap_congr fun child hc => ih (hlt child hc)

theorem postOrder : b.postOrder = a.postOrder.map f := by
  have hwalk := h.postOrderFrom hwf a.size hwf.root_lt
  rw [show f 0 = ModuleTree.root from h.root] at hwalk
  rw [ModuleTree.postOrder, ModuleTree.postOrder, h.size]
  exact hwalk

end Renumbered

end Reexport.ModuleTree

namespace Reexport

open ModuleTree

/-! ## Renumbered memos -/

/-- Two memos know the same about corresponding modules. -/
structure Memo.Alike (f : ModuleId → ModuleId) (size : Nat) (m n : Memo) : Prop where
  left_size : m.progress.size = size
  right_size : n.progress.size = size
  get : ∀ {id : Nat}, id < size → n.get (f id) = m.get id
  pending : n.pending = m.pending.map fun p => (f p.1, p.2)
  known : ∀ p ∈ m.pending, p.1 < size

/-- Two results with their memos agree. -/
def Agrees (f : ModuleId → ModuleId) (size : Nat) {α : Type} (x y : α × Memo) : Prop :=
  y.1 = x.1 ∧ Memo.Alike f size x.2 y.2

theorem Agrees.exists {f : ModuleId → ModuleId} {size : Nat} {α : Type} {x y : α × Memo}
    (h : Agrees f size x y) : ∃ found m n, x = (found, m) ∧ y = (found, n) ∧ m.Alike f size n :=
  ⟨x.1, x.2, y.2, rfl, Prod.ext h.1 rfl, h.2⟩

/-- The operations commute with renumbering. -/
structure Calls.Alike (f : ModuleId → ModuleId) (size : Nat) (c d : Calls) : Prop where
  resolve : ∀ {id : Nat}, id < size → ∀ {m n : Memo}, Memo.Alike f size m n →
    Memo.Alike f size (c.resolve id m) (d.resolve (f id) n)
  lookup : ∀ {user parent : Nat}, user < size → parent < size → ∀ (name : String) {m n : Memo},
    Memo.Alike f size m n →
    Agrees f size (c.lookup user parent name m) (d.lookup (f user) (f parent) name n)

namespace Memo.Alike

variable {f : ModuleId → ModuleId} {size : Nat} {m n : Memo} (h : Memo.Alike f size m n)

include h

theorem done? {id : Nat} (hid : id < size) : n.done? (f id) = m.done? id := by
  rw [Memo.done?, Memo.done?, h.get hid]

theorem isOpen {id : Nat} (hid : id < size) : n.isOpen (f id) = m.isOpen id := by
  rw [Memo.isOpen, Memo.isOpen, h.get hid]

theorem isUnvisited {id : Nat} (hid : id < size) : n.isUnvisited (f id) = m.isUnvisited id := by
  rw [Memo.isUnvisited, Memo.isUnvisited, h.get hid]

theorem exported? {id : Nat} (hid : id < size) (name : String) :
    n.exported? (f id) name = m.exported? id name := by
  rw [Memo.exported?, Memo.exported?, h.done? hid]

variable (hlt : ∀ {id : Nat}, id < size → f id < size)
  (hinj : ∀ {i j : Nat}, i < size → j < size → f i = f j → i = j)

include hinj

theorem pending_contains {id : Nat} (hid : id < size) (name : String) :
    n.pending.contains (f id, name) = m.pending.contains (id, name) := by
  rw [h.pending, Bool.eq_iff_iff, List.contains_iff_mem, List.contains_iff_mem, List.mem_map]
  constructor
  · rintro ⟨⟨other, known⟩, hmem, heq⟩
    obtain ⟨hid', rfl⟩ := Prod.mk.inj heq
    rw [← hinj (h.known _ hmem) hid hid']
    exact hmem
  · intro hmem
    exact ⟨_, hmem, rfl⟩

include hlt

theorem set {id : Nat} (hid : id < size) (p : Progress) :
    Memo.Alike f size (m.set id p) (n.set (f id) p) where
  left_size := by rw [size_set, h.left_size]
  right_size := by rw [size_set, h.right_size]
  get := by
    intro other hother
    by_cases heq : id = other
    · subst heq
      rw [get_set_self _ (by rw [h.right_size]; exact hlt hid),
        get_set_self _ (by rw [h.left_size]; exact hid)]
    · rw [get_set_ne _ fun hf => heq (hinj hid hother hf), get_set_ne _ heq, h.get hother]
  pending := h.pending
  known := h.known

end Memo.Alike

/-! ## Resolution -/

namespace Resolution

variable {f : ModuleId → ModuleId} {a b : ModuleTree} (h : Renumbered f a b)

include h

theorem reference_renumbered {id : Nat} (hid : id < a.size) (name : String) :
    reference (b.get (f id)) name = reference (a.get id) name := by
  have hsame := h.same hid
  simp only [reference, Module.qualifiedName, hsame.manifest, hsame.dir, hsame.segments]

theorem depthBound_renumbered : depthBound b = depthBound a := by
  have hperm : ((List.range a.size).map f).Perm (List.range a.size) := by
    have hnodup : ((List.range a.size).map f).Nodup :=
      List.Nodup.map_on (fun i hi j hj hij => h.inj (List.mem_range.1 hi) (List.mem_range.1 hj) hij)
        List.nodup_range
    refine (List.subperm_of_subset hnodup fun id hid => ?_).perm_of_length_le (by simp)
    obtain ⟨i, hi, rfl⟩ := List.mem_map.1 hid
    exact List.mem_range.2 (h.lt (List.mem_range.1 hi))
  have hpins : (b.modules.toList.flatMap listedPins).Perm (a.modules.toList.flatMap listedPins) := by
    rw [modules_eq_map_get, modules_eq_map_get, h.size, List.flatMap_map, List.flatMap_map]
    refine (hperm.symm.flatMap_right _).trans ?_
    rw [List.flatMap_map]
    refine List.Perm.of_eq (List.flatMap_congr fun id hid => ?_)
    rw [listedPins, listedPins, (h.same (List.mem_range.1 hid)).directives]
  rw [depthBound, depthBound, h.size, hpins.length_eq]

variable (hwf : a.WellFormed)

include hwf

theorem target?_renumbered {id : Nat} (hid : id < a.size) (d : Directive) :
    target? b (f id) d = (target? a id d).map f := by
  unfold target?
  split
  · split_ifs
    · rfl
    · exact h.resolvePath hwf hid _
  · rfl
  · rfl

theorem reenters_renumbered {m n : Memo} (hm : m.Alike f a.size n) {user target : Nat}
    (huser : user < a.size) (htarget : target < a.size) :
    reenters b n (f user) (f target) = reenters a m user target := by
  have hsame : (f target == f user) = (target == user) := by
    rw [Bool.eq_iff_iff, beq_iff_eq, beq_iff_eq]
    exact ⟨h.inj htarget huser, congrArg f⟩
  rw [reenters, reenters, hsame, h.isAncestor hwf htarget huser, hm.isOpen htarget]

variable {c d : Calls} (hcalls : c.Alike f a.size d)

include hcalls

theorem pinAs_renumbered {id : Nat} (hid : id < a.size) (dir : Directive) (pin : Pin) (name : String)
    {m n : Memo} (hm : m.Alike f a.size n) :
    Agrees f a.size (pinAs a c id dir pin name m) (pinAs b d (f id) dir pin name n) := by
  have hpath := h.resolvePath hwf hid pin.itemPath
  have hreference : ∀ {target : Nat}, a.resolvePath id pin.itemPath = some target →
      reference (b.get (f target)) name = reference (a.get target) name := fun htarget =>
    reference_renumbered h (hwf.resolvePath_lt hid htarget) name
  unfold pinAs
  simp only [hpath]
  split_ifs
  · exact ⟨rfl, hm⟩
  · cases pin.itemPath.getLast? with
    | none => exact ⟨rfl, hm⟩
    | some last =>
      simp only [h.resolvePath hwf hid pin.itemPath.dropLast]
      cases hparent : a.resolvePath id pin.itemPath.dropLast with
      | none =>
        cases htarget : a.resolvePath id pin.itemPath with
        | none => exact ⟨rfl, hm⟩
        | some target => exact ⟨hreference htarget, hm⟩
      | some parent =>
        have hfound := hcalls.lookup hid (hwf.resolvePath_lt hid hparent) last hm
        obtain ⟨hsame, hmemo⟩ := hfound
        simp only [Option.map_some, hsame]
        cases (c.lookup id parent last m).1 with
        | none =>
          cases htarget : a.resolvePath id pin.itemPath with
          | none => exact ⟨rfl, hmemo⟩
          | some target => exact ⟨hreference htarget, hmemo⟩
        | some entry => exact ⟨rfl, hmemo⟩

theorem pin?_renumbered {id : Nat} (hid : id < a.size) (dir : Directive) (pin : Pin)
    {m n : Memo} (hm : m.Alike f a.size n) :
    Agrees f a.size (pin? a c id dir pin m) (pin? b d (f id) dir pin n) := by
  unfold pin?
  cases pin.exportedName with
  | none => exact ⟨rfl, hm⟩
  | some name =>
    obtain ⟨hsame, hmemo⟩ := pinAs_renumbered h hwf hcalls hid dir pin name hm
    exact ⟨congrArg some hsame, hmemo⟩

theorem findPinned_renumbered {parent : Nat} (hparent : parent < a.size) (name : String) :
    ∀ (pins : List (Directive × Pin)) {m n : Memo}, m.Alike f a.size n →
    Agrees f a.size (findPinned a c parent name pins m) (findPinned b d (f parent) name pins n) := by
  intro pins
  induction pins with
  | nil => intro m n hm; exact ⟨rfl, hm⟩
  | cons p rest ih =>
    intro m n hm
    obtain ⟨dir, pin⟩ := p
    unfold findPinned
    split_ifs
    · obtain ⟨found, after, after', hleft, hright, hmemo⟩ :=
        (pin?_renumbered h hwf hcalls hparent dir pin hm).exists
      rw [hleft, hright]
      cases found with
      | none => exact ih hmemo
      | some entry => exact ⟨rfl, hmemo⟩
    · exact ih hm

theorem findWildcard_renumbered {user parent : Nat} (huser : user < a.size) (hparent : parent < a.size)
    (name : String) : ∀ (targets : List ModuleId), (∀ target ∈ targets, target < a.size) →
    ∀ {m n : Memo}, m.Alike f a.size n →
    Agrees f a.size (findWildcard a c user parent name targets m)
      (findWildcard b d (f user) (f parent) name (targets.map f) n) := by
  intro targets
  induction targets with
  | nil => intro _ m n hm; exact ⟨rfl, hm⟩
  | cons target rest ih =>
    intro hlt m n hm
    obtain ⟨htarget, hrest⟩ := List.forall_mem_cons.1 hlt
    have hsame : (f target == f parent) = (target == parent) := by
      rw [Bool.eq_iff_iff, beq_iff_eq, beq_iff_eq]
      exact ⟨h.inj htarget hparent, congrArg f⟩
    rw [List.map_cons, findWildcard, findWildcard, hsame,
      reenters_renumbered h hwf hm huser htarget]
    split_ifs
    · exact ih hrest hm
    · have hmemo := hcalls.resolve htarget hm
      simp only [hmemo.exported? htarget name]
      cases (c.resolve target m).exported? target name with
      | none => exact ih hrest hmemo
      | some entry => exact ⟨rfl, hmemo⟩

theorem find_renumbered {user parent : Nat} (huser : user < a.size) (hparent : parent < a.size)
    (name : String) {m n : Memo} (hm : m.Alike f a.size n) :
    Agrees f a.size (find a c user parent name m) (find b d (f user) (f parent) name n) := by
  have hsame := h.same hparent
  have htargets : (b.get (f parent)).directives.filterMap (target? b (f parent)) =
      ((a.get parent).directives.filterMap (target? a parent)).map f := by
    rw [hsame.directives, List.map_filterMap]
    exact List.filterMap_congr fun dir _ => target?_renumbered h hwf hparent dir
  have hlt : ∀ target ∈ (a.get parent).directives.filterMap (target? a parent), target < a.size := by
    intro target htarget
    obtain ⟨dir, -, hdir⟩ := List.mem_filterMap.1 htarget
    exact target?_lt a hwf hparent hdir
  unfold find
  rw [hm.done? hparent]
  cases m.done? parent with
  | some resolved => exact ⟨rfl, hm⟩
  | none =>
    simp only [hsame.symbols]
    cases (a.get parent).symbols.find? fun s => s.name == name with
    | some s => exact ⟨rfl, hm⟩
    | none =>
      simp only
      have hpins : listedPins (b.get (f parent)) = listedPins (a.get parent) := by
        rw [listedPins, listedPins, hsame.directives]
      obtain ⟨found, listed, listed', hleft, hright, hmemo⟩ :=
        (findPinned_renumbered h hwf hcalls hparent name (listedPins (a.get parent)) hm).exists
      rw [hpins, hleft, hright]
      cases found with
      | some entry => exact ⟨rfl, hmemo⟩
      | none =>
        obtain ⟨found, last, last', hleft, hright, hmemo⟩ :=
          (findWildcard_renumbered h hwf hcalls huser hparent name _ hlt hmemo).exists
        simp only [htargets, hleft, hright]
        cases found with
        | some entry => exact ⟨rfl, hmemo⟩
        | none =>
          simp only [reenters_renumbered h hwf hmemo huser hparent]
          split_ifs
          · exact ⟨rfl, hmemo⟩
          · have hdone := hcalls.resolve hparent hmemo
            exact ⟨hdone.exported? hparent name, hdone⟩

theorem lookup_renumbered {user parent : Nat} (huser : user < a.size) (hparent : parent < a.size)
    (name : String) {m n : Memo} (hm : m.Alike f a.size n) :
    Agrees f a.size (lookup a c user parent name m) (lookup b d (f user) (f parent) name n) := by
  unfold lookup
  rw [hm.pending_contains h.inj hparent]
  split_ifs
  · exact ⟨rfl, hm⟩
  · have hnext : Memo.Alike f a.size { m with pending := (parent, name) :: m.pending }
        { n with pending := (f parent, name) :: n.pending } := by
      refine ⟨hm.left_size, hm.right_size, hm.get, ?_, ?_⟩
      · rw [hm.pending]
        rfl
      · exact List.forall_mem_cons.2 ⟨hparent, hm.known⟩
    obtain ⟨hfound, hmemo⟩ := find_renumbered h hwf hcalls huser hparent name hnext
    refine ⟨hfound, hmemo.left_size, hmemo.right_size, hmemo.get, ?_, fun p hp => ?_⟩
    · exact (congrArg List.tail hmemo.pending).trans List.map_tail.symm
    · exact hmemo.known p (List.mem_of_mem_tail hp)

/-! ### Drafts -/

theorem expandPins_renumbered {id : Nat} (hid : id < a.size) (index : Nat) (dir : Directive) :
    ∀ (pins : List Pin) {m n : Memo}, m.Alike f a.size n →
    Agrees f a.size (expandPins a c id index dir pins m) (expandPins b d (f id) index dir pins n) := by
  intro pins
  induction pins with
  | nil => intro m n hm; exact ⟨rfl, hm⟩
  | cons pin rest ih =>
    intro m n hm
    obtain ⟨found, after, after', hleft, hright, hmemo⟩ :=
      (pin?_renumbered h hwf hcalls hid dir pin hm).exists
    obtain ⟨others, last, last', hleft', hright', hmemo'⟩ := (ih hmemo).exists
    simp only [expandPins, hleft, hright, hleft', hright']
    exact ⟨rfl, hmemo'⟩

theorem expandWildcard_renumbered {id : Nat} (hid : id < a.size) (index : Nat) (dir : Directive)
    {m n : Memo} (hm : m.Alike f a.size n) :
    Agrees f a.size (expandWildcard a c id index dir m) (expandWildcard b d (f id) index dir n) := by
  unfold expandWildcard
  simp only [target?_renumbered h hwf hid dir]
  cases htarget : target? a id dir with
  | none => exact ⟨rfl, hm⟩
  | some target =>
    have hlt := target?_lt a hwf hid htarget
    have hsame : (f target == f id) = (target == id) := by
      rw [Bool.eq_iff_iff, beq_iff_eq, beq_iff_eq]
      exact ⟨h.inj hlt hid, congrArg f⟩
    simp only [Option.map_some, hsame, hm.isOpen hlt]
    split_ifs
    · exact ⟨rfl, hm⟩
    · have hmemo := hcalls.resolve hlt hm
      simp only [hmemo.done? hlt]
      cases (c.resolve target m).done? target with
      | none => exact ⟨rfl, hmemo⟩
      | some resolved =>
        refine ⟨?_, hmemo⟩
        simp only [takeAll, Module.qualifiedName, (h.same hlt).segments]

theorem expand_renumbered {id : Nat} (hid : id < a.size) (index : Nat) (dir : Directive)
    {m n : Memo} (hm : m.Alike f a.size n) :
    Agrees f a.size (expand a c id index dir m) (expand b d (f id) index dir n) := by
  unfold expand
  split
  · exact ⟨rfl, hm⟩
  · obtain ⟨contributions, after, after', hleft, hright, hmemo⟩ :=
      (expandPins_renumbered h hwf hcalls hid index dir _ hm).exists
    rw [hleft, hright]
    exact ⟨rfl, hmemo⟩
  · exact expandWildcard_renumbered h hwf hcalls hid index dir hm

theorem draftFrom_renumbered {id : Nat} (hid : id < a.size) : ∀ (directives : List Directive)
    (index : Nat) (draft : Draft) {m n : Memo}, m.Alike f a.size n →
    Agrees f a.size (draftFrom a c id index directives draft m)
      (draftFrom b d (f id) index directives draft n) := by
  intro directives
  induction directives with
  | nil => intro index draft m n hm; exact ⟨rfl, hm⟩
  | cons dir rest ih =>
    intro index draft m n hm
    obtain ⟨effect, after, after', hleft, hright, hmemo⟩ :=
      (expand_renumbered h hwf hcalls hid index dir hm).exists
    simp only [draftFrom, hleft, hright]
    exact ih _ _ hmemo

theorem resolveModule_renumbered {id : Nat} (hid : id < a.size) {m n : Memo}
    (hm : m.Alike f a.size n) :
    (resolveModule a c id m).Alike f a.size (resolveModule b d (f id) n) := by
  have hsame := h.same hid
  have hown : ownDraft (b.get (f id)) = ownDraft (a.get id) := by
    simp only [ownDraft, hsame.symbols, hsame.scanFailed, hsame.manifest]
  have hsettle : ∀ draft : Draft, draft.settle (b.get (f id)) = draft.settle (a.get id) := by
    intro draft
    have hcollision : collision? (b.get (f id)) = collision? (a.get id) := by
      funext name routes
      simp only [collision?, Module.qualifiedName, hsame.segments, hsame.directives]
    have hshadowing : shadowing? (b.get (f id)) = shadowing? (a.get id) := by
      funext name routes
      simp only [shadowing?, Module.qualifiedName, hsame.segments, hsame.directives]
    simp only [Draft.settle, hcollision, hshadowing]
  unfold resolveModule
  rw [hm.isUnvisited hid]
  split_ifs
  · obtain ⟨draft, after, after', hleft, hright, hmemo⟩ :=
      (draftFrom_renumbered h hwf hcalls hid (a.get id).directives 0 (ownDraft (a.get id))
        (hm.set h.lt h.inj hid .open)).exists
    simp only [hsame.directives, hown, hleft, hright, hsettle]
    exact hmemo.set h.lt h.inj hid _
  · exact hm

omit hcalls

/-! ### The whole tree -/

/-- The operations of the resolution commute with renumbering. -/
theorem calls_renumbered (depth : Nat) : (calls a depth).Alike f a.size (calls b depth) := by
  induction depth with
  | zero => exact ⟨fun _ _ _ hm => hm, fun _ _ _ _ _ hm => ⟨rfl, hm⟩⟩
  | succ depth ih =>
    exact ⟨fun hid _ _ hm => resolveModule_renumbered h hwf ih hid hm,
      fun huser hparent name _ _ hm => lookup_renumbered h hwf ih huser hparent name hm⟩

theorem resolveAll_renumbered : (resolveAll a).Alike f a.size (resolveAll b) := by
  have hfold : ∀ (ids : List ModuleId), (∀ id ∈ ids, id < a.size) → ∀ {m n : Memo},
      m.Alike f a.size n →
      (ids.foldl (fun memo id => (calls a (depthBound a)).resolve id memo) m).Alike f a.size
        ((ids.map f).foldl (fun memo id => (calls b (depthBound a)).resolve id memo) n) := by
    intro ids
    induction ids with
    | nil => intro _ m n hm; exact hm
    | cons id rest ih =>
      intro hlt m n hm
      obtain ⟨hid, hrest⟩ := List.forall_mem_cons.1 hlt
      exact ih hrest ((calls_renumbered h hwf (depthBound a)).resolve hid hm)
  rw [resolveAll, resolveAll, depthBound_renumbered h, h.postOrder hwf]
  refine hfold _ (fun id hid => hwf.postOrder_lt hid) ?_
  refine ⟨by simp [Memo.start], by simp [Memo.start, h.size], fun hid => ?_, rfl, ?_⟩
  · rw [Memo.get_start, Memo.get_start]
  · intro p hp
    cases hp

theorem resolvedAt_renumbered {id : Nat} (hid : id < a.size) :
    resolvedAt b (f id) = resolvedAt a id := by
  obtain ⟨r, hr⟩ := resolveAll_done hwf hid
  rw [resolvedAt_eq hr, resolvedAt_eq]
  rw [(resolveAll_renumbered h hwf).get hid, hr]

omit h hwf

/-- **Resolution does not depend on the numbers of modules.** Two trees that hold the same
    modules, with different names for siblings, have equally many modules, and what is found out
    about a module depends on where it stands only: what it exports and with which gaps, what
    becomes of its directives, which of its names collide and which are hidden. So it is told
    by the qualified name, where that stands for one module. -/
theorem resolution_independent_of_numbers {a b : ModuleTree} (ha : a.Built) (hb : b.Built)
    (hda : a.DistinctSiblings) (hdb : b.DistinctSiblings) (hsame : SameModules a b) :
    a.size = b.size ∧
    (∀ i < a.size, ∀ j < b.size, (a.get i).segments = (b.get j).segments →
      resolvedAt a i = resolvedAt b j) ∧
    ∀ i < a.size, (∀ k < a.size, (a.get k).qualifiedName = (a.get i).qualifiedName → k = i) →
      ∀ j < b.size, (a.get i).qualifiedName = (b.get j).qualifiedName →
        resolvedAt a i = resolvedAt b j := by
  have hrenumbered := renumbered_numberIn hsame ha hb hdb hda
  have hsegments : ∀ i < a.size, ∀ j < b.size, (a.get i).segments = (b.get j).segments →
      resolvedAt a i = resolvedAt b j := by
    intro i hi j hj hij
    rw [hsame.eq_numberIn hb.placed hdb hi hj hij.symm,
      resolvedAt_renumbered hrenumbered ha.wellFormed hi]
  refine ⟨hrenumbered.size.symm, hsegments, fun i hi hone j hj hij => ?_⟩
  obtain ⟨k, hk, hkj⟩ := hsame.back j hj
  have hname : (a.get k).qualifiedName = (a.get i).qualifiedName := by
    rw [hij, Module.qualifiedName, Module.qualifiedName, hkj.segments]
  obtain rfl := hone k hk hname
  exact hsegments k hi j hj hkj.segments.symm

/-- The root passes on `y`, and `y` passes on `x::z`, which declares `item`. -/
def downwards : ModuleTree :=
  (((rooted [] [.star ["y"]]).extended 0 "x" [] []).extended 0 "y" [] [.star ["crate", "x", "z"]]).extended
    1 "z" [⟨"item", .function, "z", 1⟩] []

/-- The same modules, with `y` before `x`. -/
def turned : ModuleTree :=
  (((rooted [] [.star ["y"]]).extended 0 "y" [] [.star ["crate", "x", "z"]]).extended 0 "x" [] []).extended
    2 "z" [⟨"item", .function, "z", 1⟩] []

theorem sameModules_turned : SameModules downwards turned :=
  ⟨by decide +kernel, by decide +kernel⟩

theorem resolution_independent_of_numbers_turned :
    (downwards.get 2).qualifiedName = "crate::y" ∧ (turned.get 1).qualifiedName = "crate::y" ∧
      (resolvedAt downwards 2).exports.names = ["item"] ∧
      resolvedAt downwards 2 = resolvedAt turned 1 := by
  have hbuilt : downwards.Built ∧ turned.Built :=
    ⟨(((built_rooted _ _).extended (by decide +kernel) _ _ _).extended (by decide +kernel) _ _
        _).extended (by decide +kernel) _ _ _,
      (((built_rooted _ _).extended (by decide +kernel) _ _ _).extended (by decide +kernel) _ _
        _).extended (by decide +kernel) _ _ _⟩
  obtain ⟨-, hsegments, -⟩ := resolution_independent_of_numbers hbuilt.1 hbuilt.2 (by decide +kernel)
    (by decide +kernel) sameModules_turned
  refine ⟨by decide +kernel, by decide +kernel, by decide +kernel, ?_⟩
  exact hsegments 2 (by decide +kernel) 1 (by decide +kernel) (by decide +kernel)

end Resolution

end Reexport
