import Mathlib.Logic.Relation
import Mathlib.Tactic.Common
import Reexport.ModuleTree

/-!
# The shape of module trees

Trees are built by adding modules under modules that are there already, and by
giving modules their content. Neither step ever breaks the shape: numbers grow
downwards, and every module but the root is listed by its parent.

Results:

* `Built.wellFormed`: every tree that is built is well formed.
* `WellFormed.mem_postOrder`: the post-order walk meets every module.
* `WellFormed.resolvePath_lt`: a path never leads out of the tree.
* `SameShape.resolvePath`: what a path means depends on the shape of the tree only.
* `built_flat`: trees of one level, as they stand in examples.
-/

namespace Reexport.ModuleTree

/-! ## Building trees -/

/-- A change of a module that leaves it where it is in the tree. -/
def KeepsPlace (f : Module → Module) : Prop :=
  ∀ m, (f m).name = m.name ∧ (f m).segments = m.segments ∧ (f m).parent = m.parent ∧
    (f m).children = m.children

/-- The trees that come about from the root by adding modules and by giving
    modules their content. -/
inductive Built : ModuleTree → Prop
  | new (rootDir : String) (manifest : Option String) : Built (.new rootDir manifest)
  | addChild {tree : ModuleTree} {parent : Nat} (name : String) (dir manifest : Option String) :
      Built tree → parent < tree.size → Built (tree.addChild parent name dir manifest)
  | modify {tree : ModuleTree} {f : Module → Module} (id : Nat) :
      Built tree → KeepsPlace f → Built (tree.modify id f)

/-- One module is listed as a child of another. -/
def Child (tree : ModuleTree) (parent child : Nat) : Prop :=
  child ∈ (tree.get parent).children

/-- What the numbers of modules say about where they are. -/
structure WellFormed (tree : ModuleTree) : Prop where
  root_lt : 0 < tree.size
  parent_lt : ∀ {id parent : Nat}, (tree.get id).parent = some parent → parent < id
  child_lt : ∀ {id child : Nat}, tree.Child id child → child < tree.size
  lt_child : ∀ {id child : Nat}, tree.Child id child → id < child
  listed : ∀ {id : Nat}, 0 < id → id < tree.size → ∃ parent < id, tree.Child parent id

/-! ## Modules of changed trees -/

theorem get_of_size_le {tree : ModuleTree} {id : Nat} (h : tree.size ≤ id) :
    tree.get id = default := by
  have h' : ¬ id < tree.modules.size := by simpa [size] using h
  simp only [get, Array.getD, dif_neg h']

theorem modules_eq_map_get (tree : ModuleTree) :
    tree.modules.toList = (List.range tree.size).map tree.get := by
  apply List.ext_getElem
  · simp [size]
  · intro id h1 h2
    have h : id < tree.modules.size := by simpa using h1
    simp [get, Array.getD, h]

theorem get_eq_getElem (tree : ModuleTree) {id : Nat} (h : id < tree.modules.size) :
    tree.get id = tree.modules[id] := by
  simp only [get, Array.getD, dif_pos h, Array.getInternal_eq_getElem]

@[simp] theorem size_modify (tree : ModuleTree) (id : Nat) (f : Module → Module) :
    (tree.modify id f).size = tree.size := by
  simp [modify, size]

theorem get_modify_self {tree : ModuleTree} {id : Nat} (f : Module → Module)
    (h : id < tree.size) : (tree.modify id f).get id = f (tree.get id) := by
  have h' : id < (tree.modules.modify id f).size := by simpa [size] using h
  rw [get_eq_getElem (tree.modify id f) h', get_eq_getElem tree h]
  simp only [modify, Array.getElem_modify, if_true]
  rfl

theorem get_modify_ne {tree : ModuleTree} {id other : Nat} (f : Module → Module)
    (h : id ≠ other) : (tree.modify id f).get other = tree.get other := by
  by_cases hlt : other < tree.size
  · have h' : other < (tree.modules.modify id f).size := by simpa [size] using hlt
    rw [get_eq_getElem (tree.modify id f) h', get_eq_getElem tree hlt]
    simp only [modify, Array.getElem_modify, if_neg h]
    rfl
  · rw [get_of_size_le (by simpa using hlt), get_of_size_le (by simpa using hlt)]

theorem get_modify_cases (tree : ModuleTree) (id other : Nat) (f : Module → Module) :
    (tree.modify id f).get other = tree.get other ∨
      id = other ∧ (tree.modify id f).get other = f (tree.get other) := by
  by_cases hid : id = other
  · subst hid
    by_cases hlt : id < tree.size
    · exact .inr ⟨rfl, get_modify_self f hlt⟩
    · have hle : tree.size ≤ id := Nat.le_of_not_lt hlt
      rw [get_of_size_le hle, get_of_size_le (by rw [size_modify]; exact hle)]
      exact .inl rfl
  · exact .inl (get_modify_ne f hid)

@[simp] theorem size_addChild (tree : ModuleTree) (parent : Nat) (name : String)
    (dir manifest : Option String) :
    (tree.addChild parent name dir manifest).size = tree.size + 1 := by
  simp [addChild, size]

section AddChild

variable {tree : ModuleTree} {parent : Nat} (name : String) (dir manifest : Option String)

/-- The tree with the list of children of `parent` renewed, but without the new
    module. -/
theorem get_addChild_of_lt {id : Nat} (h : id < tree.size) :
    (tree.addChild parent name dir manifest).get id =
      (tree.modify parent fun m => { m with
        children := tree.insertByName tree.size name (tree.get parent).children }).get id := by
  have h' : id < (tree.modules.modify parent fun m => { m with
      children := tree.insertByName tree.size name (tree.get parent).children }).size := by
    simpa [size] using h
  have h'' : id < (tree.addChild parent name dir manifest).modules.size := by
    have := size_addChild tree parent name dir manifest
    simp only [size] at this h
    omega
  rw [get_eq_getElem _ h'', get_eq_getElem (tree.modify _ _) h']
  simp only [addChild, modify, Array.getElem_push_lt h']

theorem get_addChild_size :
    (tree.addChild parent name dir manifest).get tree.size =
      Module.bare name ((tree.get parent).segments ++ [name]) dir manifest (some parent) := by
  have h : tree.size < (tree.addChild parent name dir manifest).modules.size := by
    have := size_addChild tree parent name dir manifest
    simp only [size] at this ⊢
    omega
  rw [get_eq_getElem _ h]
  simp [addChild, size, Array.getElem_push]

end AddChild

theorem mem_insertByName (tree : ModuleTree) (id : Nat) (name : String) :
    ∀ (siblings : List Nat) (x : Nat),
      x ∈ tree.insertByName id name siblings ↔ x = id ∨ x ∈ siblings := by
  intro siblings
  induction siblings with
  | nil => intro x; simp [insertByName]
  | cons sibling rest ih =>
    intro x
    rw [insertByName]
    split_ifs
    · simp
    · rw [List.mem_cons, ih, List.mem_cons]
      tauto

/-! ## Well-formedness -/

theorem default_children : (default : Module).children = [] := rfl

theorem default_parent : (default : Module).parent = none := rfl

theorem not_child_of_size_le (tree : ModuleTree) {id : Nat} (child : Nat) (h : tree.size ≤ id) :
    ¬ tree.Child id child := by
  rw [Child, get_of_size_le h, default_children]
  exact List.not_mem_nil

theorem wellFormed_new (rootDir : String) (manifest : Option String) :
    (ModuleTree.new rootDir manifest).WellFormed := by
  have hget : ∀ id, ((ModuleTree.new rootDir manifest).get id).children = [] ∧
      ((ModuleTree.new rootDir manifest).get id).parent = none := by
    intro id
    cases id with
    | zero => exact ⟨rfl, rfl⟩
    | succ id => rw [get_of_size_le (by simp [size, new])]; exact ⟨rfl, rfl⟩
  refine ⟨by simp [size, new], ?_, ?_, ?_, ?_⟩
  · intro id parent h
    rw [(hget id).2] at h
    cases h
  · intro id child h
    rw [Child, (hget id).1] at h
    cases h
  · intro id child h
    rw [Child, (hget id).1] at h
    cases h
  · intro id h0 h1
    simp only [size, new, List.size_toArray, List.length_cons, List.length_nil] at h0 h1
    omega

theorem child_modify {tree : ModuleTree} {f : Module → Module} (hf : KeepsPlace f)
    (id parent child : Nat) : (tree.modify id f).Child parent child ↔ tree.Child parent child := by
  rw [Child, Child]
  by_cases hid : id = parent
  · subst hid
    by_cases hlt : id < tree.size
    · rw [get_modify_self f hlt, (hf _).2.2.2]
    · rw [get_of_size_le (by simpa using hlt), get_of_size_le (by simpa using hlt)]
  · rw [get_modify_ne f hid]

theorem parent_modify {tree : ModuleTree} {f : Module → Module} (hf : KeepsPlace f)
    (id other : Nat) : ((tree.modify id f).get other).parent = (tree.get other).parent := by
  by_cases hid : id = other
  · subst hid
    by_cases hlt : id < tree.size
    · rw [get_modify_self f hlt, (hf _).2.2.1]
    · rw [get_of_size_le (by simpa using hlt), get_of_size_le (by simpa using hlt)]
  · rw [get_modify_ne f hid]

theorem WellFormed.modify {tree : ModuleTree} {f : Module → Module} (h : tree.WellFormed)
    (hf : KeepsPlace f) (id : Nat) : (tree.modify id f).WellFormed where
  root_lt := by rw [size_modify]; exact h.root_lt
  parent_lt := by
    intro other parent hp
    rw [parent_modify hf] at hp
    exact h.parent_lt hp
  child_lt := by
    intro other child hc
    rw [child_modify hf] at hc
    rw [size_modify]
    exact h.child_lt hc
  lt_child := by
    intro other child hc
    rw [child_modify hf] at hc
    exact h.lt_child hc
  listed := by
    intro other h0 h1
    rw [size_modify] at h1
    obtain ⟨parent, hlt, hc⟩ := h.listed h0 h1
    exact ⟨parent, hlt, (child_modify hf id parent other).2 hc⟩

section AddChild

variable {tree : ModuleTree} {parent : Nat} {name : String} {dir manifest : Option String}

theorem parent_addChild {id : Nat} (h : id < tree.size) :
    ((tree.addChild parent name dir manifest).get id).parent = (tree.get id).parent := by
  rw [get_addChild_of_lt name dir manifest h]
  by_cases hid : parent = id
  · subst hid
    rw [get_modify_self _ h]
  · rw [get_modify_ne _ hid]

/-- The children of a tree with a module added: the old ones, and the new module
    under its parent. -/
theorem child_addChild (hp : parent < tree.size) (id child : Nat) :
    (tree.addChild parent name dir manifest).Child id child ↔
      tree.Child id child ∨ (id = parent ∧ child = tree.size) := by
  rcases Nat.lt_trichotomy id tree.size with hlt | heq | hgt
  · rw [Child, get_addChild_of_lt name dir manifest hlt]
    by_cases hid : parent = id
    · subst hid
      rw [get_modify_self _ hlt, mem_insertByName, Child]
      tauto
    · rw [get_modify_ne _ hid, Child]
      have hne : id ≠ parent := fun h => hid h.symm
      tauto
  · subst heq
    have hne : tree.size ≠ parent := by omega
    have hold := not_child_of_size_le tree child (Nat.le_refl tree.size)
    rw [Child, get_addChild_size]
    simp only [Module.bare, List.not_mem_nil, false_iff]
    tauto
  · have hne : id ≠ parent := by omega
    have hold := not_child_of_size_le tree child (Nat.le_of_lt hgt)
    have hnew := not_child_of_size_le (tree.addChild parent name dir manifest) child
      (show _ ≤ id by rw [size_addChild]; omega)
    tauto

theorem WellFormed.addChild (h : tree.WellFormed) (hp : parent < tree.size) :
    (tree.addChild parent name dir manifest).WellFormed where
  root_lt := by have := h.root_lt; rw [size_addChild]; omega
  parent_lt := by
    intro id other ho
    rcases Nat.lt_trichotomy id tree.size with hlt | heq | hgt
    · rw [parent_addChild hlt] at ho
      exact h.parent_lt ho
    · subst heq
      rw [get_addChild_size] at ho
      cases ho
      exact hp
    · rw [get_of_size_le (by rw [size_addChild]; omega), default_parent] at ho
      cases ho
  child_lt := by
    intro id child hc
    rw [size_addChild]
    rcases (child_addChild hp id child).1 hc with hc | ⟨-, rfl⟩
    · have := h.child_lt hc
      omega
    · omega
  lt_child := by
    intro id child hc
    rcases (child_addChild hp id child).1 hc with hc | ⟨rfl, rfl⟩
    · exact h.lt_child hc
    · exact hp
  listed := by
    intro id h0 h1
    rw [size_addChild] at h1
    by_cases hlt : id < tree.size
    · obtain ⟨above, ha, hc⟩ := h.listed h0 hlt
      exact ⟨above, ha, (child_addChild hp above id).2 (.inl hc)⟩
    · have : id = tree.size := by omega
      subst this
      exact ⟨parent, hp, (child_addChild hp parent _).2 (.inr ⟨rfl, rfl⟩)⟩

end AddChild

/-- Every tree that is built is well formed. -/
theorem Built.wellFormed {tree : ModuleTree} (h : tree.Built) : tree.WellFormed := by
  induction h with
  | new rootDir manifest => exact wellFormed_new rootDir manifest
  | addChild name dir manifest _ hp ih => exact ih.addChild hp
  | modify id _ hf ih => exact ih.modify hf id

/-! ## Walks and paths -/

namespace WellFormed

variable {tree : ModuleTree} (h : tree.WellFormed)

include h

theorem root_above : ∀ id, id < tree.size → Relation.ReflTransGen tree.Child root id := by
  intro id
  induction id using Nat.strongRecOn with
  | _ id ih =>
    intro hid
    by_cases h0 : id = root
    · rw [h0]
    · obtain ⟨parent, hlt, hc⟩ := h.listed (Nat.pos_of_ne_zero h0) hid
      exact (ih parent hlt (by omega)).tail hc

theorem le_of_above {a b : Nat} (hab : Relation.ReflTransGen tree.Child a b) : a ≤ b := by
  induction hab with
  | refl => exact Nat.le_refl a
  | tail _ hc ih => have := h.lt_child hc; omega

/-- A walk from `a` that goes deep enough meets all that lies below `a`: the
    numbers on the way down grow, so the way is no longer than their distance. -/
theorem mem_postOrderFrom {a b : Nat} (hab : Relation.ReflTransGen tree.Child a b) :
    ∀ depth, b - a < depth → b ∈ tree.postOrderFrom depth a := by
  induction hab using Relation.ReflTransGen.head_induction_on with
  | refl =>
    intro depth hd
    cases depth with
    | zero => omega
    | succ depth => simp [postOrderFrom]
  | head hac hcb ih =>
    intro depth hd
    cases depth with
    | zero => omega
    | succ depth =>
      have hlt := h.lt_child hac
      have hle := h.le_of_above hcb
      rw [postOrderFrom, List.mem_append, List.mem_flatMap]
      exact .inl ⟨_, hac, ih depth (by omega)⟩

/-- The post-order walk meets every module. -/
theorem mem_postOrder {id : Nat} (hid : id < tree.size) : id ∈ tree.postOrder :=
  h.mem_postOrderFrom (h.root_above id hid) tree.size (by simp only [root]; omega)

theorem postOrderFrom_lt : ∀ (depth : Nat) {id : Nat}, id < tree.size →
    ∀ other ∈ tree.postOrderFrom depth id, other < tree.size := by
  intro depth
  induction depth with
  | zero => intro id _ other ho; cases ho
  | succ depth ih =>
    intro id hid other ho
    rw [postOrderFrom, List.mem_append, List.mem_flatMap] at ho
    rcases ho with ⟨child, hc, ho⟩ | ho
    · exact ih (h.child_lt hc) other ho
    · obtain rfl := List.mem_singleton.1 ho
      exact hid

theorem postOrder_lt {id : Nat} (hid : id ∈ tree.postOrder) : id < tree.size :=
  h.postOrderFrom_lt tree.size h.root_lt id hid

theorem child?_lt {id child : Nat} {name : String} (hc : tree.child? id name = some child) :
    child < tree.size :=
  h.child_lt (show tree.Child id child from List.mem_of_find?_eq_some hc)

theorem descend?_lt : ∀ (path : List String) {id target : Nat}, id < tree.size →
    tree.descend? id path = some target → target < tree.size := by
  intro path
  induction path with
  | nil => intro id target hid ht; cases ht; exact hid
  | cons segment rest ih =>
    intro id target hid ht
    rw [descend?] at ht
    obtain ⟨child, hc, ht⟩ := Option.bind_eq_some_iff.1 ht
    exact ih (h.child?_lt hc) ht

theorem climb?_lt : ∀ (path : List String) {id target : Nat}, id < tree.size →
    tree.climb? id path = some target → target < tree.size := by
  intro path
  induction path with
  | nil => intro id target hid ht; cases ht; exact hid
  | cons segment rest ih =>
    intro id target hid ht
    rw [climb?] at ht
    split_ifs at ht
    · obtain ⟨parent, hp, ht⟩ := Option.bind_eq_some_iff.1 ht
      have := h.parent_lt hp
      exact ih (by omega) ht
    · exact h.descend?_lt _ hid ht

/-- A path never leads out of the tree. -/
theorem resolvePath_lt {id target : Nat} {path : List String} (hid : id < tree.size)
    (ht : tree.resolvePath id path = some target) : target < tree.size := by
  unfold resolvePath at ht
  split at ht
  · exact h.climb?_lt _ h.root_lt ht
  · exact h.climb?_lt _ hid ht
  · exact h.climb?_lt _ hid ht

end WellFormed

/-! ## Trees of one shape -/

/-- Two trees that differ in the content of their modules only. -/
structure SameShape (a b : ModuleTree) : Prop where
  size : a.size = b.size
  name : ∀ id : Nat, (a.get id).name = (b.get id).name
  segments : ∀ id : Nat, (a.get id).segments = (b.get id).segments
  parent : ∀ id : Nat, (a.get id).parent = (b.get id).parent
  children : ∀ id : Nat, (a.get id).children = (b.get id).children

namespace SameShape

variable {a b : ModuleTree} (h : SameShape a b)

include h

theorem child (parent child : Nat) : a.Child parent child ↔ b.Child parent child := by
  rw [Child, Child, h.children]

theorem wellFormed (hb : b.WellFormed) : a.WellFormed where
  root_lt := h.size ▸ hb.root_lt
  parent_lt := by
    intro id parent hp
    exact hb.parent_lt (h.parent id ▸ hp)
  child_lt := by
    intro id child hc
    exact h.size ▸ hb.child_lt ((h.child id child).1 hc)
  lt_child := by
    intro id child hc
    exact hb.lt_child ((h.child id child).1 hc)
  listed := by
    intro id h0 h1
    obtain ⟨parent, hlt, hc⟩ := hb.listed h0 (h.size ▸ h1)
    exact ⟨parent, hlt, (h.child parent id).2 hc⟩

theorem child? (id : Nat) (name : String) : a.child? id name = b.child? id name := by
  unfold ModuleTree.child?
  rw [h.children]
  congr 1
  funext other
  rw [h.name]

theorem descend? : ∀ (path : List String) (id : Nat), a.descend? id path = b.descend? id path := by
  intro path
  induction path with
  | nil => intro id; rfl
  | cons segment rest ih =>
    intro id
    rw [ModuleTree.descend?, ModuleTree.descend?, h.child?]
    congr 1
    funext child
    exact ih child

theorem climb? : ∀ (path : List String) (id : Nat), a.climb? id path = b.climb? id path := by
  intro path
  induction path with
  | nil => intro id; rfl
  | cons segment rest ih =>
    intro id
    rw [ModuleTree.climb?, ModuleTree.climb?, h.parent, h.descend?]
    split_ifs
    · congr 1
      funext parent
      exact ih parent
    · rfl

/-- What a path means depends on the shape of the tree only. -/
theorem resolvePath (id : Nat) (path : List String) : a.resolvePath id path = b.resolvePath id path := by
  unfold ModuleTree.resolvePath
  split <;> exact h.climb? _ _

end SameShape

/-! ## Flat trees -/

/-- Modules below a root without content, each with its name, what it declares and
    what it re-exports. -/
def flat (modules : List (String × List Symbol × List Directive)) : ModuleTree :=
  modules.foldl (fun tree (name, symbols, directives) =>
    (tree.addChild root name none (some name)).modify tree.size fun m =>
      { m with symbols := symbols, directives := directives }) (.new "" none)

theorem built_flat (modules : List (String × List Symbol × List Directive)) : (flat modules).Built := by
  unfold flat
  have hroot : (ModuleTree.new "" none).Built := .new "" none
  generalize ModuleTree.new "" none = tree at hroot ⊢
  induction modules generalizing tree with
  | nil => exact hroot
  | cons m rest ih =>
    obtain ⟨name, symbols, directives⟩ := m
    refine ih _ (.modify _ (.addChild name none (some name) hroot ?_) fun m => ⟨rfl, rfl, rfl, rfl⟩)
    exact hroot.wellFormed.root_lt

/-! ## Trees of any shape -/

/-- A root with what it declares and re-exports. -/
def rooted (symbols : List Symbol) (directives : List Directive) : ModuleTree :=
  (ModuleTree.new "" (some "root")).modify root fun m =>
    { m with symbols := symbols, directives := directives }

/-- A tree with one more module, with what it declares and re-exports. -/
def extended (tree : ModuleTree) (parent : ModuleId) (name : String) (symbols : List Symbol)
    (directives : List Directive) : ModuleTree :=
  (tree.addChild parent name none (some name)).modify tree.size fun m =>
    { m with symbols := symbols, directives := directives }

theorem built_rooted (symbols : List Symbol) (directives : List Directive) :
    (rooted symbols directives).Built :=
  .modify _ (.new "" (some "root")) fun _ => ⟨rfl, rfl, rfl, rfl⟩

theorem Built.extended {tree : ModuleTree} (h : tree.Built) {parent : ModuleId} (hp : parent < tree.size)
    (name : String) (symbols : List Symbol) (directives : List Directive) :
    (tree.extended parent name symbols directives).Built :=
  .modify _ (.addChild name none (some name) h hp) fun _ => ⟨rfl, rfl, rfl, rfl⟩

end Reexport.ModuleTree

namespace Reexport

/-- A wildcard, wherever it stands. -/
def Directive.star (path : List String) : Directive :=
  ⟨"", "", ⟨0, 0⟩, 1, false, .wildcard path ⟨0, 0⟩⟩

/-- A list of names, wherever it stands. -/
def Directive.list (pins : List Pin) : Directive :=
  ⟨"", "", ⟨0, 0⟩, 1, false, .explicit pins⟩

end Reexport
