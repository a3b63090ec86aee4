import Mathlib.Data.List.Flatten
import Reexport.Proofs.Siblings

/-!
# Walks and paths in a tree of modules

A tree that is built by adding modules is a tree in the ordinary sense: every module but the
root has one parent, which lists it once. The walk in post order meets every module, those
below a module in front of it, and paths lead to the modules that they name.

Walks are stated without the bound on their depth: `walk` is the walk below a module, and
`walk_eq` the equation of its recursion.

Results:

* `isAncestor_iff`: what lies above a module.
* `walk_infix`, `before_of_below`, `before_of_siblings`: the order of the walk.
* `unstack_postOrder`: the walk by means of a stack.
* `resolvePath_of_supers`: where a path with leading `super` starts out.
* `Built.coherent`, `Built.leadsThere`: the shape of a tree that is built, and where paths lead.
* `built_trees_hold`: trees that are built, in full.
-/

namespace Reexport.ModuleTree

/-! ## Steps up -/

/-- One step up from a module leads to its parent. -/
def StepUp (tree : ModuleTree) (id parent : Nat) : Prop := (tree.get id).parent = some parent

theorem WellFormed.isAbove_iff {tree : ModuleTree} (h : tree.WellFormed) {ancestor : Nat} :
    ∀ {steps id : Nat}, id < steps →
      (tree.isAbove ancestor steps id = true ↔ Relation.TransGen tree.StepUp id ancestor) := by
  intro steps
  induction steps with
  | zero => intro id hid; exact absurd hid (Nat.not_lt_zero _)
  | succ steps ih =>
    intro id hid
    rw [isAbove, Relation.TransGen.head'_iff]
    cases hparent : (tree.get id).parent with
    | none =>
      refine iff_of_false Bool.false_ne_true fun ⟨parent, hstep, _⟩ => ?_
      rw [StepUp, hparent] at hstep
      cases hstep
    | some parent =>
      have hlt : parent < steps := Nat.lt_of_lt_of_le (h.parent_lt hparent) (Nat.le_of_lt_succ hid)
      simp only [Bool.or_eq_true, beq_iff_eq, ih hlt]
      constructor
      · rintro (rfl | habove)
        · exact ⟨_, hparent, .refl⟩
        · exact ⟨_, hparent, habove.to_reflTransGen⟩
      · rintro ⟨above, hstep, habove⟩
        obtain rfl : parent = above := Option.some.inj (hparent.symm.trans hstep)
        exact (Relation.reflTransGen_iff_eq_or_transGen.1 habove).imp_left Eq.symm

/-- A module lies above another if steps up lead from that one to it. -/
theorem WellFormed.isAncestor_iff {tree : ModuleTree} (h : tree.WellFormed) (ancestor id : Nat) :
    tree.isAncestor ancestor id = true ↔ Relation.TransGen tree.StepUp id ancestor := by
  by_cases hid : id < tree.size
  · exact h.isAbove_iff hid
  · -- no step leads up from a number without a module
    have hparent : (tree.get id).parent = none := by rw [get_of_size_le (Nat.le_of_not_lt hid)]; rfl
    refine iff_of_false ?_ fun habove => ?_
    · rw [isAncestor]
      cases tree.size with
      | zero => exact Bool.false_ne_true
      | succ size => simp [isAbove, hparent]
    · obtain ⟨parent, hstep, -⟩ := Relation.TransGen.head'_iff.1 habove
      rw [StepUp, hparent] at hstep
      cases hstep

/-! ## The walk below a module -/

/-- The module `b` is `a` or lies below it. -/
abbrev Below (tree : ModuleTree) (a b : Nat) : Prop := Relation.ReflTransGen tree.Child a b

/-- The walk in post order over a module and all that lies below it. -/
def walk (tree : ModuleTree) (id : Nat) : List Nat := tree.postOrderFrom tree.size id

/-- In a list without repetition: `a` comes before `b`. -/
abbrev Before (order : List Nat) (a b : Nat) : Prop := [a, b].Sublist order

namespace WellFormed

variable {tree : ModuleTree} (h : tree.WellFormed)

include h

/-- Depths that suffice give one walk. -/
theorem postOrderFrom_eq : ∀ {depth depth' id : Nat}, id < tree.size → tree.size ≤ depth + id →
    tree.size ≤ depth' + id → tree.postOrderFrom depth id = tree.postOrderFrom depth' id := by
  intro depth
  induction depth with
  | zero => intro depth' id hid hdepth _; omega
  | succ depth ih =>
    intro depth' id hid hdepth hdepth'
    cases depth' with
    | zero => omega
    | succ depth' =>
      rw [postOrderFrom, postOrderFrom]
      congr 1
      refine List.flatMap_congr fun child hchild => ?_
      have hlt := h.lt_child hchild
      exact ih (h.child_lt hchild) (by omega) (by omega)

/-- The walk meets what lies below the children, one after the other, and then the module. -/
theorem walk_eq {id : Nat} (hid : id < tree.size) :
    tree.walk id = (tree.get id).children.flatMap tree.walk ++ [id] := by
  obtain ⟨size, hsize⟩ : ∃ size, tree.size = size + 1 := ⟨tree.size - 1, by omega⟩
  have hwalk : tree.walk id = (tree.get id).children.flatMap (tree.postOrderFrom size) ++ [id] := by
    rw [walk, hsize, postOrderFrom]
  rw [hwalk]
  congr 1
  refine List.flatMap_congr fun child hchild => ?_
  have hlt := h.lt_child hchild
  exact h.postOrderFrom_eq (h.child_lt hchild) (by omega) (by omega)

theorem lt_of_below {a b : Nat} (ha : a < tree.size) (hab : tree.Below a b) : b < tree.size := by
  rcases Relation.ReflTransGen.cases_tail hab with rfl | ⟨parent, -, hchild⟩
  · exact ha
  · exact h.child_lt hchild

/-- What lies below a module is met in one piece. -/
theorem walk_infix {a b : Nat} (ha : a < tree.size) (hab : tree.Below a b) : tree.walk b <:+: tree.walk a := by
  induction hab using Relation.ReflTransGen.head_induction_on with
  | refl => exact List.infix_refl _
  | head hac _ ih =>
    rw [h.walk_eq ha]
    refine (ih (h.child_lt hac)).trans (List.IsInfix.trans ?_ (List.prefix_append _ _).isInfix)
    obtain ⟨front, back, hchildren⟩ := List.append_of_mem hac
    rw [hchildren, List.flatMap_append, List.flatMap_cons, ← List.append_assoc]
    exact List.infix_append _ _ _

theorem mem_walk {a b : Nat} (ha : a < tree.size) (hab : tree.Below a b) : b ∈ tree.walk a :=
  h.mem_postOrderFrom hab tree.size (by have := h.lt_of_below ha hab; omega)

/-- What lies below a module is met in front of it. -/
theorem before_of_below {a b : Nat} (ha : a < tree.size) (hab : Relation.TransGen tree.Child a b) :
    Before tree.postOrder b a := by
  obtain ⟨child, hchild, hbelow⟩ := Relation.TransGen.head'_iff.1 hab
  have hmem : b ∈ (tree.get a).children.flatMap tree.walk :=
    List.mem_flatMap.2 ⟨child, hchild, h.mem_walk (h.child_lt hchild) hbelow⟩
  have hwalk : Before (tree.walk a) b a := by
    rw [h.walk_eq ha]
    exact (List.singleton_sublist.2 hmem).append (List.Sublist.refl [a])
  exact hwalk.trans (h.walk_infix h.root_lt (h.root_above a ha)).sublist

/-- What lies below one child is met in front of what lies below a later one. -/
theorem before_of_siblings {parent a b c d : Nat} (hab : Before (tree.get parent).children a b)
    (hac : tree.Below a c) (hbd : tree.Below b d) : Before tree.postOrder c d := by
  have ha : tree.Child parent a := hab.subset List.mem_cons_self
  have hb : tree.Child parent b := hab.subset (List.mem_cons_of_mem _ List.mem_cons_self)
  have hparent : parent < tree.size := Nat.lt_trans (h.lt_child ha) (h.child_lt ha)
  have hpair : Before ([a, b].flatMap tree.walk) c d := by
    have hc := List.singleton_sublist.2 (h.mem_walk (h.child_lt ha) hac)
    have hd := List.singleton_sublist.2 (h.mem_walk (h.child_lt hb) hbd)
    simpa using hc.append hd
  have hwalk : Before (tree.walk parent) c d := by
    rw [h.walk_eq hparent]
    exact (hpair.trans (hab.flatMap tree.walk)).trans (List.sublist_append_left _ _)
  exact hwalk.trans (h.walk_infix h.root_lt (h.root_above parent hparent)).sublist

end WellFormed

/-- Of two children the one with the smaller name is listed first. -/
theorem Filed.before_of_name_lt {tree : ModuleTree} (h : tree.Filed) {parent a b : Nat}
    (ha : tree.Child parent a) (hb : tree.Child parent b) (hlt : (tree.get a).name < (tree.get b).name) :
    Before (tree.get parent).children a b := by
  have hsorted := h.sorted parent
  obtain ⟨front, back, hchildren⟩ := List.append_of_mem ha
  rw [Child, hchildren, List.mem_append, List.mem_cons] at hb
  rw [hchildren] at hsorted ⊢
  rcases hb with hb | rfl | hb
  · have hle := (List.pairwise_append.1 hsorted).2.2 b hb a List.mem_cons_self
    exact absurd hlt (String.not_lt.2 hle)
  · exact absurd hlt (String.lt_irrefl _)
  · exact ((List.singleton_sublist.2 hb).cons_cons a).trans (List.sublist_append_right _ _)

/-- The walk meets every module once. -/
theorem Filed.postOrder_perm {tree : ModuleTree} (h : tree.Filed) (hwf : tree.WellFormed) :
    tree.postOrder.Perm (List.range tree.size) := by
  rw [List.perm_ext_iff_of_nodup (h.postOrder_nodup hwf) List.nodup_range]
  intro id
  rw [List.mem_range]
  exact ⟨hwf.postOrder_lt, hwf.mem_postOrder⟩

/-! ## The walk by means of a stack -/

/-- A module is taken from the stack and put back with a mark, its children on top of it; one
    with a mark is done. Nothing results when the steps do not suffice. -/
def unstack (tree : ModuleTree) : (steps : Nat) → List (Nat × Bool) → Option (List Nat)
  | _, [] => some []
  | 0, _ :: _ => none
  | steps + 1, (id, true) :: stack => (tree.unstack steps stack).map (id :: ·)
  | steps + 1, (id, false) :: stack =>
    tree.unstack steps ((tree.get id).children.map (·, false) ++ (id, true) :: stack)

theorem unstack_all {tree : ModuleTree} : ∀ {ids : List Nat},
    (∀ id ∈ ids, ∀ steps stack, tree.unstack (2 * (tree.walk id).length + steps) ((id, false) :: stack) =
      (tree.unstack steps stack).map (tree.walk id ++ ·)) →
    ∀ steps stack, tree.unstack (2 * (ids.flatMap tree.walk).length + steps) (ids.map (·, false) ++ stack) =
      (tree.unstack steps stack).map (ids.flatMap tree.walk ++ ·) := by
  intro ids
  induction ids with
  | nil => intro _ steps stack; simp
  | cons id ids ih =>
    intro hids steps stack
    obtain ⟨hid, hrest⟩ := List.forall_mem_cons.1 hids
    have hsteps : 2 * ((id :: ids).flatMap tree.walk).length + steps =
        2 * (tree.walk id).length + (2 * (ids.flatMap tree.walk).length + steps) := by
      rw [List.flatMap_cons, List.length_append]
      omega
    rw [hsteps, List.map_cons, List.cons_append, hid, ih hrest, Option.map_map]
    simp [Function.comp_def]

/-- A module on the stack becomes the walk below it, in two steps for each module. -/
theorem WellFormed.unstack_walk {tree : ModuleTree} (h : tree.WellFormed) : ∀ {below id : Nat},
    id < tree.size → tree.size - id = below → ∀ steps stack,
      tree.unstack (2 * (tree.walk id).length + steps) ((id, false) :: stack) =
        (tree.unstack steps stack).map (tree.walk id ++ ·) := by
  intro below
  induction below using Nat.strongRecOn with
  | _ below ih =>
    intro id hid hbelow steps stack
    have hchildren := @unstack_all tree (tree.get id).children fun child hchild => by
      have hlt := h.lt_child hchild
      have hsize := h.child_lt hchild
      exact ih (tree.size - child) (by omega) hsize rfl
    have hsteps : 2 * (tree.walk id).length + steps =
        2 * ((tree.get id).children.flatMap tree.walk).length + (steps + 1) + 1 := by
      rw [h.walk_eq hid, List.length_append, List.length_singleton]
      omega
    rw [hsteps, unstack, hchildren, unstack, Option.map_map, h.walk_eq hid]
    simp [Function.comp_def]

/-- The stack gives the walk in post order. -/
theorem Filed.unstack_postOrder {tree : ModuleTree} (h : tree.Filed) (hwf : tree.WellFormed) :
    tree.unstack (2 * tree.size) [(root, false)] = some tree.postOrder := by
  have hwalk := @WellFormed.unstack_walk tree hwf _ root hwf.root_lt rfl 0 []
  have hlength : (tree.walk root).length = tree.size := by
    have := (h.postOrder_perm hwf).length_eq
    rwa [List.length_range] at this
  rw [hlength] at hwalk
  rw [← show tree.walk root = tree.postOrder from rfl]
  simpa [unstack] using hwalk

/-! ## Paths downwards -/

/-- The words that have a meaning of their own at the start of a path. -/
def leadingWords : List String := ["crate", "self", "super"]

/-- No module that was added has the name of a leading word. -/
def FreeNames (tree : ModuleTree) : Prop :=
  ∀ id < tree.size, 0 < id → (tree.get id).name ∉ leadingWords

instance (tree : ModuleTree) : Decidable tree.FreeNames :=
  inferInstanceAs (Decidable (∀ id < tree.size, 0 < id → (tree.get id).name ∉ leadingWords))

theorem Placed.segments_of_child {tree : ModuleTree} (h : tree.Placed) (hfiled : tree.Filed)
    (hwf : tree.WellFormed) {parent child : Nat} (hchild : tree.Child parent child) :
    (tree.get child).segments = (tree.get parent).segments ++ [(tree.get child).name] := by
  have h0 : 0 < child := Nat.lt_of_le_of_lt (Nat.zero_le parent) (hwf.lt_child hchild)
  obtain ⟨above, -, habove, -, hsegments⟩ := h.below h0 (hwf.child_lt hchild)
  obtain rfl : above = parent :=
    Option.some.inj ((hfiled.parent_of_child habove).symm.trans (hfiled.parent_of_child hchild))
  exact hsegments

theorem child?_eq {tree : ModuleTree} (hdistinct : tree.DistinctSiblings) {parent child : Nat}
    (h : tree.Child parent child) : tree.child? parent (tree.get child).name = some child := by
  cases hfound : tree.child? parent (tree.get child).name with
  | none =>
    rw [child?, List.find?_eq_none] at hfound
    exact absurd (beq_iff_eq.2 rfl) (hfound child h)
  | some found =>
    have hname : (tree.get found).name = (tree.get child).name := by simpa using List.find?_some hfound
    rw [hdistinct (List.mem_of_find?_eq_some hfound) h hname]

/-- The names on the way down lead to the module, and none of them is a leading word. -/
theorem Placed.descend?_of_below {tree : ModuleTree} (h : tree.Placed) (hfiled : tree.Filed)
    (hwf : tree.WellFormed) (hdistinct : tree.DistinctSiblings) (hfree : tree.FreeNames) {a b : Nat}
    (hab : tree.Below a b) : ∃ way, (tree.get b).segments = (tree.get a).segments ++ way ∧
      tree.descend? a way = some b ∧ ∀ name ∈ way, name ∉ leadingWords := by
  induction hab using Relation.ReflTransGen.head_induction_on with
  | refl => exact ⟨[], (List.append_nil _).symm, rfl, by simp⟩
  | @head a child hchild _ ih =>
    obtain ⟨way, hsegments, hway, hnames⟩ := ih
    refine ⟨(tree.get child).name :: way, ?_, ?_, List.forall_mem_cons.2 ⟨?_, hnames⟩⟩
    · rw [hsegments, h.segments_of_child hfiled hwf hchild, List.append_assoc, List.singleton_append]
    · rw [descend?, child?_eq hdistinct hchild, Option.bind_some, hway]
    · have h0 : 0 < child := Nat.lt_of_le_of_lt (Nat.zero_le a) (hwf.lt_child hchild)
      exact hfree child (hwf.child_lt hchild) h0

/-! ## Paths upwards -/

/-- The module a number of steps above a module. -/
def up? (tree : ModuleTree) : (steps : Nat) → (id : Nat) → Option Nat
  | 0, id => some id
  | steps + 1, id => (tree.get id).parent.bind fun parent => tree.up? steps parent

theorem climb?_supers (tree : ModuleTree) (path : List String) : ∀ (steps id : Nat),
    tree.climb? id (List.replicate steps "super" ++ path) =
      (tree.up? steps id).bind fun above => tree.climb? above path := by
  intro steps
  induction steps with
  | zero => intro id; rfl
  | succ steps ih =>
    intro id
    rw [List.replicate_succ, List.cons_append, climb?, if_pos rfl, up?, Option.bind_assoc]
    exact congrArg _ (funext fun parent => ih parent)

theorem climb?_of_free {tree : ModuleTree} {id : Nat} {path : List String}
    (h : ∀ name ∈ path, name ∉ leadingWords) : tree.climb? id path = tree.descend? id path := by
  cases path with
  | nil => rfl
  | cons name rest =>
    have hne : name ≠ "super" := by
      rintro rfl
      exact h _ List.mem_cons_self (by decide)
    rw [climb?, if_neg hne]

/-- A path that does not start with `crate` or `self` is read from the module itself, and so is
    one behind `self`. -/
theorem resolvePath_of_supers (tree : ModuleTree) (id steps : Nat) {path : List String}
    (h : ∀ name ∈ path, name ∉ leadingWords) :
    tree.resolvePath id (List.replicate steps "super" ++ path) =
      tree.climb? id (List.replicate steps "super" ++ path) := by
  cases steps with
  | zero =>
    cases path with
    | nil => rfl
    | cons name rest =>
      have hname := h name List.mem_cons_self
      simp only [leadingWords, List.mem_cons, List.not_mem_nil, or_false, not_or] at hname
      simp only [List.replicate_zero, List.nil_append]
      unfold resolvePath
      split
      · rename_i heq
        exact absurd (List.cons.inj heq).1 hname.1
      · rename_i heq
        exact absurd (List.cons.inj heq).1 hname.2.1
      · rfl
  | succ steps => rfl

/-- Every step up makes the way from the root one name shorter. -/
theorem Placed.length_up {tree : ModuleTree} (h : tree.Placed) (hwf : tree.WellFormed) :
    ∀ {steps id above : Nat}, id < tree.size → tree.up? steps id = some above →
      (tree.get above).segments.length + steps = (tree.get id).segments.length := by
  intro steps
  induction steps with
  | zero => intro id above _ hup; cases hup; rfl
  | succ steps ih =>
    intro id above hid hup
    obtain ⟨parent, hparent, hup⟩ := Option.bind_eq_some_iff.1 hup
    have hlt := hwf.parent_lt hparent
    obtain ⟨_, -, -, hparent', hsegments⟩ := h.below (Nat.lt_of_le_of_lt (Nat.zero_le _) hlt) hid
    rw [hparent] at hparent'
    cases hparent'
    rw [hsegments, List.length_append, ← ih (Nat.lt_trans hlt hid) hup, List.length_singleton, Nat.add_assoc]

/-! ## Trees that are built -/

/-- The numbers, parents, children and walks of a tree agree with each other. -/
structure Coherent (tree : ModuleTree) : Prop where
  parent_lt : ∀ {id parent : Nat}, (tree.get id).parent = some parent → parent < id
  /-- A module but the root is listed by its parent, once, and by no other module. -/
  listed : ∀ {id : Nat}, 0 < id → id < tree.size → ∃ parent, (tree.get id).parent = some parent ∧
    (tree.get parent).children.count id = 1 ∧ ∀ other, tree.Child other id → other = parent
  sorted : ∀ parent : Nat, (tree.get parent).children.Pairwise fun a b => (tree.get a).name ≤ (tree.get b).name
  root_segments : (tree.get root).segments = []
  segments : ∀ {id parent : Nat}, id < tree.size → (tree.get id).parent = some parent →
    (tree.get id).segments = (tree.get parent).segments ++ [(tree.get id).name]
  postOrder_perm : tree.postOrder.Perm (List.range tree.size)
  postOrder_stack : tree.unstack (2 * tree.size) [(root, false)] = some tree.postOrder
  /-- A module comes after all that lies below it. -/
  postOrder_below : ∀ {a b : Nat}, a < tree.size → Relation.TransGen tree.Child a b → Before tree.postOrder b a
  /-- What lies below a child comes before what lies below a later child. -/
  postOrder_siblings : ∀ {parent a b c d : Nat}, Before (tree.get parent).children a b →
    tree.Below a c → tree.Below b d → Before tree.postOrder c d
  /-- Of two children the one with the smaller name is the earlier one. -/
  children_names : ∀ {parent a b : Nat}, tree.Child parent a → tree.Child parent b →
    (tree.get a).name < (tree.get b).name → Before (tree.get parent).children a b
  isAncestor_iff : ∀ a b : Nat, tree.isAncestor a b = true ↔ Relation.TransGen tree.StepUp b a

/-- Paths lead to the modules that they name. -/
structure LeadsThere (tree : ModuleTree) : Prop where
  /-- `crate` and the segments of a module lead to it from everywhere. -/
  absolute : ∀ {source target : Nat}, target < tree.size →
    tree.resolvePath source ("crate" :: (tree.get target).segments) = some target
  /-- Steps up by `super`, perhaps after `self`, and the segments on the way down from there. -/
  relative : ∀ {source steps above target : Nat}, tree.up? steps source = some above → tree.Below above target →
    ∃ way, (tree.get target).segments = (tree.get above).segments ++ way ∧
      tree.resolvePath source (List.replicate steps "super" ++ way) = some target ∧
      tree.resolvePath source ("self" :: (List.replicate steps "super" ++ way)) = some target
  /-- More steps up than there are segments lead out of the tree. -/
  outside : ∀ {source steps : Nat} (rest : List String), source < tree.size →
    (tree.get source).segments.length < steps →
    tree.resolvePath source (List.replicate steps "super" ++ rest) = none ∧
      tree.resolvePath source ("self" :: (List.replicate steps "super" ++ rest)) = none

theorem Built.coherent {tree : ModuleTree} (h : tree.Built) : tree.Coherent where
  parent_lt := h.wellFormed.parent_lt
  listed := by
    intro id h0 hid
    obtain ⟨parent, -, hchild, hparent, -⟩ := h.placed.below h0 hid
    refine ⟨parent, hparent, List.count_eq_one_of_mem (h.filed.nodup parent) hchild, fun other hother => ?_⟩
    exact Option.some.inj ((h.filed.parent_of_child hother).symm.trans hparent)
  sorted := h.filed.sorted
  root_segments := h.placed.root_segments
  segments := by
    intro id parent hid hparent
    exact h.placed.segments_of_child h.filed h.wellFormed
      ((h.filed.child_iff h.wellFormed h.placed).2 ⟨hid, hparent⟩)
  postOrder_perm := h.filed.postOrder_perm h.wellFormed
  postOrder_stack := h.filed.unstack_postOrder h.wellFormed
  postOrder_below := h.wellFormed.before_of_below
  postOrder_siblings := h.wellFormed.before_of_siblings
  children_names := h.filed.before_of_name_lt
  isAncestor_iff := h.wellFormed.isAncestor_iff

theorem Built.leadsThere {tree : ModuleTree} (h : tree.Built) (hdistinct : tree.DistinctSiblings)
    (hfree : tree.FreeNames) : tree.LeadsThere where
  absolute := by
    intro source target htarget
    obtain ⟨way, hsegments, hway, hnames⟩ :=
      h.placed.descend?_of_below h.filed h.wellFormed hdistinct hfree (h.wellFormed.root_above target htarget)
    rw [h.placed.root_segments, List.nil_append] at hsegments
    rw [hsegments]
    exact (climb?_of_free hnames).trans hway
  relative := by
    intro source steps above target hup hbelow
    obtain ⟨way, hsegments, hway, hnames⟩ :=
      h.placed.descend?_of_below h.filed h.wellFormed hdistinct hfree hbelow
    have hclimb : tree.climb? source (List.replicate steps "super" ++ way) = some target := by
      rw [climb?_supers, hup, Option.bind_some, climb?_of_free hnames, hway]
    exact ⟨way, hsegments, (resolvePath_of_supers tree source steps hnames).trans hclimb, hclimb⟩
  outside := by
    intro source steps rest hsource hlt
    have hup : tree.up? steps source = none := by
      cases hup : tree.up? steps source with
      | none => rfl
      | some above =>
        have := h.placed.length_up h.wellFormed hsource hup
        omega
    have hclimb : tree.climb? source (List.replicate steps "super" ++ rest) = none := by
      rw [climb?_supers, hup, Option.bind_none]
    obtain ⟨more, rfl⟩ : ∃ more, steps = more + 1 := ⟨steps - 1, by omega⟩
    exact ⟨hclimb, hclimb⟩

/-- **Trees of modules hold together.** In every tree that is built by adding modules the numbers,
    parents, children and walks agree, and where siblings have different names and none of them is
    a leading word, paths lead to the modules that they name. -/
theorem built_trees_hold {tree : ModuleTree} (h : tree.Built) :
    tree.Coherent ∧ (tree.DistinctSiblings → tree.FreeNames → tree.LeadsThere) :=
  ⟨h.coherent, h.leadsThere⟩

/-- Two modules below the root, the later one with the smaller name and a module of its own. -/
def grove : ModuleTree :=
  (((ModuleTree.new "src" none).addChild root "stem" none none).addChild root "root" none none).addChild 2 "tip"
    none none

theorem built_grove : grove.Built :=
  .addChild _ _ _ (.addChild _ _ _ (.addChild _ _ _ (.new _ _) (by decide)) (by decide)) (by decide)

theorem built_trees_hold_grove : grove.Built ∧ grove.DistinctSiblings ∧ grove.FreeNames ∧
    grove.postOrder = [3, 2, 1, 0] ∧ Before grove.postOrder 3 2 ∧
    (grove.get 1).segments = ["stem"] ∧ grove.resolvePath 3 ("crate" :: ["stem"]) = some 1 ∧
    grove.resolvePath 3 ["self", "super", "super", "super"] = none := by
  have hdistinct : grove.DistinctSiblings := by decide +kernel
  have hfree : grove.FreeNames := by decide +kernel
  obtain ⟨hcoherent, hleads⟩ := built_trees_hold built_grove
  have hthere := hleads hdistinct hfree
  have hchild : Relation.TransGen grove.Child 2 3 := .single (show 3 ∈ (grove.get 2).children by decide +kernel)
  refine ⟨built_grove, hdistinct, hfree, by decide +kernel, hcoherent.postOrder_below (by decide) hchild,
    by decide +kernel, ?_, ?_⟩
  · exact hthere.absolute (show 1 < grove.size by decide)
  · exact (@hthere.outside 3 3 [] (by decide) (by decide +kernel)).2

end Reexport.ModuleTree
