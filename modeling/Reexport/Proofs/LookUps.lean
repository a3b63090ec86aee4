import Reexport.Proofs.DirectiveGraph
import Reexport.Proofs.Items

/-!
# What a look-up finds

A finished module answers from what it exports. Otherwise a name is searched for among
what the module declares, then lists, then among the targets of its wildcards, less those
that lie above the user, and last in what the module exports once it is resolved in full.
Where directives make no circle, this order depends on the tree alone: no module that
the search meets is under way.

Results:

* `lookup_of_done`, `lookup_of_own`, `lookup_of_listed`, `lookup_of_wildcards`: what is
  found, by where the name stands.
-/

namespace Reexport.Resolution

/-- What a module exports under a name. -/
abbrev exportAt (tree : ModuleTree) (id : ModuleId) (name : String) : Option Entry :=
  (resolvedAt tree id).exports.find? name

/-- The first export of a name among the targets of `parent` that do not lie above
    `user`. -/
def scan (tree : ModuleTree) (user parent : ModuleId) (name : String) : Option Entry :=
  ((targets tree parent).filter fun target => !tree.isAncestor target user).findSome?
    (exportAt tree · name)

/-- A look-up that is not under way searches. -/
theorem lookup_eq_find {tree : ModuleTree} {inner : Calls} {user parent : ModuleId} {name : String}
    {memo : Memo} (hnew : isNew (.lookup user parent name) memo = true) :
    (lookup tree inner user parent name memo).1 =
      (find tree inner user parent name (entered (.lookup user parent name) memo)).1 := by
  have hpending : memo.pending.contains (parent, name) = false := by simpa [isNew] using hnew
  unfold lookup
  rw [hpending]
  rfl

section LookUp

variable {tree : ModuleTree} (h : tree.WellFormed) (hacyclic : Acyclic tree)
  {depth : Nat} {user parent : ModuleId} {name : String} {memo : Memo}

include h hacyclic

/-- A module that a call resolves then exports what it exports in the end. -/
theorem exported?_of_resolve {target : ModuleId} (hv : ⟨depth, .resolve target, memo⟩ ∈ trace tree)
    (name : String) :
    ((calls tree (depth + 1)).resolve target memo).exported? target name =
      exportAt tree target name := by
  have hfits := Visit.fits h hv
  obtain ⟨r, hr⟩ := calls_resolve_done tree depth (hfits.size ▸ hfits.valid) (hacyclic.not_open hv rfl)
  have hfinal := Visit.keeps_resolveAll hv target r hr
  rw [Memo.exported?, Memo.done?_eq_some_iff.2 hr, exportAt, resolvedAt_eq hfinal]
  rfl

theorem findWildcard_eq (hv : ⟨depth + 1, .lookup user parent name, memo⟩ ∈ trace tree) :
    ∀ {ts : List ModuleId} {later : Memo}, (∀ target ∈ ts, Edge tree parent target) →
      (entered (.lookup user parent name) memo).Grows later →
      InCourse tree (depth + 1)
        (targetRequests tree (calls tree (depth + 1)) user parent name ts later) later →
      (findWildcard tree (calls tree (depth + 1)) user parent name ts later).1 =
        (ts.filter fun target => !tree.isAncestor target user).findSome? (exportAt tree · name) := by
  intro ts
  induction ts with
  | nil => intro later _ _ _; rfl
  | cons target rest ih =>
    intro later hedges hgrows hcourse
    obtain ⟨hedge, hrest⟩ := List.forall_mem_cons.1 hedges
    -- nothing behind `parent` is under way, so only what lies above is skipped
    have hskip : (target == parent || reenters tree later user target) =
        tree.isAncestor target user := by
      have hne : target ≠ parent := hacyclic.ne (.inl hedge)
      rw [hacyclic.reenters_eq hv rfl (.single (.inl hedge)) hgrows, beq_eq_false_iff_ne.2 hne,
        Bool.false_or]
    rw [findWildcard, hskip]
    rw [targetRequests, hskip] at hcourse
    cases habove : tree.isAncestor target user with
    | true =>
      rw [habove, if_pos rfl] at hcourse
      rw [if_pos rfl, List.filter_cons_of_neg (by simp [habove])]
      exact ih hrest hgrows hcourse
    | false =>
      simp only [habove, Bool.false_eq_true, if_false] at hcourse
      rw [if_neg (by simp), List.filter_cons_of_pos (by simp [habove]), List.findSome?_cons]
      have hfirst : InCourse tree (depth + 1) [.resolve target] later := by
        split at hcourse
        · exact hcourse
        · exact (InCourse.cons_iff.1 hcourse).1
      have hexported := exported?_of_resolve h hacyclic hfirst.head name
      cases hexport : exportAt tree target name with
      | some e =>
        rw [hexport] at hexported
        simp only [hexported]
      | none =>
        rw [hexport] at hexported
        simp only [hexported] at hcourse ⊢
        exact ih hrest (hgrows.trans (calls_grow tree _ (.resolve target) later))
          (InCourse.cons_iff.1 hcourse).2

variable (hv : ⟨depth, .lookup user parent name, memo⟩ ∈ trace tree)

include hv

omit h in
/-- The calls of a look-up belong to the resolution. -/
theorem findRequests_inCourse :
    InCourse tree depth (findRequests tree (calls tree depth) user parent name
      (entered (.lookup user parent name) memo)) (entered (.lookup user parent name) memo) :=
  Visit.inCourse hv (hacyclic.lookup_isNew hv rfl)

omit h in
theorem lookup_of_done {r : Resolved} (hr : memo.get parent = .done r) :
    (lookup tree (calls tree depth) user parent name memo).1 = exportAt tree parent name := by
  have hdone : (entered (.lookup user parent name) memo).done? parent = some r :=
    Memo.done?_eq_some_iff.2 hr
  rw [lookup_eq_find (hacyclic.lookup_isNew hv rfl), find, hdone, exportAt,
    Visit.resolvedAt_of_done hv hr]

variable (hdone : memo.done? parent = none)

include hdone

omit h in
theorem lookup_of_own {s : Symbol}
    (hown : (tree.get parent).symbols.find? (fun s => s.name == name) = some s) :
    (lookup tree (calls tree depth) user parent name memo).1 = some ⟨s, s.identity, false⟩ := by
  have hdone' : (entered (.lookup user parent name) memo).done? parent = none := hdone
  rw [lookup_eq_find (hacyclic.lookup_isNew hv rfl), find, hdone']
  simp only [hown]

variable (hown : (tree.get parent).symbols.find? (fun s => s.name == name) = none)

include hown

omit h in
theorem lookup_of_listed {d : Directive} {pin : Pin}
    (hpin : (listedPins (tree.get parent)).find? (fun p => p.2.exportedName == some name) =
      some (d, pin)) :
    (lookup tree (calls tree depth) user parent name memo).1 =
        some (pinAs tree (calls tree depth) parent d pin name
          (entered (.lookup user parent name) memo)).1 ∧
      InCourse tree depth (pinRequests tree parent d pin)
        (entered (.lookup user parent name) memo) := by
  have hdone' : (entered (.lookup user parent name) memo).done? parent = none := hdone
  have hcourse := findRequests_inCourse hacyclic hv
  rw [findRequests, hdone'] at hcourse
  rw [lookup_eq_find (hacyclic.lookup_isNew hv rfl), find, hdone']
  simp only [hown, hpin, findPinned_eq] at hcourse ⊢
  have hexported : pin.exportedName = some name := by simpa using List.find?_some hpin
  exact ⟨by simp [pin?, hexported], hcourse⟩

theorem lookup_of_wildcards
    (hpin : (listedPins (tree.get parent)).find? (fun p => p.2.exportedName == some name) = none) :
    (lookup tree (calls tree depth) user parent name memo).1 =
      (scan tree user parent name).or
        (if tree.isAncestor parent user then none else exportAt tree parent name) := by
  have hnew := hacyclic.lookup_isNew hv rfl
  obtain ⟨depth, rfl⟩ := Visit.depth_of_new h hv hnew
  have hdone' : (entered (.lookup user parent name) memo).done? parent = none := hdone
  have hcourse := findRequests_inCourse hacyclic hv
  rw [findRequests, hdone'] at hcourse
  rw [lookup_eq_find hnew, find, hdone']
  simp only [hown, hpin, findPinned_eq] at hcourse ⊢
  have hthrough : InCourse tree (depth + 1) (targetRequests tree (calls tree (depth + 1)) user parent
      name (targets tree parent) (entered (.lookup user parent name) memo))
      (entered (.lookup user parent name) memo) := by
    split at hcourse
    · exact hcourse
    · split_ifs at hcourse
      · exact hcourse
      · exact (InCourse.append_iff.1 hcourse).1
  have hscan := findWildcard_eq h hacyclic hv (fun _ => mem_targets.1) (.refl _) hthrough
  have hafter := findWildcard_memo tree (calls tree (depth + 1)) user parent name
    (targets tree parent) (entered (.lookup user parent name) memo)
  rw [scan, ← hscan]
  generalize findWildcard tree (calls tree (depth + 1)) user parent name (targets tree parent)
    (entered (.lookup user parent name) memo) = found at hcourse hafter ⊢
  obtain ⟨_ | e, after⟩ := found
  · have hgrows : (entered (.lookup user parent name) memo).Grows after := by
      rw [show after = _ from hafter]
      exact (calls_grow tree _).all _ _
    have habove := hacyclic.reenters_eq hv rfl .refl hgrows
    simp only [habove, Option.none_or] at hcourse ⊢
    split_ifs at hcourse ⊢
    · rfl
    · have hresolve := (InCourse.append_iff.1 hcourse).2
      rw [← show after = _ from hafter] at hresolve
      exact exported?_of_resolve h hacyclic hresolve.head name
  · rfl

end LookUp

end Reexport.Resolution
