import Reexport.Proofs.Drafts

/-!
# Carrying plans out

A plan that replaces a wildcard is carried out by listing the names one by one, with
the path of the wildcard. The tree that results is resolved again, by other means:
what a wildcard took over as a whole is now looked up name by name.

Results:

* `declares_rewritten_iff`: which names a module lists once its plans are carried
  out.
* `complete_rewritten`, `not_replaced_rewritten`: nothing is left to be replaced.
-/

namespace Reexport.Resolution

/-! ## The rewritten tree -/

/-- A directive after its plan is carried out. -/
def carryOut (d : Directive) (status : Status) : Directive :=
  match d.form, status with
  | .wildcard path _, .replaced names _ =>
    { d with form := .explicit (names.map fun name => ⟨path, name, none⟩) }
  | _, _ => d

/-- The directives of a module after their plans are carried out. -/
def carryOutAll (ds : List Directive) (plans : List Status) : List Directive :=
  ds.mapIdx fun index d => (plans[index]?.map (carryOut d)).getD d

/-- The tree after all plans are carried out. -/
def rewritten (tree : ModuleTree) : ModuleTree :=
  { tree with
    modules := tree.modules.mapIdx fun id m =>
      { m with directives := carryOutAll m.directives (resolvedAt tree id).plans } }

theorem get_rewritten (tree : ModuleTree) (id : Nat) :
    (rewritten tree).get id = { tree.get id with
      directives := carryOutAll (tree.get id).directives (resolvedAt tree id).plans } := by
  by_cases h : id < tree.modules.size
  · simp [rewritten, ModuleTree.get, Array.getD, h]
  · rw [ModuleTree.get_of_size_le (by simpa [rewritten, ModuleTree.size] using h),
      ModuleTree.get_of_size_le (by simpa [ModuleTree.size] using h)]
    rfl

theorem sameShape_rewritten (tree : ModuleTree) : (rewritten tree).SameShape tree where
  size := by simp [rewritten, ModuleTree.size]
  name := fun id => by rw [get_rewritten]
  segments := fun id => by rw [get_rewritten]
  parent := fun id => by rw [get_rewritten]
  children := fun id => by rw [get_rewritten]

theorem directives_rewritten (tree : ModuleTree) (id index : Nat) :
    ((rewritten tree).get id).directives[index]? = (tree.get id).directives[index]?.map fun d =>
      ((resolvedAt tree id).plans[index]?.map (carryOut d)).getD d := by
  rw [get_rewritten, carryOutAll, List.getElem?_mapIdx]

/-! ## The draft of a complete module -/

/-- The draft that the record of a complete module is settled from. -/
structure CompleteDraft (tree : ModuleTree) (id : ModuleId) (draft : Draft) : Prop
    extends Drafted tree id draft where
  scanned : (tree.get id).scanFailed = false
  /-- Every directive lists names or is replaced. -/
  plan : ∀ {index : Nat} {d : Directive}, (tree.get id).directives[index]? = some d →
    (∃ pins names, d.form = .explicit pins ∧
      (resolvedAt tree id).plans[index]? = some (.pinned names)) ∨
    ∃ target, target? tree id d = some target ∧
      (resolvedAt tree id).plans[index]? =
        some (.replaced (draft.listed index) (draft.withheld index))

theorem CleanEffect.plan {tree : ModuleTree} {id : ModuleId} {index : Nat} {d : Directive}
    {e : Effect} (h : CleanEffect tree id index d e) (draft : Draft) :
    (∃ pins names, d.form = .explicit pins ∧ draft.plan index e.plan = .pinned names) ∨
    ∃ target, target? tree id d = some target ∧
      draft.plan index e.plan = .replaced (draft.listed index) (draft.withheld index) := by
  cases h with
  | explicit hform _ _ => exact .inl ⟨_, _, hform, rfl⟩
  | taken ht _ _ => exact .inr ⟨_, ht, rfl⟩

theorem Complete.draft {tree : ModuleTree} (h : tree.WellFormed) {id : ModuleId}
    (hid : id < tree.size) (hc : Complete tree id) : ∃ draft, CompleteDraft tree id draft := by
  obtain ⟨effects, heffects, hr⟩ := resolvedAt_record h hid
  obtain ⟨hscan, hgaps⟩ := record_gaps_eq_nil.1 (hr ▸ complete_iff.1 hc)
  refine ⟨(ownDraft (tree.get id)).addEffects effects, heffects.drafted hr, hscan, ?_⟩
  intro index d hd
  obtain ⟨e, he, heffect⟩ := heffects.of_directive hd
  rw [hr, record_plans, he]
  simp only [Option.map_some, Option.some.injEq]
  exact (heffect.clean (hgaps e (List.mem_of_getElem? he))).plan _

namespace CompleteDraft

variable {tree : ModuleTree} {id : ModuleId} {draft : Draft} (h : CompleteDraft tree id draft)

include h

/-- The names that wildcards are replaced by: those that come in through wildcards
    only and are not ambiguous. -/
theorem exists_listed_iff {name : String} :
    (∃ index, name ∈ draft.listed index) ↔
      name ∈ (resolvedAt tree id).exports.names ∧ ¬ Ambiguous tree id name ∧
        ¬ Declares tree id name := by
  rw [h.mem_names, h.ambiguous_iff, ← h.no_direct_iff, Bool.not_eq_true]
  constructor
  · rintro ⟨index, hlisted⟩
    exact ⟨List.mem_of_mem_filter hlisted, (draft.mem_listed_iff.1 hlisted).2⟩
  · rintro ⟨hname, hamb, hdirect⟩
    obtain ⟨c, hc⟩ := Option.ne_none_iff_exists'.1
      (mt List.head?_eq_none_iff.1 (draft.routes_ne_nil hname))
    obtain ⟨index, -, hfirst⟩ := firstWildcard?_of_no_direct hdirect hc
    exact ⟨index, draft.mem_listed_iff.2 ⟨hfirst, hamb, hdirect⟩⟩

/-- What a module lists once its plans are carried out: for each directive, what it
    listed before, or the names that it is replaced by. -/
theorem directive_rewritten {index : Nat} {d : Directive}
    (hd : (tree.get id).directives[index]? = some d) :
    (∃ pins, d.form = .explicit pins ∧ ((rewritten tree).get id).directives[index]? = some d) ∨
    ∃ path target, d.absolute = false ∧ tree.resolvePath id path = some target ∧
      target? tree id d = some target ∧
      ((rewritten tree).get id).directives[index]? = some { d with
        form := .explicit ((draft.listed index).map fun name => ⟨path, name, none⟩) } := by
  rw [directives_rewritten, hd]
  rcases h.plan hd with ⟨pins, names, hform, hplan⟩ | ⟨target, ht, hplan⟩
  · exact .inl ⟨pins, hform, by simp [hplan, carryOut]⟩
  · refine .inr ?_
    have htarget := ht
    unfold target? at ht
    split at ht
    · rename_i path star hform
      split_ifs at ht with habs
      exact ⟨path, target, by simpa using habs, ht, htarget, by simp [hplan, carryOut, hform]⟩
    · cases ht
    · cases ht

end CompleteDraft

/-! ## Names of the rewritten tree -/

theorem exportedName_plain (path : List String) {name : String} (h : name ≠ "self") :
    (Pin.mk path name none).exportedName = some name := by
  simp [Pin.exportedName, h]

section Names

variable {tree : ModuleTree} (h : tree.WellFormed) (hall : ∀ id < tree.size, Complete tree id)
  (hself : ∀ id < tree.size, "self" ∉ (resolvedAt tree id).exports.names)

include hself in
theorem mem_listed_ne_self {id : ModuleId} (hid : id < tree.size) {draft : Draft} {index : Nat}
    {name : String} (hdraft : CompleteDraft tree id draft) (hname : name ∈ draft.listed index) : name ≠ "self" := by
  rintro rfl
  exact hself id hid (hdraft.mem_names.2 (List.mem_of_mem_filter hname))

include hself in
/-- Carrying out the plans of a module adds the names that wildcards are replaced
    by to those that it declares or lists. -/
theorem declares_rewritten_iff {id : ModuleId} (hid : id < tree.size) {draft : Draft}
    (hdraft : CompleteDraft tree id draft) (name : String) :
    Declares (rewritten tree) id name ↔
      Declares tree id name ∨ ∃ index, name ∈ draft.listed index := by
  constructor
  · rintro (⟨s, hs, hname⟩ | ⟨d, hd, pins, hform, pin, hpin, hexported⟩)
    · rw [get_rewritten] at hs
      exact .inl (.inl ⟨s, hs, hname⟩)
    · obtain ⟨index, hindex⟩ := List.mem_iff_getElem?.1 hd
      have hold := hindex
      rw [directives_rewritten, Option.map_eq_some_iff] at hold
      obtain ⟨d', hd', -⟩ := hold
      rcases hdraft.directive_rewritten hd' with ⟨pins', hform', heq⟩ | ⟨path, target, -, -, -, heq⟩
      · rw [hindex] at heq
        cases heq
        exact .inl (.inr ⟨d, List.mem_of_getElem? hd', pins, hform, pin, hpin, hexported⟩)
      · rw [hindex] at heq
        cases heq
        cases hform
        obtain ⟨listed, hlisted, rfl⟩ := List.mem_map.1 hpin
        rw [exportedName_plain path (mem_listed_ne_self hself hid hdraft hlisted)] at hexported
        cases hexported
        exact .inr ⟨index, hlisted⟩
  · rintro ((⟨s, hs, hname⟩ | ⟨d, hd, pins, hform, hpin⟩) | ⟨index, hlisted⟩)
    · exact .inl ⟨s, by rwa [get_rewritten], hname⟩
    · obtain ⟨index, hindex⟩ := List.mem_iff_getElem?.1 hd
      rcases hdraft.directive_rewritten hindex with ⟨-, -, heq⟩ | ⟨-, target, -, -, ht, -⟩
      · exact .inr ⟨d, List.mem_of_getElem? heq, pins, hform, hpin⟩
      · simp [target?, hform] at ht
    · obtain ⟨c, hc, hvia⟩ := List.exists_of_findSome?_eq_some (draft.mem_listed_iff.1 hlisted).1
      have hwild : c.via = .wildcard index := by
        cases hv : c.via <;> simp_all
      obtain ⟨d, target, hd, ht, -⟩ := hdraft.directive_of_wildcard hc hwild
      rcases hdraft.directive_rewritten hd with ⟨pins, hform, -⟩ | ⟨path, -, -, -, -, heq⟩
      · simp [target?, hform] at ht
      · refine .inr ⟨_, List.mem_of_getElem? heq, _, rfl, ⟨path, name, none⟩, ?_, ?_⟩
        · exact List.mem_map.2 ⟨name, hlisted, rfl⟩
        · exact exportedName_plain path (mem_listed_ne_self hself hid hdraft hlisted)

include h hall

theorem explicit_rewritten {id : ModuleId} (hid : id < tree.size) {d : Directive}
    (hd : d ∈ ((rewritten tree).get id).directives) : ∃ pins, d.form = .explicit pins := by
  obtain ⟨draft, hdraft⟩ := (hall id hid).draft h hid
  obtain ⟨index, hindex⟩ := List.mem_iff_getElem?.1 hd
  have hold := hindex
  rw [directives_rewritten, Option.map_eq_some_iff] at hold
  obtain ⟨d', hd', -⟩ := hold
  rcases hdraft.directive_rewritten hd' with ⟨pins, hform, heq⟩ | ⟨path, target, -, -, -, heq⟩
  · rw [hindex] at heq
    cases heq
    exact ⟨pins, hform⟩
  · rw [hindex] at heq
    cases heq
    exact ⟨_, rfl⟩

theorem not_edge_rewritten {id : ModuleId} (hid : id < tree.size) (target : ModuleId) :
    ¬ Edge (rewritten tree) id target := by
  rintro ⟨d, hd, ht⟩
  obtain ⟨pins, hform⟩ := explicit_rewritten h hall hid hd
  simp [target?, hform] at ht

/-- Once all plans are carried out every module is complete. -/
theorem complete_rewritten {id : ModuleId} (hid : id < tree.size) : Complete (rewritten tree) id := by
  have hshape := sameShape_rewritten tree
  obtain ⟨effects, heffects, hr⟩ := resolvedAt_record (hshape.wellFormed h) (hshape.size.symm ▸ hid)
  rw [complete_iff, hr, record_gaps_eq_nil]
  constructor
  · obtain ⟨draft, hdraft⟩ := (hall id hid).draft h hid
    rw [get_rewritten]
    exact hdraft.scanned
  · intro e he
    obtain ⟨index, hindex⟩ := List.mem_iff_getElem?.1 he
    obtain ⟨d, hd, heffect⟩ := heffects.of_effect hindex
    obtain ⟨pins, hform⟩ := explicit_rewritten h hall hid (List.mem_of_getElem? hd)
    cases heffect with
    | ambiguous hform' => simp [hform] at hform'
    | explicit _ _ _ => rfl
    | unresolved hwild _ => simp [Directive.isWildcard, hform] at hwild
    | cycle ht => simp [target?, hform] at ht
    | taken ht _ _ => simp [target?, hform] at ht

/-- Once all plans are carried out nothing is left to be replaced. -/
theorem not_replaced_rewritten (id : ModuleId) (index : Nat) :
    ¬ Replaced (rewritten tree) id index := by
  have hshape := sameShape_rewritten tree
  intro hrep
  by_cases hid : id < tree.size
  · obtain ⟨d, target, hd, ht, -⟩ := hrep.directive (hshape.wellFormed h) (hshape.size.symm ▸ hid)
    exact not_edge_rewritten h hall hid target ⟨d, List.mem_of_getElem? hd, ht⟩
  · obtain ⟨names, withheld, hplan⟩ := hrep
    rw [resolvedAt_of_size_le (by rw [hshape.size]; simpa using hid)] at hplan
    cases hplan

include hself in
/-- Carrying out all plans loses the ambiguous names that nothing declares or
    lists, and no others. -/
theorem mem_names_rewritten {id : ModuleId} (hid : id < tree.size) (name : String) :
    name ∈ (resolvedAt (rewritten tree) id).exports.names ↔
      name ∈ (resolvedAt tree id).exports.names ∧
        ¬ (Ambiguous tree id name ∧ ¬ Declares tree id name) := by
  have hshape := sameShape_rewritten tree
  obtain ⟨draft, hdraft⟩ := (hall id hid).draft h hid
  have hstep := mem_names_iff_step (hshape.wellFormed h) (hshape.size.symm ▸ hid)
    (complete_rewritten h hall hid) name
  have hnone : ¬ ∃ target, Edge (rewritten tree) id target ∧
      name ∈ (resolvedAt (rewritten tree) target).exports.names :=
    fun ⟨target, hedge, _⟩ => not_edge_rewritten h hall hid target hedge
  rw [hstep, or_iff_left hnone, declares_rewritten_iff hself hid hdraft, hdraft.exists_listed_iff]
  constructor
  · rintro (hdecl | ⟨hname, hamb, -⟩)
    · exact ⟨(mem_names_iff_step h hid (hall id hid) name).2 (.inl hdecl), fun hlost => hlost.2 hdecl⟩
    · exact ⟨hname, fun hlost => hamb hlost.1⟩
  · rintro ⟨hname, hkept⟩
    by_cases hdecl : Declares tree id name
    · exact .inl hdecl
    · exact .inr ⟨hname, fun hamb => hkept ⟨hamb, hdecl⟩, hdecl⟩

end Names

end Reexport.Resolution
