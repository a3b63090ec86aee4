import Reexport.Proofs.Completeness
import Reexport.Proofs.Trace

/-!
# Verdicts on wildcards

When the completeness of an export set can be trusted, and which wildcards are
replaced. A wildcard is looked at once, when its module is opened; it is replaced
exactly if its target is then not under way and turns out to be complete.

Results:

* `Visit.replaced_iff`: when a wildcard is replaced.
* `completeness_trusted`: what completeness says about the modules that are
  reached, what its absence says, and that no circle of wildcards is ever touched.
-/

namespace Reexport.Resolution

/-! ## Plans -/

/-- The directive with a number is a wildcard that is replaced. -/
def Replaced (tree : ModuleTree) (id : ModuleId) (index : Nat) : Prop :=
  ∃ names withheld, (resolvedAt tree id).plans[index]? = some (.replaced names withheld)

theorem isReplaced_iff {status : Status} :
    status.isReplaced = true ↔ ∃ names withheld, status = .replaced names withheld := by
  cases status <;> simp [Status.isReplaced]

theorem record_plans (tree : ModuleTree) (id : ModuleId) (effects : List Effect) (index : Nat) :
    (record tree id effects).plans[index]? =
      effects[index]?.map fun e => ((ownDraft (tree.get id)).addEffects effects).plan index e.plan := by
  have hplans : ((ownDraft (tree.get id)).addEffects effects).plans = effects.map (·.plan) := rfl
  rw [record, Draft.settle_plans, hplans, List.getElem?_map, Option.map_map]
  rfl

theorem replaced_iff_effect {tree : ModuleTree} {id : ModuleId} {effects : List Effect}
    (hr : resolvedAt tree id = record tree id effects) {index : Nat} {e : Effect}
    (he : effects[index]? = some e) : Replaced tree id index ↔ e.plan.isReplaced = true := by
  unfold Replaced
  rw [hr, record_plans, he]
  simp only [Option.map_some, Option.some.injEq, ← isReplaced_iff, Draft.plan_isReplaced]

/-! ## Looking at a wildcard -/

theorem effectsFrom_getElem? (tree : ModuleTree) (inner : Calls) (id : ModuleId) :
    ∀ (ds : List Directive) (start : Nat) (memo : Memo) {index : Nat} {d : Directive},
      ds[index]? = some d → (effectsFrom tree inner id start ds memo).1[index]? =
        some (expand tree inner id (start + index) d
          (effectsFrom tree inner id start (ds.take index) memo).2).1 := by
  intro ds
  induction ds with
  | nil => intro start memo index d hd; simp at hd
  | cons first rest ih =>
    intro start memo index d hd
    cases index with
    | zero =>
      obtain rfl : first = d := by simpa using hd
      rfl
    | succ index =>
      have := ih (start + 1) (expand tree inner id start first memo).2 (by simpa using hd)
      rw [show start + (index + 1) = start + 1 + index by omega]
      simpa only [effectsFrom, List.getElem?_cons_succ, List.take_succ_cons] using this

/-- The effect of a directive is found in the memo in which it is looked at. -/
theorem Visit.effects_getElem? (v : Visit) {tree : ModuleTree} {id : ModuleId} {index : Nat}
    {d : Directive} (hd : (tree.get id).directives[index]? = some d) :
    (v.effects tree id)[index]? =
      some (expand tree (calls tree v.depth) id index d (v.examined tree id index)).1 := by
  have := effectsFrom_getElem? tree (calls tree v.depth) id _ 0 (entered (.resolve id) v.memo) hd
  rwa [Nat.zero_add] at this

theorem takeAll_plan (tree : ModuleTree) (index : Nat) (target : ModuleId) (exports : ExportSet) :
    (takeAll tree index target exports).plan.isReplaced = exports.isComplete ∧
      (takeAll tree index target exports).plan ≠ .cycle := by
  unfold takeAll ExportSet.isComplete
  cases exports.gaps <;> simp [Status.isReplaced]

/-- A wildcard that makes no circle takes over what its target exports. -/
theorem EffectOf.eq_takeAll {tree : ModuleTree} {id target : ModuleId} {index : Nat} {d : Directive}
    {e : Effect} (h : EffectOf tree (resolveAll tree) id index d e)
    (ht : target? tree id d = some target) (hne : e.plan ≠ .cycle) :
    e = takeAll tree index target (resolvedAt tree target).exports := by
  cases h with
  | ambiguous hform => simp [target?, hform] at ht
  | explicit hform _ _ => simp [target?, hform] at ht
  | unresolved _ hnone =>
    rw [ht] at hnone
    cases hnone
  | cycle _ => exact absurd rfl hne
  | @taken other r ht' _ hr =>
    rw [ht] at ht'
    cases ht'
    rw [Resolution.resolvedAt_eq hr]

/-- A wildcard that makes no circle is replaced exactly if its target is complete. -/
theorem EffectOf.isReplaced_iff {tree : ModuleTree} {id target : ModuleId} {index : Nat} {d : Directive}
    {e : Effect} (h : EffectOf tree (resolveAll tree) id index d e)
    (ht : target? tree id d = some target) (hne : e.plan ≠ .cycle) :
    e.plan.isReplaced = true ↔ Complete tree target := by
  rw [h.eq_takeAll ht hne, (takeAll_plan tree index target _).1, Complete]

/-- The target of a wildcard that is replaced is complete. -/
theorem Replaced.target {tree : ModuleTree} (h : tree.WellFormed) {id : ModuleId} (hid : id < tree.size)
    {index : Nat} {d : Directive} (hd : (tree.get id).directives[index]? = some d)
    (hrep : Replaced tree id index) :
    ∃ target, target? tree id d = some target ∧ target ≠ id ∧ Complete tree target := by
  obtain ⟨effects, heffects, hr⟩ := resolvedAt_record h hid
  obtain ⟨e, he, heffect⟩ := heffects.of_directive hd
  rw [replaced_iff_effect hr he] at hrep
  cases heffect with
  | ambiguous _ => cases hrep
  | explicit _ _ _ => cases hrep
  | unresolved _ _ => cases hrep
  | cycle _ => cases hrep
  | @taken target r ht hne hr' =>
    rw [(takeAll_plan tree index target r.exports).1, ← Resolution.resolvedAt_eq hr'] at hrep
    exact ⟨target, ht, hne, hrep⟩

theorem Replaced.directive {tree : ModuleTree} (h : tree.WellFormed) {id : ModuleId}
    (hid : id < tree.size) {index : Nat} (hrep : Replaced tree id index) :
    ∃ d target, (tree.get id).directives[index]? = some d ∧ target? tree id d = some target ∧
      Complete tree target := by
  obtain ⟨effects, heffects, hr⟩ := resolvedAt_record h hid
  obtain ⟨names, withheld, hplan⟩ := hrep
  have hplan' := hplan
  rw [hr, record_plans, Option.map_eq_some_iff] at hplan'
  obtain ⟨e, he, -⟩ := hplan'
  obtain ⟨d, hd, -⟩ := heffects.of_effect he
  obtain ⟨target, ht, -, hc⟩ := Replaced.target h hid hd ⟨names, withheld, hplan⟩
  exact ⟨d, target, hd, ht, hc⟩

/-- No wildcard on a circle is replaced. -/
theorem Replaced.not_back {tree : ModuleTree} (h : tree.WellFormed) {id target : ModuleId}
    (hid : id < tree.size) {index : Nat} {d : Directive}
    (hd : (tree.get id).directives[index]? = some d) (ht : target? tree id d = some target)
    (hrep : Replaced tree id index) : ¬ Reach tree target id := by
  intro hback
  obtain ⟨other, ht', -, hc⟩ := hrep.target h hid hd
  rw [ht] at ht'
  cases ht'
  have hedge : Edge tree id target := ⟨d, List.mem_of_getElem? hd, ht⟩
  exact (hc.grounded h (hedge.lt h hid)).not_circular (.tail' hback hedge)

section Examined

variable {tree : ModuleTree} (h : tree.WellFormed) {v : Visit} (hv : v ∈ trace tree) {id : ModuleId}
  (hopens : v.Opens id)

include hv hopens

theorem Visit.effectsOf : EffectsOf tree (resolveAll tree) id (v.effects tree id) := by
  have hnew : isNew (.resolve id) v.memo = true := Memo.isUnvisited_iff.2 hopens.2
  have hkeeps := (later_answer tree v.depth hnew).keeps.trans
    (by have := Visit.keeps_resolveAll hv; rwa [Visit.after, hopens.1] at this)
  rw [requests, ← effectsFrom_memo] at hkeeps
  exact (effectsFrom_effectsOf tree (calls_grow tree v.depth) id _).mono hkeeps

include h

theorem Visit.resolvedAt_eq (hid : id < tree.size) :
    resolvedAt tree id = record tree id (v.effects tree id) :=
  Resolution.resolvedAt_eq (Visit.record_eq hv hopens ((Visit.fits h hv).size ▸ hid))

/-- A target that is not under way is done once it has been resolved. -/
theorem Visit.target_done {index : Nat} {target : ModuleId} (hlt : target < tree.size)
    (hopen : (v.examined tree id index).get target ≠ .open) :
    ∃ r, ((calls tree v.depth).resolve target (v.examined tree id index)).get target = .done r := by
  obtain ⟨depth, hdepth⟩ := Visit.depth_of_new h hv hopens.isNew
  have hgrows := effectsFrom_grows tree (calls_grow tree v.depth) id 0
    ((tree.get id).directives.take index) (entered (.resolve id) v.memo)
  rw [hdepth]
  refine calls_resolve_done tree depth ?_ hopen
  rw [Visit.examined, hgrows.size]
  simpa [entered, (Visit.fits h hv).size] using hlt

/-- A wildcard makes a circle if its target is its module or is under way. -/
theorem Visit.cycle_iff (hid : id < tree.size) {index : Nat} {d : Directive} {target : ModuleId}
    (hwild : d.isWildcard = true) (ht : target? tree id d = some target) :
    (expand tree (calls tree v.depth) id index d (v.examined tree id index)).1.plan = .cycle ↔
      target = id ∨ (v.examined tree id index).get target = .open := by
  obtain ⟨path, star, hform⟩ := form_of_isWildcard hwild
  simp only [expand, hform, expandWildcard, ht]
  split_ifs with hopen <;>
    simp only [Bool.or_eq_true, beq_iff_eq, Memo.isOpen_iff] at hopen
  · simp [hopen]
  · simp only [hopen, iff_false]
    rw [not_or] at hopen
    obtain ⟨r, hr⟩ := Visit.target_done h hv hopens (target?_lt tree h hid ht) hopen.2
    rw [Memo.done?_eq_some_iff.2 hr]
    exact (takeAll_plan tree index target r.exports).2

/-- **When a wildcard is replaced.** Its target is in the tree, is neither the
    module itself nor under way when the wildcard is looked at, and turns out to be
    complete. -/
theorem Visit.replaced_iff (hid : id < tree.size) {index : Nat} {d : Directive}
    (hd : (tree.get id).directives[index]? = some d) (hwild : d.isWildcard = true) :
    Replaced tree id index ↔ ∃ target, target? tree id d = some target ∧ target ≠ id ∧
      (v.examined tree id index).get target ≠ .open ∧ Complete tree target := by
  have he := v.effects_getElem? hd
  have heffect := (Visit.effectsOf hv hopens).effect hd he
  have hrep := replaced_iff_effect (Visit.resolvedAt_eq h hv hopens hid) he
  constructor
  · intro hr
    obtain ⟨target, ht, hne, hc⟩ := hr.target h hid hd
    refine ⟨target, ht, hne, fun hopen => ?_, hc⟩
    rw [hrep, (Visit.cycle_iff h hv hopens hid hwild ht).2 (.inr hopen)] at hr
    cases hr
  · rintro ⟨target, ht, hne, hopen, hc⟩
    have hcycle := mt (Visit.cycle_iff h hv hopens hid hwild ht).1 (not_or.2 ⟨hne, hopen⟩)
    rw [hrep]
    exact (heffect.isReplaced_iff ht hcycle).2 hc

end Examined

/-! ## Main result -/

/-- **Completeness can be trusted.** From a complete module only complete modules
    are reached along wildcards; all of them are scanned, none has an ambiguous
    directive or a wildcard without target, and none lies on a circle of wildcards.
    From an incomplete module a cause is reached. A wildcard is replaced exactly if
    its target is in the tree, is neither its module nor under way when the wildcard
    is looked at, and is complete in the end. So no wildcard on a circle is ever
    replaced, however long the circle is. -/
theorem completeness_trusted {tree : ModuleTree} (h : tree.Built) {id : ModuleId}
    (hid : id < tree.size) :
    (Complete tree id → ∀ other, Relation.ReflTransGen (Edge tree) id other →
      Complete tree other ∧ (tree.get other).scanFailed = false ∧
      (∀ d ∈ (tree.get other).directives, (∀ why, d.form ≠ .ambiguous why) ∧
        (d.isWildcard = true → (target? tree other d).isSome = true)) ∧
      ¬ Relation.TransGen (Edge tree) other other) ∧
    (¬ Complete tree id → ∃ other, Relation.ReflTransGen (Edge tree) id other ∧
      ((tree.get other).scanFailed = true ∨ ∃ status ∈ (resolvedAt tree other).plans,
        (∃ why, status = .ambiguous why) ∨ status = .unresolved ∨ status = .cycle)) ∧
    ((∃ v ∈ trace tree, v.Opens id) ∧ ∀ v ∈ trace tree, v.Opens id → ∀ index d,
      (tree.get id).directives[index]? = some d → d.isWildcard = true →
      (Replaced tree id index ↔ ∃ target, target? tree id d = some target ∧ target ≠ id ∧
        (v.examined tree id index).get target ≠ .open ∧ Complete tree target)) ∧
    (∀ index d target, (tree.get id).directives[index]? = some d →
      target? tree id d = some target → Relation.ReflTransGen (Edge tree) target id →
      ¬ Replaced tree id index) := by
  have hwf := h.wellFormed
  refine ⟨fun hc other hr => ?_, fun hc => ?_, ⟨exists_opens hwf hid, ?_⟩, ?_⟩
  · have hother := Reach.lt hwf hid hr
    have hc' := Complete.reach hwf hid hc hr
    obtain ⟨-, -, hscan, -, -⟩ := hc'.effects hwf hother
    refine ⟨hc', hscan, fun d hd => ?_, (hc'.grounded hwf hother).not_circular⟩
    rcases hc'.directive hwf hother hd with ⟨pins, hform⟩ | ⟨target, ht, -, -⟩
    · exact ⟨by simp [hform], by simp [Directive.isWildcard, hform]⟩
    · refine ⟨fun why hform => ?_, fun _ => by simp [ht]⟩
      simp [target?, hform] at ht
  · rw [complete_iff] at hc
    obtain ⟨gap, hgap⟩ := List.exists_mem_of_ne_nil _ hc
    exact gap_reaches_fault hwf gap hid hgap
  · intro v hv hopens index d hd hwild
    exact Visit.replaced_iff hwf hv hopens hid hd hwild
  · intro index d target hd ht hback hrep
    exact hrep.not_back hwf hid hd ht hback

/-- Two modules that pass on each other, and one that passes on the first. -/
def ring : ModuleTree :=
  .flat [
    ("a", [⟨"x", .function, "a", 1⟩], [.star ["super", "b"]]),
    ("b", [], [.star ["super", "a"]]),
    ("top", [], [.star ["super", "a"]])]

theorem completeness_trusted_ring :
    ¬ Complete ring 3 ∧
      (∃ other, Relation.ReflTransGen (Edge ring) 3 other ∧
        ((ring.get other).scanFailed = true ∨ ∃ status ∈ (resolvedAt ring other).plans,
          (∃ why, status = .ambiguous why) ∨ status = .unresolved ∨ status = .cycle)) ∧
      ¬ Replaced ring 1 0 := by
  have hincomplete : ¬ Complete ring 3 := by decide +kernel
  have h3 := completeness_trusted (ModuleTree.built_flat _) (show 3 < ring.size by decide +kernel)
  have h1 := completeness_trusted (ModuleTree.built_flat _) (show 1 < ring.size by decide +kernel)
  refine ⟨hincomplete, h3.2.1 hincomplete, ?_⟩
  have hback : Edge ring 2 1 := ⟨.star ["super", "a"], List.mem_singleton_self _, by decide +kernel⟩
  exact h1.2.2.2 0 (.star ["super", "b"]) 2 rfl (by decide +kernel) (.single hback)

end Reexport.Resolution
