import Reexport.Proofs.Records

/-!
# Complete export sets

A wildcard leads from its module to its target. The modules that can be reached
along wildcards decide what a module exports and whether its export set can be
trusted: a set without gaps has every name that a reachable module declares or
lists, and no other.

Results:

* `mem_names_iff_reachable`: the names of a complete export set.
* `Complete.reach`, `Complete.grounded`: from a complete module only complete ones are
  reached, and never in a circle.
* `gap_reaches_fault`: an incomplete set has a cause that can be reached.
-/

namespace Reexport.Resolution

/-! ## Wildcard edges -/

/-- A wildcard of module `a` leads to module `b`. -/
def Edge (tree : ModuleTree) (a b : ModuleId) : Prop :=
  ∃ d ∈ (tree.get a).directives, target? tree a d = some b

/-- Module `b` is reached from `a` along wildcards. -/
abbrev Reach (tree : ModuleTree) : ModuleId → ModuleId → Prop :=
  Relation.ReflTransGen (Edge tree)

theorem Edge.lt {tree : ModuleTree} (h : tree.WellFormed) {a b : ModuleId} (ha : a < tree.size)
    (hab : Edge tree a b) : b < tree.size := by
  obtain ⟨d, -, ht⟩ := hab
  exact target?_lt tree h ha ht

theorem Reach.lt {tree : ModuleTree} (h : tree.WellFormed) {a b : ModuleId} (ha : a < tree.size)
    (hab : Reach tree a b) : b < tree.size := by
  induction hab with
  | refl => exact ha
  | tail _ hbc ih => exact hbc.lt h ih

/-! ## Results of a resolution -/

/-- What is found out about a module. -/
def resolvedAt (tree : ModuleTree) (id : ModuleId) : Resolved := (resolve tree).getD id default

/-- Whether a module's export set has no gap. -/
def Complete (tree : ModuleTree) (id : ModuleId) : Prop :=
  (resolvedAt tree id).exports.isComplete = true

instance (tree : ModuleTree) (id : ModuleId) : Decidable (Complete tree id) :=
  inferInstanceAs (Decidable (_ = true))

theorem complete_iff {tree : ModuleTree} {id : ModuleId} :
    Complete tree id ↔ (resolvedAt tree id).exports.gaps = [] := by
  rw [Complete, ExportSet.isComplete, List.isEmpty_iff]

theorem resolvedAt_eq {tree : ModuleTree} {id : ModuleId} {r : Resolved}
    (h : (resolveAll tree).get id = .done r) : resolvedAt tree id = r := by
  have hlt : id < (resolveAll tree).progress.size := Memo.lt_of_get_ne (by simp [h])
  simp only [Memo.get, Array.getD, dif_pos hlt, Array.getInternal_eq_getElem] at h
  simp only [resolvedAt, resolve, List.getD_eq_getElem?_getD, List.getElem?_map,
    Array.getElem?_toList, Array.getElem?_eq_getElem hlt, Option.map_some, Option.getD_some]
  rw [h]

theorem resolvedAt_of_size_le {tree : ModuleTree} {id : ModuleId} (h : tree.size ≤ id) :
    resolvedAt tree id = default := by
  rw [← size_resolveAll tree] at h
  simp [resolvedAt, resolve, List.getD_eq_getElem?_getD, h]

/-- Every module has a record, settled from the effects of its directives. -/
theorem resolvedAt_record {tree : ModuleTree} (h : tree.WellFormed) {id : ModuleId}
    (hid : id < tree.size) :
    ∃ effects, EffectsOf tree (resolveAll tree) id effects ∧
      resolvedAt tree id = record tree id effects := by
  obtain ⟨r, hr⟩ := resolveAll_done h hid
  obtain ⟨effects, heffects, rfl⟩ := recorded_resolveAll tree id r hr
  exact ⟨effects, heffects, resolvedAt_eq hr⟩

namespace EffectsOf

variable {tree : ModuleTree} {memo : Memo} {id : ModuleId} {effects : List Effect}
  (h : EffectsOf tree memo id effects)

include h

/-- Every effect is that of a directive. -/
theorem of_effect {index : Nat} {e : Effect} (he : effects[index]? = some e) :
    ∃ d, (tree.get id).directives[index]? = some d ∧ EffectOf tree memo id index d e := by
  obtain ⟨hlt, -⟩ := List.getElem?_eq_some_iff.1 he
  have hd := List.getElem?_eq_getElem (h.length ▸ hlt)
  exact ⟨_, hd, h.effect hd he⟩

/-- Every directive has an effect. -/
theorem of_directive {index : Nat} {d : Directive} (hd : (tree.get id).directives[index]? = some d) :
    ∃ e, effects[index]? = some e ∧ EffectOf tree memo id index d e := by
  obtain ⟨hlt, -⟩ := List.getElem?_eq_some_iff.1 hd
  have he := List.getElem?_eq_getElem (h.length.symm ▸ hlt)
  exact ⟨_, he, h.effect hd he⟩

end EffectsOf

theorem record_gaps (tree : ModuleTree) (id : ModuleId) (effects : List Effect) :
    (record tree id effects).exports.gaps =
      (ownDraft (tree.get id)).gaps ++ effects.filterMap (·.gap) := rfl

theorem record_gaps_eq_nil {tree : ModuleTree} {id : ModuleId} {effects : List Effect} :
    (record tree id effects).exports.gaps = [] ↔
      (tree.get id).scanFailed = false ∧ ∀ e ∈ effects, e.gap = none := by
  rw [record_gaps, List.append_eq_nil_iff, List.filterMap_eq_nil_iff]
  refine and_congr ?_ Iff.rfl
  unfold ownDraft
  cases (tree.get id).scanFailed <;> simp

/-! ## Complete modules -/

/-- What a directive of a complete module does: it lists names, or it takes over a
    complete export set as a whole. -/
inductive CleanEffect (tree : ModuleTree) (id : ModuleId) (index : Nat) (d : Directive) : Effect → Prop
  | explicit {pins : List Pin} {cs : List Contribution} : d.form = .explicit pins →
      cs.map (·.name) = pins.filterMap (·.exportedName) → (∀ c ∈ cs, c.via = .pinned index) →
      CleanEffect tree id index d ⟨cs, none, .pinned (cs.map (·.name))⟩
  | taken {target : ModuleId} : target? tree id d = some target → target ≠ id →
      Complete tree target → CleanEffect tree id index d
        ⟨(resolvedAt tree target).exports.entries.map (⟨·, .wildcard index⟩), none, .replaced [] []⟩

theorem EffectOf.clean {tree : ModuleTree} {id : ModuleId} {index : Nat} {d : Directive} {e : Effect}
    (h : EffectOf tree (resolveAll tree) id index d e) (hgap : e.gap = none) :
    CleanEffect tree id index d e := by
  cases h with
  | ambiguous _ => cases hgap
  | explicit hform hnames hvia => exact .explicit hform hnames hvia
  | unresolved _ _ => cases hgap
  | cycle _ => cases hgap
  | @taken target r ht hne hr =>
    have hr' := resolvedAt_eq hr
    unfold takeAll at hgap ⊢
    cases hgaps : r.exports.gaps with
    | nil =>
      have hc : Complete tree target := complete_iff.2 (by rw [hr', hgaps])
      have htaken : CleanEffect tree id index d _ := .taken ht hne hc
      rwa [hr'] at htaken
    | cons gap rest =>
      rw [hgaps] at hgap
      cases hgap

namespace Complete

variable {tree : ModuleTree} (h : tree.WellFormed) {id : ModuleId} (hid : id < tree.size)
  (hc : Complete tree id)

include h hid hc

/-- A complete module is scanned, and each of its directives lists names or takes
    over a complete export set. -/
theorem effects : ∃ effects, resolvedAt tree id = record tree id effects ∧
    (tree.get id).scanFailed = false ∧
    (∀ {index d}, (tree.get id).directives[index]? = some d →
      ∃ e, effects[index]? = some e ∧ CleanEffect tree id index d e) ∧
    (∀ {index e}, effects[index]? = some e →
      ∃ d, (tree.get id).directives[index]? = some d ∧ CleanEffect tree id index d e) := by
  obtain ⟨effects, heffects, hr⟩ := resolvedAt_record h hid
  obtain ⟨hscan, hgaps⟩ := record_gaps_eq_nil.1 (hr ▸ complete_iff.1 hc)
  refine ⟨effects, hr, hscan, fun hd => ?_, fun he => ?_⟩
  · obtain ⟨e, he, heffect⟩ := heffects.of_directive hd
    exact ⟨e, he, heffect.clean (hgaps e (List.mem_of_getElem? he))⟩
  · obtain ⟨d, hd, heffect⟩ := heffects.of_effect he
    exact ⟨d, hd, heffect.clean (hgaps _ (List.mem_of_getElem? he))⟩

theorem directive {d : Directive} (hd : d ∈ (tree.get id).directives) :
    (∃ pins, d.form = .explicit pins) ∨
      ∃ target, target? tree id d = some target ∧ target ≠ id ∧ Complete tree target := by
  obtain ⟨effects, -, -, hall, -⟩ := effects h hid hc
  obtain ⟨index, hindex⟩ := List.mem_iff_getElem?.1 hd
  obtain ⟨e, -, he⟩ := hall hindex
  cases he with
  | explicit hform _ _ => exact .inl ⟨_, hform⟩
  | taken ht hne hct => exact .inr ⟨_, ht, hne, hct⟩

theorem edge {target : ModuleId} (he : Edge tree id target) : target ≠ id ∧ Complete tree target := by
  obtain ⟨d, hd, ht⟩ := he
  rcases directive h hid hc hd with ⟨pins, hform⟩ | ⟨other, ht', hne, hct⟩
  · simp [target?, hform] at ht
  · rw [ht] at ht'
    cases ht'
    exact ⟨hne, hct⟩

/-- From a complete module only complete ones are reached. -/
theorem reach {other : ModuleId} (hr : Reach tree id other) : Complete tree other := by
  induction hr with
  | refl => exact hc
  | tail hab hbc ih => exact (edge h (Reach.lt h hid hab) ih hbc).2

end Complete

/-! ## Names -/

/-- A module declares a name or lists it. -/
def Declares (tree : ModuleTree) (id : ModuleId) (name : String) : Prop :=
  (∃ s ∈ (tree.get id).symbols, s.name = name) ∨
    ∃ d ∈ (tree.get id).directives, ∃ pins, d.form = .explicit pins ∧
      ∃ pin ∈ pins, pin.exportedName = some name

theorem mem_record_names {tree : ModuleTree} {id : ModuleId} {effects : List Effect} {name : String} :
    name ∈ (record tree id effects).exports.names ↔
      (∃ s ∈ (tree.get id).symbols, s.name = name) ∨
        ∃ e ∈ effects, name ∈ e.contributions.map (·.name) := by
  rw [record, Draft.settle_names, Draft.mem_names]
  simp only [Draft.addEffects, ownDraft, List.mem_append, List.mem_map, List.mem_flatMap]
  constructor
  · rintro ⟨c, ⟨s, hs, rfl⟩ | ⟨e, he, hce⟩, hname⟩
    · exact .inl ⟨s, hs, hname⟩
    · exact .inr ⟨e, he, c, hce, hname⟩
  · rintro (⟨s, hs, hname⟩ | ⟨e, he, c, hce, hname⟩)
    · exact ⟨_, .inl ⟨s, hs, rfl⟩, hname⟩
    · exact ⟨c, .inr ⟨e, he, hce⟩, hname⟩

/-- One step of reachability: the names of a complete module are its own and those
    of the targets of its wildcards. -/
theorem mem_names_iff_step {tree : ModuleTree} (h : tree.WellFormed) {id : ModuleId}
    (hid : id < tree.size) (hc : Complete tree id) (name : String) :
    name ∈ (resolvedAt tree id).exports.names ↔
      Declares tree id name ∨
        ∃ target, Edge tree id target ∧ name ∈ (resolvedAt tree target).exports.names := by
  obtain ⟨effects, hr, -, hall, hback⟩ := hc.effects h hid
  rw [hr, mem_record_names, Declares, or_assoc]
  refine or_congr Iff.rfl ⟨?_, ?_⟩
  · rintro ⟨e, he, hname⟩
    obtain ⟨index, hindex⟩ := List.mem_iff_getElem?.1 he
    obtain ⟨d, hd, hclean⟩ := hback hindex
    have hmem : d ∈ (tree.get id).directives := List.mem_of_getElem? hd
    cases hclean with
    | explicit hform hnames _ =>
      simp only [hnames, List.mem_filterMap] at hname
      exact .inl ⟨d, hmem, _, hform, hname⟩
    | @taken target ht _ _ =>
      refine .inr ⟨target, ⟨d, hmem, ht⟩, ?_⟩
      simpa [ExportSet.names, Contribution.name] using hname
  · rintro (⟨d, hd, pins, hform, hpin⟩ | ⟨target, ⟨d, hd, ht⟩, hname⟩) <;>
      obtain ⟨index, hindex⟩ := List.mem_iff_getElem?.1 hd <;>
      obtain ⟨e, he, hclean⟩ := hall hindex <;>
      refine ⟨e, List.mem_of_getElem? he, ?_⟩
    · cases hclean with
      | explicit hform' hnames _ =>
        rw [hform] at hform'
        cases hform'
        rw [hnames, List.mem_filterMap]
        exact hpin
      | taken ht _ _ => simp [target?, hform] at ht
    · cases hclean with
      | explicit hform _ _ => simp [target?, hform] at ht
      | taken ht' _ _ =>
        rw [ht] at ht'
        cases ht'
        simpa [ExportSet.names, Contribution.name] using hname

/-! ## No circles -/

/-- The wildcards that lead on from a module come to an end, whichever are
    followed. -/
abbrev Grounded (tree : ModuleTree) : ModuleId → Prop := Acc fun b a => Edge tree a b

theorem EffectOf.target_done {tree : ModuleTree} {memo : Memo} {id : ModuleId} {index : Nat}
    {d : Directive} {e : Effect} {target : ModuleId} (h : EffectOf tree memo id index d e)
    (hgap : e.gap = none) (ht : target? tree id d = some target) :
    ∃ r, memo.get target = .done r ∧ r.exports.gaps = [] := by
  cases h with
  | ambiguous _ => cases hgap
  | explicit hform _ _ => simp [target?, hform] at ht
  | unresolved _ _ => cases hgap
  | cycle _ => cases hgap
  | @taken other r ht' _ hr =>
    rw [ht] at ht'
    cases ht'
    refine ⟨r, hr, ?_⟩
    unfold takeAll at hgap
    cases hgaps : r.exports.gaps with
    | nil => rfl
    | cons gap rest =>
      rw [hgaps] at hgap
      cases hgap

/-- A target is done before the module that takes it over, so complete modules are
    put down in an order in which no wildcard leads back. -/
theorem grounded_invariant (tree : ModuleTree) : Invariant tree fun memo =>
    ∀ (id : ModuleId) (r : Resolved), memo.get id = .done r → r.exports.gaps = [] →
      Grounded tree id where
  start := by
    intro id r hr
    rw [Memo.get_start] at hr
    cases hr
  opens := by
    intro memo id hid hmemo other r hr hgaps
    exact hmemo other r (Memo.get_done_of_set_open hr) hgaps
  pending := fun _ hmemo => hmemo
  records := by
    intro memo id effects hid heffects hmemo other r hr hgaps
    rcases Memo.get_done_of_set_done hr with ⟨rfl, rfl⟩ | hr
    · obtain ⟨-, hnone⟩ := record_gaps_eq_nil.1 hgaps
      refine ⟨_, fun target hedge => ?_⟩
      obtain ⟨d, hd, ht⟩ := hedge
      obtain ⟨index, hindex⟩ := List.mem_iff_getElem?.1 hd
      obtain ⟨e, he, heffect⟩ := heffects.of_directive hindex
      obtain ⟨r, hr, hr'⟩ := heffect.target_done (hnone e (List.mem_of_getElem? he)) ht
      exact hmemo target r hr hr'
    · exact hmemo other r hr hgaps

theorem Complete.grounded {tree : ModuleTree} (h : tree.WellFormed) {id : ModuleId}
    (hid : id < tree.size) (hc : Complete tree id) : Grounded tree id := by
  obtain ⟨r, hr⟩ := resolveAll_done h hid
  exact (grounded_invariant tree).resolveAll id r hr (resolvedAt_eq hr ▸ complete_iff.1 hc)

/-- A grounded module lies on no circle of wildcards. -/
theorem Grounded.not_circular {tree : ModuleTree} {id : ModuleId} (h : Grounded tree id) :
    ¬ Relation.TransGen (Edge tree) id id := by
  induction h with
  | intro id _ ih =>
    intro hcycle
    obtain ⟨next, hedge, hback⟩ := Relation.TransGen.head'_iff.1 hcycle
    exact ih next hedge (.tail' hback hedge)

/-! ## Main results -/

/-- **Completeness of export sets.** A complete export set has exactly the names
    that are declared or listed by some module reached along wildcards. -/
theorem mem_names_iff_reachable {tree : ModuleTree} (h : tree.Built) {id : ModuleId}
    (hid : id < tree.size) (hc : (resolvedAt tree id).exports.isComplete = true) (name : String) :
    name ∈ (resolvedAt tree id).exports.names ↔
      ∃ other, Relation.ReflTransGen (Edge tree) id other ∧ Declares tree other name := by
  have hwf := h.wellFormed
  constructor
  · intro hname
    have hground : Grounded tree id := Complete.grounded hwf hid hc
    induction hground with
    | intro id _ ih =>
      rcases (mem_names_iff_step hwf hid hc name).1 hname with hdecl | ⟨target, hedge, hname'⟩
      · exact ⟨id, .refl, hdecl⟩
      · obtain ⟨other, hreach, hdecl⟩ := ih target hedge (hedge.lt hwf hid)
          (Complete.edge hwf hid hc hedge).2 hname'
        exact ⟨other, hreach.head hedge, hdecl⟩
  · rintro ⟨other, hreach, hdecl⟩
    induction hreach using Relation.ReflTransGen.head_induction_on with
    | refl => exact (mem_names_iff_step hwf hid hc name).2 (.inl hdecl)
    | head hedge _ ih =>
      have hname := ih (hedge.lt hwf hid) (Complete.edge hwf hid hc hedge).2
      exact (mem_names_iff_step hwf hid hc name).2 (.inr ⟨_, hedge, hname⟩)

/-- Two modules pass on a third one and declare `z` each; a fourth one passes on
    both. -/
def diamond : ModuleTree :=
  .flat [
    ("a", [⟨"z", .function, "a", 1⟩], [.star ["super", "c"]]),
    ("b", [⟨"z", .constant, "b", 1⟩], [.star ["super", "c"]]),
    ("c", [⟨"x", .function, "c", 1⟩, ⟨"y", .trait, "c", 2⟩], []),
    ("top", [], [.star ["super", "a"], .star ["super", "b"]])]

theorem mem_names_iff_reachable_diamond :
    (resolvedAt diamond 4).exports.isComplete = true ∧
      "x" ∈ (resolvedAt diamond 4).exports.names ∧
      ∃ other, Relation.ReflTransGen (Edge diamond) 4 other ∧ Declares diamond other "x" :=
  have hc : (resolvedAt diamond 4).exports.isComplete = true := by decide +kernel
  have hx : "x" ∈ (resolvedAt diamond 4).exports.names := by decide +kernel
  ⟨hc, hx, (mem_names_iff_reachable (ModuleTree.built_flat _) (by decide +kernel) hc "x").1 hx⟩

/-- A module at which a gap arises. -/
def Faulty (tree : ModuleTree) (id : ModuleId) : Prop :=
  (tree.get id).scanFailed = true ∨
    ∃ status ∈ (resolvedAt tree id).plans,
      (∃ why, status = .ambiguous why) ∨ status = .unresolved ∨ status = .cycle

theorem mem_record_plans {tree : ModuleTree} {id : ModuleId} {effects : List Effect} {e : Effect}
    (he : e ∈ effects) (hplan : e.plan.isReplaced = false) :
    e.plan ∈ (record tree id effects).plans := by
  obtain ⟨index, hindex⟩ := List.mem_iff_getElem?.1 he
  apply List.mem_of_getElem? (i := index)
  rw [record, Draft.settle_plans]
  simp only [Draft.addEffects, ownDraft, List.nil_append, List.getElem?_map, hindex, Option.map_some]
  cases hp : e.plan <;> simp_all [Draft.plan, Status.isReplaced]

/-- A gap arises at its module or is taken over from the target of a wildcard. -/
theorem gap_cases {tree : ModuleTree} (h : tree.WellFormed) {id : ModuleId} (hid : id < tree.size)
    {gap : Gap} (hgap : gap ∈ (resolvedAt tree id).exports.gaps) :
    Faulty tree id ∨ ∃ target name inner, Edge tree id target ∧ gap = .inherited name inner ∧
      inner ∈ (resolvedAt tree target).exports.gaps := by
  obtain ⟨effects, heffects, hr⟩ := resolvedAt_record h hid
  rw [hr, record_gaps, List.mem_append, List.mem_filterMap] at hgap
  rcases hgap with hown | ⟨e, he, hgap⟩
  · refine .inl (.inl ?_)
    unfold ownDraft at hown
    cases hscan : (tree.get id).scanFailed with
    | true => rfl
    | false => simp [hscan] at hown
  · have hplan : e.plan.isReplaced = false → e.plan ∈ (resolvedAt tree id).plans := by
      rw [hr]
      exact mem_record_plans he
    obtain ⟨index, hindex⟩ := List.mem_iff_getElem?.1 he
    obtain ⟨d, hd, heffect⟩ := heffects.of_effect hindex
    cases heffect with
    | ambiguous _ => exact .inl (.inr ⟨_, hplan rfl, .inl ⟨_, rfl⟩⟩)
    | explicit _ _ _ => cases hgap
    | unresolved _ _ => exact .inl (.inr ⟨_, hplan rfl, .inr (.inl rfl)⟩)
    | cycle _ => exact .inl (.inr ⟨_, hplan rfl, .inr (.inr rfl)⟩)
    | @taken target r ht hne hr' =>
      refine .inr ⟨target, (tree.get target).qualifiedName, ?_⟩
      have hedge : Edge tree id target := ⟨d, List.mem_of_getElem? hd, ht⟩
      unfold takeAll at hgap
      cases hgaps : r.exports.gaps with
      | nil =>
        rw [hgaps] at hgap
        cases hgap
      | cons first rest =>
        rw [hgaps] at hgap
        cases hgap
        exact ⟨first, hedge, rfl, by rw [resolvedAt_eq hr', hgaps]; simp⟩

/-- A gap has its cause in a module that is reached along wildcards. An inherited
    gap is larger than the gap of the target that it is taken from, so the way to
    the cause ends. -/
theorem gap_reaches_fault {tree : ModuleTree} (h : tree.WellFormed) (gap : Gap) :
    ∀ {id : ModuleId}, id < tree.size → gap ∈ (resolvedAt tree id).exports.gaps →
      ∃ other, Reach tree id other ∧ Faulty tree other := by
  induction gap with
  | inherited name inner ih =>
    intro id hid hgap
    rcases gap_cases h hid hgap with hfault | ⟨target, _, _, hedge, heq, hinner⟩
    · exact ⟨id, .refl, hfault⟩
    · cases heq
      obtain ⟨other, hreach, hfault⟩ := ih (hedge.lt h hid) hinner
      exact ⟨other, hreach.head hedge, hfault⟩
  | unscanned _ | ambiguous _ | unresolved _ | cycle _ =>
    intro id hid hgap
    rcases gap_cases h hid hgap with hfault | ⟨_, _, _, _, heq, _⟩
    · exact ⟨id, .refl, hfault⟩
    · cases heq

end Reexport.Resolution
