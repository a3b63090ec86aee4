import Reexport.Proofs.Drafts
import Reexport.Proofs.NameOrder

/-!
# Replacement lists

What becomes of the names that a replaced wildcard brought in. Each of them has one
fate: the wildcard lists it, withholds it, leaves it to a declaration or a listed
name of the module, or leaves it to a wildcard further up.

Results:

* `InOrder.firstWildcard?_le`: a name is listed by the wildcard that stands first.
* `exists_fate`, `fate_unique`: every name of the target has exactly one fate.
* `replacement_lists_exact`: what the two lists of a replaced wildcard hold.
-/

namespace Reexport

/-! ## The first wildcard -/

/-- Contributions in the order of the wildcards that they come through. -/
def InOrder (cs : List Contribution) : Prop :=
  cs.Pairwise fun a b => ∀ i j, a.via = .wildcard i → b.via = .wildcard j → i ≤ j

/-- No wildcard that brings in a name stands before the first one. -/
theorem InOrder.firstWildcard?_le {routes : List Contribution} (h : InOrder routes) {c : Contribution}
    (hc : c ∈ routes) {index : Nat} (hvia : c.via = .wildcard index) :
    ∃ first ≤ index, firstWildcard? routes = some first := by
  induction routes with
  | nil => cases hc
  | cons head rest ih =>
    obtain ⟨hhead, hrest⟩ := List.pairwise_cons.1 h
    cases hv : head.via with
    | wildcard first =>
      refine ⟨first, ?_, by simp [firstWildcard?, hv]⟩
      rcases List.mem_cons.1 hc with rfl | hc
      · rw [hv] at hvia
        cases hvia
        exact Nat.le_refl _
      · exact hhead c hc first index hv hvia
    | own | pinned _ =>
      have hne : c ≠ head := by
        rintro rfl
        simp [hv] at hvia
      obtain ⟨first, hle, hfirst⟩ := ih hrest ((List.mem_cons.1 hc).resolve_left hne)
      exact ⟨first, hle, by simpa [firstWildcard?, hv] using hfirst⟩

theorem exists_of_firstWildcard? {routes : List Contribution} {index : Nat}
    (h : firstWildcard? routes = some index) : ∃ c ∈ routes, c.via = .wildcard index := by
  obtain ⟨c, hc, hvia⟩ := List.exists_of_findSome?_eq_some h
  refine ⟨c, hc, ?_⟩
  cases hv : c.via <;> simp_all

theorem brings_iff {index : Nat} {routes : List Contribution} :
    brings index routes = true ↔ ∃ c ∈ routes, c.via = .wildcard index := by
  simp [brings]

theorem Draft.mem_withheld_iff (draft : Draft) {index : Nat} {name : String} :
    name ∈ draft.withheld index ↔
      brings index (draft.routes name) = true ∧ isAmbiguous (draft.routes name) = true := by
  unfold Draft.withheld
  rw [List.mem_filter]
  simp only [Bool.and_eq_true, and_iff_right_iff_imp]
  rintro ⟨hbrings, -⟩
  obtain ⟨c, hc, -⟩ := brings_iff.1 hbrings
  exact draft.mem_names.2 ⟨c, draft.mem_routes.1 hc⟩

namespace Resolution

theorem Replaced.not_cycle {tree : ModuleTree} {id : ModuleId} {index : Nat}
    (h : Replaced tree id index) : (resolvedAt tree id).plans[index]? ≠ some .cycle := by
  obtain ⟨names, withheld, hplan⟩ := h
  rw [hplan]
  simp

/-! ## Contributions of directives -/

theorem EffectOf.via {tree : ModuleTree} {memo : Memo} {id : ModuleId} {index : Nat} {d : Directive}
    {e : Effect} (h : EffectOf tree memo id index d e) :
    ∀ c ∈ e.contributions, c.via = .pinned index ∨ c.via = .wildcard index := by
  intro c hc
  cases h with
  | ambiguous _ => cases hc
  | unresolved _ _ => cases hc
  | cycle _ => cases hc
  | explicit _ _ hvia => exact .inl (hvia c hc)
  | taken _ _ _ =>
    rw [takeAll_contributions] at hc
    obtain ⟨entry, -, rfl⟩ := List.mem_map.1 hc
    exact .inr rfl

theorem EffectsOf.inOrder {tree : ModuleTree} {memo : Memo} {id : ModuleId} {effects : List Effect}
    (h : EffectsOf tree memo id effects) :
    InOrder ((ownDraft (tree.get id)).addEffects effects).contributions := by
  have hvia : ∀ {index : Nat} {e : Effect}, effects[index]? = some e → ∀ c ∈ e.contributions, ∀ i,
      c.via = .wildcard i → i = index := by
    intro index e he c hc i hi
    obtain ⟨d, -, heffect⟩ := h.of_effect he
    rcases heffect.via c hc with hv | hv <;> rw [hi] at hv <;> cases hv
    rfl
  refine List.pairwise_append.2 ⟨?_, List.pairwise_flatMap.2 ⟨?_, ?_⟩, ?_⟩
  · refine List.pairwise_of_forall_mem_list fun a ha b _ i j hi _ => ?_
    obtain ⟨s, -, rfl⟩ := List.mem_map.1 ha
    cases hi
  · intro e he
    obtain ⟨index, hindex⟩ := List.mem_iff_getElem?.1 he
    refine List.pairwise_of_forall_mem_list fun a ha b hb i j hi hj => ?_
    have hia := hvia hindex a ha i hi
    have hjb := hvia hindex b hb j hj
    omega
  · rw [List.pairwise_iff_getElem]
    intro m n hm hn hmn a ha b hb i j hi hj
    have hia := hvia (List.getElem?_eq_getElem hm) a ha i hi
    have hjb := hvia (List.getElem?_eq_getElem hn) b hb j hj
    omega
  · intro a ha b _ i j hi _
    obtain ⟨s, -, rfl⟩ := List.mem_map.1 ha
    cases hi

/-- A wildcard through which anything comes in is replaced or stays because its
    target is incomplete. -/
theorem EffectOf.plan_of_wildcard {tree : ModuleTree} {memo : Memo} {id : ModuleId} {index : Nat}
    {d : Directive} {e : Effect} (h : EffectOf tree memo id index d e) {c : Contribution}
    (hc : c ∈ e.contributions) (hvia : c.via = .wildcard index) :
    e.plan.isReplaced = true ∨ ∃ gap, e.plan = .incomplete gap := by
  cases h with
  | ambiguous _ => cases hc
  | unresolved _ _ => cases hc
  | cycle _ => cases hc
  | explicit _ _ hpinned => simp [hpinned c hc] at hvia
  | @taken target r _ _ _ =>
    unfold takeAll
    cases r.exports.gaps with
    | nil => exact .inl rfl
    | cons gap rest => exact .inr ⟨_, rfl⟩

/-- A wildcard that makes no circle brings in all that its target exports. -/
theorem EffectOf.brings_target {tree : ModuleTree} {id target : ModuleId} {index : Nat} {d : Directive}
    {e : Effect} (h : EffectOf tree (resolveAll tree) id index d e)
    (ht : target? tree id d = some target) (hne : e.plan ≠ .cycle) {entry : Entry}
    (hentry : entry ∈ (resolvedAt tree target).exports.entries) :
    ⟨entry, .wildcard index⟩ ∈ e.contributions := by
  cases h with
  | ambiguous hform => simp [target?, hform] at ht
  | explicit hform _ _ => simp [target?, hform] at ht
  | unresolved _ hnone => simp [ht] at hnone
  | cycle _ => exact absurd rfl hne
  | taken ht' _ hr =>
    rw [ht] at ht'
    cases ht'
    rw [takeAll_contributions]
    rw [resolvedAt_eq hr] at hentry
    exact List.mem_map.2 ⟨entry, hentry, rfl⟩

section Lists

variable {tree : ModuleTree} (h : tree.WellFormed) {id : ModuleId} (hid : id < tree.size)

include h hid

/-- The lists of a replaced wildcard are those of the module's draft. -/
theorem lists_eq {index : Nat} {names withheld : List String}
    (hplan : (resolvedAt tree id).plans[index]? = some (.replaced names withheld)) :
    names = (draftAt tree id).listed index ∧ withheld = (draftAt tree id).withheld index := by
  rw [(drafted_draftAt h hid).settled, Draft.settle_plans, Option.map_eq_some_iff] at hplan
  obtain ⟨status, -, hstatus⟩ := hplan
  cases status <;> simp [Draft.plan] at hstatus
  exact ⟨hstatus.1.symm, hstatus.2.symm⟩

theorem inOrder_routes (name : String) : InOrder ((draftAt tree id).routes name) :=
  List.Pairwise.filter _ (effectsOf_effectsAt h hid).inOrder

theorem routes_of_target {index : Nat} {d : Directive} {target : ModuleId}
    (hd : (tree.get id).directives[index]? = some d) (ht : target? tree id d = some target)
    (hne : (resolvedAt tree id).plans[index]? ≠ some .cycle) {name : String}
    (hname : name ∈ (resolvedAt tree target).exports.names) :
    ∃ c ∈ (draftAt tree id).routes name, c.via = .wildcard index := by
  obtain ⟨e, he, heffect⟩ := (effectsOf_effectsAt h hid).of_directive hd
  have hplan : e.plan ≠ .cycle := by
    intro hcycle
    rw [resolvedAt_eq_record h hid, record_plans, he, Option.map_some, hcycle] at hne
    exact hne rfl
  obtain ⟨entry, hentry, hentryName⟩ := List.mem_map.1 hname
  refine ⟨⟨entry, .wildcard index⟩, (Draft.mem_routes _).2 ⟨?_, hentryName⟩, rfl⟩
  exact mem_addEffects.2 (.inr ⟨index, e, he, heffect.brings_target ht hplan hentry⟩)

/-- A wildcard through which a name comes in is replaced or stays. -/
theorem plan_of_route {index : Nat} {name : String} {c : Contribution}
    (hc : c ∈ (draftAt tree id).routes name) (hvia : c.via = .wildcard index) :
    Replaced tree id index ∨ ∃ gap, (resolvedAt tree id).plans[index]? = some (.incomplete gap) := by
  have heffects := effectsOf_effectsAt h hid
  rcases mem_addEffects.1 ((Draft.mem_routes _).1 hc).1 with ⟨s, -, rfl⟩ | ⟨i, e, he, hce⟩
  · cases hvia
  · obtain ⟨d, -, heffect⟩ := heffects.of_effect he
    obtain rfl : i = index := by
      rcases heffect.via c hce with hv | hv <;> rw [hvia] at hv <;> cases hv
      rfl
    rcases heffect.plan_of_wildcard hce hvia with hrep | ⟨gap, hgap⟩
    · exact .inl ((replaced_iff_effect (resolvedAt_eq_record h hid) he).2 hrep)
    · refine .inr ⟨gap, ?_⟩
      rw [resolvedAt_eq_record h hid, record_plans, he, Option.map_some, hgap]
      rfl

end Lists

/-! ## Fates -/

/-- What becomes of a name that a replaced wildcard brought in. -/
inductive Fate where
  | listed
  | withheld
  /-- Declared or listed by the module itself. -/
  | direct
  /-- Left to a wildcard further up. -/
  | earlier
  deriving DecidableEq, Repr

/-- A wildcard is replaced by a list with the name. -/
def Lists (tree : ModuleTree) (id : ModuleId) (index : Nat) (name : String) : Prop :=
  ∃ names withheld, (resolvedAt tree id).plans[index]? = some (.replaced names withheld) ∧ name ∈ names

/-- A wildcard is replaced and holds the name back. -/
def Withholds (tree : ModuleTree) (id : ModuleId) (index : Nat) (name : String) : Prop :=
  ∃ names withheld, (resolvedAt tree id).plans[index]? = some (.replaced names withheld) ∧
    name ∈ withheld

/-- When a name that comes in through wildcard number `index` has a fate. -/
def HasFate (tree : ModuleTree) (id : ModuleId) (index : Nat) (name : String) : Fate → Prop
  | .listed => Lists tree id index name
  | .withheld => Withholds tree id index name
  | .direct => ¬ Ambiguous tree id name ∧ Declares tree id name
  | .earlier => ¬ Ambiguous tree id name ∧ ¬ Declares tree id name ∧
      ∃ j < index, ∃ d target, (tree.get id).directives[j]? = some d ∧
        target? tree id d = some target ∧ name ∈ (resolvedAt tree target).exports.names ∧
        (Lists tree id j name ∨ ∃ gap, (resolvedAt tree id).plans[j]? = some (.incomplete gap))

section Fates

variable {tree : ModuleTree} (h : tree.WellFormed) {id : ModuleId} (hid : id < tree.size)

include h hid

theorem lists_iff {index : Nat} {name : String} :
    Lists tree id index name ↔ Replaced tree id index ∧
      firstWildcard? ((draftAt tree id).routes name) = some index ∧
      ¬ Ambiguous tree id name ∧ ¬ Declares tree id name := by
  have hdrafted := drafted_draftAt h hid
  have hlisted : name ∈ (draftAt tree id).listed index ↔ _ := (draftAt tree id).mem_listed_iff
  rw [hdrafted.no_direct_iff, ← Bool.not_eq_true, ← hdrafted.ambiguous_iff] at hlisted
  rw [← hlisted]
  constructor
  · rintro ⟨names, withheld, hplan, hname⟩
    exact ⟨⟨names, withheld, hplan⟩, (lists_eq h hid hplan).1 ▸ hname⟩
  · rintro ⟨⟨names, withheld, hplan⟩, hname⟩
    exact ⟨names, withheld, hplan, (lists_eq h hid hplan).1 ▸ hname⟩

theorem withholds_iff {index : Nat} {name : String} :
    Withholds tree id index name ↔ Replaced tree id index ∧
      (∃ c ∈ (draftAt tree id).routes name, c.via = .wildcard index) ∧ Ambiguous tree id name := by
  have hwithheld : name ∈ (draftAt tree id).withheld index ↔ _ := (draftAt tree id).mem_withheld_iff
  rw [brings_iff, ← (drafted_draftAt h hid).ambiguous_iff] at hwithheld
  rw [← hwithheld]
  constructor
  · rintro ⟨names, withheld, hplan, hname⟩
    exact ⟨⟨names, withheld, hplan⟩, (lists_eq h hid hplan).2 ▸ hname⟩
  · rintro ⟨⟨names, withheld, hplan⟩, hname⟩
    exact ⟨names, withheld, hplan, (lists_eq h hid hplan).2 ▸ hname⟩

/-- Every name of the target of a replaced wildcard has a fate. -/
theorem exists_fate {index : Nat} {d : Directive} {target : ModuleId}
    (hd : (tree.get id).directives[index]? = some d) (ht : target? tree id d = some target)
    (hrep : Replaced tree id index) {name : String}
    (hname : name ∈ (resolvedAt tree target).exports.names) :
    ∃ fate, HasFate tree id index name fate := by
  obtain ⟨c, hc, hvia⟩ := routes_of_target h hid hd ht hrep.not_cycle hname
  by_cases hamb : Ambiguous tree id name
  · exact ⟨.withheld, (withholds_iff h hid).2 ⟨hrep, ⟨c, hc, hvia⟩, hamb⟩⟩
  by_cases hdecl : Declares tree id name
  · exact ⟨.direct, hamb, hdecl⟩
  obtain ⟨first, hle, hfirst⟩ := (inOrder_routes h hid name).firstWildcard?_le hc hvia
  rcases Nat.eq_or_lt_of_le hle with rfl | hlt
  · exact ⟨.listed, (lists_iff h hid).2 ⟨hrep, hfirst, hamb, hdecl⟩⟩
  -- the first wildcard that brings the name in stands further up
  obtain ⟨c', hc', hwild⟩ := exists_of_firstWildcard? hfirst
  obtain ⟨d', target', hd', ht', hentry⟩ := (drafted_draftAt h hid).directive_of_wildcard hc' hwild
  have hname' : name ∈ (resolvedAt tree target').exports.names :=
    List.mem_map.2 ⟨c'.entry, hentry, ((Draft.mem_routes _).1 hc').2⟩
  refine ⟨.earlier, hamb, hdecl, first, hlt, d', target', hd', ht', hname', ?_⟩
  rcases plan_of_route h hid hc' hwild with hrep' | hstays
  · exact .inl ((lists_iff h hid).2 ⟨hrep', hfirst, hamb, hdecl⟩)
  · exact .inr hstays

/-- What is left to a wildcard further up is not listed here. -/
theorem not_listed_of_earlier {index : Nat} {name : String} (hlisted : Lists tree id index name) :
    ¬ HasFate tree id index name .earlier := by
  rintro ⟨-, -, j, hlt, d, target, hd, ht, hname, hplan⟩
  obtain ⟨-, hfirst, -, -⟩ := (lists_iff h hid).1 hlisted
  have hcycle : (resolvedAt tree id).plans[j]? ≠ some .cycle := by
    rcases hplan with ⟨names, withheld, hplan, -⟩ | ⟨gap, hplan⟩ <;> rw [hplan] <;> simp
  obtain ⟨c, hc, hvia⟩ := routes_of_target h hid hd ht hcycle hname
  obtain ⟨first, hle, hfirst'⟩ := (inOrder_routes h hid name).firstWildcard?_le hc hvia
  rw [hfirst] at hfirst'
  cases hfirst'
  omega

theorem HasFate.marks {index : Nat} {name : String} {fate : Fate}
    (hf : HasFate tree id index name fate) :
    (fate = .withheld ↔ Ambiguous tree id name) ∧
      (fate = .direct ↔ ¬ Ambiguous tree id name ∧ Declares tree id name) := by
  cases fate with
  | listed =>
    obtain ⟨-, -, hamb, hdecl⟩ := (lists_iff h hid).1 hf
    simp [hamb, hdecl]
  | withheld =>
    obtain ⟨-, -, hamb⟩ := (withholds_iff h hid).1 hf
    simp [hamb]
  | direct => simp [hf.1, hf.2]
  | earlier => simp [hf.1, hf.2.1]

/-- A name has one fate. -/
theorem fate_unique {index : Nat} {name : String} {a b : Fate} (ha : HasFate tree id index name a)
    (hb : HasFate tree id index name b) : a = b := by
  obtain ⟨hwa, hda⟩ := ha.marks h hid
  obtain ⟨hwb, hdb⟩ := hb.marks h hid
  have hwithheld : a = .withheld ↔ b = .withheld := hwa.trans hwb.symm
  have hdirect : a = .direct ↔ b = .direct := hda.trans hdb.symm
  have hab : ¬ (a = .listed ∧ b = .earlier) := by
    rintro ⟨rfl, rfl⟩
    exact not_listed_of_earlier h hid ha hb
  have hba : ¬ (b = .listed ∧ a = .earlier) := by
    rintro ⟨rfl, rfl⟩
    exact not_listed_of_earlier h hid hb ha
  cases a <;> cases b <;> simp_all

/-- A name that is not ambiguous in the module is not ambiguous in the target that it
    is listed from. -/
theorem not_ambiguous_target {index : Nat} {d : Directive} {target : ModuleId} {name : String}
    (hd : (tree.get id).directives[index]? = some d) (ht : target? tree id d = some target)
    (hlists : Lists tree id index name) :
    name ∈ (resolvedAt tree target).exports.names ∧ ¬ Ambiguous tree target name := by
  have hdrafted := drafted_draftAt h hid
  obtain ⟨-, hfirst, hamb, hdecl⟩ := (lists_iff h hid).1 hlists
  obtain ⟨c, hc, hvia⟩ := exists_of_firstWildcard? hfirst
  obtain ⟨d', target', hd', ht', hentry⟩ := hdrafted.directive_of_wildcard hc hvia
  rw [hd] at hd'
  cases hd'
  rw [ht] at ht'
  cases ht'
  have hname : c.entry.symbol.name = name := ((Draft.mem_routes _).1 hc).2
  refine ⟨List.mem_map.2 ⟨c.entry, hentry, hname⟩, ?_⟩
  rintro ⟨e, he, heamb⟩
  rw [← hname, find?_of_mem h (target?_lt tree h hid ht) hentry] at he
  cases he
  exact hamb (hdrafted.ambiguous_of_route hdecl hc heamb)

/-- A withheld name comes from the target. -/
theorem mem_target_of_withholds {index : Nat} {d : Directive} {target : ModuleId} {name : String}
    (hd : (tree.get id).directives[index]? = some d) (ht : target? tree id d = some target)
    (hwithholds : Withholds tree id index name) : name ∈ (resolvedAt tree target).exports.names := by
  obtain ⟨-, ⟨c, hc, hvia⟩, -⟩ := (withholds_iff h hid).1 hwithholds
  obtain ⟨d', target', hd', ht', hentry⟩ := (drafted_draftAt h hid).directive_of_wildcard hc hvia
  rw [hd] at hd'
  cases hd'
  rw [ht] at ht'
  cases ht'
  exact List.mem_map.2 ⟨c.entry, hentry, ((Draft.mem_routes _).1 hc).2⟩

end Fates

/-! ## Main result -/

/-- **Replacement lists are exact.** Every name that the target of a replaced wildcard
    exports has exactly one fate. Only such names are listed or withheld. A listed
    name is ambiguous neither in the target nor in the module and is listed by no other
    wildcard; a withheld name is ambiguous in the module and is listed by none. Both
    lists are strictly increasing in byte order. -/
theorem replacement_lists_exact {tree : ModuleTree} (h : tree.Built) {id : ModuleId}
    (hid : id < tree.size) {index : Nat} {d : Directive} {target : ModuleId}
    (hd : (tree.get id).directives[index]? = some d) (ht : target? tree id d = some target)
    {names withheld : List String}
    (hplan : (resolvedAt tree id).plans[index]? = some (.replaced names withheld)) :
    (∀ name ∈ (resolvedAt tree target).exports.names, ∃! fate, HasFate tree id index name fate) ∧
    (∀ name ∈ names, name ∈ (resolvedAt tree target).exports.names ∧ ¬ Ambiguous tree target name ∧
      ¬ Ambiguous tree id name ∧ ∀ other, Lists tree id other name → other = index) ∧
    (∀ name ∈ withheld, name ∈ (resolvedAt tree target).exports.names ∧ Ambiguous tree id name ∧
      ∀ other, ¬ Lists tree id other name) ∧
    names.Nodup ∧ names.Pairwise (fun a b => bytes a < bytes b) ∧
    withheld.Pairwise (fun a b => bytes a < bytes b) := by
  have hwf := h.wellFormed
  obtain ⟨hnames, hwithheld⟩ := lists_eq hwf hid hplan
  refine ⟨fun name hname => ?_, fun name hname => ?_, fun name hname => ?_, ?_, ?_, ?_⟩
  · obtain ⟨fate, hfate⟩ := exists_fate hwf hid hd ht ⟨names, withheld, hplan⟩ hname
    exact ⟨fate, hfate, fun other hother => fate_unique hwf hid hother hfate⟩
  · have hlists : Lists tree id index name := ⟨names, withheld, hplan, hname⟩
    obtain ⟨hmem, hamb⟩ := not_ambiguous_target hwf hid hd ht hlists
    obtain ⟨-, hfirst, hamb', -⟩ := (lists_iff hwf hid).1 hlists
    refine ⟨hmem, hamb, hamb', fun other hother => ?_⟩
    obtain ⟨-, hfirst', -⟩ := (lists_iff hwf hid).1 hother
    exact Option.some.inj (hfirst'.symm.trans hfirst)
  · have hwithholds : Withholds tree id index name := ⟨names, withheld, hplan, hname⟩
    obtain ⟨-, -, hamb⟩ := (withholds_iff hwf hid).1 hwithholds
    refine ⟨mem_target_of_withholds hwf hid hd ht hwithholds, hamb, fun other hother => ?_⟩
    exact ((lists_iff hwf hid).1 hother).2.2.1 hamb
  · rw [hnames]
    exact (sortedNames_nodup _).sublist List.filter_sublist
  · rw [hnames]
    exact sortedNames_bytes List.filter_sublist
  · rw [hwithheld]
    exact sortedNames_bytes List.filter_sublist

/-- A module with wildcards that overlap. Module `b` passes on `a` and has its own `z`
    and `w`; module `g` lists `k` and has a wildcard that leads nowhere. -/
def overlap : ModuleTree :=
  .flat [
    ("a", [⟨"k", .function, "a", 1⟩, ⟨"x", .function, "a", 2⟩, ⟨"y", .trait, "a", 3⟩,
      ⟨"z", .function, "a", 4⟩], []),
    ("b", [⟨"w", .constant, "b", 1⟩, ⟨"z", .constant, "b", 2⟩], [.star ["super", "a"]]),
    ("g", [], [.star ["gone"], .list [⟨["super", "a"], "k", none⟩]]),
    ("top", [⟨"y", .function, "top", 1⟩],
      [.star ["super", "g"], .star ["super", "a"], .star ["super", "b"]])]

theorem replacement_lists_exact_overlap :
    (resolvedAt overlap 4).plans[2]? = some (.replaced ["w"] ["z"]) ∧
      (∃! fate, HasFate overlap 4 2 "k" fate) ∧ (∃! fate, HasFate overlap 4 2 "x" fate) ∧
      ¬ Ambiguous overlap 2 "w" ∧ Ambiguous overlap 4 "z" ∧ ¬ Lists overlap 4 1 "z" := by
  have hplan : (resolvedAt overlap 4).plans[2]? = some (.replaced ["w"] ["z"]) := by decide +kernel
  have htarget : target? overlap 4 (.star ["super", "b"]) = some 2 := by decide +kernel
  obtain ⟨hfate, hlisted, hwithheld, -⟩ := replacement_lists_exact (ModuleTree.built_flat _)
    (show 4 < overlap.size by decide +kernel) rfl htarget hplan
  exact ⟨hplan, hfate "k" (by decide +kernel), hfate "x" (by decide +kernel),
    (hlisted "w" (by simp)).2.1, (hwithheld "z" (by simp)).2.1, (hwithheld "z" (by simp)).2.2 1⟩

end Resolution

end Reexport
