import Mathlib.Data.List.Basic
import Mathlib.Tactic.Common
import Reexport.Export

/-!
# Settled names

What the settlement of a draft exports. Every contributed name gets one entry, and
that entry is the one that its own contributions make.

Results:

* `settle_names`: the exported names are the contributed ones.
* `settle_find?`: the entry of a name depends on the contributions of that name
  only.
* `settle_find?_of_mem`: an export set has one entry for each name.
* `mem_listed_iff`: which names a replaced wildcard lists.
-/

namespace Reexport

/-! ## Sets of names -/

theorem mem_insertName (name other : String) (names : List String) :
    other ∈ insertName name names ↔ other = name ∨ other ∈ names := by
  induction names with
  | nil => simp [insertName]
  | cons head rest ih =>
    rw [insertName]
    split_ifs with hlt heq
    · simp
    · subst heq
      simp
    · rw [List.mem_cons, ih, List.mem_cons]
      tauto

theorem mem_sortedNames {name : String} {names : List String} :
    name ∈ sortedNames names ↔ name ∈ names := by
  unfold sortedNames
  induction names with
  | nil => simp
  | cons head rest ih => rw [List.foldr_cons, mem_insertName, ih, List.mem_cons]

/-! ## The entry of a name -/

theorem winners_subset {routes : List Contribution} {c : Contribution} (hc : c ∈ winners routes) :
    c ∈ routes := by
  unfold winners at hc
  simp only at hc
  split_ifs at hc
  · exact hc
  · exact List.mem_of_mem_filter hc

theorem winners_eq_nil_iff {routes : List Contribution} : winners routes = [] ↔ routes = [] := by
  unfold winners
  simp only
  split_ifs with h
  · rfl
  · constructor
    · intro h'
      rw [h'] at h
      exact absurd rfl h
    · rintro rfl
      exact absurd rfl h

/-- Where a name comes in directly, what wildcards bring in does not count. -/
theorem winners_of_direct {routes : List Contribution} {c : Contribution} (hc : c ∈ routes)
    (hdirect : c.via.isDirect = true) : winners routes = routes.filter (·.via.isDirect) := by
  unfold winners
  simp only
  rw [if_neg]
  intro hempty
  rw [List.isEmpty_iff, List.filter_eq_nil_iff] at hempty
  exact hempty c hc hdirect

theorem winners_of_no_direct {routes : List Contribution}
    (h : ∀ c ∈ routes, c.via.isDirect = false) : winners routes = routes := by
  unfold winners
  simp only
  rw [if_pos]
  rw [List.isEmpty_iff, List.filter_eq_nil_iff]
  intro c hc
  simp [h c hc]

theorem entryOf?_eq_none_iff {routes : List Contribution} : entryOf? routes = none ↔ routes = [] := by
  rw [entryOf?, Option.map_eq_none_iff, List.head?_eq_none_iff, winners_eq_nil_iff]

/-- An entry is a contribution that counts, marked if those that count disagree. -/
theorem entryOf?_eq_some {routes : List Contribution} {e : Entry} (h : entryOf? routes = some e) :
    ∃ c, (winners routes).head? = some c ∧ c ∈ routes ∧ e.symbol = c.entry.symbol ∧
      e.identity = c.entry.identity := by
  obtain ⟨c, hc, rfl⟩ := Option.map_eq_some_iff.1 h
  exact ⟨c, hc, winners_subset (List.mem_of_mem_head? hc), rfl, rfl⟩

/-- An entry that is made from another one: it is about the same thing, and it is marked
    if the other one is. -/
structure Entry.MadeFrom (e source : Entry) : Prop where
  symbol : e.symbol = source.symbol
  identity : e.identity = source.identity
  marked : source.ambiguous = true → e.ambiguous = true

theorem entryOf?_of_head {routes : List Contribution} {c : Contribution}
    (hc : (winners routes).head? = some c) :
    ∃ e, entryOf? routes = some e ∧ e.MadeFrom c.entry := by
  unfold entryOf?
  rw [hc]
  refine ⟨_, rfl, rfl, rfl, fun hmarked => ?_⟩
  rw [Bool.or_eq_true]
  exact .inr (List.any_eq_true.2 ⟨c, List.mem_of_mem_head? hc, hmarked⟩)

/-- If a name comes in directly, its entry is made from the first that does. -/
theorem entryOf?_of_direct {routes : List Contribution} {c : Contribution}
    (hc : routes.find? (·.via.isDirect) = some c) :
    ∃ e, entryOf? routes = some e ∧ e.MadeFrom c.entry := by
  apply entryOf?_of_head
  have hdirect : c.via.isDirect = true := by simpa using List.find?_some hc
  rw [winners_of_direct (List.mem_of_find?_eq_some hc) hdirect, List.head?_filter, hc]

theorem differ_eq_false {routes : List Contribution} (h : differ routes = false) :
    ∀ a ∈ routes, ∀ b ∈ routes, a.entry.identity = b.entry.identity := by
  cases routes with
  | nil => intro a ha; cases ha
  | cons c rest =>
    have hfirst : ∀ a ∈ c :: rest, a.entry.identity = c.entry.identity := by
      intro a ha
      rcases List.mem_cons.1 ha with rfl | ha
      · rfl
      · simpa using List.any_eq_false.1 h a ha
    intro a ha b hb
    rw [hfirst a ha, hfirst b hb]

theorem exists_of_differ {routes : List Contribution} (h : differ routes = true) :
    ∃ a ∈ routes, ∃ b ∈ routes, a.entry.identity ≠ b.entry.identity := by
  by_contra hno
  push Not at hno
  cases routes with
  | nil => cases h
  | cons c rest =>
    obtain ⟨d, hd, hne⟩ := List.any_eq_true.1 h
    exact absurd (hno d (List.mem_cons_of_mem c hd) c List.mem_cons_self) (by simpa using hne)

/-- A name is ambiguous if what counts disagrees or is ambiguous itself. -/
theorem isAmbiguous_eq (routes : List Contribution) :
    isAmbiguous routes = (differ (winners routes) || (winners routes).any (·.entry.ambiguous)) := by
  unfold isAmbiguous entryOf?
  cases h : winners routes with
  | nil => rfl
  | cons c rest => rfl

/-- Where a name comes in through wildcards only, the first contribution comes
    through the first wildcard. -/
theorem firstWildcard?_of_no_direct {routes : List Contribution} {c : Contribution}
    (h : ∀ c ∈ routes, c.via.isDirect = false) (hc : routes.head? = some c) :
    ∃ index, c.via = .wildcard index ∧ firstWildcard? routes = some index := by
  obtain ⟨rest, rfl⟩ := List.head?_eq_some_iff.1 hc
  have hvia := h c List.mem_cons_self
  cases hv : c.via with
  | own => simp [hv, Via.isDirect] at hvia
  | pinned index => simp [hv, Via.isDirect] at hvia
  | wildcard index => exact ⟨index, rfl, by simp [firstWildcard?, hv]⟩

namespace Draft

variable (draft : Draft) (m : Module)

theorem mem_routes {name : String} {c : Contribution} :
    c ∈ draft.routes name ↔ c ∈ draft.contributions ∧ c.name = name := by
  simp [routes]

theorem mem_names {name : String} :
    name ∈ draft.names ↔ ∃ c ∈ draft.contributions, c.name = name := by
  rw [names, mem_sortedNames, List.mem_map]

theorem routes_ne_nil {name : String} (h : name ∈ draft.names) : draft.routes name ≠ [] := by
  obtain ⟨c, hc, hname⟩ := draft.mem_names.1 h
  exact List.ne_nil_of_mem (draft.mem_routes.2 ⟨hc, hname⟩)

theorem entryOf?_routes_name {name : String} {e : Entry}
    (h : entryOf? (draft.routes name) = some e) : e.symbol.name = name := by
  obtain ⟨c, -, hc, hsymbol, -⟩ := entryOf?_eq_some h
  rw [hsymbol]
  exact (draft.mem_routes.1 hc).2

/-- The exported names are the contributed ones. -/
theorem settle_names : (draft.settle m).exports.names = draft.names := by
  have hall : ∀ (names : List String), (∀ name ∈ names, name ∈ draft.names) →
      (names.filterMap fun name => entryOf? (draft.routes name)).map (·.symbol.name) = names := by
    intro names
    induction names with
    | nil => intro _; rfl
    | cons name rest ih =>
      intro hmem
      obtain ⟨e, he⟩ := Option.ne_none_iff_exists'.1
        (mt entryOf?_eq_none_iff.1 (draft.routes_ne_nil (hmem name (by simp))))
      rw [List.filterMap_cons, he]
      simp only [List.map_cons, draft.entryOf?_routes_name he]
      rw [ih fun other hother => hmem other (List.mem_cons_of_mem _ hother)]
  exact hall draft.names fun _ h => h

/-- The entry of a name depends on the contributions of that name only. -/
theorem settle_find? (name : String) :
    (draft.settle m).exports.find? name = entryOf? (draft.routes name) := by
  have hall : ∀ (names : List String),
      (names.filterMap fun name => entryOf? (draft.routes name)).find?
        (fun e => e.symbol.name == name) =
      if name ∈ names then entryOf? (draft.routes name) else none := by
    intro names
    induction names with
    | nil => rfl
    | cons head rest ih =>
      cases he : entryOf? (draft.routes head) with
      | none =>
        rw [List.filterMap_cons, he]
        simp only
        rw [ih]
        by_cases hn : name = head
        · subst hn
          simp [he]
        · simp [hn]
      | some e =>
        rw [List.filterMap_cons, he]
        simp only [List.find?_cons, draft.entryOf?_routes_name he]
        by_cases hn : name = head
        · subst hn
          simp [he]
        · have hne : (head == name) = false := by simpa using fun h => hn h.symm
          simp only [hne, ih, List.mem_cons, hn, false_or]
  rw [show (draft.settle m).exports.find? name = _ from hall draft.names]
  split_ifs with h
  · rfl
  · symm
    rw [entryOf?_eq_none_iff, List.eq_nil_iff_forall_not_mem]
    intro c hc
    exact h (draft.mem_names.2 ⟨c, draft.mem_routes.1 hc⟩)

/-- An export set has one entry for each name. -/
theorem settle_find?_of_mem {e : Entry} (he : e ∈ (draft.settle m).exports.entries) :
    (draft.settle m).exports.find? e.symbol.name = some e := by
  obtain ⟨name, -, hname⟩ := List.mem_filterMap.1 he
  rw [draft.entryOf?_routes_name hname, settle_find?, hname]

theorem settle_plans (index : Nat) :
    (draft.settle m).plans[index]? = draft.plans[index]?.map (draft.plan index) := by
  simp [settle]

/-! ## Lists of replaced wildcards -/

theorem plan_isReplaced (index : Nat) (status : Status) :
    (draft.plan index status).isReplaced = status.isReplaced := by
  cases status <;> rfl

theorem mem_listed_iff {index : Nat} {name : String} :
    name ∈ draft.listed index ↔ firstWildcard? (draft.routes name) = some index ∧
      isAmbiguous (draft.routes name) = false ∧ ∀ c ∈ draft.routes name, c.via.isDirect = false := by
  unfold listed
  rw [List.mem_filter]
  simp only [Bool.and_eq_true, beq_iff_eq, Bool.not_eq_true', List.all_eq_true]
  constructor
  · rintro ⟨-, ⟨h1, h2⟩, h3⟩
    exact ⟨h1, h2, h3⟩
  · rintro ⟨h1, h2, h3⟩
    refine ⟨?_, ⟨h1, h2⟩, h3⟩
    obtain ⟨c, hc, -⟩ := List.exists_of_findSome?_eq_some h1
    exact draft.mem_names.2 ⟨c, draft.mem_routes.1 hc⟩

end Draft

end Reexport
