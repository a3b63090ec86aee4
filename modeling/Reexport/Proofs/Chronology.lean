import Reexport.Proofs.Drafts

/-!
# The order of calls

Calls are made one after the other, and some in the course of others. Of two calls one
comes first, and what was known when it was entered is known when the other one is
made. So a module is opened by one call only, and that call is still to come as long
as the module has not been visited.

Results:

* `trace_order`: of two calls one precedes the other.
* `Visit.Opens.unique`: a module is opened once.
* `Visit.Opens.later`: as long as a module has not been visited, its opening lies ahead.
* `Visit.inCourse`: the calls that a call makes are calls of the resolution.
-/

namespace Reexport.Resolution

/-! ## Calls in the course of calls -/

theorem visits_trans {tree : ModuleTree} {w : Visit} :
    ∀ {depth : Nat} {r : Request} {memo : Memo}, w ∈ visits tree depth r memo →
      ∀ u ∈ visits tree (w.depth + 1) w.request w.memo, u ∈ visits tree depth r memo := by
  intro depth
  induction depth with
  | zero => intro r memo hw; cases hw
  | succ depth ih =>
    intro r memo hw u hu
    rw [visits, List.mem_cons] at hw
    rcases hw with rfl | hw
    · exact hu
    · rw [visits]
      split_ifs at hw ⊢ with hnew
      · obtain ⟨before, r', after, heq, hr'⟩ := mem_visitsAll.1 hw
        exact List.mem_cons_of_mem _ (mem_visitsAll.2 ⟨before, r', after, heq, ih hr' u hu⟩)
      · cases hw

/-- Calls one after the other belong to the resolution, with all that they lead to. -/
def InCourse (tree : ModuleTree) (depth : Nat) (rs : List Request) (memo : Memo) : Prop :=
  ∀ v ∈ visitsAll (calls tree depth) (visits tree depth) rs memo, v ∈ trace tree

namespace InCourse

variable {tree : ModuleTree} {depth : Nat} {memo : Memo}

theorem cons_iff {r : Request} {rest : List Request} :
    InCourse tree depth (r :: rest) memo ↔
      InCourse tree depth [r] memo ∧ InCourse tree depth rest ((calls tree depth).answer r memo) := by
  simp [InCourse, visitsAll, or_imp, forall_and]

theorem append_iff {first second : List Request} :
    InCourse tree depth (first ++ second) memo ↔ InCourse tree depth first memo ∧
      InCourse tree depth second ((calls tree depth).answerAll first memo) := by
  induction first generalizing memo with
  | nil => simp [InCourse, visitsAll]
  | cons r rest ih =>
    rw [List.cons_append, cons_iff, ih, ← and_assoc, ← cons_iff]
    rfl

/-- A call that belongs to the resolution is one of its visits. -/
theorem head {r : Request} {rest : List Request} (h : InCourse tree (depth + 1) (r :: rest) memo) :
    ⟨depth, r, memo⟩ ∈ trace tree :=
  h _ (List.mem_append_left _ List.mem_cons_self)

end InCourse

/-- The calls that a call makes belong to the resolution. -/
theorem Visit.inCourse {tree : ModuleTree} {v : Visit} (hv : v ∈ trace tree)
    (hnew : isNew v.request v.memo = true) :
    InCourse tree v.depth (requests tree (calls tree v.depth) v.request (entered v.request v.memo))
      (entered v.request v.memo) := by
  intro u hu
  obtain ⟨before, r, after, heq, hr⟩ := mem_visitsAll.1 hv
  refine mem_visitsAll.2 ⟨before, r, after, heq, visits_trans hr u ?_⟩
  rw [visits, if_pos hnew]
  exact List.mem_cons_of_mem _ hu

/-! ## The order of calls -/

/-- One call is made before another one: what is known when the first is made, and once
    it is entered, is known when the second is made. -/
structure Visit.Precedes (v w : Visit) : Prop where
  later : Later v.memo w.memo
  entered : isNew v.request v.memo = true → Later (entered v.request v.memo) w.memo

section Order

variable {tree : ModuleTree} {v w : Visit} {depth : Nat} {r : Request} {memo : Memo}

theorem later_of_visit (hv : v ∈ visits tree depth r memo) : Later memo v.memo := by
  refine visit_of_step (P := fun _ later => Later memo later) ?_ (.refl memo) hv
  intro depth r later before r' after hlater hnew _
  exact (hlater.trans (.entered hnew)).trans (.of_grows ((calls_grow tree depth).all before _))

theorem later_of_visitsAll {rs : List Request}
    (hv : v ∈ visitsAll (calls tree depth) (visits tree depth) rs memo) : Later memo v.memo := by
  obtain ⟨before, r, after, -, hr⟩ := mem_visitsAll.1 hv
  exact (Later.of_grows ((calls_grow tree depth).all before memo)).trans (later_of_visit hr)

/-- A call precedes all that are made after it is left. -/
theorem Visit.precedes_of_after (h : Later (v.after tree) w.memo) : v.Precedes w := by
  refine ⟨(Later.of_grows (calls_grow tree _ v.request v.memo)).trans h, fun hnew => ?_⟩
  have hcalls := Later.of_grows ((calls_grow tree v.depth).all
    (requests tree (calls tree v.depth) v.request (entered v.request v.memo))
    (entered v.request v.memo))
  exact (hcalls.trans (later_answer tree v.depth hnew)).trans h

theorem visitsAll_pairwise
    (hvisits : ∀ r memo, (visits tree depth r memo).Pairwise Visit.Precedes) :
    ∀ (rs : List Request) (memo : Memo),
      (visitsAll (calls tree depth) (visits tree depth) rs memo).Pairwise Visit.Precedes := by
  intro rs
  induction rs with
  | nil => intro memo; exact List.Pairwise.nil
  | cons r rest ih =>
    intro memo
    rw [visitsAll, List.pairwise_append]
    refine ⟨hvisits r memo, ih _, fun v hv w hw => ?_⟩
    exact Visit.precedes_of_after ((later_of_mem_visits hv).trans (later_of_visitsAll hw))

theorem visits_pairwise (tree : ModuleTree) : ∀ (depth : Nat) (r : Request) (memo : Memo),
    (visits tree depth r memo).Pairwise Visit.Precedes := by
  intro depth
  induction depth with
  | zero => intro r memo; exact List.Pairwise.nil
  | succ depth ih =>
    intro r memo
    rw [visits]
    split_ifs with hnew
    · refine List.Pairwise.cons (fun w hw => ?_) (visitsAll_pairwise ih _ _)
      have hlater := later_of_visitsAll hw
      exact ⟨(Later.entered hnew).trans hlater, fun _ => hlater⟩
    · exact List.pairwise_singleton _ _

/-- Of two calls one precedes the other. -/
theorem trace_order (hv : v ∈ trace tree) (hw : w ∈ trace tree) :
    v = w ∨ v.Precedes w ∨ w.Precedes v := by
  have hpairwise : (trace tree).Pairwise Visit.Precedes :=
    visitsAll_pairwise (visits_pairwise tree _) _ _
  rw [List.pairwise_iff_getElem] at hpairwise
  obtain ⟨i, hi, rfl⟩ := List.getElem_of_mem hv
  obtain ⟨j, hj, rfl⟩ := List.getElem_of_mem hw
  rcases Nat.lt_trichotomy i j with hlt | rfl | hgt
  · exact .inr (.inl (hpairwise i j hi hj hlt))
  · exact .inl rfl
  · exact .inr (.inr (hpairwise j i hj hi hgt))

end Order

/-! ## The opening of a module -/

section Opening

variable {tree : ModuleTree} (h : tree.WellFormed) {v w : Visit} (hv : v ∈ trace tree)
  (hw : w ∈ trace tree) {id : ModuleId} (hid : id < tree.size)

include h hw hid

/-- What a call opens has been visited in all later calls. -/
theorem Visit.Opens.visited (hopens : w.Opens id) (hprecedes : w.Precedes v) :
    v.memo.get id ≠ .unvisited := by
  intro hget
  have hopen := (hprecedes.entered hopens.isNew).visited hget
  rw [hopens.1, entered, Memo.get_set_self .open ((Visit.fits h hw).size ▸ hid)] at hopen
  cases hopen

include hv

/-- As long as a module has not been visited, its opening lies ahead. -/
theorem Visit.Opens.later (hopens : w.Opens id) (hun : v.memo.get id = .unvisited) :
    Later v.memo w.memo := by
  rcases trace_order hv hw with rfl | hprecedes | hprecedes
  · exact .refl _
  · exact hprecedes.later
  · exact absurd hun (hopens.visited h hw hid hprecedes)

/-- A module is opened once. -/
theorem Visit.Opens.unique (hopens : v.Opens id) (hopens' : w.Opens id) : v = w := by
  rcases trace_order hv hw with rfl | hprecedes | hprecedes
  · rfl
  · exact absurd hopens'.2 (hopens.visited h hv hid hprecedes)
  · exact absurd hopens.2 (hopens'.visited h hw hid hprecedes)

end Opening

/-- The effects of a module's directives are those found when it is opened. -/
theorem effectsAt_of_opens {tree : ModuleTree} (h : tree.WellFormed) {v : Visit} (hv : v ∈ trace tree)
    {id : ModuleId} (hid : id < tree.size) (hopens : v.Opens id) :
    effectsAt tree id = v.effects tree id := by
  obtain ⟨w, hw, hopens', heq⟩ := effectsAt_eq h hid
  rw [heq, hopens.unique h hv hw hid hopens']

/-- What is on record when a call is made is on record in the end. -/
theorem Visit.keeps_memo {tree : ModuleTree} {v : Visit} (hv : v ∈ trace tree) :
    Keeps v.memo (resolveAll tree) :=
  (Keeps.of_grows (calls_grow tree _ v.request v.memo)).trans (Visit.keeps_resolveAll hv)

theorem Visit.resolvedAt_of_done {tree : ModuleTree} {v : Visit} (hv : v ∈ trace tree) {id : ModuleId}
    {r : Resolved} (hr : v.memo.get id = .done r) : resolvedAt tree id = r :=
  Resolution.resolvedAt_eq (Visit.keeps_memo hv id r hr)

end Reexport.Resolution
