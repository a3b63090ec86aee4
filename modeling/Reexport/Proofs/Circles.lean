import Reexport.Proofs.DirectiveGraph

/-!
# Reported circles are circles

A wildcard is called cyclic when its target is its own module or is under way. What is
under way leads, directive by directive, to the module that is being resolved, so the
directives lead back from the target. This does not depend on the order in which modules
are resolved.

Results:

* `Ready.step`: what a call needs, it hands on to the calls that it makes.
* `circular_answer`: no call puts down a circle that is none.
* `reported_cycle_real`: a wildcard that is called cyclic lies on a circle of directives,
  whatever order modules are resolved in.
-/

namespace Reexport.Resolution

/-- The memo after modules are resolved one after the other. -/
def resolveIn (tree : ModuleTree) (order : List ModuleId) : Memo :=
  (calls tree (depthBound tree)).answerAll (order.map .resolve) (.start tree.size)

/-- Whatever is on record as cyclic is a wildcard from whose target the directives lead back
    to its module. -/
def Circular (tree : ModuleTree) (memo : Memo) : Prop :=
  ∀ (id : ModuleId) (r : Resolved), memo.get id = .done r → ∀ index : Nat,
    r.plans[index]? = some .cycle →
      ∃ d target, (tree.get id).directives[index]? = some d ∧ target? tree id d = some target ∧
        Relation.ReflTransGen (Link tree) target id

/-! ## Calls that are ready to be made -/

/-- What a call needs: it can occur, there is room for all that it leads to, and what is
    under way leads to where it is made. -/
structure Ready (tree : ModuleTree) (depth : Nat) (r : Request) (memo : Memo) : Prop where
  valid : Valid tree r
  size : memo.progress.size = tree.size
  room_lt : room tree memo < depth
  led : Led tree r memo

theorem size_entered (r : Request) (memo : Memo) :
    (entered r memo).progress.size = memo.progress.size := by
  cases r <;> simp [entered]

section Ready

variable {tree : ModuleTree} (h : tree.WellFormed) {depth : Nat} {r : Request} {memo : Memo}

include h

/-- What a call needs, it hands on to the calls that it makes. -/
theorem Ready.step (hready : Ready tree (depth + 1) r memo) (hnew : isNew r memo = true)
    {before after : List Request} {r' : Request}
    (heq : requests tree (calls tree depth) r (entered r memo) = before ++ r' :: after) :
    Ready tree depth r' ((calls tree depth).answerAll before (entered r memo)) := by
  have hgrows := (calls_grow tree depth).all before (entered r memo)
  have hprompts : Prompts tree r r' := by
    have hmem : r' ∈ requests tree (calls tree depth) r (entered r memo) := by
      rw [heq]
      exact List.mem_append_right _ List.mem_cons_self
    exact requests_prompts hmem
  have hentered := room_entered_lt hready.valid hready.size hnew
  have hroom := room_le_of_grows tree hgrows
  have hlt := hready.room_lt
  exact ⟨hprompts.valid h hready.valid,
    hgrows.size.trans ((size_entered r memo).trans hready.size), by omega,
    hready.led.step hprompts hgrows⟩

omit h in
theorem ready_start (order : List ModuleId) {id : ModuleId} (hid : id < tree.size) :
    Ready tree (depthBound tree) (.resolve id) (resolveIn tree order) := by
  have hgrows := (calls_grow tree (depthBound tree)).all (order.map .resolve) (.start tree.size)
  have hroom := room_le_of_grows tree hgrows
  have hstart := room_start_lt tree
  refine ⟨hid, hgrows.size.trans (by simp [Memo.start]), Nat.lt_of_le_of_lt hroom hstart, ?_, ?_⟩
  · intro other hopen
    rw [resolveIn, hgrows.get_open_iff, Memo.get_start] at hopen
    cases hopen
  · intro key hkey
    rw [resolveIn, hgrows.pending] at hkey
    cases hkey

end Ready

/-! ## Calls keep records right -/

/-- What each of several calls keeps in its turn, all of them keep. -/
theorem answerAll_of_split {calls : Calls} {P : Memo → Prop} {rs : List Request} {memo : Memo}
    (hstep : ∀ before r after, rs = before ++ r :: after → P (calls.answerAll before memo) →
      P (calls.answer r (calls.answerAll before memo))) (hmemo : P memo) :
    P (calls.answerAll rs memo) := by
  induction rs generalizing memo with
  | nil => exact hmemo
  | cons r rest ih =>
    rw [Calls.answerAll_cons]
    refine ih (fun before r' after heq hbefore => ?_) (hstep [] r rest rfl hmemo)
    exact hstep (r :: before) r' after (by rw [heq]; rfl) hbefore

section Circular

variable {tree : ModuleTree} {memo : Memo}

theorem Circular.set_open (hmemo : Circular tree memo) (id : ModuleId) :
    Circular tree (memo.set id .open) :=
  fun other r hr => hmemo other r (Memo.get_done_of_set_open hr)

theorem Circular.entered (hmemo : Circular tree memo) (r : Request) :
    Circular tree (entered r memo) := by
  cases r with
  | resolve id => exact hmemo.set_open id
  | lookup user parent name => exact hmemo

theorem plan_eq_cycle_iff (draft : Draft) (index : Nat) (status : Status) :
    draft.plan index status = .cycle ↔ status = .cycle := by
  cases status <;> simp [Draft.plan]

variable (h : tree.WellFormed) {depth : Nat} {id : ModuleId}
  (hready : Ready tree (depth + 1) (.resolve id) memo) (hnew : isNew (.resolve id) memo = true)

include h hready hnew

/-- A wildcard that is found cyclic while its module is resolved has a target from which the
    directives lead back. -/
theorem cycle_leads_back {index : Nat} {d : Directive}
    (hd : (tree.get id).directives[index]? = some d) {e : Effect}
    (he : (effectsFrom tree (calls tree depth) id 0 (tree.get id).directives
      (entered (.resolve id) memo)).1[index]? = some e) (hcycle : e.plan = .cycle) :
    ∃ target, target? tree id d = some target ∧ Relation.ReflTransGen (Link tree) target id := by
  have hgrows := effectsFrom_grows tree (calls_grow tree depth) id 0
    ((tree.get id).directives.take index) (entered (.resolve id) memo)
  have hexpand := effectsFrom_getElem? tree (calls tree depth) id _ 0 (entered (.resolve id) memo) hd
  rw [he, Option.some.injEq, Nat.zero_add] at hexpand
  generalize (effectsFrom tree (calls tree depth) id 0 ((tree.get id).directives.take index)
    (entered (.resolve id) memo)).2 = later at hgrows hexpand
  subst hexpand
  unfold expand at hcycle
  cases hform : d.form with
  | ambiguous why => simp [hform] at hcycle
  | explicit pins => simp [hform] at hcycle
  | wildcard path star =>
    simp only [hform, expandWildcard] at hcycle
    cases ht : target? tree id d with
    | none => simp [ht] at hcycle
    | some target =>
      refine ⟨target, rfl, ?_⟩
      simp only [ht] at hcycle
      split_ifs at hcycle with hopen
      · rw [Bool.or_eq_true, beq_iff_eq, Memo.isOpen_iff] at hopen
        rcases hopen with rfl | hopen
        · exact .refl
        · exact hready.led.open_entered (hgrows.get_open_iff.1 hopen)
      · -- there is room to resolve the target, so it is done
        rw [Bool.or_eq_true, beq_iff_eq, Memo.isOpen_iff, not_or] at hopen
        have hlt := target?_lt tree h hready.valid ht
        have hentered := room_entered_lt hready.valid hready.size hnew
        have hroom := hready.room_lt
        obtain ⟨fewer, rfl⟩ : ∃ fewer, depth = fewer + 1 := ⟨depth - 1, by omega⟩
        obtain ⟨r, hr⟩ := calls_resolve_done tree fewer
          (by rw [hgrows.size, size_entered, hready.size]; exact hlt) hopen.2
        rw [Memo.done?_eq_some_iff.2 hr] at hcycle
        exact absurd hcycle (takeAll_plan tree index target r.exports).2

/-- The record of a module calls nothing cyclic that is not. -/
theorem circular_record (hmemo : Circular tree
    (effectsFrom tree (calls tree depth) id 0 (tree.get id).directives
      (entered (.resolve id) memo)).2) :
    Circular tree ((calls tree (depth + 1)).answer (.resolve id) memo) := by
  show Circular tree (resolveModule tree (calls tree depth) id memo)
  rw [resolveModule_eq, if_pos hnew]
  have heffects := effectsFrom_effectsOf tree (calls_grow tree depth) id
    (entered (.resolve id) memo)
  intro other r hr index hplan
  rcases Memo.get_done_of_set_done hr with ⟨heq, rfl⟩ | hr
  · subst heq
    rw [record_plans, Option.map_eq_some_iff] at hplan
    obtain ⟨e, he, hplan⟩ := hplan
    obtain ⟨d, hd, -⟩ := heffects.of_effect he
    obtain ⟨target, ht, hback⟩ := cycle_leads_back h hready hnew hd he
      ((plan_eq_cycle_iff _ _ _).1 hplan)
    exact ⟨d, target, hd, ht, hback⟩
  · exact hmemo other r hr index hplan

end Circular

/-- No call puts down a circle that is none. -/
theorem circular_answer {tree : ModuleTree} (h : tree.WellFormed) : ∀ {depth : Nat} {r : Request}
    {memo : Memo}, Ready tree depth r memo → Circular tree memo →
    Circular tree ((calls tree depth).answer r memo) := by
  intro depth
  induction depth with
  | zero => intro r memo hready; exact absurd hready.room_lt (Nat.not_lt_zero _)
  | succ depth ih =>
    intro r memo hready hmemo
    have hinner : isNew r memo = true → Circular tree ((calls tree depth).answerAll
        (requests tree (calls tree depth) r (entered r memo)) (entered r memo)) := by
      intro hnew
      refine answerAll_of_split (fun before r' after heq hbefore => ?_) (hmemo.entered r)
      exact ih (hready.step h hnew heq) hbefore
    cases r with
    | resolve id =>
      by_cases hnew : isNew (.resolve id) memo = true
      · refine circular_record h hready hnew ?_
        rw [effectsFrom_memo]
        exact hinner hnew
      · show Circular tree (resolveModule tree (calls tree depth) id memo)
        rw [resolveModule_eq, if_neg hnew]
        exact hmemo
    | lookup user parent name =>
      show Circular tree (lookup tree (calls tree depth) user parent name memo).2
      rw [lookup_memo]
      split_ifs with hnew
      · exact hinner hnew
      · exact hmemo

theorem circular_resolveIn {tree : ModuleTree} (h : tree.WellFormed) {order : List ModuleId}
    (horder : ∀ id ∈ order, id < tree.size) : Circular tree (resolveIn tree order) := by
  refine answerAll_of_split (fun before r after heq hbefore => ?_) fun id r hr => ?_
  · obtain ⟨ids, rest, rfl, rfl, hrest⟩ := List.map_eq_append_iff.1 heq
    obtain ⟨id, ids', rfl, rfl, -⟩ := List.map_eq_cons_iff.1 hrest
    exact circular_answer h (ready_start ids (horder id (by simp))) hbefore
  · rw [Memo.get_start] at hr
    cases hr

/-! ## Main result -/

/-- **A reported circle is real.** Modules may be resolved in any order. Wherever a
    directive is then on record as cyclic, it is a wildcard, and the directives lead from its
    target back to its module. So a module on no circle of directives has no cyclic wildcard.
    All of this holds of the resolution of the whole tree, which finishes every module. -/
theorem reported_cycle_real {tree : ModuleTree} (h : tree.Built) {id : ModuleId} :
    (∀ order : List ModuleId, (∀ other ∈ order, other < tree.size) →
      ∀ r, (resolveIn tree order).get id = .done r →
        (∀ index : Nat, r.plans[index]? = some .cycle →
          ∃ d target, (tree.get id).directives[index]? = some d ∧
            target? tree id d = some target ∧ Relation.ReflTransGen (Link tree) target id) ∧
        (¬ Relation.TransGen (Link tree) id id → Status.cycle ∉ r.plans)) ∧
    resolveAll tree = resolveIn tree tree.postOrder ∧
    (∀ other ∈ tree.postOrder, other < tree.size) ∧
    (id < tree.size → (resolveAll tree).get id = .done (resolvedAt tree id)) := by
  have hwf := h.wellFormed
  refine ⟨fun order horder r hr => ?_, resolveAll_eq tree, fun _ => hwf.postOrder_lt, fun hid => ?_⟩
  · have hcircular := circular_resolveIn hwf horder id r hr
    refine ⟨hcircular, fun hacyclic hmem => ?_⟩
    obtain ⟨index, hplan⟩ := List.mem_iff_getElem?.1 hmem
    obtain ⟨d, target, hd, ht, hback⟩ := hcircular index hplan
    exact hacyclic (.head' (.inl ⟨d, List.mem_of_getElem? hd, ht⟩) hback)
  · obtain ⟨r, hr⟩ := resolveAll_done hwf hid
    rw [hr, resolvedAt_eq hr]

/-- Two modules that lead to each other, one by a wildcard and one by a listed name, and a
    module that passes on the second. -/
def knot : ModuleTree :=
  .flat [
    ("a", [], [.star ["super", "c"]]),
    ("b", [], [.star ["super", "c"]]),
    ("c", [], [.list [⟨["super", "b"], "x", none⟩]])]

/-- Whether `a` or `c` is resolved first, the wildcard of `b` is called cyclic; it is on no
    circle of wildcards, but the name that `c` lists leads back. -/
theorem reported_cycle_real_knot :
    (∀ order ∈ [[1, 2, 3, 0], [3, 1, 2, 0]], ∃ r, (resolveIn knot order).get 2 = .done r ∧
      r.plans[0]? = some .cycle) ∧
    Relation.ReflTransGen (Link knot) 3 2 := by
  have hcycle : ∀ order ∈ [[1, 2, 3, 0], [3, 1, 2, 0]],
      ∃ r, (resolveIn knot order).get 2 = .done r ∧ r.plans[0]? = some .cycle := by
    intro order horder
    obtain rfl | rfl : order = [1, 2, 3, 0] ∨ order = [3, 1, 2, 0] := by simpa using horder
    all_goals exact ⟨_, rfl, by decide +kernel⟩
  obtain ⟨r, hr, hplan⟩ := hcycle [3, 1, 2, 0] (by simp)
  obtain ⟨d, target, hd, ht, hback⟩ := ((reported_cycle_real (ModuleTree.built_flat _)).1
    [3, 1, 2, 0] (by decide +kernel) r hr).1 0 hplan
  obtain rfl : Directive.star ["super", "c"] = d := Option.some.inj hd
  obtain rfl : 3 = target := by
    have htarget : target? knot 2 (.star ["super", "c"]) = some 3 := by decide +kernel
    exact Option.some.inj (htarget.symm.trans ht)
  exact ⟨hcycle, hback⟩

end Reexport.Resolution
