import Reexport.Proofs.Requests
import Reexport.Proofs.Settlement
import Reexport.Proofs.TreeShape

/-!
# What is on record about a module

A resolution changes a memo in three ways only: it opens a module, it notes which
names are being looked up, and it puts down the record of an open module. The
record is settled from the effects of the module's directives, and a wildcard whose
target is taken over finds the target's record in the memo. A property that these
three steps keep holds of the whole resolution (`Invariant.resolveAll`).

Results:

* `resolveAll_done`: in the end every module is done.
* `recorded_resolveAll`: every record is the settlement of effects that agree with
  the other records.
-/

namespace Reexport.Resolution

/-! ## Effects -/

/-- The effect of directive number `index` of module `id`, when the records of a
    memo are known. -/
inductive EffectOf (tree : ModuleTree) (memo : Memo) (id : ModuleId) (index : Nat) (d : Directive) :
    Effect → Prop
  | ambiguous {why : Ambiguity} : d.form = .ambiguous why →
      EffectOf tree memo id index d ⟨[], some (.ambiguous d.line), .ambiguous why⟩
  | explicit {pins : List Pin} {cs : List Contribution} : d.form = .explicit pins →
      cs.map (·.name) = pins.filterMap (·.exportedName) → (∀ c ∈ cs, c.via = .pinned index) →
      EffectOf tree memo id index d ⟨cs, none, .pinned (cs.map (·.name))⟩
  | unresolved : d.isWildcard = true → target? tree id d = none →
      EffectOf tree memo id index d ⟨[], some (.unresolved d.tree), .unresolved⟩
  | cycle {target : ModuleId} : target? tree id d = some target →
      EffectOf tree memo id index d ⟨[], some (.cycle d.tree), .cycle⟩
  | taken {target : ModuleId} {r : Resolved} : target? tree id d = some target → target ≠ id →
      memo.get target = .done r → EffectOf tree memo id index d (takeAll tree index target r.exports)

/-- A list of effects has one for each directive of a module. -/
structure EffectsOf (tree : ModuleTree) (memo : Memo) (id : ModuleId) (effects : List Effect) :
    Prop where
  length : effects.length = (tree.get id).directives.length
  effect : ∀ {index d e}, (tree.get id).directives[index]? = some d → effects[index]? = some e →
    EffectOf tree memo id index d e

/-- Records are never changed. -/
def Keeps (a b : Memo) : Prop :=
  ∀ (id : ModuleId) (r : Resolved), a.get id = .done r → b.get id = .done r

theorem Keeps.of_grows {a b : Memo} (h : a.Grows b) : Keeps a b := fun _ _ hr => h.get_done hr

theorem Keeps.trans {a b c : Memo} (hab : Keeps a b) (hbc : Keeps b c) : Keeps a c :=
  fun id r hr => hbc id r (hab id r hr)

/-- Setting a module that is not done loses no record. -/
theorem keeps_set {memo : Memo} {id : ModuleId} (p : Progress) (h : ∀ r, memo.get id ≠ .done r) :
    Keeps memo (memo.set id p) := by
  intro other r hr
  have hne : id ≠ other := by
    rintro rfl
    exact h r hr
  rw [Memo.get_set_ne _ hne, hr]

theorem EffectOf.mono {tree : ModuleTree} {a b : Memo} {id : ModuleId} {index : Nat} {d : Directive}
    {e : Effect} (hab : Keeps a b) (h : EffectOf tree a id index d e) : EffectOf tree b id index d e := by
  cases h with
  | ambiguous hform => exact .ambiguous hform
  | explicit hform hnames hvia => exact .explicit hform hnames hvia
  | unresolved hform ht => exact .unresolved hform ht
  | cycle ht => exact .cycle ht
  | taken ht hne hr => exact .taken ht hne (hab _ _ hr)

theorem EffectsOf.mono {tree : ModuleTree} {a b : Memo} {id : ModuleId} {effects : List Effect}
    (hab : Keeps a b) (h : EffectsOf tree a id effects) : EffectsOf tree b id effects :=
  ⟨h.length, fun hd he => (h.effect hd he).mono hab⟩

section Effects

variable (tree : ModuleTree) (inner : Calls)

/-- A listed name contributes the name that it makes visible. -/
theorem pinAs_name (id : ModuleId) (d : Directive) (pin : Pin) (name : String) (memo : Memo) :
    (pinAs tree inner id d pin name memo).1.symbol.name = name := by
  unfold pinAs
  simp only
  split_ifs
  · rfl
  · split
    · rfl
    · split
      · rfl
      · split <;> rfl

theorem pin?_name (id : ModuleId) (d : Directive) (pin : Pin) (memo : Memo) :
    (pin? tree inner id d pin memo).1.map (·.symbol.name) = pin.exportedName := by
  unfold pin?
  cases pin.exportedName with
  | none => rfl
  | some name => simp [pinAs_name]

theorem expandPins_names (id : ModuleId) (index : Nat) (d : Directive) :
    ∀ (pins : List Pin) (memo : Memo),
      (expandPins tree inner id index d pins memo).1.map (·.name) =
        pins.filterMap (·.exportedName) := by
  intro pins
  induction pins with
  | nil => intro memo; rfl
  | cons pin rest ih =>
    intro memo
    have hname := pin?_name tree inner id d pin memo
    rw [List.filterMap_cons, ← hname]
    cases hpin : (pin? tree inner id d pin memo).1 with
    | none => simp [expandPins, hpin, ih]
    | some entry =>
      simp only [expandPins, hpin, Option.toList_some, List.map_cons, List.map_nil,
        ih, List.singleton_append, Option.map_some]
      rfl

theorem expandPins_via (id : ModuleId) (index : Nat) (d : Directive) :
    ∀ (pins : List Pin) (memo : Memo), ∀ c ∈ (expandPins tree inner id index d pins memo).1,
      c.via = .pinned index := by
  intro pins
  induction pins with
  | nil => intro memo c hc; cases hc
  | cons pin rest ih =>
    intro memo c hc
    simp only [expandPins, List.mem_append, List.mem_map] at hc
    rcases hc with ⟨entry, -, rfl⟩ | hc
    · rfl
    · exact ih _ c hc

theorem form_of_isWildcard {d : Directive} (h : d.isWildcard = true) :
    ∃ path star, d.form = .wildcard path star := by
  unfold Directive.isWildcard at h
  cases hform : d.form with
  | wildcard path star => exact ⟨path, star, rfl⟩
  | explicit pins => simp [hform] at h
  | ambiguous why => simp [hform] at h

theorem target?_eq_none {id : ModuleId} {d : Directive} (h : d.isWildcard = false) :
    target? tree id d = none := by
  unfold Directive.isWildcard at h
  unfold target?
  cases hform : d.form <;> simp_all

theorem isWildcard_of_target? {id target : ModuleId} {d : Directive}
    (ht : target? tree id d = some target) : d.isWildcard = true := by
  by_contra hwild
  rw [target?_eq_none tree (by simpa using hwild)] at ht
  cases ht

theorem expandWildcard_effect (id : ModuleId) (index : Nat) {d : Directive} (memo : Memo)
    (hd : d.isWildcard = true) :
    EffectOf tree (expandWildcard tree inner id index d memo).2 id index d
      (expandWildcard tree inner id index d memo).1 := by
  unfold expandWildcard
  cases htarget : target? tree id d with
  | none => exact .unresolved hd htarget
  | some target =>
    simp only
    split_ifs with hopen
    · exact .cycle htarget
    · simp only [Bool.or_eq_true, beq_iff_eq, not_or] at hopen
      cases hdone : (inner.resolve target memo).done? target with
      | none => exact .cycle htarget
      | some r => exact .taken htarget hopen.1 (Memo.done?_eq_some_iff.1 hdone)

theorem expand_effect (id : ModuleId) (index : Nat) (d : Directive) (memo : Memo) :
    EffectOf tree (expand tree inner id index d memo).2 id index d
      (expand tree inner id index d memo).1 := by
  unfold expand
  cases hform : d.form with
  | ambiguous why => exact .ambiguous hform
  | explicit pins =>
    exact .explicit hform (expandPins_names tree inner id index d pins memo)
      (expandPins_via tree inner id index d pins memo)
  | wildcard path star =>
    exact expandWildcard_effect tree inner id index memo (by simp [Directive.isWildcard, hform])

theorem target?_lt (h : tree.WellFormed) {id target : ModuleId} {d : Directive}
    (hid : id < tree.size) (ht : target? tree id d = some target) : target < tree.size := by
  unfold target? at ht
  split at ht
  · split_ifs at ht
    exact h.resolvePath_lt hid ht
  · cases ht
  · cases ht

variable {inner} (hinner : inner.Grow)

include hinner

theorem effectsFrom_effect (id : ModuleId) : ∀ (ds : List Directive) (index : Nat) (memo : Memo),
    (effectsFrom tree inner id index ds memo).1.length = ds.length ∧
      ∀ {i d e}, ds[i]? = some d → (effectsFrom tree inner id index ds memo).1[i]? = some e →
        EffectOf tree (effectsFrom tree inner id index ds memo).2 id (index + i) d e := by
  intro ds
  induction ds with
  | nil => intro index memo; exact ⟨rfl, fun h => by simp at h⟩
  | cons d rest ih =>
    intro index memo
    obtain ⟨hlength, hrest⟩ := ih (index + 1) (expand tree inner id index d memo).2
    refine ⟨by simp [effectsFrom, hlength], ?_⟩
    intro i d' e hd he
    cases i with
    | zero =>
      simp only [List.getElem?_cons_zero, Option.some.injEq, effectsFrom] at hd he
      subst hd he
      exact (expand_effect tree inner id index d memo).mono
        (.of_grows (effectsFrom_grows tree hinner id (index + 1) rest _))
    | succ i =>
      simp only [List.getElem?_cons_succ, effectsFrom] at hd he
      have := hrest hd he
      rwa [show index + 1 + i = index + (i + 1) by omega] at this

theorem effectsFrom_effectsOf (id : ModuleId) (memo : Memo) :
    EffectsOf tree (effectsFrom tree inner id 0 (tree.get id).directives memo).2 id
      (effectsFrom tree inner id 0 (tree.get id).directives memo).1 := by
  obtain ⟨hlength, heffect⟩ := effectsFrom_effect tree hinner id (tree.get id).directives 0 memo
  refine ⟨hlength, fun hd he => ?_⟩
  have := heffect hd he
  rwa [Nat.zero_add] at this

end Effects

/-! ## Invariants -/

/-- A property of memos that holds at the start and that every step keeps. -/
structure Invariant (tree : ModuleTree) (P : Memo → Prop) : Prop where
  start : P (.start tree.size)
  opens : ∀ {memo : Memo} {id : ModuleId}, memo.get id = .unvisited → P memo → P (memo.set id .open)
  pending : ∀ {memo : Memo} (keys : List (ModuleId × String)), P memo →
    P { memo with pending := keys }
  records : ∀ {memo : Memo} {id : ModuleId} {effects : List Effect}, memo.get id = .open →
    EffectsOf tree memo id effects → P memo → P (memo.set id (.done (record tree id effects)))

namespace Invariant

variable {tree : ModuleTree} {P : Memo → Prop} (h : Invariant tree P)

include h

theorem resolveModule {inner : Calls} (hgrow : inner.Grow)
    (hinner : ∀ r memo, P memo → P (inner.answer r memo)) (id : ModuleId) {memo : Memo}
    (hmemo : P memo) : P (resolveModule tree inner id memo) := by
  rw [resolveModule_eq]
  split_ifs with hnew
  · have hid : memo.get id = .unvisited := Memo.isUnvisited_iff.1 hnew
    have hentered : P (entered (.resolve id) memo) := h.opens hid hmemo
    have hafter := Calls.answerAll_keeps hinner
      (allRequests tree inner id 0 (tree.get id).directives (entered (.resolve id) memo)) hentered
    have heffects := effectsFrom_effectsOf tree hgrow id (entered (.resolve id) memo)
    have hin := effectsFrom_grows tree hgrow id 0 (tree.get id).directives (entered (.resolve id) memo)
    rw [← effectsFrom_memo] at hafter
    by_cases hlt : id < memo.progress.size
    · refine h.records ?_ heffects hafter
      rw [hin.get_open_iff]
      exact Memo.get_set_self _ hlt
    · -- a module outside the tree is never put down
      rw [Memo.set_of_size_le _ (by rw [hin.size]; simpa [entered] using hlt)]
      exact hafter
  · exact hmemo

theorem lookup {inner : Calls} (hinner : ∀ r memo, P memo → P (inner.answer r memo))
    (user parent : ModuleId) (name : String) {memo : Memo} (hmemo : P memo) :
    P (lookup tree inner user parent name memo).2 := by
  rw [lookup_memo]
  split_ifs with hnew
  · exact h.pending _ (Calls.answerAll_keeps hinner _ (h.pending _ hmemo))
  · exact hmemo

theorem answer (depth : Nat) : ∀ r memo, P memo → P ((calls tree depth).answer r memo) := by
  induction depth with
  | zero =>
    intro r memo hmemo
    cases r <;> exact hmemo
  | succ depth ih =>
    intro r memo hmemo
    cases r with
    | resolve id => exact h.resolveModule (calls_grow tree depth) ih id hmemo
    | lookup user parent name => exact h.lookup ih user parent name hmemo

/-- What every step keeps holds of the whole resolution. -/
theorem resolveAll : P (resolveAll tree) := by
  unfold Resolution.resolveAll
  generalize tree.postOrder = ids
  have hall : ∀ (ids : List ModuleId) (memo : Memo), P memo →
      P (ids.foldl (fun memo id => (calls tree (depthBound tree)).resolve id memo) memo) := by
    intro ids
    induction ids with
    | nil => intro memo hmemo; exact hmemo
    | cons id rest ih => intro memo hmemo; exact ih _ (h.answer _ (.resolve id) memo hmemo)
  exact hall ids _ h.start

end Invariant

/-- Every record is the settlement of effects that agree with the other records. -/
def Recorded (tree : ModuleTree) (memo : Memo) : Prop :=
  ∀ (id : ModuleId) (r : Resolved), memo.get id = .done r →
    ∃ effects, EffectsOf tree memo id effects ∧ r = record tree id effects

theorem recorded_invariant (tree : ModuleTree) : Invariant tree (Recorded tree) where
  start := by
    intro id r hr
    rw [Memo.get_start] at hr
    cases hr
  opens := by
    intro memo id hid hmemo other r hr
    have hkeeps : Keeps memo (memo.set id .open) := keeps_set _ (by simp [hid])
    obtain ⟨effects, heffects, rfl⟩ := hmemo other r (Memo.get_done_of_set_open hr)
    exact ⟨effects, heffects.mono hkeeps, rfl⟩
  pending := by
    intro memo keys hmemo id r hr
    have hkeeps : Keeps memo { memo with pending := keys } := fun _ _ h => h
    obtain ⟨effects, heffects, rfl⟩ := hmemo id r hr
    exact ⟨effects, heffects.mono hkeeps, rfl⟩
  records := by
    intro memo id effects hid heffects hmemo other r hr
    have hkeeps : Keeps memo (memo.set id (.done (record tree id effects))) :=
      keeps_set _ (by simp [hid])
    rcases Memo.get_done_of_set_done hr with ⟨rfl, rfl⟩ | hr
    · exact ⟨effects, heffects.mono hkeeps, rfl⟩
    · obtain ⟨effects', heffects', rfl⟩ := hmemo other r hr
      exact ⟨effects', heffects'.mono hkeeps, rfl⟩

theorem recorded_resolveAll (tree : ModuleTree) : Recorded tree (resolveAll tree) :=
  (recorded_invariant tree).resolveAll

/-! ## The end of a resolution -/

theorem size_resolveAll (tree : ModuleTree) : (resolveAll tree).progress.size = tree.size := by
  have hinv : Invariant tree fun memo => memo.progress.size = tree.size :=
    ⟨by simp [Memo.start], fun _ h => by rwa [Memo.size_set], fun _ h => h,
      fun _ _ h => by rwa [Memo.size_set]⟩
  exact hinv.resolveAll

theorem calls_resolve_done (tree : ModuleTree) (depth : Nat) {id : ModuleId} {memo : Memo}
    (hlt : id < memo.progress.size) (hopen : memo.get id ≠ .open) :
    ∃ r, ((calls tree (depth + 1)).resolve id memo).get id = .done r := by
  show ∃ r, (resolveModule tree (calls tree depth) id memo).get id = .done r
  rw [resolveModule_eq]
  split_ifs with hnew
  · have hin := effectsFrom_grows tree (calls_grow tree depth) id 0 (tree.get id).directives
      (entered (.resolve id) memo)
    refine ⟨_, Memo.get_set_self _ ?_⟩
    rw [hin.size]
    simpa [entered] using hlt
  · cases hget : memo.get id with
    | unvisited => exact absurd (Memo.isUnvisited_iff.2 hget) hnew
    | «open» => exact absurd hget hopen
    | done r => exact ⟨r, rfl⟩

theorem foldl_resolve_keeps (tree : ModuleTree) (depth : Nat) : ∀ (ids : List ModuleId) (memo : Memo),
    Keeps memo (ids.foldl (fun memo id => (calls tree depth).resolve id memo) memo) := by
  intro ids
  induction ids with
  | nil => intro memo id r hr; exact hr
  | cons id rest ih =>
    intro memo
    exact (Keeps.of_grows (calls_grow tree depth (.resolve id) memo)).trans (ih _)

/-- In the end every module is done. -/
theorem resolveAll_done {tree : ModuleTree} (h : tree.WellFormed) {id : ModuleId}
    (hid : id < tree.size) : ∃ r, (resolveAll tree).get id = .done r := by
  have hall : ∀ (ids : List ModuleId) (memo : Memo), memo.progress.size = tree.size →
      (∀ other, memo.get other ≠ .open) → id ∈ ids →
      ∃ r, (ids.foldl (fun memo id => (calls tree (depthBound tree)).resolve id memo) memo).get id =
        .done r := by
    intro ids
    induction ids with
    | nil => intro memo _ _ hmem; cases hmem
    | cons first rest ih =>
      intro memo hsize hopen hmem
      have hgrows := calls_grow tree (depthBound tree) (.resolve first) memo
      by_cases hin : id ∈ rest
      · exact ih _ (hgrows.size.trans hsize) (fun other ho => hopen other (hgrows.get_open_iff.1 ho)) hin
      · obtain rfl : id = first := by simpa [hin] using hmem
        obtain ⟨r, hr⟩ := calls_resolve_done tree (depthBound tree - 1) (hsize ▸ hid) (hopen id)
        exact ⟨r, foldl_resolve_keeps tree (depthBound tree) rest _ id r hr⟩
  refine hall _ _ (by simp [Memo.start]) (fun other => ?_) (h.mem_postOrder hid)
  rw [Memo.get_start]
  simp

end Reexport.Resolution
