import Reexport.Proofs.Chronology

/-!
# The directive graph

A directive leads from its module to another one: a wildcard to its target, a listed
name to the module that it is looked up in. Calls nest along these links. Whenever a
call is made, every module that is under way, and every module in which a name is being
looked up, leads to the place where the call is made. Where links make no circle, no call
meets what is under way.

Results:

* `Visit.led`: what is under way leads to where a call is made.
* `Acyclic.lookup`, `Acyclic.not_open`: what this says where links make no circle.
* `Acyclic.taken`: then every wildcard takes over what its target exports.
-/

namespace Reexport.Resolution

/-- A directive of module `a` leads to module `b`. -/
def Link (tree : ModuleTree) (a b : ModuleId) : Prop :=
  Edge tree a b ∨ ∃ d pin name, (d, pin) ∈ listedPins (tree.get a) ∧ d.absolute = false ∧
    pinKey? tree a pin = some (b, name)

/-- Directives never lead back to where they start. -/
def Acyclic (tree : ModuleTree) : Prop := ∀ id, ¬ Relation.TransGen (Link tree) id id

/-! ## Listing links -/

/-- The targets of a module's wildcards, in source order. -/
abbrev targets (tree : ModuleTree) (id : ModuleId) : List ModuleId :=
  (tree.get id).directives.filterMap (target? tree id)

theorem mem_targets {tree : ModuleTree} {id target : ModuleId} :
    target ∈ targets tree id ↔ Edge tree id target := List.mem_filterMap

/-- The modules that the directives of a module lead to. -/
def links (tree : ModuleTree) (id : ModuleId) : List ModuleId :=
  targets tree id ++ (listedPins (tree.get id)).filterMap fun p =>
    if p.1.absolute then none else (pinKey? tree id p.2).map (·.1)

theorem mem_links {tree : ModuleTree} {a b : ModuleId} : b ∈ links tree a ↔ Link tree a b := by
  rw [links, List.mem_append, mem_targets, List.mem_filterMap]
  refine or_congr Iff.rfl ⟨?_, ?_⟩
  · rintro ⟨⟨d, pin⟩, hpin, hb⟩
    split_ifs at hb with habs
    obtain ⟨⟨_, name⟩, hkey, rfl⟩ := Option.map_eq_some_iff.1 hb
    exact ⟨d, pin, name, hpin, by simpa using habs, hkey⟩
  · rintro ⟨d, pin, name, hpin, habs, hkey⟩
    exact ⟨(d, pin), hpin, by simp [habs, hkey]⟩

/-- Directives that always lead to a lower rank make no circle. -/
theorem acyclic_of_rank {tree : ModuleTree} (rank : ModuleId → Nat)
    (h : ∀ a < tree.size, ∀ b ∈ links tree a, rank b < rank a) : Acyclic tree := by
  have hlink : ∀ {a b}, Link tree a b → rank b < rank a := by
    intro a b hab
    rw [← mem_links] at hab
    by_cases ha : a < tree.size
    · exact h a ha b hab
    · rw [links, targets, ModuleTree.get_of_size_le (by simpa using ha)] at hab
      cases hab
  have hpath : ∀ {a b}, Relation.TransGen (Link tree) a b → rank b < rank a := by
    intro a b hab
    induction hab with
    | single hlast => exact hlink hlast
    | tail _ hlast ih => exact Nat.lt_trans (hlink hlast) ih
  exact fun id hcircle => Nat.lt_irrefl _ (hpath hcircle)

/-! ## What is under way -/

/-- Where a call can be made, by what is under way. -/
def Led (tree : ModuleTree) : Request → Memo → Prop
  | .resolve id, memo =>
    (∀ other, memo.get other = .open → Relation.TransGen (Link tree) other id) ∧
      ∀ key ∈ memo.pending, Relation.ReflTransGen (Link tree) key.1 id
  | .lookup user parent _, memo =>
    Link tree user parent ∧
      (∀ other, memo.get other = .open → Relation.ReflTransGen (Link tree) other user) ∧
      ∀ key ∈ memo.pending, Relation.ReflTransGen (Link tree) key.1 user

section Led

variable {tree : ModuleTree} {r : Request} {memo : Memo}

theorem get_open_of_entered {other : ModuleId} (hopen : (entered r memo).get other = .open) :
    memo.get other = .open ∨ r = .resolve other := by
  cases r with
  | resolve id =>
    by_cases hne : id = other
    · exact .inr (by rw [hne])
    · rw [entered, Memo.get_set_ne _ hne] at hopen
      exact .inl hopen
  | lookup user parent name => exact .inl hopen

/-- Once a call is entered, what is open leads to the module that it follows. -/
theorem Led.open_entered (hled : Led tree r memo) {other : ModuleId}
    (hopen : (entered r memo).get other = .open) :
    Relation.ReflTransGen (Link tree) other r.base := by
  rcases get_open_of_entered hopen with hbefore | rfl
  · cases r with
    | resolve id => exact (hled.1 other hbefore).to_reflTransGen
    | lookup user parent name => exact (hled.2.1 other hbefore).tail hled.1
  · exact .refl

theorem Led.pending_entered (hled : Led tree r memo) {key : ModuleId × String}
    (hkey : key ∈ (entered r memo).pending) : Relation.ReflTransGen (Link tree) key.1 r.base := by
  cases r with
  | resolve id => exact hled.2 key hkey
  | lookup user parent name =>
    rcases List.mem_cons.1 hkey with rfl | hkey
    · exact .refl
    · exact (hled.2.2 key hkey).tail hled.1

/-- A call hands on to the calls that it makes that what is under way leads to them. -/
theorem Led.step {r' : Request} {later : Memo} (hled : Led tree r memo) (hprompts : Prompts tree r r')
    (hgrows : (entered r memo).Grows later) : Led tree r' later := by
  have hopen : ∀ other, later.get other = .open → Relation.ReflTransGen (Link tree) other r.base :=
    fun other hopen => hled.open_entered (hgrows.get_open_iff.1 hopen)
  have hpending : ∀ key ∈ later.pending, Relation.ReflTransGen (Link tree) key.1 r.base :=
    fun key hkey => hled.pending_entered (hgrows.pending ▸ hkey)
  cases hprompts with
  | listed hpin habs hkey => exact ⟨.inr ⟨_, _, _, hpin, habs, hkey⟩, hopen, hpending⟩
  | wildcard hd ht =>
    have hlink : Link tree r.base _ := .inl ⟨_, hd, ht⟩
    exact ⟨fun other ho => .tail' (hopen other ho) hlink, fun key hk => (hpending key hk).tail hlink⟩
  | whole heq =>
    subst heq
    refine ⟨fun other ho => ?_, hpending⟩
    exact .tail' (hled.2.1 other (hgrows.get_open_iff.1 ho)) hled.1

end Led

/-- Whenever a call is made, what is under way leads to where it is made. -/
theorem Visit.led {tree : ModuleTree} {v : Visit} (hv : v ∈ trace tree) :
    Led tree v.request v.memo := by
  refine trace_of_step (P := Led tree) (fun before id => ?_) ?_ hv
  · have hgrows := (calls_grow tree (depthBound tree)).all before (.start tree.size)
    refine ⟨fun other hopen => ?_, fun key hkey => ?_⟩
    · rw [hgrows.get_open_iff, Memo.get_start] at hopen
      cases hopen
    · rw [hgrows.pending] at hkey
      cases hkey
  · intro depth r memo before r' after hled _ heq
    have hmem : r' ∈ requests tree (calls tree depth) r (entered r memo) := by
      rw [heq]
      exact List.mem_append_right _ List.mem_cons_self
    exact hled.step (requests_prompts hmem) ((calls_grow tree depth).all before _)

/-! ## No circles -/

namespace Acyclic

variable {tree : ModuleTree} (hacyclic : Acyclic tree) {v : Visit} (hv : v ∈ trace tree)

include hacyclic

theorem not_back {a b : ModuleId} (hlink : Link tree a b) :
    ¬ Relation.ReflTransGen (Link tree) b a :=
  fun hback => hacyclic a (.head' hlink hback)

theorem ne {a b : ModuleId} (hlink : Link tree a b) : b ≠ a := by
  rintro rfl
  exact hacyclic.not_back hlink .refl

include hv

/-- A module is never resolved while it is open. -/
theorem not_open {id : ModuleId} (hreq : v.request = .resolve id) : v.memo.get id ≠ .open := by
  intro hopen
  have hled := Visit.led hv
  rw [hreq] at hled
  exact hacyclic id (hled.1 id hopen)

/-- A name is never looked up while it is being looked up. -/
theorem lookup_isNew {user parent : ModuleId} {name : String}
    (hreq : v.request = .lookup user parent name) : isNew v.request v.memo = true := by
  have hled := Visit.led hv
  rw [hreq] at hled ⊢
  show (!v.memo.pending.contains (parent, name)) = true
  rw [Bool.not_eq_true', Bool.eq_false_iff]
  intro hcontains
  exact hacyclic.not_back hled.1 (hled.2.2 (parent, name) (by simpa using hcontains))

/-- A name is never looked up in a module that is open. -/
theorem lookup_not_open {user parent : ModuleId} {name : String}
    (hreq : v.request = .lookup user parent name) : v.memo.get parent ≠ .open := by
  intro hopen
  have hled := Visit.led hv
  rw [hreq] at hled
  exact hacyclic.not_back hled.1 (hled.2.1 parent hopen)

/-- Of what lies behind a name that is looked up, only what lies above the user in the tree
    counts as leading back to it. -/
theorem reenters_eq {user parent target : ModuleId} {name : String}
    (hreq : v.request = .lookup user parent name)
    (hlink : Relation.ReflTransGen (Link tree) parent target) {later : Memo}
    (hgrows : (entered v.request v.memo).Grows later) :
    reenters tree later user target = tree.isAncestor target user := by
  have hled := Visit.led hv
  rw [hreq] at hled
  have hne : target ≠ user := by
    rintro rfl
    exact hacyclic.not_back hled.1 hlink
  have hopen : later.isOpen target = false := by
    rw [Bool.eq_false_iff, Ne, Memo.isOpen_iff, hgrows.get_open_iff, hreq]
    intro hopen
    exact hacyclic.not_back hled.1 (hlink.trans (hled.2.1 target hopen))
  simp [reenters, hne, hopen]

omit hv in
/-- Every wildcard takes over what its target exports. -/
theorem taken (h : tree.WellFormed) {id target : ModuleId} (hid : id < tree.size) {index : Nat}
    {d : Directive} (hd : (tree.get id).directives[index]? = some d)
    (ht : target? tree id d = some target) :
    (effectsAt tree id)[index]? =
      some (takeAll tree index target (resolvedAt tree target).exports) := by
  obtain ⟨v, hv, hopens, heq⟩ := effectsAt_eq h hid
  have hlink : Link tree id target := .inl ⟨d, List.mem_of_getElem? hd, ht⟩
  have hwild := isWildcard_of_target? tree ht
  have hcycle : ¬ (target = id ∨ (v.examined tree id index).get target = .open) := by
    rintro (rfl | hopen)
    · exact hacyclic.ne hlink rfl
    · have hgrows := effectsFrom_grows tree (calls_grow tree v.depth) id 0
        ((tree.get id).directives.take index) (entered (.resolve id) v.memo)
      have hled := Visit.led hv
      rw [hopens.1] at hled
      exact hacyclic.not_back hlink (hled.open_entered (hgrows.get_open_iff.1 hopen))
  have he := v.effects_getElem? hd
  rw [← Visit.cycle_iff h hv hopens hid hwild ht] at hcycle
  rw [heq, he, ((Visit.effectsOf hv hopens).effect hd he).eq_takeAll ht hcycle]

end Acyclic

end Reexport.Resolution
