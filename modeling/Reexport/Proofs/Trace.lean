import Reexport.Proofs.Records

/-!
# The course of a resolution

`trace` lists every call that is made in the course of a resolution, with the memo
in which it is made. So one can speak of the moment at which a module is opened,
and of the moment at which one of its directives is looked at.

Results:

* `exists_opens`: every module is opened.
* `Visit.record_eq`: what is on record in the end is what was found when the module
  was opened.
* `Visit.fits`: calls never nest as deep as they may.
-/

namespace Reexport.Resolution

/-- A call in the course of a resolution. -/
structure Visit where
  /-- How deep calls may nest inside it. -/
  depth : Nat
  request : Request
  /-- The memo in which it is made. -/
  memo : Memo

/-- The visits of calls one after the other, given the visits of each. -/
def visitsAll (calls : Calls) (visits : Request → Memo → List Visit) :
    List Request → Memo → List Visit
  | [], _ => []
  | r :: rest, memo => visits r memo ++ visitsAll calls visits rest (calls.answer r memo)

/-- A call and all calls that are made in its course. -/
def visits (tree : ModuleTree) : (depth : Nat) → Request → Memo → List Visit
  | 0, _, _ => []
  | depth + 1, r, memo =>
    ⟨depth, r, memo⟩ ::
      if isNew r memo then
        visitsAll (calls tree depth) (visits tree depth)
          (requests tree (calls tree depth) r (entered r memo)) (entered r memo)
      else []

/-- All calls of a resolution. -/
def trace (tree : ModuleTree) : List Visit :=
  visitsAll (calls tree (depthBound tree)) (visits tree (depthBound tree))
    (tree.postOrder.map .resolve) (.start tree.size)

theorem resolveAll_eq (tree : ModuleTree) :
    resolveAll tree =
      (calls tree (depthBound tree)).answerAll (tree.postOrder.map .resolve) (.start tree.size) := by
  have hall : ∀ (ids : List ModuleId) (memo : Memo),
      ids.foldl (fun memo id => (calls tree (depthBound tree)).resolve id memo) memo =
        (calls tree (depthBound tree)).answerAll (ids.map .resolve) memo := by
    intro ids
    induction ids with
    | nil => intro memo; rfl
    | cons id rest ih => intro memo; exact ih _
  exact hall _ _

theorem mem_visitsAll {calls : Calls} {visits : Request → Memo → List Visit} {v : Visit} :
    ∀ {rs : List Request} {memo : Memo}, v ∈ visitsAll calls visits rs memo ↔
      ∃ before r after, rs = before ++ r :: after ∧ v ∈ visits r (calls.answerAll before memo) := by
  intro rs
  induction rs with
  | nil => intro memo; simp [visitsAll]
  | cons head rest ih =>
    intro memo
    rw [visitsAll, List.mem_append, ih]
    constructor
    · rintro (hv | ⟨before, r, after, rfl, hv⟩)
      · exact ⟨[], head, rest, rfl, hv⟩
      · exact ⟨head :: before, r, after, rfl, hv⟩
    · rintro ⟨_ | ⟨b, before⟩, r, after, heq, hv⟩
      · obtain ⟨rfl, rfl⟩ := List.cons.inj heq
        exact .inl hv
      · obtain ⟨rfl, rfl⟩ := List.cons.inj heq
        exact .inr ⟨before, r, after, rfl, hv⟩

/-! ## Records of visits -/

namespace Visit

/-- The memo after a visit. -/
def after (v : Visit) (tree : ModuleTree) : Memo := (calls tree (v.depth + 1)).answer v.request v.memo

/-- The visit opens a module. -/
def Opens (v : Visit) (id : ModuleId) : Prop :=
  v.request = .resolve id ∧ v.memo.get id = .unvisited

/-- The memo in which directive number `index` is looked at, in a visit that opens
    module `id`. -/
def examined (v : Visit) (tree : ModuleTree) (id : ModuleId) (index : Nat) : Memo :=
  (effectsFrom tree (calls tree v.depth) id 0 ((tree.get id).directives.take index)
    (entered (.resolve id) v.memo)).2

/-- The effects that are found in a visit that opens module `id`. -/
def effects (v : Visit) (tree : ModuleTree) (id : ModuleId) : List Effect :=
  (effectsFrom tree (calls tree v.depth) id 0 (tree.get id).directives
    (entered (.resolve id) v.memo)).1

theorem Opens.isNew {v : Visit} {id : ModuleId} (h : v.Opens id) : isNew v.request v.memo = true := by
  rw [h.1]
  exact Memo.isUnvisited_iff.2 h.2

end Visit

/-- A memo that comes about later: records are kept, and what has been visited stays
    visited. -/
structure Later (a b : Memo) : Prop where
  keeps : Keeps a b
  visited : ∀ {id : ModuleId}, b.get id = .unvisited → a.get id = .unvisited

namespace Later

@[refl] theorem refl (a : Memo) : Later a a := ⟨fun _ _ h => h, fun h => h⟩

theorem trans {a b c : Memo} (hab : Later a b) (hbc : Later b c) : Later a c :=
  ⟨hab.keeps.trans hbc.keeps, fun h => hab.visited (hbc.visited h)⟩

theorem of_grows {a b : Memo} (h : a.Grows b) : Later a b :=
  ⟨.of_grows h, fun hb => h.unvisited_of_unvisited hb⟩

/-- A module without record may be set to anything but unvisited. -/
theorem set {memo : Memo} {id : ModuleId} {p : Progress} (hid : ∀ r, memo.get id ≠ .done r)
    (hp : p ≠ .unvisited) : Later memo (memo.set id p) := by
  refine ⟨keeps_set p hid, fun {other} hother => ?_⟩
  by_cases hne : id = other
  · subst hne
    by_cases hlt : id < memo.progress.size
    · rw [Memo.get_set_self p hlt] at hother
      exact absurd hother hp
    · exact Memo.get_of_size_le (by simpa using hlt)
  · rwa [Memo.get_set_ne p hne] at hother

theorem entered {r : Request} {memo : Memo} (hnew : isNew r memo = true) :
    Later memo (entered r memo) := by
  cases r with
  | resolve id => exact Later.set (by simp [Memo.isUnvisited_iff.1 hnew]) (by simp)
  | lookup user parent name => exact ⟨fun _ _ h => h, fun h => h⟩

end Later

/-- What is known after the calls of an operation stays known when it is left. -/
theorem later_answer (tree : ModuleTree) (depth : Nat) {r : Request} {memo : Memo}
    (hnew : isNew r memo = true) :
    Later ((calls tree depth).answerAll (requests tree (calls tree depth) r (entered r memo))
      (entered r memo)) ((calls tree (depth + 1)).answer r memo) := by
  cases r with
  | resolve id =>
    show Later _ (resolveModule tree (calls tree depth) id memo)
    rw [resolveModule_eq, if_pos hnew, requests, ← effectsFrom_memo]
    refine Later.set (fun r hr => ?_) (by simp)
    have hin := effectsFrom_grows tree (calls_grow tree depth) id 0 (tree.get id).directives
      (entered (.resolve id) memo)
    have hlt : id < memo.progress.size := by
      have := Memo.lt_of_get_ne (show (effectsFrom tree (calls tree depth) id 0 _ _).2.get id ≠ _ by
        rw [hr]; simp)
      rw [hin.size] at this
      simpa [entered] using this
    have hopen := hin.get_open_iff.2 (Memo.get_set_self .open hlt)
    rw [hr] at hopen
    cases hopen
  | lookup user parent name =>
    show Later _ (lookup tree (calls tree depth) user parent name memo).2
    rw [lookup_memo, if_pos hnew]
    exact ⟨fun _ _ h => h, fun h => h⟩

theorem later_of_mem_visitsAll {tree : ModuleTree} {depth : Nat} {v : Visit}
    (h : ∀ {r memo}, v ∈ visits tree depth r memo →
      Later (v.after tree) ((calls tree depth).answer r memo))
    {rs : List Request} {memo : Memo}
    (hv : v ∈ visitsAll (calls tree depth) (visits tree depth) rs memo) :
    Later (v.after tree) ((calls tree depth).answerAll rs memo) := by
  obtain ⟨before, r, after, rfl, hr⟩ := mem_visitsAll.1 hv
  rw [Calls.answerAll_append, Calls.answerAll_cons]
  exact (h hr).trans (.of_grows ((calls_grow tree depth).all _ _))

theorem later_of_mem_visits {tree : ModuleTree} {v : Visit} :
    ∀ {depth : Nat} {r : Request} {memo : Memo}, v ∈ visits tree depth r memo →
      Later (v.after tree) ((calls tree depth).answer r memo) := by
  intro depth
  induction depth with
  | zero => intro r memo hv; cases hv
  | succ depth ih =>
    intro r memo hv
    rw [visits, List.mem_cons] at hv
    rcases hv with rfl | hv
    · exact .refl _
    · split_ifs at hv with hnew
      · exact (later_of_mem_visitsAll ih hv).trans (later_answer tree depth hnew)
      · cases hv

/-- What is on record after a visit is on record in the end. -/
theorem Visit.keeps_resolveAll {tree : ModuleTree} {v : Visit} (hv : v ∈ trace tree) :
    Keeps (v.after tree) (resolveAll tree) := by
  rw [resolveAll_eq]
  exact (later_of_mem_visitsAll later_of_mem_visits hv).keeps

/-- What is found when a module is opened is on record in the end. -/
theorem Visit.record_eq {tree : ModuleTree} {v : Visit} {id : ModuleId} (hv : v ∈ trace tree)
    (hopens : v.Opens id) (hlt : id < v.memo.progress.size) :
    (resolveAll tree).get id = .done (record tree id (v.effects tree id)) := by
  apply Visit.keeps_resolveAll hv
  obtain ⟨hreq, hid⟩ := hopens
  rw [Visit.after, hreq]
  show (resolveModule tree (calls tree v.depth) id v.memo).get id = _
  have hnew : isNew (.resolve id) v.memo = true := Memo.isUnvisited_iff.2 hid
  rw [resolveModule_eq, if_pos hnew]
  apply Memo.get_set_self
  rw [(effectsFrom_grows tree (calls_grow tree v.depth) id 0 _ _).size]
  simpa [entered] using hlt

/-! ## What holds at every visit -/

theorem visit_of_step {tree : ModuleTree} {P : Request → Memo → Prop}
    (hstep : ∀ {depth r memo before r' after}, P r memo → isNew r memo = true →
      requests tree (calls tree depth) r (entered r memo) = before ++ r' :: after →
      P r' ((calls tree depth).answerAll before (entered r memo))) {v : Visit} :
    ∀ {depth : Nat} {r : Request} {memo : Memo}, P r memo → v ∈ visits tree depth r memo →
      P v.request v.memo := by
  intro depth
  induction depth with
  | zero => intro r memo _ hv; cases hv
  | succ depth ih =>
    intro r memo hmemo hv
    rw [visits, List.mem_cons] at hv
    rcases hv with rfl | hv
    · exact hmemo
    · split_ifs at hv with hnew
      · obtain ⟨before, r', after, heq, hr'⟩ := mem_visitsAll.1 hv
        exact ih (hstep hmemo hnew heq) hr'
      · cases hv

/-- What every call passes on to the calls that it makes holds of all calls. -/
theorem trace_of_step {tree : ModuleTree} {P : Request → Memo → Prop}
    (hstart : ∀ before id, P (.resolve id)
      ((calls tree (depthBound tree)).answerAll before (.start tree.size)))
    (hstep : ∀ {depth r memo before r' after}, P r memo → isNew r memo = true →
      requests tree (calls tree depth) r (entered r memo) = before ++ r' :: after →
      P r' ((calls tree depth).answerAll before (entered r memo))) {v : Visit}
    (hv : v ∈ trace tree) : P v.request v.memo := by
  obtain ⟨before, r, after, heq, hr⟩ := mem_visitsAll.1 hv
  have hmem : r ∈ tree.postOrder.map .resolve := by
    rw [heq]
    exact List.mem_append_right _ List.mem_cons_self
  obtain ⟨id, -, rfl⟩ := List.mem_map.1 hmem
  exact visit_of_step hstep (hstart before id) hr

/-- What every call keeps, and entering one, holds whenever a call is made. -/
theorem trace_memo_of_kept {tree : ModuleTree} {P : Memo → Prop} (hstart : P (.start tree.size))
    (hcall : ∀ depth r memo, P memo → P ((calls tree depth).answer r memo))
    (hentered : ∀ r memo, isNew r memo = true → P memo → P (entered r memo)) {v : Visit}
    (hv : v ∈ trace tree) : P v.memo :=
  trace_of_step (P := fun _ memo => P memo)
    (fun before _ => Calls.answerAll_keeps (hcall _) before hstart)
    (fun hmemo hnew _ => Calls.answerAll_keeps (hcall _) _ (hentered _ _ hnew hmemo)) hv

/-! ## Every module is opened -/

theorem unvisited_of_no_visitsAll {tree : ModuleTree} {depth : Nat} {id : ModuleId}
    (h : ∀ {r memo}, (∀ v ∈ visits tree depth r memo, ¬ v.Opens id) → memo.get id = .unvisited →
      ((calls tree depth).answer r memo).get id = .unvisited) :
    ∀ {rs : List Request} {memo : Memo},
      (∀ v ∈ visitsAll (calls tree depth) (visits tree depth) rs memo, ¬ v.Opens id) →
      memo.get id = .unvisited → ((calls tree depth).answerAll rs memo).get id = .unvisited := by
  intro rs
  induction rs with
  | nil => intro memo _ hid; exact hid
  | cons r rest ih =>
    intro memo hno hid
    simp only [visitsAll, List.mem_append] at hno
    exact ih (fun v hv => hno v (.inr hv)) (h (fun v hv => hno v (.inl hv)) hid)

/-- A module that no visit opens is left unvisited. -/
theorem unvisited_of_no_visits {tree : ModuleTree} {id : ModuleId} :
    ∀ {depth : Nat} {r : Request} {memo : Memo}, (∀ v ∈ visits tree depth r memo, ¬ v.Opens id) →
      memo.get id = .unvisited → ((calls tree depth).answer r memo).get id = .unvisited := by
  intro depth
  induction depth with
  | zero => intro r memo _ hid; cases r <;> exact hid
  | succ depth ih =>
    intro r memo hno hid
    rw [visits] at hno
    have hinner : ∀ v ∈ visitsAll (calls tree depth) (visits tree depth)
        (requests tree (calls tree depth) r (entered r memo)) (entered r memo),
        isNew r memo = true → ¬ v.Opens id := by
      intro v hv hnew
      exact hno v (List.mem_cons_of_mem _ (by rwa [if_pos hnew]))
    cases r with
    | resolve other =>
      show (resolveModule tree (calls tree depth) other memo).get id = .unvisited
      rw [resolveModule_eq]
      split_ifs with hnew
      · have hne : other ≠ id := by
          rintro rfl
          exact hno _ List.mem_cons_self ⟨rfl, hid⟩
        rw [Memo.get_set_ne _ hne, effectsFrom_memo]
        refine unvisited_of_no_visitsAll ih (fun v hv => hinner v hv hnew) ?_
        rw [entered, Memo.get_set_ne _ hne, hid]
      · exact hid
    | lookup user parent name =>
      show (lookup tree (calls tree depth) user parent name memo).2.get id = .unvisited
      rw [lookup_memo]
      split_ifs with hnew
      · exact unvisited_of_no_visitsAll ih (fun v hv => hinner v hv hnew) hid
      · exact hid

/-- Every module is opened. -/
theorem exists_opens {tree : ModuleTree} (h : tree.WellFormed) {id : ModuleId} (hid : id < tree.size) :
    ∃ v ∈ trace tree, v.Opens id := by
  by_contra hno
  push Not at hno
  obtain ⟨r, hr⟩ := resolveAll_done h hid
  rw [resolveAll_eq, unvisited_of_no_visitsAll unvisited_of_no_visits hno (Memo.get_start _ _)] at hr
  cases hr

/-! ## What prompts a call -/

/-- What a listed name is looked up by: the module that its path leads to and its
    last segment. -/
def pinKey? (tree : ModuleTree) (id : ModuleId) (pin : Pin) : Option (ModuleId × String) :=
  match pin.itemPath.getLast?, tree.resolvePath id pin.itemPath.dropLast with
  | some last, some parent => some (parent, last)
  | _, _ => none

theorem mem_listedPins {m : Module} {d : Directive} {pin : Pin} :
    (d, pin) ∈ listedPins m ↔ d ∈ m.directives ∧ ∃ pins, d.form = .explicit pins ∧ pin ∈ pins := by
  unfold listedPins
  rw [List.mem_flatMap]
  constructor
  · rintro ⟨d', hd', hpin⟩
    split at hpin
    · rename_i pins hform
      obtain ⟨p, hp, heq⟩ := List.mem_map.1 hpin
      cases heq
      exact ⟨hd', pins, hform, hp⟩
    · cases hpin
    · cases hpin
  · rintro ⟨hd, pins, hform, hpin⟩
    exact ⟨d, hd, by rw [hform]; exact List.mem_map.2 ⟨pin, hpin, rfl⟩⟩

/-- The calls that a call can make: look up a listed name, resolve the target of a
    wildcard, or resolve the module that a name is looked up in. -/
inductive Prompts (tree : ModuleTree) (r : Request) : Request → Prop
  | listed {d : Directive} {pin : Pin} {parent : ModuleId} {name : String} :
      (d, pin) ∈ listedPins (tree.get r.base) → d.absolute = false →
      pinKey? tree r.base pin = some (parent, name) → Prompts tree r (.lookup r.base parent name)
  | wildcard {d : Directive} {target : ModuleId} : d ∈ (tree.get r.base).directives →
      target? tree r.base d = some target → Prompts tree r (.resolve target)
  | whole {user parent : ModuleId} {name : String} : r = .lookup user parent name →
      Prompts tree r (.resolve parent)

section Prompts

variable {tree : ModuleTree} {inner : Calls}

/-- A listed name that is visible and relative is looked up by its key. -/
theorem pinRequests_eq (tree : ModuleTree) (id : ModuleId) (d : Directive) (pin : Pin) :
    pinRequests tree id d pin =
      if pin.exportedName.isNone || d.absolute then []
      else ((pinKey? tree id pin).map fun key => Request.lookup id key.1 key.2).toList := by
  unfold pinRequests pinKey?
  cases pin.itemPath.getLast? <;> cases tree.resolvePath id pin.itemPath.dropLast <;> rfl

theorem pinRequests_prompts {r r' : Request} {d : Directive} {pin : Pin}
    (hpin : (d, pin) ∈ listedPins (tree.get r.base)) (hr : r' ∈ pinRequests tree r.base d pin) :
    Prompts tree r r' := by
  rw [pinRequests_eq] at hr
  split_ifs at hr with hskip
  · cases hr
  · obtain ⟨⟨parent, name⟩, hkey, rfl⟩ := Option.map_eq_some_iff.1 (Option.mem_toList.1 hr)
    rw [Bool.or_eq_true, not_or, Bool.not_eq_true] at hskip
    exact .listed hpin (by simpa using hskip.2) hkey

theorem targetRequests_mem {user parent : ModuleId} {name : String} {r : Request} :
    ∀ {targets : List ModuleId} {memo : Memo},
      r ∈ targetRequests tree inner user parent name targets memo →
      ∃ target ∈ targets, r = .resolve target := by
  intro targets
  induction targets with
  | nil => intro memo hr; cases hr
  | cons target rest ih =>
    intro memo hr
    have hrest : ∀ {memo : Memo}, r ∈ targetRequests tree inner user parent name rest memo →
        ∃ other ∈ target :: rest, r = .resolve other := by
      intro memo hr
      obtain ⟨other, hother, rfl⟩ := ih hr
      exact ⟨other, List.mem_cons_of_mem _ hother, rfl⟩
    rw [targetRequests] at hr
    split_ifs at hr
    · exact hrest hr
    · simp only at hr
      split at hr
      · exact ⟨target, List.mem_cons_self, List.mem_singleton.1 hr⟩
      · rcases List.mem_cons.1 hr with rfl | hr
        · exact ⟨target, List.mem_cons_self, rfl⟩
        · exact hrest hr

theorem directiveRequests_prompts {r r' : Request} {d : Directive} {memo : Memo}
    (hd : d ∈ (tree.get r.base).directives) (hr : r' ∈ directiveRequests tree r.base d memo) :
    Prompts tree r r' := by
  unfold directiveRequests at hr
  cases hform : d.form with
  | ambiguous why => simp [hform] at hr
  | explicit pins =>
    simp only [hform, List.mem_flatMap] at hr
    obtain ⟨pin, hpin, hr⟩ := hr
    exact pinRequests_prompts (mem_listedPins.2 ⟨hd, pins, hform, hpin⟩) hr
  | wildcard path star =>
    simp only [hform, wildcardRequests] at hr
    cases ht : target? tree r.base d with
    | none => simp [ht] at hr
    | some target =>
      simp only [ht] at hr
      split_ifs at hr
      · cases hr
      · obtain rfl := List.mem_singleton.1 hr
        exact .wildcard hd ht

theorem allRequests_mem {id : ModuleId} {r : Request} :
    ∀ {ds : List Directive} {index : Nat} {memo : Memo},
    r ∈ allRequests tree inner id index ds memo →
      ∃ d ∈ ds, ∃ memo', r ∈ directiveRequests tree id d memo' := by
  intro ds
  induction ds with
  | nil => intro index memo hr; cases hr
  | cons d rest ih =>
    intro index memo hr
    rw [allRequests, List.mem_append] at hr
    rcases hr with hr | hr
    · exact ⟨d, List.mem_cons_self, memo, hr⟩
    · obtain ⟨d', hd', memo', hr⟩ := ih hr
      exact ⟨d', List.mem_cons_of_mem _ hd', memo', hr⟩

theorem findRequests_prompts {user parent : ModuleId} {name : String} {memo : Memo} {r : Request}
    (hr : r ∈ findRequests tree inner user parent name memo) :
    Prompts tree (.lookup user parent name) r := by
  have hthrough : ∀ {memo : Memo}, r ∈ targetRequests tree inner user parent name
      ((tree.get parent).directives.filterMap (target? tree parent)) memo →
      Prompts tree (.lookup user parent name) r := by
    intro memo hr
    obtain ⟨target, ht, rfl⟩ := targetRequests_mem hr
    obtain ⟨d, hd, ht⟩ := List.mem_filterMap.1 ht
    exact .wildcard hd ht
  unfold findRequests at hr
  split at hr
  · cases hr
  · simp only at hr
    split at hr
    · cases hr
    · split at hr
      · rename_i d pin hfind
        exact pinRequests_prompts (r := .lookup user parent name) (List.mem_of_find?_eq_some hfind) hr
      · split at hr
        · exact hthrough hr
        · split_ifs at hr
          · exact hthrough hr
          · rcases List.mem_append.1 hr with hr | hr
            · exact hthrough hr
            · obtain rfl := List.mem_singleton.1 hr
              exact .whole rfl

theorem requests_prompts {r r' : Request} {memo : Memo} (hr : r' ∈ requests tree inner r memo) :
    Prompts tree r r' := by
  cases r with
  | resolve id =>
    obtain ⟨d, hd, memo', hr⟩ := allRequests_mem hr
    exact directiveRequests_prompts (r := .resolve id) hd hr
  | lookup user parent name => exact findRequests_prompts hr

end Prompts

/-! ## Room for calls -/

/-- All that can be looked up. -/
def keys (tree : ModuleTree) : List (ModuleId × String) :=
  (List.range tree.size).flatMap fun id =>
    (listedPins (tree.get id)).filterMap fun p => pinKey? tree id p.2

/-- How many calls can still be made inside one another: each opens a module or
    looks up a name that is not being looked up. -/
def room (tree : ModuleTree) (memo : Memo) : Nat :=
  (List.range tree.size).countP (memo.isUnvisited ·) +
    (keys tree).countP fun key => !memo.pending.contains key

/-- A call that can occur: modules are in the tree, and names are listed. -/
def Valid (tree : ModuleTree) : Request → Prop
  | .resolve id => id < tree.size
  | .lookup user parent name => user < tree.size ∧ parent < tree.size ∧ (parent, name) ∈ keys tree

theorem countP_lt {α : Type} {l : List α} {p q : α → Bool} (hpq : ∀ x ∈ l, p x = true → q x = true)
    {a : α} (ha : a ∈ l) (hp : ¬ p a = true) (hq : q a = true) : l.countP p < l.countP q := by
  obtain ⟨s, t, rfl⟩ := List.append_of_mem ha
  have hs := List.countP_mono_left fun x hx => hpq x (List.mem_append_left _ hx)
  have ht := List.countP_mono_left fun x hx =>
    hpq x (List.mem_append_right s (List.mem_cons_of_mem a hx))
  rw [List.countP_append, List.countP_append, List.countP_cons_of_neg hp, List.countP_cons_of_pos hq]
  omega

theorem unvisited_le_of_grows (tree : ModuleTree) {a b : Memo} (h : a.Grows b) :
    (List.range tree.size).countP (b.isUnvisited ·) ≤
      (List.range tree.size).countP (a.isUnvisited ·) := by
  apply List.countP_mono_left
  intro id _ hid
  exact Memo.isUnvisited_iff.2 (h.unvisited_of_unvisited (Memo.isUnvisited_iff.1 hid))

theorem room_le_of_grows (tree : ModuleTree) {a b : Memo} (h : a.Grows b) :
    room tree b ≤ room tree a := by
  unfold room
  rw [h.pending]
  exact Nat.add_le_add_right (unvisited_le_of_grows tree h) _

theorem unvisited_set_open_lt {tree : ModuleTree} {id : ModuleId} {memo : Memo} (hid : id < tree.size)
    (hsize : memo.progress.size = tree.size) (hnew : memo.isUnvisited id = true) :
    (List.range tree.size).countP ((memo.set id .open).isUnvisited ·) <
      (List.range tree.size).countP (memo.isUnvisited ·) := by
  have hget := Memo.get_set_self .open (hsize ▸ hid : id < memo.progress.size)
  refine countP_lt ?_ (List.mem_range.2 hid) ?_ hnew
  · intro other _ hother
    rw [Memo.isUnvisited_iff] at hother ⊢
    by_cases hne : id = other
    · subst hne
      rw [hget] at hother
      cases hother
    · rwa [Memo.get_set_ne _ hne] at hother
  · rw [Memo.isUnvisited_iff, hget]
    simp

theorem keys_pending_lt {tree : ModuleTree} {key : ModuleId × String}
    {pending : List (ModuleId × String)} (hkey : key ∈ keys tree)
    (hnew : (!pending.contains key) = true) :
    ((keys tree).countP fun other => !(key :: pending).contains other) <
      (keys tree).countP fun other => !pending.contains other := by
  refine countP_lt ?_ hkey ?_ hnew
  · intro other _ hother
    simp only [List.contains_cons, Bool.not_or, Bool.and_eq_true] at hother
    exact hother.2
  · simp

/-- Every call that does anything takes up room. -/
theorem room_entered_lt {tree : ModuleTree} {r : Request} {memo : Memo} (hvalid : Valid tree r)
    (hsize : memo.progress.size = tree.size) (hnew : isNew r memo = true) :
    room tree (entered r memo) < room tree memo := by
  unfold room
  cases r with
  | resolve id => exact Nat.add_lt_add_right (unvisited_set_open_lt hvalid hsize hnew) _
  | lookup user parent name => exact Nat.add_lt_add_left (keys_pending_lt hvalid.2.2 hnew) _

theorem Valid.base_lt {tree : ModuleTree} {r : Request} (h : Valid tree r) : r.base < tree.size := by
  cases r with
  | resolve id => exact h
  | lookup user parent name => exact h.2.1

theorem pinKey?_lt {tree : ModuleTree} (h : tree.WellFormed) {id parent : ModuleId} {pin : Pin}
    {last : String} (hid : id < tree.size) (hkey : pinKey? tree id pin = some (parent, last)) :
    parent < tree.size := by
  unfold pinKey? at hkey
  split at hkey
  · rename_i hparent
    cases hkey
    exact h.resolvePath_lt hid hparent
  · cases hkey

/-- What a call prompts can occur if the call can. -/
theorem Prompts.valid {tree : ModuleTree} (h : tree.WellFormed) {r r' : Request}
    (hprompts : Prompts tree r r') (hvalid : Valid tree r) : Valid tree r' := by
  have hbase := hvalid.base_lt
  cases hprompts with
  | listed hpin _ hkey =>
    refine ⟨hbase, pinKey?_lt h hbase hkey, List.mem_flatMap.2 ⟨r.base, List.mem_range.2 hbase, ?_⟩⟩
    exact List.mem_filterMap.2 ⟨_, hpin, hkey⟩
  | wildcard _ ht => exact target?_lt tree h hbase ht
  | whole heq =>
    subst heq
    exact hvalid.2.1

/-- What holds of every call in the course of a resolution. -/
structure Visit.Fits (v : Visit) (tree : ModuleTree) : Prop where
  valid : Valid tree v.request
  size : v.memo.progress.size = tree.size
  /-- There is room for all calls that can still be made inside one another. -/
  room_le : room tree v.memo ≤ v.depth

theorem visitsAll_fits {tree : ModuleTree} {depth : Nat} {v : Visit}
    (h : ∀ {r memo}, Valid tree r → memo.progress.size = tree.size → room tree memo < depth →
      v ∈ visits tree depth r memo → v.Fits tree)
    {rs : List Request} {memo : Memo} (hvalid : ∀ r ∈ rs, Valid tree r)
    (hsize : memo.progress.size = tree.size) (hroom : room tree memo < depth)
    (hv : v ∈ visitsAll (calls tree depth) (visits tree depth) rs memo) : v.Fits tree := by
  obtain ⟨before, r, after, rfl, hr⟩ := mem_visitsAll.1 hv
  have hgrows := (calls_grow tree depth).all before memo
  have hle := room_le_of_grows tree hgrows
  exact h (hvalid r (by simp)) (hgrows.size.trans hsize) (by omega) hr

theorem visits_fits {tree : ModuleTree} (hwf : tree.WellFormed) {v : Visit} :
    ∀ {depth : Nat} {r : Request} {memo : Memo}, Valid tree r → memo.progress.size = tree.size →
      room tree memo < depth → v ∈ visits tree depth r memo → v.Fits tree := by
  intro depth
  induction depth with
  | zero => intro r memo _ _ hroom; omega
  | succ depth ih =>
    intro r memo hvalid hsize hroom hv
    rw [visits, List.mem_cons] at hv
    rcases hv with rfl | hv
    · exact ⟨hvalid, hsize, by simp only; omega⟩
    · split_ifs at hv with hnew
      · have hlt := room_entered_lt hvalid hsize hnew
        have hsize' : (entered r memo).progress.size = tree.size := by
          cases r <;> simpa [entered] using hsize
        exact visitsAll_fits ih (fun r' hr' => (requests_prompts hr').valid hwf hvalid) hsize'
          (by omega) hv
      · cases hv

theorem keys_length_le (tree : ModuleTree) :
    (keys tree).length ≤ (tree.modules.toList.flatMap listedPins).length := by
  rw [ModuleTree.modules_eq_map_get, List.flatMap_map, keys]
  generalize List.range tree.size = ids
  induction ids with
  | nil => simp
  | cons id rest ih =>
    have hid := List.length_filterMap_le (fun p => pinKey? tree id p.2) (listedPins (tree.get id))
    simp only [List.flatMap_cons, List.length_append]
    omega

theorem room_start_lt (tree : ModuleTree) : room tree (.start tree.size) < depthBound tree := by
  have h1 := List.countP_le_length (p := fun id => (Memo.start tree.size).isUnvisited id)
    (l := List.range tree.size)
  have h2 := List.countP_le_length (p := fun key => !(Memo.start tree.size).pending.contains key)
    (l := keys tree)
  have h3 := keys_length_le tree
  rw [List.length_range] at h1
  unfold room depthBound
  omega

/-- Calls never nest as deep as they may. -/
theorem Visit.fits {tree : ModuleTree} (h : tree.WellFormed) {v : Visit} (hv : v ∈ trace tree) :
    v.Fits tree := by
  refine visitsAll_fits (visits_fits h) ?_ (by simp [Memo.start]) (room_start_lt tree) hv
  intro r hr
  obtain ⟨id, hid, rfl⟩ := List.mem_map.1 hr
  exact h.postOrder_lt hid

/-- There is room for the calls that a call makes: it took some itself. -/
theorem Visit.depth_of_new {tree : ModuleTree} (h : tree.WellFormed) {v : Visit} (hv : v ∈ trace tree)
    (hnew : isNew v.request v.memo = true) : ∃ depth, v.depth = depth + 1 := by
  have hfits := Visit.fits h hv
  have hlt := room_entered_lt hfits.valid hfits.size hnew
  have hle := hfits.room_le
  exact ⟨v.depth - 1, by omega⟩

end Reexport.Resolution
