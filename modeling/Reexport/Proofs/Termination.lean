import Mathlib.Data.List.Forall2
import Reexport.Proofs.Chronology

/-!
# Resolution comes to an end

Resolving a module and looking up a name call each other, and each can be cut short: a
module is resolved once, and a name is not looked up while it is being looked up. Every
call that does anything leaves less to do: a module fewer that nobody has visited, or as
many and a name fewer that can be looked up. So calls need no bound, and with any bound
that is large enough they give the same answer.

`history` lists every change of a module's progress in the course of a resolution.

Results:

* `left_lt`: what is left to do when a call makes another one.
* `unbounded_resolve`, `unbounded_lookup`: the calls without bound.
* `history_replays`, `history_of`: how the progress of a module changes.
* `resolution_finishes`: resolution comes to an end with every module done.
-/

namespace Reexport.Resolution

/-! ## What is left to do -/

/-- The number of modules that nobody has visited, and the number of names that can be
    looked up and are not being looked up. -/
def left (tree : ModuleTree) (memo : Memo) : Nat × Nat :=
  ((List.range tree.size).countP (memo.isUnvisited ·),
    (keys tree).countP fun key => !memo.pending.contains key)

/-- A call that does anything leaves less to do to the calls that it makes. -/
theorem left_lt {tree : ModuleTree} {r : Request} {memo later : Memo} (hvalid : Valid tree r)
    (hsize : memo.progress.size = tree.size) (hnew : isNew r memo = true)
    (hgrows : (entered r memo).Grows later) :
    Prod.Lex (· < ·) (· < ·) (left tree later) (left tree memo) := by
  have hle := unvisited_le_of_grows tree hgrows
  cases r with
  | resolve id =>
    exact .left _ _ (Nat.lt_of_le_of_lt hle (unvisited_set_open_lt hvalid hsize hnew))
  | lookup user parent name =>
    have hkeys := keys_pending_lt hvalid.2.2 hnew
    have hpending : later.pending = (parent, name) :: memo.pending := hgrows.pending
    rcases Nat.lt_or_eq_of_le hle with hlt | heq
    · exact .left _ _ hlt
    · unfold left
      rw [heq, hpending]
      exact .right _ hkeys

/-! ## Calls that agree -/

/-- A memo of a tree with less than so much room. -/
structure Fit (tree : ModuleTree) (bound : Nat) (memo : Memo) : Prop where
  size : memo.progress.size = tree.size
  room_lt : room tree memo < bound

theorem Fit.grows {tree : ModuleTree} {bound : Nat} {a b : Memo} (h : Fit tree bound a)
    (hab : a.Grows b) : Fit tree bound b :=
  ⟨hab.size.trans h.size, Nat.lt_of_le_of_lt (room_le_of_grows tree hab) h.room_lt⟩

/-- A call that does anything has less room once it is entered. -/
theorem Fit.entered {tree : ModuleTree} {bound : Nat} {r : Request} {memo : Memo}
    (h : Fit tree (bound + 1) memo) (hvalid : Valid tree r) (hnew : isNew r memo = true) :
    Fit tree bound (entered r memo) := by
  have hlt := room_entered_lt hvalid h.size hnew
  have hle := h.room_lt
  refine ⟨?_, by omega⟩
  cases r <;> simpa [Resolution.entered] using h.size

/-- Two ways to make calls that give the same answers, where there is less than so much
    room. -/
structure Agree (tree : ModuleTree) (bound : Nat) (a b : Calls) : Prop where
  resolve : ∀ {id : ModuleId} {memo : Memo}, id < tree.size → Fit tree bound memo →
    a.resolve id memo = b.resolve id memo
  lookup : ∀ {user parent : ModuleId} {name : String} {memo : Memo},
    Valid tree (.lookup user parent name) → Fit tree bound memo →
    a.lookup user parent name memo = b.lookup user parent name memo

namespace Agree

variable {tree : ModuleTree} (hwf : tree.WellFormed) {bound : Nat} {a b : Calls}
  (h : Agree tree bound a b) (hb : b.Grow)

include hwf h

theorem pinAs {id : ModuleId} (hid : id < tree.size) {d : Directive} {pin : Pin}
    (hpin : (d, pin) ∈ listedPins (tree.get id)) (name : String) {memo : Memo}
    (hmemo : Fit tree bound memo) :
    pinAs tree a id d pin name memo = pinAs tree b id d pin name memo := by
  unfold Resolution.pinAs
  by_cases habs : d.absolute = true
  · simp only [habs, if_true]
  · cases hlast : pin.itemPath.getLast? with
    | none => simp only [habs, hlast]
    | some last =>
      cases hparent : tree.resolvePath id pin.itemPath.dropLast with
      | none => simp only [habs, hlast, hparent]
      | some parent =>
        have hkey : pinKey? tree id pin = some (parent, last) := by simp [pinKey?, hlast, hparent]
        have hprompts : Prompts tree (.resolve id) (.lookup id parent last) :=
          .listed hpin (by simpa using habs) hkey
        simp only [habs, hlast, hparent, h.lookup (hprompts.valid hwf hid) hmemo]

theorem pin? {id : ModuleId} (hid : id < tree.size) {d : Directive} {pin : Pin}
    (hpin : (d, pin) ∈ listedPins (tree.get id)) {memo : Memo} (hmemo : Fit tree bound memo) :
    pin? tree a id d pin memo = pin? tree b id d pin memo := by
  unfold Resolution.pin?
  cases pin.exportedName with
  | none => rfl
  | some name => simp only [h.pinAs hwf hid hpin name hmemo]

theorem findPinned {parent : ModuleId} (hparent : parent < tree.size) (name : String) {memo : Memo}
    (hmemo : Fit tree bound memo) :
    findPinned tree a parent name (listedPins (tree.get parent)) memo =
      findPinned tree b parent name (listedPins (tree.get parent)) memo := by
  rw [findPinned_eq, findPinned_eq]
  cases hfind : (listedPins (tree.get parent)).find? fun p => p.2.exportedName == some name with
  | none => rfl
  | some p => exact h.pin? hwf hparent (List.mem_of_find?_eq_some hfind) hmemo

include hb

omit hwf in
theorem findWildcard (user parent : ModuleId) (name : String) :
    ∀ {ts : List ModuleId} {memo : Memo}, (∀ target ∈ ts, target < tree.size) →
      Fit tree bound memo →
      findWildcard tree a user parent name ts memo = findWildcard tree b user parent name ts memo := by
  intro ts
  induction ts with
  | nil => intro memo _ _; rfl
  | cons target rest ih =>
    intro memo hts hmemo
    obtain ⟨ht, hrest⟩ := List.forall_mem_cons.1 hts
    rw [Resolution.findWildcard, Resolution.findWildcard, h.resolve ht hmemo, ih hrest hmemo]
    have hafter := ih hrest (hmemo.grows (hb (.resolve target) memo))
    simp only [show b.resolve target memo = b.answer (.resolve target) memo from rfl, hafter]

theorem find {user parent : ModuleId} (hparent : parent < tree.size) (name : String) {memo : Memo}
    (hmemo : Fit tree bound memo) :
    find tree a user parent name memo = find tree b user parent name memo := by
  have hts : ∀ target ∈ (tree.get parent).directives.filterMap (target? tree parent),
      target < tree.size := by
    intro target ht
    obtain ⟨d, -, ht⟩ := List.mem_filterMap.1 ht
    exact target?_lt tree hwf hparent ht
  have hthrough := h.findWildcard hb user parent name hts hmemo
  have hafter := findWildcard_memo tree b user parent name
    ((tree.get parent).directives.filterMap (target? tree parent)) memo
  unfold Resolution.find
  cases memo.done? parent with
  | some r => rfl
  | none =>
    simp only
    cases (tree.get parent).symbols.find? fun s => s.name == name with
    | some s => rfl
    | none =>
      simp only [h.findPinned hwf hparent name hmemo, findPinned_eq]
      cases hpin : (listedPins (tree.get parent)).find? fun p => p.2.exportedName == some name with
      | some p =>
        have hexported : p.2.exportedName = some name := by simpa using List.find?_some hpin
        simp [Resolution.pin?, hexported]
      | none =>
        simp only [hthrough]
        generalize Resolution.findWildcard tree b user parent name _ memo = found at hafter ⊢
        obtain ⟨_ | e, after⟩ := found
        · have hfit : Fit tree bound after := by
            rw [show after = _ from hafter]
            exact hmemo.grows (hb.all _ _)
          simp only [h.resolve hparent hfit]
        · rfl

theorem expandPins {id : ModuleId} (hid : id < tree.size) (index : Nat) {d : Directive} :
    ∀ {pins : List Pin} {memo : Memo}, (∀ pin ∈ pins, (d, pin) ∈ listedPins (tree.get id)) →
      Fit tree bound memo →
      expandPins tree a id index d pins memo = expandPins tree b id index d pins memo := by
  intro pins
  induction pins with
  | nil => intro memo _ _; rfl
  | cons pin rest ih =>
    intro memo hpins hmemo
    obtain ⟨hpin, hrest⟩ := List.forall_mem_cons.1 hpins
    have hafter : Fit tree bound (Resolution.pin? tree b id d pin memo).2 := by
      rw [pin?_memo]
      exact hmemo.grows (hb.all _ _)
    simp only [Resolution.expandPins, h.pin? hwf hid hpin hmemo, ih hrest hafter]

theorem expand {id : ModuleId} (hid : id < tree.size) (index : Nat) {d : Directive}
    (hd : d ∈ (tree.get id).directives) {memo : Memo} (hmemo : Fit tree bound memo) :
    expand tree a id index d memo = expand tree b id index d memo := by
  unfold Resolution.expand
  cases hform : d.form with
  | ambiguous why => rfl
  | explicit pins =>
    have hpins : ∀ pin ∈ pins, (d, pin) ∈ listedPins (tree.get id) :=
      fun pin hpin => mem_listedPins.2 ⟨hd, pins, hform, hpin⟩
    simp only [h.expandPins hwf hb hid index hpins hmemo]
  | wildcard path star =>
    simp only [expandWildcard]
    cases ht : target? tree id d with
    | none => rfl
    | some target => simp only [h.resolve (target?_lt tree hwf hid ht) hmemo]

theorem effectsFrom {id : ModuleId} (hid : id < tree.size) :
    ∀ {ds : List Directive} {index : Nat} {memo : Memo}, (∀ d ∈ ds, d ∈ (tree.get id).directives) →
      Fit tree bound memo →
      effectsFrom tree a id index ds memo = effectsFrom tree b id index ds memo := by
  intro ds
  induction ds with
  | nil => intro index memo _ _; rfl
  | cons d rest ih =>
    intro index memo hds hmemo
    obtain ⟨hd, hrest⟩ := List.forall_mem_cons.1 hds
    have hafter : Fit tree bound (Resolution.expand tree b id index d memo).2 := by
      rw [expand_memo]
      exact hmemo.grows (hb.all _ _)
    simp only [Resolution.effectsFrom, h.expand hwf hb hid index hd hmemo, ih hrest hafter]

/-- Calls that agree lead to operations that agree, where there is a little more room. -/
theorem next : Agree tree (bound + 1) ⟨resolveModule tree a, Resolution.lookup tree a⟩
    ⟨resolveModule tree b, Resolution.lookup tree b⟩ where
  resolve := by
    intro id memo hid hmemo
    show resolveModule tree a id memo = resolveModule tree b id memo
    rw [resolveModule_eq, resolveModule_eq]
    split_ifs with hnew
    · have hentered := hmemo.entered (r := .resolve id) hid hnew
      rw [h.effectsFrom hwf hb hid (fun _ hd => hd) hentered]
    · rfl
  lookup := by
    intro user parent name memo hvalid hmemo
    show Resolution.lookup tree a user parent name memo = Resolution.lookup tree b user parent name memo
    unfold Resolution.lookup
    split_ifs with hpending
    · rfl
    · have hnew : isNew (.lookup user parent name) memo = true := by simpa [isNew] using hpending
      have hentered := hmemo.entered hvalid hnew
      rw [h.find hwf hb hvalid.2.1 name (show Fit tree bound { memo with
        pending := (parent, name) :: memo.pending } from hentered)]

end Agree

/-- With any two bounds that leave room, calls give the same answers. -/
theorem calls_agree {tree : ModuleTree} (h : tree.WellFormed) :
    ∀ (bound first second : Nat), bound ≤ first → bound ≤ second →
      Agree tree bound (calls tree first) (calls tree second) := by
  intro bound
  induction bound with
  | zero =>
    intro first second _ _
    exact ⟨fun _ hfit => absurd hfit.room_lt (Nat.not_lt_zero _),
      fun _ hfit => absurd hfit.room_lt (Nat.not_lt_zero _)⟩
  | succ bound ih =>
    intro first second hfirst hsecond
    obtain ⟨first, rfl⟩ : ∃ n, first = n + 1 := ⟨first - 1, by omega⟩
    obtain ⟨second, rfl⟩ : ∃ n, second = n + 1 := ⟨second - 1, by omega⟩
    exact (ih first second (by omega) (by omega)).next h (calls_grow tree second)

/-! ## Calls without bound -/

/-- The operations without bound: the calls that an operation makes may nest as deep as
    there is room when it starts. -/
def unbounded (tree : ModuleTree) : Calls where
  resolve id memo := resolveModule tree (calls tree (room tree memo)) id memo
  lookup user parent name memo := lookup tree (calls tree (room tree memo)) user parent name memo

theorem unbounded_grow (tree : ModuleTree) : (unbounded tree).Grow := by
  intro r memo
  have hinner := calls_grow tree (room tree memo)
  cases r with
  | resolve id => exact resolveModule_grows tree hinner id memo
  | lookup user parent name => exact lookup_grows tree hinner user parent name memo

section Unbounded

variable {tree : ModuleTree} (h : tree.WellFormed)

include h

theorem unbounded_agree (bound : Nat) : Agree tree bound (calls tree bound) (unbounded tree) where
  resolve := by
    intro id memo hid hmemo
    exact (calls_agree h (room tree memo + 1) bound _ hmemo.room_lt (Nat.le_refl _)).resolve hid
      ⟨hmemo.size, Nat.lt_succ_self _⟩
  lookup := by
    intro user parent name memo hvalid hmemo
    exact (calls_agree h (room tree memo + 1) bound _ hmemo.room_lt (Nat.le_refl _)).lookup hvalid
      ⟨hmemo.size, Nat.lt_succ_self _⟩

/-- Resolving a module calls the operations without bound. -/
theorem unbounded_resolve {id : ModuleId} {memo : Memo} (hid : id < tree.size)
    (hsize : memo.progress.size = tree.size) :
    (unbounded tree).resolve id memo = resolveModule tree (unbounded tree) id memo :=
  ((unbounded_agree h (room tree memo)).next h (unbounded_grow tree)).resolve hid
    ⟨hsize, Nat.lt_succ_self _⟩

/-- Looking up a name calls the operations without bound. -/
theorem unbounded_lookup {user parent : ModuleId} {name : String} {memo : Memo}
    (hvalid : Valid tree (.lookup user parent name)) (hsize : memo.progress.size = tree.size) :
    (unbounded tree).lookup user parent name memo =
      lookup tree (unbounded tree) user parent name memo :=
  ((unbounded_agree h (room tree memo)).next h (unbounded_grow tree)).lookup hvalid
    ⟨hsize, Nat.lt_succ_self _⟩

/-- A whole resolution needs no bound. -/
theorem resolveAll_eq_unbounded :
    resolveAll tree =
      tree.postOrder.foldl (fun memo id => (unbounded tree).resolve id memo) (.start tree.size) := by
  have hall : ∀ (ids : List ModuleId) (memo : Memo), (∀ id ∈ ids, id < tree.size) →
      Fit tree (depthBound tree) memo →
      ids.foldl (fun memo id => (calls tree (depthBound tree)).resolve id memo) memo =
        ids.foldl (fun memo id => (unbounded tree).resolve id memo) memo := by
    intro ids
    induction ids with
    | nil => intro memo _ _; rfl
    | cons id rest ih =>
      intro memo hids hmemo
      obtain ⟨hid, hrest⟩ := List.forall_mem_cons.1 hids
      rw [List.foldl_cons, List.foldl_cons, (unbounded_agree h _).resolve hid hmemo]
      exact ih _ hrest (hmemo.grows (unbounded_grow tree (.resolve id) memo))
  exact hall _ _ (fun id hid => h.postOrder_lt hid) ⟨by simp [Memo.start], room_start_lt tree⟩

end Unbounded

/-! ## How progress changes -/

/-- A module with the progress that it is set to. -/
abbrev Change := ModuleId × Progress

/-- The memo after changes of progress one after the other. -/
def replay (changes : List Change) (memo : Memo) : Memo :=
  changes.foldl (fun memo change => memo.set change.1 change.2) memo

/-- The changes of calls one after the other, given the changes of each. -/
def changesAll (calls : Calls) (changes : Request → Memo → List Change) :
    List Request → Memo → List Change
  | [], _ => []
  | r :: rest, memo => changes r memo ++ changesAll calls changes rest (calls.answer r memo)

/-- The changes in the course of a call: a module is open from the moment at which its
    resolution starts until its record is put down. -/
def changes (tree : ModuleTree) : (depth : Nat) → Request → Memo → List Change
  | 0, _, _ => []
  | depth + 1, r, memo =>
    if isNew r memo then
      let inner := changesAll (calls tree depth) (changes tree depth)
        (requests tree (calls tree depth) r (entered r memo)) (entered r memo)
      match r with
      | .resolve id =>
        let effects := (effectsFrom tree (calls tree depth) id 0 (tree.get id).directives
          (entered (.resolve id) memo)).1
        (id, .open) :: inner ++ [(id, .done (record tree id effects))]
      | .lookup .. => inner
    else []

/-- All changes in the course of a resolution. -/
def history (tree : ModuleTree) : List Change :=
  changesAll (calls tree (depthBound tree)) (changes tree (depthBound tree))
    (tree.postOrder.map .resolve) (.start tree.size)

theorem replay_append (first second : List Change) (memo : Memo) :
    replay (first ++ second) memo = replay second (replay first memo) := by
  simp [replay]

/-- Changes of progress leave alone what is being looked up. -/
theorem replay_pending (changes : List Change) (keys : List (ModuleId × String)) (memo : Memo) :
    replay changes { memo with pending := keys } = { replay changes memo with pending := keys } := by
  induction changes generalizing memo with
  | nil => rfl
  | cons change rest ih => exact ih (memo.set change.1 change.2)

theorem pending_replay (changes : List Change) (memo : Memo) :
    (replay changes memo).pending = memo.pending := by
  induction changes generalizing memo with
  | nil => rfl
  | cons change rest ih => exact ih (memo.set change.1 change.2)

theorem replay_changesAll {calls : Calls} {changes : Request → Memo → List Change}
    (h : ∀ r memo, replay (changes r memo) memo = calls.answer r memo) :
    ∀ (rs : List Request) (memo : Memo),
      replay (changesAll calls changes rs memo) memo = calls.answerAll rs memo := by
  intro rs
  induction rs with
  | nil => intro memo; rfl
  | cons r rest ih => intro memo; rw [changesAll, replay_append, h, ih, Calls.answerAll_cons]

/-- The changes in the course of a call make up what the call does. -/
theorem replay_changes (tree : ModuleTree) : ∀ (depth : Nat) (r : Request) (memo : Memo),
    replay (changes tree depth r memo) memo = (calls tree depth).answer r memo := by
  intro depth
  induction depth with
  | zero => intro r memo; cases r <;> rfl
  | succ depth ih =>
    intro r memo
    have hinner := replay_changesAll ih (requests tree (calls tree depth) r (entered r memo))
      (entered r memo)
    cases r with
    | resolve id =>
      show _ = resolveModule tree (calls tree depth) id memo
      simp only [resolveModule_eq, changes]
      split_ifs with hnew
      · rw [requests, ← effectsFrom_memo] at hinner
        rw [replay_append, requests]
        exact congrArg (fun after : Memo => after.set id _) hinner
      · rfl
    | lookup user parent name =>
      show _ = (lookup tree (calls tree depth) user parent name memo).2
      simp only [lookup_memo, changes]
      split_ifs with hnew
      · rw [← hinner]
        generalize changesAll _ _ _ _ = inner
        rw [entered, replay_pending inner ((parent, name) :: memo.pending) memo]
        exact congrArg (fun keys => { replay inner memo with pending := keys })
          (pending_replay inner memo)
      · rfl

/-- The changes of a module's progress. -/
def changesOf (id : ModuleId) (changes : List Change) : List Progress :=
  (changes.filter fun change => change.1 == id).map (·.2)

theorem changesOf_append (id : ModuleId) (first second : List Change) :
    changesOf id (first ++ second) = changesOf id first ++ changesOf id second := by
  simp [changesOf]

/-- How calls change the progress of a module: a module that has been visited stays as it
    is, and one that has not either stays so or is opened once and put down once. -/
def Passes (id : ModuleId) (before : Memo) (changes : List Change) (after : Memo) : Prop :=
  (changesOf id changes = [] ∧ after.get id = before.get id) ∨
    (before.get id = .unvisited ∧
      ∃ r, changesOf id changes = [.open, .done r] ∧ after.get id = .done r)

theorem Passes.trans {id : ModuleId} {a b c : Memo} {first second : List Change}
    (hab : Passes id a first b) (hbc : Passes id b second c) : Passes id a (first ++ second) c := by
  unfold Passes at *
  rw [changesOf_append]
  rcases hab with ⟨hnone, hget⟩ | ⟨hun, r, hsome, hget⟩
  · rw [hnone, List.nil_append, ← hget]
    exact hbc
  · rcases hbc with ⟨hnone, hget'⟩ | ⟨hun', -⟩
    · exact .inr ⟨hun, r, by rw [hsome, hnone]; rfl, hget'.trans hget⟩
    · rw [hget] at hun'
      cases hun'

theorem passes_changesAll {id : ModuleId} {calls : Calls} {changes : Request → Memo → List Change}
    (h : ∀ r memo, id < memo.progress.size → Passes id memo (changes r memo) (calls.answer r memo))
    (hgrow : calls.Grow) :
    ∀ (rs : List Request) (memo : Memo), id < memo.progress.size →
      Passes id memo (changesAll calls changes rs memo) (calls.answerAll rs memo) := by
  intro rs
  induction rs with
  | nil => intro memo _; exact .inl ⟨rfl, rfl⟩
  | cons r rest ih =>
    intro memo hid
    exact (h r memo hid).trans (ih _ ((hgrow r memo).size ▸ hid))

theorem passes_changes (tree : ModuleTree) (id : ModuleId) : ∀ (depth : Nat) (r : Request) (memo : Memo),
    id < memo.progress.size →
    Passes id memo (changes tree depth r memo) ((calls tree depth).answer r memo) := by
  intro depth
  induction depth with
  | zero => intro r memo _; cases r <;> exact .inl ⟨rfl, rfl⟩
  | succ depth ih =>
    intro r memo hid
    have hinner := passes_changesAll ih (calls_grow tree depth)
      (requests tree (calls tree depth) r (entered r memo)) (entered r memo)
      (by cases r <;> simpa [entered] using hid)
    cases r with
    | resolve other =>
      show Passes id memo _ (resolveModule tree (calls tree depth) other memo)
      simp only [resolveModule_eq, changes]
      split_ifs with hnew
      · rw [requests, ← effectsFrom_memo] at hinner
        have hsize := (effectsFrom_grows tree (calls_grow tree depth) other 0 (tree.get other).directives
          (entered (.resolve other) memo)).size
        by_cases hother : other = id
        · subst hother
          -- while the module is open nothing else touches it
          have hopen : (entered (.resolve other) memo).get other = .open := Memo.get_set_self _ hid
          obtain ⟨hnone, -⟩ : changesOf other _ = [] ∧ _ := by
            rcases hinner with hnone | ⟨hun, -⟩
            · exact hnone
            · rw [hopen] at hun
              cases hun
          refine .inr ⟨Memo.isUnvisited_iff.1 hnew, _, ?_, Memo.get_set_self _ ?_⟩
          · rw [List.cons_append, ← List.singleton_append, changesOf_append, changesOf_append, requests,
              hnone]
            simp [changesOf]
          · rw [hsize]
            simpa [entered] using hid
        · have hframe : ∀ p q inner, changesOf id ((other, p) :: inner ++ [(other, q)]) =
              changesOf id inner := by
            intro p q inner
            simp [changesOf, hother]
          unfold Passes at hinner ⊢
          rw [hframe, requests, Memo.get_set_ne _ hother]
          rwa [entered, Memo.get_set_ne _ hother] at hinner
      · exact .inl ⟨rfl, rfl⟩
    | lookup user parent name =>
      show Passes id memo _ (lookup tree (calls tree depth) user parent name memo).2
      simp only [lookup_memo, changes]
      split_ifs with hnew
      · exact hinner
      · exact .inl ⟨rfl, rfl⟩

/-- The changes of progress make up the whole resolution. -/
theorem history_replays (tree : ModuleTree) :
    replay (history tree) (.start tree.size) = resolveAll tree := by
  rw [resolveAll_eq]
  exact replay_changesAll (replay_changes tree (depthBound tree)) _ _

/-- A module is opened once, and then its record is put down once. -/
theorem history_of {tree : ModuleTree} (h : tree.WellFormed) {id : ModuleId} (hid : id < tree.size) :
    ∃ r, changesOf id (history tree) = [.open, .done r] ∧ (resolveAll tree).get id = .done r := by
  have hpasses := passes_changesAll (passes_changes tree id (depthBound tree))
    (calls_grow tree (depthBound tree)) (tree.postOrder.map .resolve) (.start tree.size)
    (by simpa [Memo.start] using hid)
  rw [← resolveAll_eq] at hpasses
  obtain ⟨r, hr⟩ := resolveAll_done h hid
  rcases hpasses with ⟨-, hget⟩ | ⟨-, r, hchanges, hget⟩
  · rw [hr, Memo.get_start] at hget
    cases hget
  · exact ⟨r, hchanges, hget⟩

/-! ## Plans -/

/-- A plan for a directive of this form. -/
def PlanFor (d : Directive) (status : Status) : Prop :=
  match d.form with
  | .ambiguous why => status = .ambiguous why
  | .explicit pins => status = .pinned (pins.filterMap (·.exportedName))
  | .wildcard .. => (∃ names withheld, status = .replaced names withheld) ∨ status = .unresolved ∨
      status = .cycle ∨ ∃ gap, status = .incomplete gap

theorem EffectOf.planFor {tree : ModuleTree} {memo : Memo} {id : ModuleId} {index : Nat} {d : Directive}
    {e : Effect} (h : EffectOf tree memo id index d e) (draft : Draft) :
    PlanFor d (draft.plan index e.plan) := by
  unfold PlanFor
  cases h with
  | ambiguous hform => simp [hform, Draft.plan]
  | explicit hform hnames _ => simp [hform, Draft.plan, hnames]
  | unresolved hwild _ =>
    obtain ⟨path, star, hform⟩ := form_of_isWildcard hwild
    simp [hform, Draft.plan]
  | cycle ht =>
    obtain ⟨path, star, hform⟩ := form_of_isWildcard (isWildcard_of_target? tree ht)
    simp [hform, Draft.plan]
  | @taken target r ht _ _ =>
    obtain ⟨path, star, hform⟩ := form_of_isWildcard (isWildcard_of_target? tree ht)
    simp only [hform]
    unfold takeAll
    cases r.exports.gaps <;> simp [Draft.plan]

/-- A record has one plan for each directive, in source order. -/
theorem EffectsOf.plans {tree : ModuleTree} {memo : Memo} {id : ModuleId} {effects : List Effect}
    (h : EffectsOf tree memo id effects) :
    List.Forall₂ PlanFor (tree.get id).directives (record tree id effects).plans := by
  have hlength : (record tree id effects).plans.length = effects.length := by
    simp [record, Draft.settle, Draft.addEffects, ownDraft]
  refine List.forall₂_iff_get.2 ⟨by rw [hlength, h.length], fun index hd hplan => ?_⟩
  have hd' := List.getElem?_eq_getElem hd
  obtain ⟨e, he, heffect⟩ := h.of_directive hd'
  have hplan' := record_plans tree id effects index
  rw [he, Option.map_some, List.getElem?_eq_getElem hplan, Option.some.injEq] at hplan'
  simp only [List.get_eq_getElem, hplan']
  exact heffect.planFor _

/-! ## Main result -/

/-- What it means that the resolution of a tree comes to an end. -/
structure Finishes (tree : ModuleTree) : Prop where
  /-- Operations call each other without bound. -/
  resolve_eq : ∀ {id : ModuleId} {memo : Memo}, id < tree.size → memo.progress.size = tree.size →
    (unbounded tree).resolve id memo = resolveModule tree (unbounded tree) id memo
  lookup_eq : ∀ {user parent : ModuleId} {name : String} {memo : Memo},
    Valid tree (.lookup user parent name) → memo.progress.size = tree.size →
    (unbounded tree).lookup user parent name memo = lookup tree (unbounded tree) user parent name memo
  /-- Every call that does anything only makes calls to which it leaves less to do. -/
  falls : ∀ {r r' : Request} {memo : Memo} {before after : List Request}, Valid tree r →
    memo.progress.size = tree.size → isNew r memo = true →
    requests tree (unbounded tree) r (entered r memo) = before ++ r' :: after →
    Valid tree r' ∧ Prod.Lex (· < ·) (· < ·)
      (left tree ((unbounded tree).answerAll before (entered r memo))) (left tree memo)
  /-- A resolution is made of these operations. -/
  resolveAll_eq : resolveAll tree =
    tree.postOrder.foldl (fun memo id => (unbounded tree).resolve id memo) (.start tree.size)
  /-- A module that is resolved is done then, unless it is under way. -/
  target_done : ∀ {target : ModuleId} {memo : Memo}, target < tree.size →
    memo.progress.size = tree.size → memo.get target ≠ .open →
    (((unbounded tree).resolve target memo).done? target).isSome = true
  /-- The history holds all changes of progress; it has two for every module, which is
      opened and then put down for good. -/
  replays : replay (history tree) (.start tree.size) = resolveAll tree
  passes : ∀ {id : ModuleId}, id < tree.size → ∃ r, changesOf id (history tree) = [.open, .done r] ∧
    (resolveAll tree).get id = .done r ∧ (resolve tree)[id]? = some r ∧
    List.Forall₂ PlanFor (tree.get id).directives r.plans
  length : (resolve tree).length = tree.size
  /-- No name is being looked up any more. -/
  pending : (resolveAll tree).pending = []

theorem pending_resolveAll (tree : ModuleTree) : (resolveAll tree).pending = [] := by
  rw [resolveAll_eq]
  exact ((calls_grow tree (depthBound tree)).all _ _).pending

/-- **Resolution comes to an end.** Whatever a tree declares and re-exports, calls need no
    bound, since every call that does anything leaves less to do to the calls that it
    makes: fewer modules that nobody has visited, or as many and fewer names that can be
    looked up. In the end every module has been opened once and put down once, with a
    plan for each of its directives, and no name is being looked up. -/
theorem resolution_finishes {tree : ModuleTree} (h : tree.Built) : Finishes tree where
  resolve_eq := unbounded_resolve h.wellFormed
  lookup_eq := unbounded_lookup h.wellFormed
  falls := by
    intro r r' memo before after hvalid hsize hnew heq
    have hmem : r' ∈ requests tree (unbounded tree) r (entered r memo) := by
      rw [heq]
      exact List.mem_append_right _ List.mem_cons_self
    refine ⟨(requests_prompts hmem).valid h.wellFormed hvalid, left_lt hvalid hsize hnew ?_⟩
    exact (unbounded_grow tree).all before _
  resolveAll_eq := resolveAll_eq_unbounded h.wellFormed
  target_done := by
    intro target memo hlt hsize hopen
    obtain ⟨r, hr⟩ := calls_resolve_done tree (room tree memo) (hsize ▸ hlt) hopen
    rw [show (unbounded tree).resolve target memo = (calls tree (room tree memo + 1)).resolve target memo
      from rfl, Memo.done?_eq_some_iff.2 hr]
    rfl
  replays := history_replays tree
  passes := by
    intro id hid
    obtain ⟨r, hchanges, hr⟩ := history_of h.wellFormed hid
    obtain ⟨effects, heffects, rfl⟩ := recorded_resolveAll tree id r hr
    have hlength : id < (resolve tree).length := by
      simpa [resolve, size_resolveAll] using hid
    have hresolved := resolvedAt_eq hr
    rw [resolvedAt, List.getD_eq_getElem?_getD, List.getElem?_eq_getElem hlength,
      Option.getD_some] at hresolved
    refine ⟨_, hchanges, hr, ?_, heffects.plans⟩
    rw [List.getElem?_eq_getElem hlength, hresolved]
  length := by simp [resolve, size_resolveAll]
  pending := pending_resolveAll tree

/-- Modules `a` and `b` pass on themselves and each other, and each lists a name that the
    other one lists. -/
def whirl : ModuleTree :=
  .flat [
    ("a", [], [.star ["self"], .star ["super", "b"], .list [⟨["super", "b"], "x", none⟩]]),
    ("b", [], [.list [⟨["super", "a"], "x", none⟩], .star ["super", "a"], .star ["self"]])]

theorem resolution_finishes_whirl :
    Finishes whirl ∧ ∃ r, changesOf 1 (history whirl) = [.open, .done r] ∧
      (resolve whirl)[1]? = some r ∧ r.plans.length = 3 := by
  have hfinishes := resolution_finishes (ModuleTree.built_flat _ : whirl.Built)
  obtain ⟨r, hchanges, -, hr, hplans⟩ := hfinishes.passes (show 1 < whirl.size by decide +kernel)
  exact ⟨hfinishes, r, hchanges, hr, hplans.length_eq.symm⟩

end Reexport.Resolution
