import Mathlib.Data.List.Basic
import Reexport.Proofs.Memo

/-!
# The calls that a call makes

Resolving a module and looking up a name change the memo only through the calls
that they make: each call in turn is answered in the memo that the one before
left. `Resolution.requests` lists the calls, so what holds of every call holds of
a whole operation by one induction over that list.

Results:

* `resolveModule_eq`, `lookup_memo`: an operation in terms of its calls.
* `draftFrom_eq`: a draft is its start and the effects of the directives.
* `calls_grow`: every call only adds finished modules to a memo.
-/

namespace Reexport

/-- A call of one of the operations. -/
inductive Request where
  | resolve (id : ModuleId)
  | lookup (user parent : ModuleId) (name : String)
  deriving DecidableEq, Repr

/-- The module whose directives a call follows. -/
def Request.base : Request → ModuleId
  | .resolve id => id
  | .lookup _ parent _ => parent

namespace Calls

/-- The memo after a call. -/
def answer (calls : Calls) : Request → Memo → Memo
  | .resolve id, memo => calls.resolve id memo
  | .lookup user parent name, memo => (calls.lookup user parent name memo).2

/-- The memo after calls one after the other. -/
def answerAll (calls : Calls) : List Request → Memo → Memo
  | [], memo => memo
  | r :: rest, memo => calls.answerAll rest (calls.answer r memo)

@[simp] theorem answerAll_nil (calls : Calls) (memo : Memo) : calls.answerAll [] memo = memo := rfl

@[simp] theorem answerAll_cons (calls : Calls) (r : Request) (rest : List Request) (memo : Memo) :
    calls.answerAll (r :: rest) memo = calls.answerAll rest (calls.answer r memo) := rfl

theorem answerAll_append (calls : Calls) (first second : List Request) :
    ∀ memo, calls.answerAll (first ++ second) memo =
      calls.answerAll second (calls.answerAll first memo) := by
  induction first with
  | nil => intro memo; rfl
  | cons r rest ih => intro memo; exact ih _

/-- What every call keeps, calls one after the other keep. -/
theorem answerAll_keeps {calls : Calls} {P : Memo → Prop}
    (h : ∀ r memo, P memo → P (calls.answer r memo)) :
    ∀ (rs : List Request) {memo : Memo}, P memo → P (calls.answerAll rs memo) := by
  intro rs
  induction rs with
  | nil => intro memo hmemo; exact hmemo
  | cons r rest ih => intro memo hmemo; exact ih (h r memo hmemo)

end Calls

namespace Resolution

variable (tree : ModuleTree) (calls : Calls)

/-! ## Listed names -/

/-- The calls for a listed name of a directive of module `id`. -/
def pinRequests (id : ModuleId) (d : Directive) (pin : Pin) : List Request :=
  if pin.exportedName.isNone || d.absolute then []
  else
    match pin.itemPath.getLast?, tree.resolvePath id pin.itemPath.dropLast with
    | some last, some parent => [.lookup id parent last]
    | _, _ => []

theorem pin?_memo (id : ModuleId) (d : Directive) (pin : Pin) (memo : Memo) :
    (pin? tree calls id d pin memo).2 = calls.answerAll (pinRequests tree id d pin) memo := by
  unfold pin? pinRequests
  cases pin.exportedName with
  | none => simp
  | some name =>
    by_cases habs : d.absolute
    · simp [pinAs, habs]
    · cases hlast : pin.itemPath.getLast? with
      | none => simp [pinAs, habs, hlast]
      | some last =>
        cases hparent : tree.resolvePath id pin.itemPath.dropLast with
        | none =>
          simp only [pinAs, habs, hlast, hparent]
          cases tree.resolvePath id pin.itemPath <;> rfl
        | some parent =>
          simp only [pinAs, habs, hlast, hparent]
          cases hfound : (calls.lookup id parent last memo).1 with
          | some entry => simp [Calls.answer]
          | none =>
            cases tree.resolvePath id pin.itemPath <;> rfl

theorem expandPins_memo (id : ModuleId) (index : Nat) (d : Directive) : ∀ (pins : List Pin) (memo : Memo),
    (expandPins tree calls id index d pins memo).2 =
      calls.answerAll (pins.flatMap (pinRequests tree id d)) memo := by
  intro pins
  induction pins with
  | nil => intro memo; rfl
  | cons pin rest ih =>
    intro memo
    rw [List.flatMap_cons, Calls.answerAll_append, ← pin?_memo, ← ih]
    rfl

/-- A listed name that is visible always refers to something, so the first one
    that is exported as `name` decides. -/
theorem findPinned_eq (parent : ModuleId) (name : String) : ∀ (pins : List (Directive × Pin)) (memo : Memo),
    findPinned tree calls parent name pins memo =
      match pins.find? fun p => p.2.exportedName == some name with
      | none => (none, memo)
      | some (d, pin) => pin? tree calls parent d pin memo := by
  intro pins
  induction pins with
  | nil => intro memo; rfl
  | cons p rest ih =>
    intro memo
    obtain ⟨d, pin⟩ := p
    rw [findPinned, List.find?_cons]
    by_cases hname : pin.exportedName = some name
    · simp only [hname, beq_self_eq_true, if_true, pin?]
    · have hne : (pin.exportedName == some name) = false := by simpa using hname
      simp only [hne, Bool.false_eq_true, if_false]
      exact ih memo

/-! ## Wildcards -/

/-- The calls for the wildcard `d` of module `id`. -/
def wildcardRequests (id : ModuleId) (d : Directive) (memo : Memo) : List Request :=
  match target? tree id d with
  | none => []
  | some target => if target == id || memo.isOpen target then [] else [.resolve target]

theorem expandWildcard_memo (id : ModuleId) (index : Nat) (d : Directive) (memo : Memo) :
    (expandWildcard tree calls id index d memo).2 =
      calls.answerAll (wildcardRequests tree id d memo) memo := by
  unfold expandWildcard wildcardRequests
  cases htarget : target? tree id d with
  | none => rfl
  | some target =>
    simp only
    split_ifs with hopen
    · rfl
    · simp only [Calls.answerAll_cons, Calls.answerAll_nil, Calls.answer]
      cases (calls.resolve target memo).done? target <;> rfl

/-- The calls for looking through the wildcard targets of `parent`. -/
def targetRequests (user parent : ModuleId) (name : String) : List ModuleId → Memo → List Request
  | [], _ => []
  | target :: rest, memo =>
    if target == parent || reenters tree memo user target then
      targetRequests user parent name rest memo
    else
      let after := calls.resolve target memo
      match after.exported? target name with
      | some _ => [.resolve target]
      | none => .resolve target :: targetRequests user parent name rest after

theorem findWildcard_memo (user parent : ModuleId) (name : String) : ∀ (targets : List ModuleId) (memo : Memo),
    (findWildcard tree calls user parent name targets memo).2 =
      calls.answerAll (targetRequests tree calls user parent name targets memo) memo := by
  intro targets
  induction targets with
  | nil => intro memo; rfl
  | cons target rest ih =>
    intro memo
    rw [findWildcard, targetRequests]
    split_ifs with hskip
    · exact ih memo
    · simp only
      cases (calls.resolve target memo).exported? target name with
      | some entry => rfl
      | none => exact ih _

/-! ## Directives -/

/-- The calls for a directive of module `id`. -/
def directiveRequests (id : ModuleId) (d : Directive) (memo : Memo) : List Request :=
  match d.form with
  | .ambiguous _ => []
  | .explicit pins => pins.flatMap (pinRequests tree id d)
  | .wildcard .. => wildcardRequests tree id d memo

theorem expand_memo (id : ModuleId) (index : Nat) (d : Directive) (memo : Memo) :
    (expand tree calls id index d memo).2 =
      calls.answerAll (directiveRequests tree id d memo) memo := by
  unfold expand directiveRequests
  cases d.form with
  | ambiguous why => rfl
  | explicit pins => exact expandPins_memo tree calls id index d pins memo
  | wildcard path star => exact expandWildcard_memo tree calls id index d memo

/-- The effects of directives in source order, and the memo after them. -/
def effectsFrom (id : ModuleId) : (index : Nat) → List Directive → Memo → List Effect × Memo
  | _, [], memo => ([], memo)
  | index, d :: rest, memo =>
    let (effect, memo) := expand tree calls id index d memo
    let (effects, memo) := effectsFrom id (index + 1) rest memo
    (effect :: effects, memo)

/-- The calls for directives in source order. -/
def allRequests (id : ModuleId) : (index : Nat) → List Directive → Memo → List Request
  | _, [], _ => []
  | index, d :: rest, memo =>
    directiveRequests tree id d memo ++
      allRequests id (index + 1) rest (expand tree calls id index d memo).2

theorem effectsFrom_memo (id : ModuleId) : ∀ (ds : List Directive) (index : Nat) (memo : Memo),
    (effectsFrom tree calls id index ds memo).2 =
      calls.answerAll (allRequests tree calls id index ds memo) memo := by
  intro ds
  induction ds with
  | nil => intro index memo; rfl
  | cons d rest ih =>
    intro index memo
    rw [allRequests, Calls.answerAll_append, ← expand_memo tree calls id index, ← ih]
    rfl

end Resolution

/-- A draft with the effects of further directives. -/
def Draft.addEffects (draft : Draft) (effects : List Resolution.Effect) : Draft where
  contributions := draft.contributions ++ effects.flatMap (·.contributions)
  gaps := draft.gaps ++ effects.filterMap (·.gap)
  plans := draft.plans ++ effects.map (·.plan)

namespace Resolution

variable (tree : ModuleTree) (calls : Calls)

/-- A draft is its start and the effects of the directives. -/
theorem draftFrom_eq (id : ModuleId) : ∀ (ds : List Directive) (index : Nat) (draft : Draft) (memo : Memo),
    draftFrom tree calls id index ds draft memo =
      (draft.addEffects (effectsFrom tree calls id index ds memo).1,
        (effectsFrom tree calls id index ds memo).2) := by
  intro ds
  induction ds with
  | nil => intro index draft memo; simp [draftFrom, effectsFrom, Draft.addEffects]
  | cons d rest ih =>
    intro index draft memo
    simp only [draftFrom, ih]
    cases hgap : (expand tree calls id index d memo).1.gap <;>
      simp [effectsFrom, Draft.addEffects, hgap]

/-! ## Whole operations -/

/-- The memo in which an operation makes its calls. -/
def entered : Request → Memo → Memo
  | .resolve id, memo => memo.set id .open
  | .lookup _ parent name, memo => { memo with pending := (parent, name) :: memo.pending }

/-- Whether an operation does anything. -/
def isNew : Request → Memo → Bool
  | .resolve id, memo => memo.isUnvisited id
  | .lookup _ parent name, memo => !memo.pending.contains (parent, name)

/-- The calls for looking up a name, in the memo in which that is under way. -/
def findRequests (user parent : ModuleId) (name : String) (memo : Memo) : List Request :=
  match memo.done? parent with
  | some _ => []
  | none =>
    let m := tree.get parent
    match m.symbols.find? fun s => s.name == name with
    | some _ => []
    | none =>
      match (listedPins m).find? fun p => p.2.exportedName == some name with
      | some (d, pin) => pinRequests tree parent d pin
      | none =>
        let targets := m.directives.filterMap (target? tree parent)
        let through := targetRequests tree calls user parent name targets memo
        match findWildcard tree calls user parent name targets memo with
        | (some _, _) => through
        | (none, after) =>
          if reenters tree after user parent then through else through ++ [.resolve parent]

/-- The calls that an operation makes once it is entered. -/
def requests : Request → Memo → List Request
  | .resolve id, memo => allRequests tree calls id 0 (tree.get id).directives memo
  | .lookup user parent name, memo => findRequests tree calls user parent name memo

theorem find_memo (user parent : ModuleId) (name : String) (memo : Memo) :
    (find tree calls user parent name memo).2 =
      calls.answerAll (findRequests tree calls user parent name memo) memo := by
  unfold find findRequests
  cases memo.done? parent with
  | some resolved => rfl
  | none =>
    simp only
    cases (tree.get parent).symbols.find? fun s => s.name == name with
    | some s => rfl
    | none =>
      simp only [findPinned_eq]
      cases hpin : (listedPins (tree.get parent)).find? fun p => p.2.exportedName == some name with
      | some p =>
        obtain ⟨d, pin⟩ := p
        have hname : pin.exportedName = some name := by simpa using List.find?_some hpin
        rw [← pin?_memo tree calls]
        simp [pin?, hname]
      | none =>
        simp only
        have hthrough := findWildcard_memo tree calls user parent name
          ((tree.get parent).directives.filterMap (target? tree parent)) memo
        generalize findWildcard tree calls user parent name _ memo = found at hthrough ⊢
        obtain ⟨_ | entry, after⟩ := found
        · simp only at hthrough ⊢
          split_ifs with hre
          · exact hthrough
          · rw [Calls.answerAll_append, ← hthrough]
            rfl
        · exact hthrough

/-- The record of a module whose directives have these effects. -/
def record (id : ModuleId) (effects : List Effect) : Resolved :=
  ((ownDraft (tree.get id)).addEffects effects).settle (tree.get id)

/-- Resolving a module: open it, make the calls, and put down what they gave. -/
theorem resolveModule_eq (id : ModuleId) (memo : Memo) :
    resolveModule tree calls id memo =
      if isNew (.resolve id) memo then
        let after := effectsFrom tree calls id 0 (tree.get id).directives (entered (.resolve id) memo)
        after.2.set id (.done (record tree id after.1))
      else memo := by
  simp only [resolveModule, draftFrom_eq, isNew, entered, record]
  rfl

theorem lookup_memo (user parent : ModuleId) (name : String) (memo : Memo) :
    (lookup tree calls user parent name memo).2 =
      if isNew (.lookup user parent name) memo then
        let after := calls.answerAll (requests tree calls (.lookup user parent name)
          (entered (.lookup user parent name) memo)) (entered (.lookup user parent name) memo)
        { after with pending := after.pending.tail }
      else memo := by
  by_cases h : memo.pending.contains (parent, name)
  · simp only [lookup, isNew, h]
    rfl
  · simp only [lookup, isNew, h, requests, entered, ← find_memo]
    rfl

end Resolution

/-! ## Growth -/

/-- Every call only adds finished modules to a memo. -/
def Calls.Grow (calls : Calls) : Prop :=
  ∀ r memo, Memo.Grows memo (calls.answer r memo)

theorem Calls.Grow.all {calls : Calls} (h : calls.Grow) :
    ∀ (rs : List Request) (memo : Memo), Memo.Grows memo (calls.answerAll rs memo) := by
  intro rs
  induction rs with
  | nil => intro memo; exact .refl memo
  | cons r rest ih => intro memo; exact (h r memo).trans (ih _)

namespace Resolution

variable (tree : ModuleTree) {inner : Calls} (h : inner.Grow)

include h

theorem effectsFrom_grows (id : ModuleId) (index : Nat) (ds : List Directive) (memo : Memo) :
    Memo.Grows memo (effectsFrom tree inner id index ds memo).2 := by
  rw [effectsFrom_memo]
  exact h.all _ _

theorem resolveModule_grows (id : ModuleId) (memo : Memo) :
    Memo.Grows memo (resolveModule tree inner id memo) := by
  rw [resolveModule_eq]
  split_ifs with hnew
  · have hid : memo.get id = .unvisited := Memo.isUnvisited_iff.1 hnew
    have hin := effectsFrom_grows tree h id 0 (tree.get id).directives (entered (.resolve id) memo)
    refine ⟨by simpa [entered] using hin.size, hin.pending, fun other => ?_⟩
    by_cases hother : id = other
    · subst hother
      by_cases hlt : id < memo.progress.size
      · refine .inr ⟨hid, _, Memo.get_set_self _ ?_⟩
        rw [hin.size]
        simpa [entered] using hlt
      · refine .inl ?_
        rw [hid]
        apply Memo.get_of_size_le
        rw [Memo.size_set, hin.size]
        simpa [entered] using hlt
    · simp only [Memo.get_set_ne _ hother]
      have := hin.get other
      rwa [entered, Memo.get_set_ne _ hother] at this
  · exact .refl memo

theorem lookup_grows (user parent : ModuleId) (name : String) (memo : Memo) :
    Memo.Grows memo (lookup tree inner user parent name memo).2 := by
  rw [lookup_memo]
  split_ifs with hnew
  · have hin := h.all (requests tree inner (.lookup user parent name)
      (entered (.lookup user parent name) memo)) (entered (.lookup user parent name) memo)
    -- the calls leave the name on top of the names under way, so it is this one that is taken off
    exact ⟨hin.size, congrArg List.tail hin.pending, hin.get⟩
  · exact .refl memo

omit h in
/-- Every call only adds finished modules to a memo. -/
theorem calls_grow (tree : ModuleTree) (depth : Nat) : (calls tree depth).Grow := by
  induction depth with
  | zero =>
    intro r memo
    cases r <;> exact .refl memo
  | succ depth ih =>
    intro r memo
    cases r with
    | resolve id => exact resolveModule_grows tree ih id memo
    | lookup user parent name => exact lookup_grows tree ih user parent name memo

end Resolution

end Reexport
