import Mathlib.Tactic.Common
import Reexport.Resolution

/-!
# What a memo knows

Reading a memo after it was set, and the order in which memos come about: a call
leaves every module as it found it, except that modules nobody had visited may be
done afterwards.

Results:

* `Grows.trans`: two calls one after the other are one such change.
* `Grows.get_done`, `Grows.get_open_iff`: what is done stays as it is, and the same
  modules are open.
-/

namespace Reexport.Memo

/-! ## Reading and setting -/

@[simp] theorem size_set (memo : Memo) (id : Nat) (p : Progress) :
    (memo.set id p).progress.size = memo.progress.size := by
  simp [set]

@[simp] theorem pending_set (memo : Memo) (id : Nat) (p : Progress) :
    (memo.set id p).pending = memo.pending := rfl

theorem get_of_size_le {memo : Memo} {id : Nat} (h : memo.progress.size ≤ id) :
    memo.get id = .unvisited := by
  simp only [get, Array.getD, dif_neg (Nat.not_lt.2 h)]

theorem lt_of_get_ne {memo : Memo} {id : Nat} (h : memo.get id ≠ .unvisited) :
    id < memo.progress.size := by
  by_contra hlt
  exact h (get_of_size_le (by omega))

theorem get_set_self {memo : Memo} {id : Nat} (p : Progress) (h : id < memo.progress.size) :
    (memo.set id p).get id = p := by
  simp [get, set, Array.getD, h]

theorem get_set_ne {memo : Memo} {id other : Nat} (p : Progress) (h : id ≠ other) :
    (memo.set id p).get other = memo.get other := by
  by_cases hlt : other < memo.progress.size
  · simp [get, set, Array.getD, hlt, h]
  · rw [get_of_size_le (by simpa using hlt), get_of_size_le (by simpa using hlt)]

theorem set_of_size_le {memo : Memo} {id : Nat} (p : Progress) (h : memo.progress.size ≤ id) :
    memo.set id p = memo := by
  simp [set, Array.setIfInBounds, Nat.not_lt.2 h]

theorem get_start (size id : Nat) : (start size).get id = .unvisited := by
  by_cases h : id < size
  · simp [get, start, Array.getD, h]
  · exact get_of_size_le (by simpa [start] using h)

theorem done?_eq_some_iff {memo : Memo} {id : Nat} {r : Resolved} :
    memo.done? id = some r ↔ memo.get id = .done r := by
  unfold done?
  cases memo.get id <;> simp

theorem isOpen_iff {memo : Memo} {id : Nat} : memo.isOpen id = true ↔ memo.get id = .open := by
  unfold isOpen
  cases memo.get id <;> simp

theorem isUnvisited_iff {memo : Memo} {id : Nat} :
    memo.isUnvisited id = true ↔ memo.get id = .unvisited := by
  unfold isUnvisited
  cases memo.get id <;> simp

/-- Opening a module adds no record. -/
theorem get_done_of_set_open {memo : Memo} {id other : Nat} {r : Resolved}
    (h : (memo.set id .open).get other = .done r) : memo.get other = .done r := by
  by_cases hne : id = other
  · subst hne
    by_cases hlt : id < memo.progress.size
    · rw [get_set_self _ hlt] at h
      cases h
    · rwa [set_of_size_le _ (by simpa using hlt)] at h
  · rwa [get_set_ne _ hne] at h

/-- Putting down a record adds that one. -/
theorem get_done_of_set_done {memo : Memo} {id other : Nat} {r r' : Resolved}
    (h : (memo.set id (.done r')).get other = .done r) :
    (other = id ∧ r = r') ∨ memo.get other = .done r := by
  by_cases hne : id = other
  · subst hne
    by_cases hlt : id < memo.progress.size
    · rw [get_set_self _ hlt] at h
      cases h
      exact .inl ⟨rfl, rfl⟩
    · rw [set_of_size_le _ (by simpa using hlt)] at h
      exact .inr h
  · rw [get_set_ne _ hne] at h
    exact .inr h

/-! ## Growth -/

/-- What calls do to a memo: a module stays as it is, or nobody had visited it and
    it is done. -/
structure Grows (a b : Memo) : Prop where
  size : b.progress.size = a.progress.size
  pending : b.pending = a.pending
  get : ∀ id : Nat, b.get id = a.get id ∨ (a.get id = .unvisited ∧ ∃ r, b.get id = .done r)

namespace Grows

@[refl] theorem refl (a : Memo) : Grows a a := ⟨rfl, rfl, fun _ => .inl rfl⟩

theorem trans {a b c : Memo} (hab : Grows a b) (hbc : Grows b c) : Grows a c := by
  refine ⟨hbc.size.trans hab.size, hbc.pending.trans hab.pending, fun id => ?_⟩
  rcases hab.get id with h1 | ⟨h1, r, h2⟩
  · rw [← h1]
    exact hbc.get id
  · rcases hbc.get id with h3 | ⟨h3, -⟩
    · exact .inr ⟨h1, r, h3.trans h2⟩
    · rw [h3] at h2
      cases h2

variable {a b : Memo} (h : Grows a b) {id : Nat}

include h

theorem get_done {r : Resolved} (hr : a.get id = .done r) : b.get id = .done r := by
  rcases h.get id with h1 | ⟨h1, -⟩
  · rw [h1, hr]
  · rw [hr] at h1
    cases h1

theorem get_open_iff : b.get id = .open ↔ a.get id = .open := by
  rcases h.get id with h1 | ⟨h1, r, h2⟩
  · rw [h1]
  · rw [h1, h2]
    simp

theorem unvisited_of_unvisited (hb : b.get id = .unvisited) : a.get id = .unvisited := by
  rcases h.get id with h1 | ⟨h1, -⟩
  · rw [← h1, hb]
  · exact h1

end Grows

end Reexport.Memo
