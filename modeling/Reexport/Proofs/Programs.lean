import Mathlib.Tactic.Common
import Reexport.Grammar.Parse

/-!
# Running grammar programs

What a run of a program does, stated for its words, so that later proofs need not unfold
them. A run only ever moves forwards: what is left at its end is an end of what was left
at its start.

Results:

* `exec_bind`: a run of one program after another.
* `exec_ends`: what a run can end with.
* `parse_leads`: runs move forwards.
-/

namespace Reexport.Grammar

open Source

/-! ## Outcomes -/

/-- Goes on after a run that has a result. -/
def Outcome.bind {α β : Type} (o : Outcome α) (next : α → State → Outcome β) : Outcome β :=
  match o with
  | .ok value state => next value state
  | .refused place => .refused place
  | .exhausted => .exhausted

@[simp] theorem Outcome.bind_ok {α β : Type} (value : α) (state : State) (next : α → State → Outcome β) :
    (Outcome.ok value state).bind next = next value state := rfl

@[simp] theorem Outcome.bind_refused {α β : Type} (place : Place) (next : α → State → Outcome β) :
    (Outcome.refused place).bind next = .refused place := rfl

@[simp] theorem Outcome.bind_exhausted {α β : Type} (next : α → State → Outcome β) :
    (Outcome.exhausted).bind next = .exhausted := rfl

@[simp] theorem Outcome.bind_id {α : Type} (o : Outcome α) : (o.bind fun value state => .ok value state) = o := by
  cases o <;> rfl

theorem Outcome.bind_assoc {α β γ : Type} (o : Outcome α) (f : α → State → Outcome β)
    (g : β → State → Outcome γ) :
    (o.bind f).bind g = o.bind fun value state => (f value state).bind g := by
  cases o <;> rfl

theorem Outcome.bind_congr {α β : Type} {o : Outcome α} {f g : α → State → Outcome β}
    (h : ∀ value state, f value state = g value state) : o.bind f = o.bind g := by
  cases o with
  | ok value state => exact h value state
  | refused => rfl
  | exhausted => rfl

theorem Outcome.bind_eq_ok {α β : Type} {o : Outcome α} {next : α → State → Outcome β} {value : β}
    {state : State} (h : o.bind next = .ok value state) :
    ∃ first middle, o = .ok first middle ∧ next first middle = .ok value state := by
  cases o with
  | ok first middle => exact ⟨first, middle, rfl, h⟩
  | refused place => cases h
  | exhausted => cases h

/-! ## The words of programs -/

section Words

attribute [local simp] Prog.exec

variable {α β : Type} (calls : (nt : Nonterminal) → State → Outcome nt.Result) (s : State)

theorem exec_bind (p : Prog α) (f : α → Prog β) : ∀ (s : State),
    (p >>= f).exec calls s = (p.exec calls s).bind fun value state => (f value).exec calls state := by
  have h : ∀ s, (p.bind f).exec calls s =
      (p.exec calls s).bind fun value state => (f value).exec calls state := by
    induction p with
    | done value => intro s; rfl
    | refuse place => intro s; rfl
    | mark next ih => intro s; exact ih _ _
    | ask skip cls next ih => intro s; exact ih _ _
    | braced next ih => intro s; exact ih _ _
    | take cls next ih =>
      intro s
      simp only [Prog.bind, Prog.exec]
      cases cls.read? s.rest with
      | none => rfl
      | some read => exact ih _ _
    | inside d content next ih =>
      intro s
      simp only [Prog.bind, Prog.exec]
      split
      · split
        · split
          · exact ih _ _
          · rfl
          · rfl
        · rfl
      · rfl
    | call nt next ih =>
      intro s
      simp only [Prog.bind, Prog.exec]
      split
      · exact ih _ _
      · rfl
      · rfl
    | attempt nt next ih =>
      intro s
      simp only [Prog.bind, Prog.exec]
      split
      · exact ih _ _
      · exact ih _ _
      · rfl
    | ahead nt next ih =>
      intro s
      simp only [Prog.bind, Prog.exec]
      split
      · exact ih _ _
      · exact ih _ _
      · rfl
  exact h

/-- What a run takes: a tree of the class, with its text. -/
def State.taking (s : State) (cls : Class) : Outcome String :=
  match cls.read? s.rest with
  | some (text, rest) => .ok text { s with rest := rest, braced := opensBrace s.rest }
  | none => .refused s.place

@[simp] theorem exec_pure (value : α) : (pure value : Prog α).exec calls s = .ok value s := rfl

@[simp] theorem exec_refused : (refused : Prog α).exec calls s = .refused s.place := rfl

@[simp] theorem exec_refusedAt (place : Place) :
    (refusedAt place : Prog α).exec calls s = .refused place := rfl

@[simp] theorem exec_here : here.exec calls s = .ok s.place s := rfl

@[simp] theorem exec_isNext (cls : Class) :
    (isNext cls).exec calls s = .ok (cls.read? s.rest).isSome s := rfl

@[simp] theorem exec_isNotNext (cls : Class) :
    (isNotNext cls).exec calls s = .ok (!(cls.read? s.rest).isSome) s := rfl

@[simp] theorem exec_isSecond (cls : Class) :
    (isSecond cls).exec calls s = .ok (cls.read? (s.rest.drop 1)).isSome s := rfl

@[simp] theorem exec_isNotSecond (cls : Class) :
    (isNotSecond cls).exec calls s = .ok (!(cls.read? (s.rest.drop 1)).isSome) s := rfl

@[simp] theorem exec_isAny (classes : List Class) :
    (isAny classes).exec calls s = .ok (classes.any fun cls => (cls.read? s.rest).isSome) s := by
  induction classes with
  | nil => rfl
  | cons cls rest ih =>
    simp only [isAny, Prog.exec, List.drop_zero, List.any_cons]
    cases (cls.read? s.rest).isSome with
    | true => rfl
    | false => simpa using ih

@[simp] theorem exec_textOf (cls : Class) : (textOf cls).exec calls s = s.taking cls := by
  rw [textOf, Prog.exec, State.taking]
  cases cls.read? s.rest <;> rfl

@[simp] theorem exec_expect (cls : Class) :
    (expect cls).exec calls s = (s.taking cls).bind fun _ state => .ok () state := by
  simp only [expect, Prog.exec, State.taking]
  cases cls.read? s.rest <;> rfl

@[simp] theorem exec_optional (cls : Class) : (optional cls).exec calls s =
    if (cls.read? s.rest).isSome then (s.taking cls).bind fun _ state => .ok true state
    else .ok false s := by
  simp only [optional, Prog.exec, State.taking, List.drop_zero]
  cases hread : cls.read? s.rest with
  | none => rfl
  | some read => simp [hread]

@[simp] theorem exec_done (value : α) : (Prog.done value).exec calls s = .ok value s := rfl

@[simp] theorem exec_calling (nt : Nonterminal) (next : nt.Result → Prog α) :
    (Prog.call nt next).exec calls s =
      (calls nt s).bind fun value state => (next value).exec calls state := by
  simp only [Prog.exec]
  cases calls nt s <;> rfl

/-- A run of a rule on the content of the group that comes next. -/
def State.entering (s : State) (d : Delimiter) (nt : Nonterminal) : Outcome nt.Result :=
  match s.rest with
  | .group e trees :: rest =>
    if d = e then (calls nt (s.enter trees rest)).bind fun value inner => .ok value (s.leave d rest inner)
    else .refused s.place
  | _ => .refused s.place

@[simp] theorem exec_inside (d : Delimiter) (nt : Nonterminal) (next : nt.Result → Prog α) :
    (Prog.inside d nt next).exec calls s =
      (s.entering calls d nt).bind fun value state => (next value).exec calls state := by
  rw [Prog.exec, State.entering]
  rcases s.rest with _ | ⟨_ | ⟨e, trees⟩, rest⟩
  · rfl
  · rfl
  · simp only
    split_ifs
    · cases calls nt (s.enter trees rest) <;> rfl
    · rfl

/-- What a rule would result in. -/
def State.wondering (s : State) (nt : Nonterminal) : Outcome (Option nt.Result) :=
  match calls nt { s with stray := none } with
  | .ok value _ => .ok (some value) s
  | .refused _ => .ok none s
  | .exhausted => .exhausted

@[simp] theorem exec_ahead (nt : Nonterminal) (next : Option nt.Result → Prog α) :
    (Prog.ahead nt next).exec calls s =
      (s.wondering calls nt).bind fun value state => (next value).exec calls state := by
  simp only [Prog.exec, State.wondering]
  cases calls nt { s with stray := none } <;> rfl

@[simp] theorem exec_ite (c : Prop) [Decidable c] (p q : Prog α) :
    (if c then p else q).exec calls s = if c then p.exec calls s else q.exec calls s := by
  split_ifs <;> rfl

end Words

/-! ## What programs end with -/

/-- Whatever a program meets, it only ends with values that satisfy `P`. -/
def Prog.Ends {α : Type} (P : α → Prop) : Prog α → Prop
  | .done value => P value
  | .refuse _ => True
  | .mark next => ∀ place, (next place).Ends P
  | .ask _ _ next => ∀ b, (next b).Ends P
  | .braced next => ∀ b, (next b).Ends P
  | .take _ next => ∀ text, (next text).Ends P
  | .inside _ _ next => ∀ value, (next value).Ends P
  | .call _ next => ∀ value, (next value).Ends P
  | .attempt _ next => ∀ value, (next value).Ends P
  | .ahead _ next => ∀ value, (next value).Ends P

/-- What the second program ends with. -/
theorem Prog.Ends.bind {α β : Type} {P : β → Prop} (p : Prog α) {f : α → Prog β}
    (h : ∀ value, (f value).Ends P) : (p >>= f).Ends P := by
  have hbind : (p.bind f).Ends P := by
    induction p with
    | done value => exact h value
    | refuse => trivial
    | _ => simpa only [Prog.bind, Prog.Ends]
  exact hbind

theorem Prog.Ends.ite {α : Type} {P : α → Prop} {c : Prop} [Decidable c] {p q : Prog α}
    (hp : p.Ends P) (hq : q.Ends P) : (if c then p else q).Ends P := by
  split_ifs
  · exact hp
  · exact hq

theorem exec_ends {α : Type} {calls : (nt : Nonterminal) → State → Outcome nt.Result} {P : α → Prop}
    {p : Prog α} (hp : p.Ends P) : ∀ {s later : State} {value : α},
    p.exec calls s = .ok value later → P value := by
  induction p with
  | done _ => intro s later value h; cases h; exact hp
  | refuse _ => intro s later value h; cases h
  | mark next ih => intro s later value h; exact ih _ (hp _) h
  | ask skip cls next ih => intro s later value h; exact ih _ (hp _) h
  | braced next ih => intro s later value h; exact ih _ (hp _) h
  | take cls next ih =>
    intro s later value h
    rw [Prog.exec] at h
    split at h
    · exact ih _ (hp _) h
    · cases h
  | inside d content next ih =>
    intro s later value h
    rw [exec_inside] at h
    obtain ⟨_, _, -, h⟩ := Outcome.bind_eq_ok h
    exact ih _ (hp _) h
  | call nt next ih =>
    intro s later value h
    rw [exec_calling] at h
    obtain ⟨_, _, -, h⟩ := Outcome.bind_eq_ok h
    exact ih _ (hp _) h
  | attempt nt next ih =>
    intro s later value h
    rw [Prog.exec] at h
    split at h
    · exact ih _ (hp _) h
    · exact ih _ (hp _) h
    · cases h
  | ahead nt next ih =>
    intro s later value h
    rw [exec_ahead] at h
    obtain ⟨_, _, -, h⟩ := Outcome.bind_eq_ok h
    exact ih _ (hp _) h

/-! ## Runs move forwards -/

/-- What is left in `later` is an end of what is left in `s`, in the same group. -/
structure State.Leads (s later : State) : Prop where
  rest : later.rest <:+ s.rest
  after : later.after = s.after

theorem State.Leads.refl (s : State) : s.Leads s := ⟨List.suffix_refl _, rfl⟩

theorem State.Leads.trans {a b c : State} (hab : a.Leads b) (hbc : b.Leads c) : a.Leads c :=
  ⟨hbc.rest.trans hab.rest, hbc.after.trans hab.after⟩

theorem sizeAll_append (as bs : List Tree) : sizeAll (as ++ bs) = sizeAll as + sizeAll bs := by
  induction as with
  | nil => simp [sizeAll]
  | cons a as ih => simp [sizeAll, ih, Nat.add_assoc]

theorem afterOp?_suffix {cs : List Char} {trees rest : List Tree}
    (h : afterOp? cs trees = some rest) : rest <:+ trees := by
  fun_induction afterOp? cs trees with
  | case1 c joint ts =>
    cases h
    exact List.suffix_cons _ _
  | case2 => cases h
  | case3 c cs joint ts _ _ _ ih => exact (ih h).trans (List.suffix_cons _ _)
  | case4 => cases h
  | case5 => cases h

theorem read?_suffix {cls : Class} {trees rest : List Tree} {text : String}
    (h : cls.read? trees = some (text, rest)) : rest <:+ trees := by
  unfold Class.read? at h
  split at h
  all_goals try split_ifs at h
  all_goals
    first
    | (obtain ⟨after, hafter, heq⟩ := Option.map_eq_some_iff.1 h
       cases heq
       exact afterOp?_suffix hafter)
    | (cases h
       exact List.suffix_refl _)
    | (cases h
       exact List.suffix_cons _ _)
    | (cases h
       exact (List.suffix_cons _ _).trans (List.suffix_cons _ _))
    | cases h

theorem State.taking_eq_ok {s later : State} {cls : Class} {text : String}
    (h : s.taking cls = .ok text later) :
    ∃ rest, cls.read? s.rest = some (text, rest) ∧
      later = { s with rest := rest, braced := opensBrace s.rest } := by
  unfold State.taking at h
  split at h
  · rename_i rest hread
    cases h
    exact ⟨_, hread, rfl⟩
  · cases h

theorem exec_leads {α : Type} {calls : (nt : Nonterminal) → State → Outcome nt.Result}
    (hcalls : ∀ nt s value later, calls nt s = .ok value later → s.Leads later) (p : Prog α) :
    ∀ {s later : State} {value : α}, p.exec calls s = .ok value later → s.Leads later := by
  induction p with
  | done _ => intro s later value h; cases h; exact .refl s
  | refuse _ => intro s later value h; cases h
  | mark next ih => intro s later value h; exact ih _ h
  | ask skip cls next ih => intro s later value h; exact ih _ h
  | braced next ih => intro s later value h; exact ih _ h
  | take cls next ih =>
    intro s later value h
    simp only [Prog.exec] at h
    split at h
    · rename_i hread
      have hfirst : s.Leads { s with rest := _, braced := opensBrace s.rest } :=
        ⟨read?_suffix hread, rfl⟩
      exact hfirst.trans (ih _ h)
    · cases h
  | inside d content next ih =>
    intro s later value h
    simp only [Prog.exec] at h
    split at h
    · rename_i e trees rest hrest
      split at h
      · split at h
        · rename_i inner _
          have hfirst : s.Leads (s.leave d rest inner) :=
            ⟨by rw [hrest]; exact List.suffix_cons _ _, rfl⟩
          exact hfirst.trans (ih _ h)
        · cases h
        · cases h
      · cases h
    · cases h
  | call nt next ih =>
    intro s later value h
    simp only [Prog.exec] at h
    split at h
    · rename_i hcall
      exact (hcalls _ _ _ _ hcall).trans (ih _ h)
    · cases h
    · cases h
  | attempt nt next ih =>
    intro s later value h
    simp only [Prog.exec] at h
    split at h
    · rename_i value' middle hcall
      have hmiddle := hcalls _ _ _ _ hcall
      have hfirst : s.Leads { middle with stray := s.stray.or middle.stray } :=
        ⟨hmiddle.rest, hmiddle.after⟩
      exact hfirst.trans (ih _ h)
    · exact ih _ h
    · cases h
  | ahead nt next ih =>
    intro s later value h
    simp only [Prog.exec] at h
    split at h
    · exact ih _ h
    · exact ih _ h
    · cases h

/-- Runs move forwards. -/
theorem parse_leads : ∀ (fuel : Nat) (nt : Nonterminal) (s : State) (value : nt.Result) (later : State),
    parse fuel nt s = .ok value later → s.Leads later := by
  intro fuel
  induction fuel with
  | zero => intro nt s value later h; cases h
  | succ fuel ih => intro nt s value later h; exact exec_leads ih nt.rule h

end Reexport.Grammar
