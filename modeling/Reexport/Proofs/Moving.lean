import Reexport.Proofs.UseItems

/-!
# Runs with more to follow
-/

namespace Reexport

mutual

/-- The same tree with other knowledge of where its stars stand. -/
def UseTree.map {ι κ : Type} (f : ι → κ) : UseTree ι → UseTree κ
  | .path segment rest => .path segment (rest.map f)
  | .name name => .name name
  | .rename name newName => .rename name newName
  | .glob star => .glob (f star)
  | .group items => .group (mapAll f items)

/-- The same members with other knowledge of where their stars stand. -/
def mapAll {ι κ : Type} (f : ι → κ) : List (UseTree ι) → List (UseTree κ)
  | [] => []
  | tree :: rest => tree.map f :: mapAll f rest

end

namespace Grammar

open Source

/-! ## Results -/

/-- A visibility when `δ` lexemes more follow. -/
def Visibility.moved (δ : Nat) : Visibility → Visibility
  | .inherited => .inherited
  | .restricted => .restricted
  | .visible place => .visible (place + δ)

@[simp] theorem Visibility.moved_beq_inherited (δ : Nat) (vis : Visibility) :
    (vis.moved δ == .inherited) = (vis == .inherited) := by
  cases vis <;> rfl

@[simp] theorem Visibility.moved_bne_inherited (δ : Nat) (vis : Visibility) :
    (vis.moved δ != .inherited) = (vis != .inherited) := by
  cases vis <;> rfl

def PatternShape.moved (δ : Nat) : PatternShape → PatternShape
  | .rest => .rest
  | .openRange dots => .openRange (dots + δ)
  | .other => .other

def Parameter.moved (δ : Nat) : Parameter → Parameter
  | .receiver place => .receiver (place + δ)
  | .typed => .typed
  | .variadic => .variadic

def UseItem.moved (δ : Nat) (u : UseItem) : UseItem :=
  ⟨u.visibility.moved δ, u.word + δ, u.absolute, u.tree.map (· + δ), u.semicolon + δ⟩

def Item.moved (δ : Nat) : Item → Item
  | .declaration vis kind name place => .declaration (vis.moved δ) kind name (place + δ)
  | .imports u => .imports (u.moved δ)
  | .other => .other

/-- What a rule results in when `δ` lexemes more follow. -/
def Nonterminal.moved (δ : Nat) : (nt : Nonterminal) → nt.Result → nt.Result
  | .visibility, vis => vis.moved δ
  | .pattern, shape | .patterns, shape => shape.moved δ
  | .signature _, (name, place) => (name, place + δ)
  | .receiver, place => place + δ
  | .item, found | .itemAfterAttributes, found => found.moved δ
  | .items, found | .unit, found => found.map (Item.moved δ)
  | .useTree _, tree => tree.map (UseTree.map (· + δ))
  | .useGroup _, trees => trees.map (mapAll (· + δ))
  | _, result => result

/-! ## Programs -/

/-- Classes of trees that start with neither of the words `pub` and `use`. -/
def Class.foreign : Class → Bool
  | .nothing => false
  | .word => false
  | .keyword s => s != "pub" && s != "use"
  | _ => true

/-- Rules that may run outside all groups. -/
def Nonterminal.onTop : Nonterminal → Bool
  | .commas _ | .repeated _ | .attributeContent | .parenType | .sliceType | .functionTypeParameters _
  | .constMark | .sliceElement | .structPattern | .standingExpr | .parenExpr | .parenExprRest
  | .arrayExpr | .structFields | .fieldValue | .arm | .matchBody | .blockBody _ | .statements
  | .restriction | .signatureAhead _ | .callAhead | .parameters .. | .receiver | .items | .useGroup _
  | .namedField | .unnamedField | .variant | .body _ | .moduleBody | .associatedItem _ | .unit => false
  | _ => true

/-- The rule for the words in front of `fn`. -/
def Nonterminal.isHead : Nonterminal → Bool
  | .signatureAhead safe => !safe
  | _ => false

theorem Nonterminal.eq_of_isHead {nt : Nonterminal} (h : nt.isHead = true) : nt = .signatureAhead false := by
  cases nt with
  | signatureAhead safe =>
    cases safe
    · rfl
    · cases h
  | _ => cases h

/-- Two programs that differ only by places. -/
inductive Prog.Alike (δ : Nat) (top : Bool) {α : Type} (f : α → α) : Nat → Prog α → Prog α → Prop
  | done {k : Nat} {value value' : α} : value' = f value → Prog.Alike δ top f k (.done value) (.done value')
  | refuse {k : Nat} {place place' : Option Place} : place' = place.map (· + δ) →
      Prog.Alike δ top f k (.refuse place) (.refuse place')
  | mark {k : Nat} {next next' : Place → Prog α} :
      (∀ place, Prog.Alike δ top f k (next place) (next' (place + δ))) →
      Prog.Alike δ top f k (.mark next) (.mark next')
  | ask {k skip : Nat} {cls : Class} {next next' : Bool → Prog α} : skip ≤ k + 1 →
      Prog.Alike δ top f k (next false) (next' false) →
      Prog.Alike δ top f (if cls.foreign then max k (skip + 1) else k) (next true) (next' true) →
      Prog.Alike δ top f k (.ask skip cls next) (.ask skip cls next')
  | braced {k : Nat} {next next' : Bool → Prog α} : (∀ b, Prog.Alike δ top f k (next b) (next' b)) →
      Prog.Alike δ top f k (.braced next) (.braced next')
  | take {k : Nat} {cls : Class} {next next' : String → Prog α} :
      (∀ text, Prog.Alike δ top f 0 (next text) (next' text)) →
      Prog.Alike δ top f k (.take cls next) (.take cls next')
  | inside {k : Nat} {d : Delimiter} {content : Nonterminal} {next next' : content.Result → Prog α} :
      (∀ value, Prog.Alike δ top f 0 (next value) (next' (content.moved δ value))) →
      Prog.Alike δ top f k (.inside d content next) (.inside d content next')
  | call {k : Nat} {nt : Nonterminal} {next next' : nt.Result → Prog α} : (!top || nt.onTop) = true →
      (∀ value, Prog.Alike δ top f 0 (next value) (next' (nt.moved δ value))) →
      Prog.Alike δ top f k (.call nt next) (.call nt next')
  | attempt {k : Nat} {nt : Nonterminal} {next next' : Option nt.Result → Prog α} : top = false →
      (∀ value, Prog.Alike δ top f 0 (next value) (next' (value.map fun found => nt.moved δ found))) →
      Prog.Alike δ top f k (.attempt nt next) (.attempt nt next')
  | ahead {k : Nat} {nt : Nonterminal} {next next' : Option nt.Result → Prog α} :
      (!top || nt.isHead) = true →
      (∀ value, Prog.Alike δ top f 0 (next value) (next' (value.map fun found => nt.moved δ found))) →
      Prog.Alike δ top f k (.ahead nt next) (.ahead nt next')

namespace Prog.Alike

variable {δ k : Nat} {top : Bool} {α β : Type} {f : α → α} {g : β → β}

theorem mono {p p' : Prog α} (h : Prog.Alike δ top f k p p') : ∀ {k' : Nat}, k ≤ k' →
    Prog.Alike δ top f k' p p' := by
  induction h with
  | done h => intro k' hk; exact .done h
  | refuse h => intro k' hk; exact .refuse h
  | mark _ ih => intro k' hk; exact .mark fun place => ih place hk
  | ask hskip _ _ ihno ihyes =>
    intro k' hk
    refine .ask (by omega) (ihno hk) (ihyes ?_)
    split_ifs <;> omega
  | braced _ ih => intro k' hk; exact .braced fun b => ih b hk
  | take h => intro k' hk; exact .take h
  | inside h => intro k' hk; exact .inside h
  | call htop h => intro k' hk; exact .call htop h
  | attempt htop h => intro k' hk; exact .attempt htop h
  | ahead htop h => intro k' hk; exact .ahead htop h

/-- What may run outside all groups may run inside one. -/
theorem inner {p p' : Prog α} (h : Prog.Alike δ top f k p p') : Prog.Alike δ false f k p p' := by
  induction h with
  | done h => exact .done h
  | refuse h => exact .refuse h
  | mark _ ih => exact .mark ih
  | ask hskip _ _ ihno ihyes => exact .ask hskip ihno ihyes
  | braced _ ih => exact .braced ih
  | take _ ih => exact .take ih
  | inside _ ih => exact .inside ih
  | call _ _ ih => exact .call rfl ih
  | attempt _ _ ih => exact .attempt rfl ih
  | ahead _ _ ih => exact .ahead rfl ih

/-- One program after another. -/
theorem bind {p p' : Prog α} {next next' : α → Prog β} (h : Prog.Alike δ top f k p p')
    (hnext : ∀ value, Prog.Alike δ top g 0 (next value) (next' (f value))) :
    Prog.Alike δ top g k (p >>= next) (p' >>= next') := by
  have hbind : Prog.Alike δ top g k (p.bind next) (p'.bind next') := by
    induction h with
    | done h => exact h ▸ (hnext _).mono (Nat.zero_le _)
    | refuse h => exact .refuse h
    | mark _ ih => exact .mark ih
    | ask hskip _ _ ihno ihyes => exact .ask hskip ihno ihyes
    | braced _ ih => exact .braced ih
    | take _ ih => exact .take ih
    | inside _ ih => exact .inside ih
    | call htop _ ih => exact .call htop ih
    | attempt htop _ ih => exact .attempt htop ih
    | ahead htop _ ih => exact .ahead htop ih
  exact hbind

/-- A program whose result holds no places, and another one after it. -/
theorem andThen {p : Prog α} {next next' : α → Prog β} (h : Prog.Alike δ top id k p p)
    (hnext : ∀ value, Prog.Alike δ top g 0 (next value) (next' value)) :
    Prog.Alike δ top g k (p >>= next) (p >>= next') :=
  h.bind hnext

theorem ite {c : Prop} [Decidable c] {p p' q q' : Prog α} (hp : Prog.Alike δ top f k p p')
    (hq : Prog.Alike δ top f k q q') :
    Prog.Alike δ top f k (if c then p else q) (if c then p' else q') := by
  split_ifs
  · exact hp
  · exact hq

end Prog.Alike

section Words

variable {δ k : Nat} {top : Bool} {α : Type} {f : α → α}

theorem alike_pure {value value' : α} (h : value' = f value) :
    Prog.Alike δ top f k (pure value) (pure value') := .done h

@[simp] theorem alike_refused : Prog.Alike δ top f k refused refused := .refuse rfl

@[simp] theorem alike_refusedAt (place : Place) :
    Prog.Alike δ top f k (refusedAt place) (refusedAt (place + δ)) := .refuse rfl

theorem alike_refusedAt_bind {β : Type} {next next' : β → Prog α} (place : Place) :
    Prog.Alike δ top f k (refusedAt place >>= next) (refusedAt (place + δ) >>= next') := .refuse rfl

@[simp] theorem alike_braced : Prog.Alike δ top id k (.braced .done) (.braced .done) :=
  .braced fun _ => .done rfl

theorem alike_here {next next' : Place → Prog α}
    (h : ∀ place, Prog.Alike δ top f k (next place) (next' (place + δ))) :
    Prog.Alike δ top f k (here >>= next) (here >>= next') := .mark h

@[simp] theorem alike_isNext (cls : Class) : Prog.Alike δ top id k (isNext cls) (isNext cls) :=
  .ask (Nat.zero_le _) (.done rfl) (.done rfl)

@[simp] theorem alike_isNotNext (cls : Class) : Prog.Alike δ top id k (isNotNext cls) (isNotNext cls) :=
  .ask (Nat.zero_le _) (.done rfl) (.done rfl)

@[simp] theorem alike_isSecond (cls : Class) : Prog.Alike δ top id k (isSecond cls) (isSecond cls) :=
  .ask (by omega) (.done rfl) (.done rfl)

@[simp] theorem alike_isNotSecond (cls : Class) : Prog.Alike δ top id k (isNotSecond cls) (isNotSecond cls) :=
  .ask (by omega) (.done rfl) (.done rfl)

@[simp] theorem alike_isThird (cls : Class) : Prog.Alike δ top id (k + 1) (isThird cls) (isThird cls) :=
  .ask (by omega) (.done rfl) (.done rfl)

@[simp] theorem alike_isNotThird (cls : Class) : Prog.Alike δ top id (k + 1) (isNotThird cls) (isNotThird cls) :=
  .ask (by omega) (.done rfl) (.done rfl)

@[simp] theorem alike_isAny (classes : List Class) : Prog.Alike δ top id k (isAny classes) (isAny classes) := by
  induction classes with
  | nil => exact .done rfl
  | cons cls rest ih => exact .ask (Nat.zero_le _) ih (.done rfl)

@[simp] theorem alike_isAnySecond (classes : List Class) :
    Prog.Alike δ top id k (isAnySecond classes) (isAnySecond classes) := by
  induction classes with
  | nil => exact .done rfl
  | cons cls rest ih => exact .ask (by omega) ih (.done rfl)

@[simp] theorem alike_isAnyThird (classes : List Class) :
    Prog.Alike δ top id (k + 1) (isAnyThird classes) (isAnyThird classes) := by
  induction classes with
  | nil => exact .done rfl
  | cons cls rest ih => exact .ask (by omega) ih (.done rfl)

@[simp] theorem alike_firstOf {γ : Type} (table : List (Class × γ)) :
    Prog.Alike δ top id k (firstOf table) (firstOf table) := by
  induction table with
  | nil => exact .done rfl
  | cons entry rest ih => exact .ask (Nat.zero_le _) ih (.done rfl)

@[simp] theorem alike_optional (cls : Class) : Prog.Alike δ top id k (optional cls) (optional cls) :=
  .ask (Nat.zero_le _) (.done rfl) (.take fun _ => .done rfl)

@[simp] theorem alike_expect (cls : Class) : Prog.Alike δ top id k (expect cls) (expect cls) :=
  .take fun _ => .done rfl

@[simp] theorem alike_textOf (cls : Class) : Prog.Alike δ top id k (textOf cls) (textOf cls) :=
  .take fun _ => .done rfl

theorem alike_run (nt : Nonterminal) (h : (!top || nt.onTop) = true) :
    Prog.Alike δ top id k (run nt) (run nt) :=
  .call h fun _ => .done rfl

@[simp] theorem alike_runInside (d : Delimiter) (nt : Nonterminal) :
    Prog.Alike δ top id k (runInside d nt) (runInside d nt) :=
  .inside fun _ => .done rfl

theorem alike_call {nt : Nonterminal} {next next' : nt.Result → Prog α} (h : (!top || nt.onTop) = true)
    (hnext : ∀ value, Prog.Alike δ top f 0 (next value) (next' (nt.moved δ value))) :
    Prog.Alike δ top f k (call nt >>= next) (call nt >>= next') :=
  .call h hnext

theorem alike_inside {d : Delimiter} {nt : Nonterminal} {next next' : nt.Result → Prog α}
    (hnext : ∀ value, Prog.Alike δ top f 0 (next value) (next' (nt.moved δ value))) :
    Prog.Alike δ top f k (inside d nt >>= next) (inside d nt >>= next') :=
  .inside hnext

theorem alike_attempt {nt : Nonterminal} {next next' : Option nt.Result → Prog α} (h : top = false)
    (hnext : ∀ value, Prog.Alike δ top f 0 (next value) (next' (value.map fun found => nt.moved δ found))) :
    Prog.Alike δ top f k (attempt nt >>= next) (attempt nt >>= next') :=
  .attempt h hnext

theorem alike_wouldBe {nt : Nonterminal} {next next' : Option nt.Result → Prog α}
    (h : (!top || nt.isHead) = true)
    (hnext : ∀ value, Prog.Alike δ top f 0 (next value) (next' (value.map fun found => nt.moved δ found))) :
    Prog.Alike δ top f k (wouldBe nt >>= next) (wouldBe nt >>= next') :=
  .ahead h hnext

theorem alike_and {p q : Prog Bool} (hp : Prog.Alike δ top id k p p) (hq : Prog.Alike δ top id 0 q q) :
    Prog.Alike δ top id k (p <&&> q) (p <&&> q) := by
  refine hp.bind fun b => ?_
  cases b with
  | true => exact hq
  | false => exact .done rfl

theorem alike_or {p q : Prog Bool} (hp : Prog.Alike δ top id k p p) (hq : Prog.Alike δ top id 0 q q) :
    Prog.Alike δ top id k (p <||> q) (p <||> q) := by
  refine hp.bind fun b => ?_
  cases b with
  | true => exact .done rfl
  | false => exact hq

theorem alike_not {p : Prog Bool} (hp : Prog.Alike δ top id k p p) :
    Prog.Alike δ top id k ((! ·) <$> p) ((! ·) <$> p) :=
  hp.bind fun _ => .done rfl

theorem alike_isNext_and {cls : Class} {q : Prog Bool}
    (hq : Prog.Alike δ top id (if cls.foreign then 1 else 0) q q) :
    Prog.Alike δ top id k (isNext cls <&&> q) (isNext cls <&&> q) := by
  refine .ask (Nat.zero_le _) (.done rfl) (hq.mono ?_)
  split_ifs <;> omega

theorem alike_isSecond_and {cls : Class} {q : Prog Bool}
    (hq : Prog.Alike δ top id (if cls.foreign then 2 else 0) q q) :
    Prog.Alike δ top id k (isSecond cls <&&> q) (isSecond cls <&&> q) := by
  refine .ask (by omega) (.done rfl) (hq.mono ?_)
  split_ifs <;> omega

end Words

end Grammar
end Reexport
