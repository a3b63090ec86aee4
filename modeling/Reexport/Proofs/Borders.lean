import Reexport.Proofs.MovedRules
namespace Reexport.Grammar
open Source

theorem read?_first {cls : Class} (hop : ∀ text longer, cls ≠ .op text longer) (hliteral : cls ≠ .literal)
    (t : Tree) (ts ts' : List Tree) :
    cls.read? (t :: ts') = (cls.read? (t :: ts)).map fun read => (read.1, ts') := by
  have hite : ∀ (c : Prop) [Decidable c] (text : String), (if c then some (text, ts') else none) =
      (if c then some (text, ts) else none).map fun read => (read.1, ts') := by
    intro c _ text
    split_ifs <;> rfl
  cases cls with
  | op text longer => exact absurd rfl (hop text longer)
  | literal => exact absurd rfl hliteral
  | restriction =>
    rcases t with _ | ⟨_ | _ | _, _ | ⟨(⟨_ | _, w⟩ | _ | _ | _) | _, _ | _⟩⟩
    all_goals first | rfl | exact hite _ _
  | restrictionPath =>
    rcases t with _ | ⟨_ | _ | _, _ | ⟨(⟨_ | _, w⟩ | _ | _ | _) | _, content⟩⟩
    all_goals first | rfl | skip
    by_cases hw : w = "in"
    · subst hw; rfl
    · simp [Class.read?, hw]
  | _ =>
    rcases t with (⟨_ | _, w⟩ | _ | _ | ⟨_ | _, _⟩) | _
    all_goals first | rfl | exact hite _ _


theorem afterOp?_before_word (raw : Bool) (word : String) (others : List Tree) :
    ∀ (trees : List Tree) (cs : List Char), afterOp? cs (trees ++ .leaf (.word raw word) :: others) =
      (afterOp? cs trees).map (· ++ .leaf (.word raw word) :: others) := by
  intro trees
  induction trees with
  | nil =>
    intro cs
    rcases cs with _ | ⟨c, _ | ⟨d, cs⟩⟩ <;> rfl
  | cons t ts ih =>
    intro cs
    rcases t with (_ | _ | ⟨e, joint⟩ | _) | _ <;> rcases cs with _ | ⟨c, _ | ⟨d, cs⟩⟩
    all_goals first | rfl | skip
    · by_cases he : c = e <;> simp [afterOp?, he]
    · by_cases he : c = e ∧ joint <;> simp [afterOp?, he, ih]

/-- A run of trees that ends in front of a word is read without the word. -/
theorem read?_before_word (cls : Class) (raw : Bool) (word : String) {trees : List Tree} (htrees : trees ≠ [])
    (others : List Tree) : cls.read? (trees ++ .leaf (.word raw word) :: others) =
      (cls.read? trees).map fun read => (read.1, read.2 ++ .leaf (.word raw word) :: others) := by
  obtain ⟨t, ts, rfl⟩ := List.exists_cons_of_ne_nil htrees
  cases cls with
  | op text longer =>
    simp only [Class.read?, afterOp?_before_word, Option.isSome_map]
    split_ifs
    · rfl
    · simp [Option.map_map, Function.comp_def]
  | literal =>
    rcases t with (⟨_ | _, w⟩ | _ | ⟨c, joint⟩ | _) | _
    all_goals try rfl
    · simp only [List.cons_append, Class.read?]
      split_ifs <;> rfl
    · by_cases hc : c = '-'
      · subst hc
        rcases ts with _ | ⟨(_ | _ | _ | ⟨_ | _, _⟩) | _, ts⟩ <;> rfl
      · simp [Class.read?, hc]
  | _ =>
    rw [List.cons_append, read?_first (by simp) (by simp) t ts (ts ++ _),
      read?_first (by simp) (by simp) t ts ts]
    simp [Option.map_map, Function.comp_def]

/-- What is read up to a word does not depend on what follows the word. -/
theorem isSome_read?_word (cls : Class) (raw : Bool) (word : String) (trees others others' : List Tree) :
    (cls.read? (trees ++ .leaf (.word raw word) :: others)).isSome =
      (cls.read? (trees ++ .leaf (.word raw word) :: others')).isSome := by
  by_cases htrees : trees = []
  · subst htrees
    cases cls with
    | op text longer =>
      have hop : ∀ cs others, afterOp? cs (.leaf (.word raw word) :: others) = none := fun cs others => by
        rcases cs with _ | ⟨c, _ | _⟩ <;> rfl
      simp [Class.read?, hop]
    | literal =>
      cases raw
      · simp only [List.nil_append, Class.read?]
        split_ifs <;> rfl
      · rfl
    | _ =>
      rw [List.nil_append, List.nil_append, read?_first (by simp) (by simp) _ others' others, Option.isSome_map]
  · rw [read?_before_word cls raw word htrees, read?_before_word cls raw word htrees, Option.isSome_map,
      Option.isSome_map]

/-- What follows the trees that a run may take, before and after a change: nothing, or an item
    that starts with `pub use`. -/
inductive Border : (top : Bool) → List Tree → List Tree → Prop where
  | ends : Border false [] []
  | item (others others' : List Tree) :
      Border true (.leaf (.word false "pub") :: .leaf (.word false "use") :: others)
        (.leaf (.word false "pub") :: .leaf (.word false "use") :: others')

theorem read?_foreign {cls : Class} (hcls : cls.foreign = true) {word : String} (hword : word = "pub" ∨ word = "use")
    (ts : List Tree) : cls.read? (.leaf (.word false word) :: ts) = none := by
  cases cls with
  | nothing => cases hcls
  | word => cases hcls
  | keyword s =>
    have hne : word ≠ s := by
      rintro rfl
      rcases hword with rfl | rfl <;> cases hcls
    simp [Class.read?, hne]
  | op s longer =>
    have hop : ∀ cs, afterOp? cs (.leaf (.word false word) :: ts) = none := fun cs => by
      rcases cs with _ | ⟨c, _ | _⟩ <;> rfl
    simp [Class.read?, hop]
  | name | literal =>
    rcases hword with rfl | rfl <;> rfl
  | _ => rfl

section Border

variable {top : Bool} {others others' : List Tree} (hborder : Border top others others')
include hborder

/-- Looking at most one tree past the border, a run sees what it saw before the change. -/
theorem Border.isSome_read? {skip : Nat} {front : List Tree} (hskip : skip ≤ front.length + 1) (cls : Class) :
    (cls.read? ((front ++ others').drop skip)).isSome = (cls.read? ((front ++ others).drop skip)).isSome := by
  cases hborder with
  | ends => rfl
  | item others others' =>
    by_cases hle : skip ≤ front.length
    · rw [List.drop_append_of_le_length hle, List.drop_append_of_le_length hle]
      exact isSome_read?_word ..
    · obtain rfl : skip = front.length + 1 := by omega
      have hone : ∀ ts : List Tree, (front ++ .leaf (.word false "pub") :: ts).drop (front.length + 1) = ts := by
        intro ts
        rw [List.drop_append]
        simp
      rw [hone, hone]
      exact isSome_read?_word cls false "use" [] _ _

/-- A class that neither `pub` nor `use` belongs to is only found in front of the border. -/
theorem Border.lt_of_foreign {skip : Nat} {front : List Tree} (hskip : skip ≤ front.length + 1) {cls : Class}
    (hcls : cls.foreign = true) (h : (cls.read? ((front ++ others).drop skip)).isSome = true) :
    skip < front.length := by
  by_contra hlt
  have hnone : cls.read? ((front ++ others).drop skip) = none := by
    cases hborder with
    | ends =>
      have hdrop : (front ++ []).drop skip = [] := List.drop_eq_nil_of_le (by simpa using hlt)
      rw [hdrop]
      cases cls with
      | nothing => cases hcls
      | op s longer =>
        have hnil : ∀ cs, afterOp? cs [] = none := fun cs => by rcases cs with _ | ⟨c, _ | _⟩ <;> rfl
        simp [Class.read?, hnil]
      | _ => rfl
    | item others others' =>
      rw [List.drop_append, List.drop_eq_nil_of_le (Nat.le_of_not_lt hlt), List.nil_append]
      obtain hzero | hone : skip - front.length = 0 ∨ skip - front.length = 1 := by omega
      · rw [hzero]
        exact read?_foreign hcls (.inl rfl) _
      · rw [hone]
        exact read?_foreign hcls (.inr rfl) _
  rw [hnone] at h
  cases h

/-- A class that is read in front of the border is read there after the change. -/
theorem Border.read? {cls : Class} {front rest : List Tree} {text : String}
    (h : cls.read? (front ++ others) = some (text, rest ++ others)) :
    cls.read? (front ++ others') = some (text, rest ++ others') := by
  cases hborder with
  | ends => exact h
  | item others others' =>
    by_cases hfront : front = []
    · -- a tree behind the border would have to be read
      subst hfront
      exfalso
      cases cls with
      | op | literal =>
        rw [List.nil_append, read?_foreign rfl (.inl rfl)] at h
        cases h
      | _ =>
        rw [List.nil_append, read?_first (by simp) (by simp) _ [] _] at h
        obtain ⟨read, -, heq⟩ := Option.map_eq_some_iff.1 h
        have hlength := congrArg List.length (Prod.mk.inj heq).2
        simp only [List.length_cons, List.length_append] at hlength
        omega
    · rw [read?_before_word _ _ _ hfront] at h ⊢
      obtain ⟨⟨found, middle⟩, hread, heq⟩ := Option.map_eq_some_iff.1 h
      obtain ⟨rfl, hmiddle⟩ := Prod.mk.inj heq
      rw [hread, Option.map_some, List.append_cancel_right hmiddle]

end Border

/-! ## States and outcomes -/

/-- The same state before and after a change behind the border, by which `δ` lexemes more follow. -/
structure State.Moved (δ : Nat) (others others' : List Tree) (s s' : State) : Prop where
  rest : ∃ front, s.rest = front ++ others ∧ s'.rest = front ++ others'
  after : sizeAll others' + s'.after = sizeAll others + s.after + δ
  stray : s'.stray = s.stray.map (· + δ)
  braced : s'.braced = s.braced

/-- A run that does not reach the border, before and after the change. Inside groups, where nothing
    stands behind the border, runs are refused alike as well. -/
structure Outcome.Moved {α : Type} (δ : Nat) (others others' : List Tree) (top : Bool) (f : α → α)
    (o o' : Outcome α) : Prop where
  ok : ∀ value later, o = .ok value later → others <:+ later.rest →
    ∃ later', o' = .ok (f value) later' ∧ later.Moved δ others others' later'
  refused : top = false → ∀ place, o = .refused place → o' = .refused (place + δ)

theorem Outcome.Moved.exhausted {α : Type} {δ : Nat} {others others' : List Tree} {top : Bool} {f : α → α}
    (o' : Outcome α) : Outcome.Moved δ others others' top f .exhausted o' :=
  ⟨fun _ _ h => (by cases h), fun _ _ h => (by cases h)⟩

section Runs

variable {δ : Nat} {top : Bool} {others others' : List Tree} {s s' : State}

theorem State.Moved.place (h : s.Moved δ others others' s') : s'.place = s.place + δ := by
  obtain ⟨front, hrest, hrest'⟩ := h.rest
  have hafter := h.after
  show sizeAll s'.rest + s'.after = sizeAll s.rest + s.after + δ
  rw [hrest, hrest', sizeAll_append, sizeAll_append]
  omega

/-- The state at the border. -/
theorem State.Moved.reached (h : s.Moved δ others others' s') (hrest : s.rest = others) :
    s' = ⟨others', s'.after, s.stray.map (· + δ), s.braced⟩ := by
  obtain ⟨front, hfront, hrest'⟩ := h.rest
  have hnil : front = [] := List.self_eq_append_left.1 (hrest.symm.trans hfront)
  rw [State.mk.injEq]
  exact ⟨by rw [hrest', hnil, List.nil_append], rfl, h.stray, h.braced⟩

theorem State.Moved.length_le (h : s.Moved δ others others' s') : others.length ≤ s.rest.length := by
  obtain ⟨front, hrest, -⟩ := h.rest
  simp [hrest]

theorem State.Moved.fresh (h : s.Moved δ others others' s') :
    State.Moved δ others others' { s with stray := none } { s' with stray := none } :=
  ⟨h.rest, h.after, rfl, h.braced⟩

theorem Border.opensBrace (hborder : Border top others others') (front : List Tree) :
    opensBrace (front ++ others') = opensBrace (front ++ others) := by
  cases hborder with
  | ends => rfl
  | item => rcases front with _ | ⟨_ | ⟨_ | _ | _, _⟩, _⟩ <;> rfl

/-- The state after some trees have been taken. -/
theorem State.Moved.taken (h : s.Moved δ others others' s') (hborder : Border top others others')
    (rest : List Tree) :
    State.Moved δ others others' { s with rest := rest ++ others, braced := Grammar.opensBrace s.rest }
      { s' with rest := rest ++ others', braced := Grammar.opensBrace s'.rest } := by
  obtain ⟨front, hrest, hrest'⟩ := h.rest
  refine ⟨⟨rest, rfl, rfl⟩, h.after, h.stray, ?_⟩
  show Grammar.opensBrace s'.rest = Grammar.opensBrace s.rest
  rw [hrest, hrest', hborder.opensBrace]

/-- A group that comes next stands in front of the border. -/
theorem State.Moved.group (h : s.Moved δ others others' s') (hborder : Border top others others')
    {d : Delimiter} {trees rest : List Tree} (hgroup : s.rest = .group d trees :: rest) :
    ∃ front, rest = front ++ others ∧ s'.rest = .group d trees :: (front ++ others') := by
  obtain ⟨front, hrest, hrest'⟩ := h.rest
  cases front with
  | nil =>
    rw [hgroup] at hrest
    cases hborder <;> cases hrest
  | cons t front =>
    rw [hgroup] at hrest
    obtain ⟨rfl, rfl⟩ := List.cons.inj hrest
    exact ⟨front, rfl, hrest'⟩

theorem State.Moved.enter (h : s.Moved δ others others' s') (trees front : List Tree) :
    (s.enter trees (front ++ others)).Moved δ [] [] (s'.enter trees (front ++ others')) := by
  have hafter := h.after
  refine ⟨⟨trees, by simp [State.enter], by simp [State.enter]⟩, ?_, h.stray, rfl⟩
  simp only [State.enter, sizeAll_append]
  omega

theorem State.Moved.leave (h : s.Moved δ others others' s') (d : Delimiter) (front : List Tree)
    {inner inner' : State} (hinner : inner.Moved δ [] [] inner') :
    (s.leave d (front ++ others) inner).Moved δ others others' (s'.leave d (front ++ others') inner') := by
  obtain ⟨left, hrest, hrest'⟩ := hinner.rest
  have hplace := hinner.place
  refine ⟨⟨front, rfl, rfl⟩, h.after, ?_, rfl⟩
  simp only [State.leave, hrest, hrest', hinner.stray, hplace]
  cases inner.stray <;> cases left <;> rfl

theorem Outcome.Moved.of_suffix {α : Type} {f : α → α} {o o' : Outcome α} (hborder : Border top others others')
    {rest : List Tree} (hleads : ∀ value later, o = .ok value later → later.rest <:+ rest)
    (h : others <:+ rest → Outcome.Moved δ others others' top f o o') :
    Outcome.Moved δ others others' top f o o' := by
  by_cases hsuffix : others <:+ rest
  · exact h hsuffix
  · refine ⟨fun value later hok hlater => ?_, fun htop => ?_⟩
    · exact absurd (hlater.trans (hleads value later hok)) hsuffix
    · cases hborder with
      | ends => exact absurd List.nil_suffix hsuffix
      | item => cases htop

theorem Outcome.Moved.bind {α β : Type} {f : α → α} {g : β → β} {o o' : Outcome α}
    {next next' : α → State → Outcome β} (hborder : Border top others others')
    (ho : Outcome.Moved δ others others' top f o o')
    (hleads : ∀ value state found later, next value state = .ok found later → later.rest <:+ state.rest)
    (hnext : ∀ value state state', state.Moved δ others others' state' →
      Outcome.Moved δ others others' top g (next value state) (next' (f value) state')) :
    Outcome.Moved δ others others' top g (o.bind next) (o'.bind next') := by
  cases ho' : o with
  | ok value state =>
    refine .of_suffix hborder (hleads value state) fun hsuffix => ?_
    obtain ⟨state', rfl, hstate⟩ := ho.ok value state ho' hsuffix
    exact hnext value state state' hstate
  | refused place =>
    refine ⟨fun _ _ hok => (by cases hok), fun htop _ hplace => ?_⟩
    cases hplace
    rw [ho.refused htop place ho', Outcome.bind_refused]
  | exhausted => exact .exhausted _

variable {calls calls' : (nt : Nonterminal) → State → Outcome nt.Result}

theorem State.Moved.entering (h : s.Moved δ others others' s') (hborder : Border top others others')
    {d : Delimiter} {nt : Nonterminal} (hcall : ∀ s s' : State, s.Moved δ [] [] s' →
      Outcome.Moved δ [] [] false (nt.moved δ) (calls nt s) (calls' nt s')) :
    Outcome.Moved δ others others' top (nt.moved δ) (s.entering calls d nt) (s'.entering calls' d nt) := by
  have hother : s.entering calls d nt = .refused s.place → (s'.rest = s.rest → s'.entering calls' d nt = .refused s'.place) →
      Outcome.Moved δ others others' top (nt.moved δ) (s.entering calls d nt) (s'.entering calls' d nt) := by
    intro hs hs'
    rw [hs]
    refine ⟨fun _ _ hok => (by cases hok), fun htop _ hplace => ?_⟩
    cases hplace
    obtain ⟨front, hrest, hrest'⟩ := h.rest
    cases hborder with
    | ends => rw [hs' (hrest'.trans hrest.symm), h.place]
    | item => cases htop
  rcases hgroup : s.rest with _ | ⟨t | ⟨e, trees⟩, rest⟩
  · exact hother (by simp [State.entering, hgroup]) fun hs' => by simp [State.entering, hs', hgroup]
  · exact hother (by simp [State.entering, hgroup]) fun hs' => by simp [State.entering, hs', hgroup]
  · by_cases hd : d = e
    · subst hd
      obtain ⟨front, rfl, hrest'⟩ := h.group hborder hgroup
      simp only [State.entering, hgroup, hrest', if_true]
      have hin := hcall _ _ (h.enter trees front)
      cases hcalls : calls nt (s.enter trees (front ++ others)) with
      | ok value inner =>
        obtain ⟨inner', hok, hinner⟩ := hin.ok value inner hcalls List.nil_suffix
        rw [hok]
        refine ⟨fun _ _ hok _ => ?_, fun _ _ hrefused => (by cases hrefused)⟩
        cases hok
        exact ⟨_, rfl, h.leave d front hinner⟩
      | refused place =>
        rw [hin.refused rfl place hcalls]
        refine ⟨fun _ _ hok => (by cases hok), fun _ _ hplace => ?_⟩
        cases hplace
        rfl
      | exhausted => exact .exhausted _
    · exact hother (by simp [State.entering, hgroup, hd]) fun hs' => by simp [State.entering, hs', hgroup, hd]

/-- What a run of a program does after a change behind the border, given what calls do. -/
theorem exec_moved (hborder : Border top others others')
    (hleads : ∀ nt s value later, calls nt s = .ok value later → s.Leads later)
    (hinner : ∀ nt s s', s.Moved δ [] [] s' →
      Outcome.Moved δ [] [] false (nt.moved δ) (calls nt s) (calls' nt s'))
    (hcalls : ∀ nt, (!top || nt.onTop) = true → ∀ s s', s.Moved δ others others' s' →
      Outcome.Moved δ others others' top (nt.moved δ) (calls nt s) (calls' nt s'))
    (hahead : top = true → ∀ s s', s.Moved δ others others' s' →
      State.wondering calls s (.signatureAhead false) = .exhausted ∨
      ∃ found, State.wondering calls s (.signatureAhead false) = .ok found s ∧
        State.wondering calls' s' (.signatureAhead false) = .ok found s')
    {α : Type} {f : α → α} {k : Nat} {p p' : Prog α} (h : Prog.Alike δ top f k p p') :
    ∀ {s s' : State}, s.Moved δ others others' s' → k + others.length ≤ s.rest.length →
      Outcome.Moved δ others others' top f (p.exec calls s) (p'.exec calls' s') := by
  have hsuffix : ∀ {β : Type} (p : Prog β) (s : State) (value : β) (later : State),
      p.exec calls s = .ok value later → later.rest <:+ s.rest :=
    fun p s value later hok => (exec_leads hleads p hok).rest
  induction h with
  | done heq =>
    intro s s' hs _
    refine ⟨fun value later hok _ => ?_, fun _ _ hrefused => (by cases hrefused)⟩
    cases hok
    exact ⟨s', by rw [← heq]; rfl, hs⟩
  | @refuse k place place' heq =>
    intro s s' hs _
    refine ⟨fun _ _ hok => (by cases hok), fun _ _ hrefused => ?_⟩
    cases hrefused
    subst heq
    cases place with
    | none => simp only [Prog.exec, Option.map_none, Option.getD_none, hs.place]
    | some place => rfl
  | mark _ ih =>
    intro s s' hs hk
    simp only [Prog.exec, hs.place]
    exact ih _ hs hk
  | @ask k skip cls next next' hskip _ _ ihno ihyes =>
    intro s s' hs hk
    obtain ⟨front, hrest, hrest'⟩ := hs.rest
    rw [hrest, List.length_append] at hk
    have hle : skip ≤ front.length + 1 := by omega
    have hsame := hborder.isSome_read? hle cls
    simp only [Prog.exec]
    rw [hrest', hsame, ← hrest]
    cases hread : (cls.read? (s.rest.drop skip)).isSome with
    | false => exact ihno hs (by rw [hrest, List.length_append]; omega)
    | true =>
      refine ihyes hs ?_
      split_ifs with hcls
      · have hlt := hborder.lt_of_foreign hle hcls (by rw [← hrest]; exact hread)
        rw [hrest, List.length_append]
        omega
      · rw [hrest, List.length_append]
        omega
  | braced _ ih =>
    intro s s' hs hk
    simp only [Prog.exec, hs.braced]
    exact ih _ hs hk
  | @take k cls next next' _ ih =>
    intro s s' hs _
    obtain ⟨front, hrest, hrest'⟩ := hs.rest
    cases hread : cls.read? s.rest with
    | none =>
      have hrefused : (Prog.take cls next).exec calls s = .refused s.place := by simp [Prog.exec, hread]
      rw [hrefused]
      refine ⟨fun _ _ hok => (by cases hok), fun htop place hplace => ?_⟩
      cases hplace
      cases hborder with
      | ends => simp [Prog.exec, hrest', ← hrest, hread, hs.place]
      | item => cases htop
    | some read =>
      obtain ⟨text, rest⟩ := read
      have hexec : (Prog.take cls next).exec calls s =
          (next text).exec calls { s with rest := rest, braced := opensBrace s.rest } := by
        simp [Prog.exec, hread]
      rw [hexec]
      refine .of_suffix hborder (hsuffix _ _) fun ⟨middle, hmiddle⟩ => ?_
      simp only at hmiddle
      subst hmiddle
      rw [hrest] at hread
      have hexec' : (Prog.take cls next').exec calls' s' =
          (next' text).exec calls' { s' with rest := middle ++ others', braced := opensBrace s'.rest } := by
        simp [Prog.exec, hrest', hborder.read? hread]
      rw [hexec']
      exact ih text (hs.taken hborder middle) (by simp)
  | @inside k d content next next' _ ih =>
    intro s s' hs _
    rw [exec_inside, exec_inside]
    exact (hs.entering hborder (hinner content)).bind hborder (fun _ _ => hsuffix _ _)
      fun value state state' hstate => ih value hstate (by simpa using hstate.length_le)
  | @call k nt next next' htop _ ih =>
    intro s s' hs _
    rw [exec_calling, exec_calling]
    exact (hcalls nt htop s s' hs).bind hborder (fun _ _ => hsuffix _ _)
      fun value state state' hstate => ih value hstate (by simpa using hstate.length_le)
  | @attempt k nt next next' htop _ ih =>
    intro s s' hs _
    have hcall := hcalls nt (by rw [htop]; rfl) _ _ hs.fresh
    have hnil : others = [] := by
      cases hborder with
      | ends => rfl
      | item => cases htop
    simp only [Prog.exec]
    cases hout : calls nt { s with stray := none } with
    | ok value later =>
      obtain ⟨later', hout', hlater⟩ := hcall.ok value later hout (by simp [hnil])
      rw [hout']
      refine ih (some value) ⟨hlater.rest, hlater.after, ?_, hlater.braced⟩ (by simpa using hlater.length_le)
      simp only [hs.stray, hlater.stray]
      cases s.stray <;> rfl
    | refused place =>
      rw [hcall.refused htop place hout]
      exact ih none hs (by simpa using hs.length_le)
    | exhausted => exact .exhausted _
  | @ahead k nt next next' htop _ ih =>
    intro s s' hs _
    have hlength : 0 + others.length ≤ s.rest.length := by simpa using hs.length_le
    rw [exec_ahead, exec_ahead]
    cases top with
    | true =>
      obtain rfl := Nonterminal.eq_of_isHead htop
      rcases hahead rfl s s' hs with hout | ⟨found, hout, hout'⟩
      · rw [hout]
        exact .exhausted _
      · rw [hout, hout']
        have hfound : found.map (fun found => Nonterminal.moved δ (.signatureAhead false) found) = found := by
          cases found <;> rfl
        have hnext := ih found hs hlength
        rwa [hfound] at hnext
    | false =>
      have hcall := hcalls nt rfl _ _ hs.fresh
      have hnil : others = [] := by
        cases hborder
        rfl
      unfold State.wondering
      cases hout : calls nt { s with stray := none } with
      | ok value later =>
        obtain ⟨later', hout', -⟩ := hcall.ok value later hout (by simp [hnil])
        rw [hout']
        exact ih (some value) hs hlength
      | refused place =>
        rw [hcall.refused rfl place hout]
        exact ih none hs hlength
      | exhausted => exact .exhausted _


/-! ## Signatures -/

/-- Programs that take trees of foreign classes only and call no rules. -/
inductive Prog.Shy {α : Type} : Prog α → Prop where
  | done (value : α) : Prog.Shy (.done value)
  | ask {cls : Class} {next : Bool → Prog α} : (∀ b, (next b).Shy) → Prog.Shy (.ask 0 cls next)
  | take {cls : Class} {next : String → Prog α} : cls.foreign = true → (∀ text, (next text).Shy) →
      Prog.Shy (.take cls next)

theorem Prog.Shy.bind {α β : Type} {p : Prog α} {next : α → Prog β} (h : p.Shy) (hnext : ∀ value, (next value).Shy) :
    (p >>= next).Shy := by
  have hbind : (p.bind next).Shy := by
    induction h with
    | done value => exact hnext value
    | ask _ ih => exact .ask ih
    | take hcls _ ih => exact .take hcls ih
  exact hbind

theorem Prog.Shy.optional {cls : Class} (h : cls.foreign = true) : (optional cls).Shy := by
  refine .ask fun b => ?_
  cases b with
  | true => exact .take h fun _ => .done _
  | false => exact .done _

theorem shy_signatureAhead : (Rule.signatureAhead false).Shy := by
  have hconvention : Rule.callingConvention.Shy := by
    unfold Rule.callingConvention
    refine .bind (.optional rfl) fun b => ?_
    cases b
    · exact .done _
    · exact .bind (.optional rfl) fun _ => .done _
  have hend : (Rule.callingConvention >>= fun _ => expect (kw "fn")).Shy :=
    .bind hconvention fun _ => .take rfl fun _ => .done _
  unfold Rule.signatureAhead
  refine .bind (.optional rfl) fun _ => .bind (.optional rfl) fun _ => ?_
  refine .bind (.done false) fun marked => ?_
  cases marked
  · exact .bind (.optional rfl) fun _ => hend
  · exact hend

theorem Prog.Shy.exec {α : Type} {p : Prog α} (h : p.Shy) (hborder : Border top others others') :
    ∀ {s s' : State}, s.Moved δ others others' s' →
    (∃ value later later', p.exec calls s = .ok value later ∧ p.exec calls' s' = .ok value later') ∨
    ∃ place place', p.exec calls s = .refused place ∧ p.exec calls' s' = .refused place' := by
  induction h with
  | done value => intro s s' _; exact .inl ⟨value, s, s', rfl, rfl⟩
  | @ask cls next _ ih =>
    intro s s' hs
    obtain ⟨front, hrest, hrest'⟩ := hs.rest
    have hsame := hborder.isSome_read? (Nat.zero_le (front.length + 1)) cls
    simp only [Prog.exec]
    rw [hrest', hsame, ← hrest]
    exact ih _ hs
  | @take cls next hcls _ ih =>
    intro s s' hs
    obtain ⟨front, hrest, hrest'⟩ := hs.rest
    have hsame := hborder.isSome_read? (Nat.zero_le (front.length + 1)) cls
    simp only [List.drop_zero] at hsame
    cases hread : cls.read? s.rest with
    | none =>
      rw [← hrest, ← hrest', hread, Option.isSome_none, Option.isSome_eq_false_iff, Option.isNone_iff_eq_none] at hsame
      exact .inr ⟨s.place, s'.place, by simp [Prog.exec, hread], by simp [Prog.exec, hsame]⟩
    | some read =>
      obtain ⟨text, rest⟩ := read
      have hlt := hborder.lt_of_foreign (Nat.zero_le (front.length + 1)) hcls (by
        rw [List.drop_zero, ← hrest, hread]
        rfl)
      obtain ⟨middle, rfl⟩ : ∃ middle, rest = middle ++ others := by
        cases hborder with
        | ends => exact ⟨rest, by simp⟩
        | item others others' =>
          rw [hrest, read?_before_word _ _ _ (List.ne_nil_of_length_pos hlt)] at hread
          obtain ⟨read, -, heq⟩ := Option.map_eq_some_iff.1 hread
          exact ⟨read.2, (Prod.mk.inj heq).2.symm⟩
      have hread' := hborder.read? (hrest ▸ hread)
      rw [← hrest'] at hread'
      simp only [Prog.exec, hread, hread']
      exact ih text (hs.taken hborder middle)

/-- Whether the head of a function starts is seen alike. -/
theorem wondering_signatureAhead (hborder : Border top others others') {fuel fuel' : Nat} (hfuel : fuel ≤ fuel')
    (hs : s.Moved δ others others' s') :
    State.wondering (parse fuel) s (.signatureAhead false) = .exhausted ∨
      ∃ found, State.wondering (parse fuel) s (.signatureAhead false) = .ok found s ∧
        State.wondering (parse fuel') s' (.signatureAhead false) = .ok found s' := by
  unfold State.wondering
  obtain _ | fuel := fuel
  · exact .inl rfl
  obtain ⟨fuel', rfl⟩ : ∃ n, fuel' = n + 1 := ⟨fuel' - 1, by omega⟩
  rcases @Prog.Shy.exec _ _ _ _ (parse fuel) (parse fuel') _ _ shy_signatureAhead hborder _ _ hs.fresh with
    ⟨value, later, later', hok, hok'⟩ | ⟨place, place', hrefused, hrefused'⟩
  · refine .inr ⟨some value, ?_, ?_⟩
    · simp only [parse, Nonterminal.rule, hok]
    · simp only [parse, Nonterminal.rule, hok']
  · refine .inr ⟨none, ?_, ?_⟩
    · simp only [parse, Nonterminal.rule, hrefused]
    · simp only [parse, Nonterminal.rule, hrefused']

/-! ## Rules -/

/-- Inside groups: the same trees, with `δ` lexemes more behind the group. -/
theorem parse_moved : ∀ {fuel fuel' : Nat}, fuel ≤ fuel' → ∀ (nt : Nonterminal) (s s' : State),
    s.Moved δ [] [] s' → Outcome.Moved δ [] [] false (nt.moved δ) (parse fuel nt s) (parse fuel' nt s') := by
  intro fuel
  induction fuel with
  | zero => intro fuel' _ nt s s' _; exact .exhausted _
  | succ fuel ih =>
    intro fuel' hfuel nt s s' hs
    obtain ⟨fuel', rfl⟩ : ∃ n, fuel' = n + 1 := ⟨fuel' - 1, by omega⟩
    have hcalls := ih (Nat.le_of_succ_le_succ hfuel)
    exact exec_moved .ends (parse_leads fuel) hcalls (fun nt _ => hcalls nt) (fun htop => by cases htop)
      (alike_rule nt).inner hs (by simp)

/-- Outside groups: what stands behind the border has changed. -/
theorem parse_fenced (hborder : Border true others others') : ∀ {fuel fuel' : Nat}, fuel ≤ fuel' →
    ∀ (nt : Nonterminal), nt.onTop = true → ∀ (s s' : State), s.Moved δ others others' s' →
    Outcome.Moved δ others others' true (nt.moved δ) (parse fuel nt s) (parse fuel' nt s') := by
  intro fuel
  induction fuel with
  | zero => intro fuel' _ nt _ s s' _; exact .exhausted _
  | succ fuel ih =>
    intro fuel' hfuel nt hnt s s' hs
    obtain ⟨fuel', rfl⟩ : ∃ n, fuel' = n + 1 := ⟨fuel' - 1, by omega⟩
    have hle := Nat.le_of_succ_le_succ hfuel
    have hrule := alike_rule (δ := δ) nt
    rw [hnt] at hrule
    exact exec_moved hborder (parse_leads fuel) (parse_moved hle) (fun nt hnt => ih hle nt (by simpa using hnt))
      (fun _ s s' hs => wondering_signatureAhead hborder hle hs) hrule hs (by simpa using hs.length_le)

end Runs

end Reexport.Grammar
