import Reexport.Proofs.Programs

/-!
# The rules of use items

What the rules for use trees, groups, visibilities and items do, rule by rule, as one
equation each, and what they take for it to go well.

Results:

* `read?_op_single`, `read?_op_colons`, `read?_keyword`, `read?_word`: which trees are read.
* `exec_useTree`, `exec_useGroup`, `exec_useItem`: the runs of the rules.
* `item_imports`, `parse_item_use`: which items are `use` items.
* `items_of_parseUnit`: the items of a unit are read one after the other.
-/

namespace Reexport.Grammar

open Source

/-! ## Operators and words -/

theorem afterOp?_single {c : Char} {trees rest : List Tree} :
    afterOp? [c] trees = some rest ↔ ∃ joint, trees = .leaf (.punct c joint) :: rest := by
  constructor
  · intro h
    unfold afterOp? at h
    split at h
    · split_ifs at h with hc
      rename_i heq
      cases heq
      cases h
      exact ⟨_, by rw [hc]⟩
    · rename_i hnil heq
      obtain ⟨rfl, rfl⟩ := List.cons.inj heq
      split_ifs at h
      cases h
    · cases h
  · rintro ⟨joint, rfl⟩
    simp [afterOp?]

theorem read?_op_single {text : String} {c : Char} (htext : text.toList = [c]) {trees rest : List Tree}
    {found : String} : (op text).read? trees = some (found, rest) ↔
      found = "" ∧ ∃ joint, trees = .leaf (.punct c joint) :: rest := by
  have hread : (op text).read? trees = (afterOp? [c] trees).map fun rest => ("", rest) := by
    simp [Class.read?, htext]
  rw [hread, Option.map_eq_some_iff]
  constructor
  · rintro ⟨after, hafter, heq⟩
    cases heq
    exact ⟨rfl, afterOp?_single.1 hafter⟩
  · rintro ⟨rfl, htrees⟩
    exact ⟨rest, afterOp?_single.2 htrees, rfl⟩

theorem read?_op_colons {trees rest : List Tree} {found : String} :
    (op "::").read? trees = some (found, rest) ↔ found = "" ∧ ∃ joint,
      trees = .leaf (.punct ':' true) :: .leaf (.punct ':' joint) :: rest := by
  have hread : (op "::").read? trees = (afterOp? [':', ':'] trees).map fun rest => ("", rest) := by
    simp [Class.read?]
  rw [hread, Option.map_eq_some_iff]
  constructor
  · rintro ⟨after, hafter, heq⟩
    cases heq
    refine ⟨rfl, ?_⟩
    unfold afterOp? at hafter
    split at hafter
    · rename_i heq
      cases heq
    · rename_i hne heq
      obtain ⟨rfl, rfl⟩ := List.cons.inj heq
      split_ifs at hafter with hc
      obtain ⟨rfl, rfl⟩ := hc
      obtain ⟨joint, rfl⟩ := afterOp?_single.1 hafter
      exact ⟨joint, rfl⟩
    · cases hafter
  · rintro ⟨rfl, joint, rfl⟩
    exact ⟨rest, by simp [afterOp?], rfl⟩

theorem read?_keyword {word : String} {trees rest : List Tree} {found : String} :
    (kw word).read? trees = some (found, rest) ↔
      found = word ∧ trees = .leaf (.word false word) :: rest := by
  rcases trees with _ | ⟨⟨raw, name⟩ | _ | _ | _ | _, ts⟩
  · simp [Class.read?]
  · cases raw with
    | true => simp [Class.read?]
    | false =>
      simp only [Class.read?, Option.ite_none_right_eq_some, Option.some.injEq, Prod.mk.injEq,
        List.cons.injEq, Tree.leaf.injEq, Token.word.injEq, true_and]
      constructor
      · rintro ⟨rfl, rfl, rfl⟩
        exact ⟨rfl, rfl, rfl⟩
      · rintro ⟨rfl, rfl, rfl⟩
        exact ⟨rfl, rfl, rfl⟩
  all_goals simp [Class.read?]

theorem read?_word {trees rest : List Tree} {found : String} :
    Class.word.read? trees = some (found, rest) ↔ ∃ raw, trees = .leaf (.word raw found) :: rest := by
  rcases trees with _ | ⟨⟨raw, name⟩ | _ | _ | _ | _, ts⟩
  all_goals simp [Class.read?]

/-- The classes of words that open a segment of a use tree. -/
def segmentClasses : List Class := [.name, kw "self", kw "super", kw "crate", kw "try"]

/-- Whether a word opens a segment of a use tree. -/
def OpensSegment (raw : Bool) (name : String) : Prop :=
  raw = true ∨ name ∉ keywords ∨ name ∈ ["self", "super", "crate", "try"]

theorem any_segmentClasses {trees : List Tree} :
    (segmentClasses.any fun cls => (cls.read? trees).isSome) = true ↔
      ∃ raw name ts, trees = .leaf (.word raw name) :: ts ∧ OpensSegment raw name := by
  rcases trees with _ | ⟨⟨raw, name⟩ | _ | _ | _ | _, ts⟩
  · simp [segmentClasses, Class.read?]
  · cases raw <;> simp [segmentClasses, Class.read?, OpensSegment]
  all_goals simp [segmentClasses, Class.read?]

/-- Whether a word may be a new name. -/
def NewName (raw : Bool) (name : String) : Prop := raw = true ∨ name ∉ keywords ∨ name = "_"

theorem any_newName {trees : List Tree} :
    ([Class.name, kw "_"].any fun cls => (cls.read? trees).isSome) = true ↔
      ∃ raw name ts, trees = .leaf (.word raw name) :: ts ∧ NewName raw name := by
  rcases trees with _ | ⟨⟨raw, name⟩ | _ | _ | _ | _, ts⟩
  · simp [Class.read?]
  · cases raw <;> simp [Class.read?, NewName]
  all_goals simp [Class.read?]

theorem read?_nothing {trees : List Tree} : (Class.nothing.read? trees).isSome = true ↔ trees = [] := by
  cases trees <;> simp [Class.read?]

section Taking

variable {calls : (nt : Nonterminal) → State → Outcome nt.Result}

theorem State.taking_of_read? {s : State} {cls : Class} {text : String} {rest : List Tree}
    (h : cls.read? s.rest = some (text, rest)) :
    s.taking cls = .ok text { s with rest := rest, braced := opensBrace s.rest } := by
  rw [State.taking, h]

theorem State.entering_eq_ok {s later : State} {d : Delimiter} {nt : Nonterminal} {value : nt.Result}
    (h : s.entering calls d nt = .ok value later) : ∃ content rest inner,
      s.rest = .group d content :: rest ∧ calls nt (s.enter content rest) = .ok value inner ∧
        later = s.leave d rest inner := by
  unfold State.entering at h
  split at h
  · rename_i e content rest hrest
    split_ifs at h with hd
    subst hd
    obtain ⟨value', inner, hcall, hok⟩ := Outcome.bind_eq_ok h
    cases hok
    exact ⟨content, rest, inner, hrest, hcall, rfl⟩
  · cases h

end Taking

/-! ## Use trees -/

section UseTree

variable (calls : (nt : Nonterminal) → State → Outcome nt.Result)

/-- What follows a tree that may stand next. -/
theorem bind_optional {α : Type} (cls : Class) (s : State) (next : Bool → State → Outcome α) :
    (if (cls.read? s.rest).isSome then (s.taking cls).bind fun _ state => .ok true state
      else .ok false s).bind next =
    if (cls.read? s.rest).isSome then (s.taking cls).bind fun _ state => next true state
      else next false s := by
  split_ifs
  · rw [Outcome.bind_assoc]
    rfl
  · rfl

/-- The run of a use tree. -/
theorem exec_useTree (rooted : Bool) (s : State) : (Rule.useTree rooted).exec calls s =
    if segmentClasses.any fun cls => (cls.read? s.rest).isSome then
      (s.taking .word).bind fun name s =>
        if ((op "::").read? s.rest).isSome then
          (s.taking (op "::")).bind fun _ s =>
            (calls (.useTree false) s).bind fun rest s => .ok (rest.map (.path name)) s
        else if ((kw "as").read? s.rest).isSome then
          (s.taking (kw "as")).bind fun _ s =>
            if [Class.name, kw "_"].any fun cls => (cls.read? s.rest).isSome then
              (s.taking .word).bind fun newName s => .ok (some (.rename name newName)) s
            else .refused s.place
        else .ok (some (.name name)) s
    else if ((op "*").read? s.rest).isSome then
      (s.taking (op "*")).bind fun _ after => .ok (some (.glob s.place)) after
    else if (brace.read? s.rest).isSome then
      (s.entering calls .brace (.useGroup rooted)).bind fun members s => .ok (members.map .group) s
    else .refused s.place := by
  simp only [Rule.useTree, exec_bind, exec_isAny, exec_ite, exec_textOf, exec_optional, call, inside,
    exec_calling, exec_inside, exec_done, exec_pure, exec_here, exec_isNext, exec_refused,
    Outcome.bind_ok, Outcome.bind_id, bind_optional, if_true, Bool.false_eq_true, if_false]
  rfl

/-- The run of the members of a group when the first of them does not start from the root. -/
theorem exec_useGroup {rooted : Bool} {s : State}
    (hroot : rooted = true → ((op "::").read? s.rest).isSome = false) : (Rule.useGroup rooted).exec calls s =
    if (Class.nothing.read? s.rest).isSome then .ok (some []) s
    else (calls (.useTree rooted) s).bind fun tree s₁ =>
      if (Class.nothing.read? s₁.rest).isSome then .ok (tree.map ([·])) s₁
      else (s₁.taking (op ",")).bind fun _ s₂ =>
        (calls (.useGroup rooted) s₂).bind fun rest s₃ => .ok (tree.bind fun tree => rest.map (tree :: ·)) s₃ := by
  have hfrom : (pure rooted <&&> optional (op "::") : Prog Bool).exec calls s = .ok false s := by
    cases rooted with
    | false => rfl
    | true =>
      show (optional (op "::")).exec calls s = _
      rw [exec_optional, hroot rfl]
      rfl
  simp only [Rule.useGroup, exec_bind, exec_isNext, exec_ite, exec_pure, hfrom, Outcome.bind_ok, call, exec_calling, exec_done,
    Outcome.bind_assoc, exec_expect, Bool.false_eq_true, if_false, Outcome.bind_id]
  cases rooted <;> rfl

/-- A group with a member that starts from the root has no members to tell of. -/
theorem useGroup_fromRoot {rooted : Bool} {s later : State} {members : Option (List (UseTree Place))}
    (hroot : ((op "::").read? s.rest).isSome = true) (hrooted : rooted = true)
    (h : (Rule.useGroup rooted).exec calls s = .ok members later) : members = none := by
  subst hrooted
  have hcolons : (pure true <&&> optional (op "::") : Prog Bool).exec calls s =
      (s.taking (op "::")).bind fun _ state => .ok true state := by
    show (optional (op "::")).exec calls s = _
    rw [exec_optional, if_pos hroot]
  have hnot : (Class.nothing.read? s.rest).isSome = false := by
    cases hrest : s.rest with
    | nil =>
      rw [hrest] at hroot
      cases hroot
    | cons => rfl
  simp only [Rule.useGroup, exec_bind, exec_isNext, exec_ite, exec_pure, hcolons, hnot, Outcome.bind_ok, call, exec_calling,
    exec_done, Outcome.bind_assoc, exec_expect, Bool.false_eq_true, if_false, if_true, Outcome.bind_id] at h
  obtain ⟨_, s₁, -, h⟩ := Outcome.bind_eq_ok h
  obtain ⟨_, s₂, -, h⟩ := Outcome.bind_eq_ok h
  split_ifs at h
  · cases h
    rfl
  · obtain ⟨_, s₃, -, h⟩ := Outcome.bind_eq_ok h
    obtain ⟨_, s₄, -, h⟩ := Outcome.bind_eq_ok h
    cases h
    rfl

end UseTree

/-! ## Other items -/

/-- An item that is no `use` item. -/
def Item.NotImports (item : Item) : Prop := ∀ u, item ≠ .imports u

/-- The programs of the other items. -/
def otherItems (vis : Visibility) (start : Place) : List (Prog Item) :=
  [Rule.functionItem vis, Rule.externItem vis start, Rule.staticItem vis, Rule.constRest vis,
   Rule.moduleItem vis, Rule.typeItem vis .beforeDefinition, Rule.structItem vis, Rule.enumItem vis,
   Rule.unionItem vis, Rule.traitItem vis true, Rule.traitItem vis false, Rule.implItem,
   Rule.foreignItem vis start, Rule.patternItem, Rule.callItem]

theorem otherItems_notImports (vis : Visibility) (start : Place) :
    ∀ p ∈ otherItems vis start, p.Ends Item.NotImports := by
  simp only [otherItems, List.forall_mem_cons]
  unfold Rule.functionItem Rule.externItem Rule.foreignItem Rule.staticItem Rule.constRest
    Rule.moduleItem Rule.typeItem Rule.structItem Rule.enumItem Rule.unionItem Rule.traitItem
    Rule.implItem Rule.patternItem Rule.callItem
  refine ⟨?_, ?_, ?_, ?_, ?_, ?_, ?_, ?_, ?_, ?_, ?_, ?_, ?_, ?_, ?_, by simp⟩
  all_goals
    repeat' first
      | (refine Prog.Ends.bind _ fun _ => ?_)
      | split
      | exact trivial
      | (intro u h; cases h)

/-- Only the branch for the word `use` ends with a `use` item. -/
theorem itemAfterAttributes_eq : ∃ others : Visibility → Place → Prog Item,
    (∀ vis start, (others vis start).Ends Item.NotImports) ∧
    Rule.itemAfterAttributes = (do
      let start ← here
      let vis : Visibility ← call .visibility
      if ← Rule.opensFunction false then Rule.functionItem vis
      else if ← isNext (kw "extern") then Rule.externItem vis start
      else if ← isNext (kw "use") then Rule.useItem vis
      else others vis start) := by
  refine ⟨_, fun vis start => ?_, rfl⟩
  have hother : ∀ p ∈ otherItems vis start, p.Ends Item.NotImports := otherItems_notImports vis start
  unfold Rule.unsafeItem
  repeat' first
    | (apply hother; simp only [otherItems, List.mem_cons, true_or, or_true]; done)
    | (refine Prog.Ends.bind _ fun _ => ?_)
    | (refine Prog.Ends.ite ?_ ?_)
    | exact trivial

section UseItem

variable {calls : (nt : Nonterminal) → State → Outcome nt.Result}

theorem itemAfterAttributes_imports {s later : State} {u : UseItem}
    (h : Rule.itemAfterAttributes.exec calls s = .ok (.imports u) later) :
    ∃ vis s₁, calls .visibility s = .ok vis s₁ ∧
      (∃ place, calls (.signatureAhead false) { s₁ with stray := none } = .refused place) ∧
      (Rule.useItem vis).exec calls s₁ = .ok (.imports u) later := by
  obtain ⟨others, hothers, heq⟩ := itemAfterAttributes_eq
  simp only [heq, Rule.opensFunction, exec_bind, exec_ite, exec_pure, exec_here, exec_isNext, Outcome.bind_ok, call, wouldBe, exec_ahead, exec_calling, exec_done, Outcome.bind_assoc] at h
  obtain ⟨vis, s₁, hvis, h⟩ := Outcome.bind_eq_ok h
  have hfirst : ∀ p ∈ otherItems vis s.place, ∀ s, p.exec calls s ≠ .ok (.imports u) later :=
    fun p hp s hexec => exec_ends (otherItems_notImports vis _ p hp) hexec u rfl
  unfold State.wondering at h
  split at h
  · exact absurd h (hfirst _ (by simp [otherItems]) _)
  · rename_i place hrefused
    simp only [Outcome.bind_ok, Option.isSome_none, Bool.false_eq_true, if_false] at h
    split_ifs at h
    · exact absurd h (hfirst _ (by simp [otherItems]) _)
    · exact ⟨vis, s₁, hvis, ⟨place, hrefused⟩, h⟩
    · exact absurd rfl (exec_ends (hothers _ _) h u)
  · cases h

/-! ## Visible items -/

/-- The run of a visibility. -/
theorem exec_visibility (s : State) : Rule.visibility.exec calls s =
    if ((kw "pub").read? s.rest).isSome then
      (s.taking (kw "pub")).bind fun _ s₁ =>
        if (Class.restriction.read? s₁.rest).isSome then
          (s₁.taking .restriction).bind fun _ state => .ok .restricted state
        else if (Class.restrictionPath.read? s₁.rest).isSome then
          (s₁.entering calls .paren .restriction).bind fun _ state => .ok .restricted state
        else .ok (.visible s.place) s₁
    else .ok .inherited s := by
  simp only [Rule.visibility, exec_bind, exec_here, exec_optional, exec_isNext, exec_ite, exec_pure, runInside, exec_inside,
    exec_done, Outcome.bind_ok, bind_optional, if_true, Bool.false_eq_true, if_false, Outcome.bind_assoc]

theorem visibility_visible {s later : State} {place : Place}
    (h : Rule.visibility.exec calls s = .ok (.visible place) later) :
    s.rest = .leaf (.word false "pub") :: later.rest ∧ place = s.place ∧ later = ⟨later.rest, s.after, s.stray, false⟩ := by
  rw [exec_visibility] at h
  split_ifs at h with hpub
  · obtain ⟨word, s₁, hword, h⟩ := Outcome.bind_eq_ok h
    obtain ⟨rest, hread, rfl⟩ := State.taking_eq_ok hword
    obtain ⟨-, hrest⟩ := read?_keyword.1 hread
    split_ifs at h
    · obtain ⟨_, _, -, h⟩ := Outcome.bind_eq_ok h
      cases h
    · obtain ⟨_, _, -, h⟩ := Outcome.bind_eq_ok h
      cases h
    · cases h
      exact ⟨hrest, rfl, by simp [hrest, opensBrace]⟩
  · cases h

/-! ## Use items -/

/-- The `::` in front of an absolute path, if there is one. -/
def rootTrees : Option Bool → List Tree
  | none => []
  | some joint => [.leaf (.punct ':' true), .leaf (.punct ':' joint)]

/-- The run of a `use` item. -/
theorem exec_useItem (vis : Visibility) (s : State) : (Rule.useItem vis).exec calls s =
    (s.taking (kw "use")).bind fun _ s₁ =>
      (if ((op "::").read? s₁.rest).isSome then (s₁.taking (op "::")).bind fun _ state => .ok true state
        else .ok false s₁).bind fun absolute s₂ =>
      (calls (.useTree !absolute) s₂).bind fun tree s₃ =>
      (s₃.taking (op ";")).bind fun _ s₄ =>
        .ok (tree.elim .other fun tree => .imports ⟨vis, s.place, absolute, tree, s₃.place⟩) s₄ := by
  simp only [Rule.useItem, exec_bind, exec_here, exec_expect, exec_optional, call, exec_calling, exec_done,
    Outcome.bind_ok, Outcome.bind_assoc]
  refine Outcome.bind_congr fun _ s₁ => Outcome.bind_congr fun absolute s₂ =>
    Outcome.bind_congr fun tree s₃ => Outcome.bind_congr fun _ s₄ => ?_
  cases tree <;> rfl

end UseItem

/-! ## Items -/

/-- A `use` item, after its attributes. -/
theorem item_imports {fuel : Nat} {s later : State} {u : UseItem}
    (h : parse fuel .item s = .ok (.imports u) later) :
    ∃ fuel' s₁ s₂ attributes vis, fuel = fuel' + 2 ∧
      parse (fuel' + 1) .outerAttributes s = .ok attributes s₁ ∧
      parse fuel' .visibility s₁ = .ok vis s₂ ∧
      (∃ place, parse fuel' (.signatureAhead false) { s₂ with stray := none } = .refused place) ∧
      (Rule.useItem vis).exec (parse fuel') s₂ = .ok (.imports u) later := by
  obtain _ | _ | fuel := fuel
  · cases h
  · rw [parse, Nonterminal.rule] at h
    simp only [Rule.item, run, exec_bind, exec_calling] at h
    obtain ⟨_, _, h, -⟩ := Outcome.bind_eq_ok h
    cases h
  · rw [parse, Nonterminal.rule] at h
    simp only [Rule.item, run, call, exec_bind, exec_calling, exec_done, Outcome.bind_assoc, Outcome.bind_ok,
      Outcome.bind_id] at h
    obtain ⟨attributes, s₁, hattributes, h⟩ := Outcome.bind_eq_ok h
    rw [parse, Nonterminal.rule] at h
    obtain ⟨vis, s₂, hvis, hahead, huse⟩ := itemAfterAttributes_imports h
    exact ⟨fuel, s₁, s₂, attributes, vis, rfl, hattributes, hvis, hahead, huse⟩

/-- An item that starts with `pub use`, after its attributes. -/
theorem itemAfterAttributes_use (fuel : Nat) {s : State} {others : List Tree}
    (hrest : s.rest = .leaf (.word false "pub") :: .leaf (.word false "use") :: others) :
    Rule.itemAfterAttributes.exec (parse (fuel + 1)) s = (Rule.useItem (.visible s.place)).exec (parse (fuel + 1))
      ⟨.leaf (.word false "use") :: others, s.after, s.stray, false⟩ := by
  have hpub : (kw "pub").read? s.rest = some ("pub", .leaf (.word false "use") :: others) := by
    rw [hrest]
    rfl
  have hvisible : parse (fuel + 1) .visibility s =
      .ok (.visible s.place) ⟨.leaf (.word false "use") :: others, s.after, s.stray, false⟩ := by
    rw [parse, Nonterminal.rule, exec_visibility, if_pos (by rw [hpub]; rfl), State.taking_of_read? hpub, Outcome.bind_ok,
      if_neg (by simp [Class.read?]), if_neg (by simp [Class.read?]), hrest]
    rfl
  have hhead : ∀ after, parse (fuel + 1) (.signatureAhead false) ⟨.leaf (.word false "use") :: others, after, none, false⟩ =
      .refused (sizeAll (.leaf (.word false "use") :: others) + after) := by
    intro after
    rfl
  obtain ⟨rest, -, heq⟩ := itemAfterAttributes_eq
  simp only [heq, Rule.opensFunction, exec_bind, exec_ite, exec_pure, exec_here, exec_isNext, Outcome.bind_ok, call, wouldBe,
    exec_ahead, exec_calling, exec_done, hvisible, State.wondering, hhead, Option.isSome_none, Bool.false_eq_true, if_false]
  rw [if_neg (by simp [Class.read?]), if_pos (by simp [Class.read?])]

/-- An item that is `pub use` after its attributes is a `use` item. -/
theorem parse_item_use {fuel : Nat} {attributes : Bool} {s s₁ : State} {others : List Tree}
    (hattributes : parse (fuel + 2) .outerAttributes s = .ok attributes s₁)
    (hrest : s₁.rest = .leaf (.word false "pub") :: .leaf (.word false "use") :: others) :
    parse (fuel + 3) .item s = (Rule.useItem (.visible s₁.place)).exec (parse (fuel + 1))
      ⟨.leaf (.word false "use") :: others, s₁.after, s₁.stray, false⟩ := by
  rw [parse, Nonterminal.rule]
  simp only [Rule.item, run, call, exec_bind, exec_calling, exec_done, Outcome.bind_assoc, Outcome.bind_ok,
    Outcome.bind_id]
  rw [hattributes, Outcome.bind_ok, parse, Nonterminal.rule, itemAfterAttributes_use fuel hrest]

theorem outerAttributes_pub (fuel : Nat) {s : State} {others : List Tree}
    (hrest : s.rest = .leaf (.word false "pub") :: others) : parse (fuel + 1) .outerAttributes s = .ok false s := by
  obtain ⟨rest, after, stray, braced⟩ := s
  obtain rfl : rest = _ := hrest
  rfl

/-! ## The items of a unit -/

theorem parse_items (fuel : Nat) (s : State) : parse (fuel + 1) .items s =
    if (Class.nothing.read? s.rest).isSome then .ok [] s
    else (parse fuel .item s).bind fun first s₁ =>
      (parse fuel .items s₁).bind fun rest s₂ => .ok (first :: rest) s₂ := by
  rw [parse, Nonterminal.rule]
  simp only [Rule.items, call, exec_bind, exec_isNext, exec_ite, exec_pure, exec_calling, exec_done,
    Outcome.bind_ok, Outcome.bind_assoc]

theorem parse_unit (fuel : Nat) (s : State) : parse (fuel + 1) .unit s =
    (parse fuel .innerAttributes s).bind fun _ s₁ => parse fuel .items s₁ := by
  rw [parse, Nonterminal.rule]
  simp only [Rule.unit, run, call, exec_bind, exec_calling, exec_done, Outcome.bind_assoc, Outcome.bind_ok,
    Outcome.bind_id]

/-- Items that are read one after the other. -/
inductive Items : State → List Item → Prop where
  | nil (s : State) : Items s []
  | cons {fuel : Nat} {s middle : State} {item : Item} {items : List Item}
      (first : parse fuel .item s = .ok item middle) (others : Items middle items) : Items s (item :: items)

theorem items_of_parse : ∀ (fuel : Nat) {s later : State} {items : List Item},
    parse fuel .items s = .ok items later → Items s items := by
  intro fuel
  induction fuel with
  | zero => intro s later items h; cases h
  | succ fuel ih =>
    intro s later items h
    rw [parse_items] at h
    split_ifs at h
    · cases h
      exact .nil s
    · obtain ⟨first, s₁, hfirst, h⟩ := Outcome.bind_eq_ok h
      obtain ⟨rest, s₂, hrest, h⟩ := Outcome.bind_eq_ok h
      cases h
      exact .cons hfirst (ih hrest)

/-- Each of them comes from a run of its own. -/
theorem Items.of_mem {s : State} {items : List Item} (h : Items s items) :
    ∀ item ∈ items, ∃ fuel s₁ later, s.Leads s₁ ∧ parse fuel .item s₁ = .ok item later := by
  induction h with
  | nil => simp
  | cons first _ ih =>
    refine List.forall_mem_cons.2 ⟨⟨_, _, _, .refl _, first⟩, fun item hitem => ?_⟩
    obtain ⟨fuel, s₁, later, hleads, hparse⟩ := ih item hitem
    exact ⟨fuel, s₁, later, (parse_leads _ _ _ _ _ first).trans hleads, hparse⟩

/-- What holds of an item and of whatever is read after it holds of the items in their order. -/
theorem Items.pairwise {R : Item → Item → Prop}
    (hR : ∀ {fuel fuel' : Nat} {s middle s₁ later : State} {a b : Item}, parse fuel .item s = .ok a middle →
      middle.Leads s₁ → parse fuel' .item s₁ = .ok b later → R a b)
    {s : State} {items : List Item} (h : Items s items) : items.Pairwise R := by
  induction h with
  | nil => exact .nil
  | cons first others ih =>
    refine List.pairwise_cons.2 ⟨fun item hitem => ?_, ih⟩
    obtain ⟨fuel, s₁, later, hleads, hparse⟩ := others.of_mem item hitem
    exact hR first hleads hparse

/-- The items of a unit are read from an end of its trees. -/
theorem items_of_parseUnit {trees : List Tree} {items : List Item} (h : parseUnit trees = .ok items) :
    ∃ s before, Items s items ∧ trees = before ++ s.rest ∧ s.after = 0 := by
  unfold parseUnit at h
  split at h
  · rename_i found state hparse
    have hfound : found = items := by
      split at h
      · cases h
      · split_ifs at h
        exact Except.ok.inj h
    subst hfound
    obtain ⟨fuel, hfuel⟩ : ∃ fuel, 64 * (sizeAll trees + 2) = fuel + 1 := ⟨64 * (sizeAll trees + 2) - 1, by omega⟩
    rw [hfuel, parse_unit] at hparse
    obtain ⟨_, s, hattributes, hitems⟩ := Outcome.bind_eq_ok hparse
    have hleads := parse_leads _ _ _ _ _ hattributes
    obtain ⟨before, hbefore⟩ := hleads.rest
    exact ⟨s, before, items_of_parse _ hitems, hbefore.symm, hleads.after⟩
  · cases h
  · cases h

end Reexport.Grammar
