import Reexport.Proofs.UseRules

/-!
# How use trees are written

A use tree is written with the trees of its tokens: segments with `::` behind them, names,
stars, and groups in braces with commas between the members and perhaps behind the last. The
grammar reads a tree just where one is written, if it has as much fuel as the tree is deep, and
no two use trees are written alike.

Results:

* `readsWritten`: what the grammar reads is written there.
* `writingsRead`: what is written is read.
* `Written.unique`: no two use trees are written alike.
* `item_written`, `item_of_written`: both halves for visible `use` items.
-/

namespace Reexport

mutual

/-- How deep the calls go that read a use tree. -/
def UseTree.depth {ι : Type} : UseTree ι → Nat
  | .path _ rest => rest.depth + 1
  | .name _ => 1
  | .rename _ _ => 1
  | .glob _ => 1
  | .group items => depthAll items + 1

/-- How deep the calls go that read the members of a group. -/
def depthAll {ι : Type} : List (UseTree ι) → Nat
  | [] => 1
  | tree :: rest => max tree.depth (depthAll rest) + 1

end

theorem UseTree.depth_pos {ι : Type} (tree : UseTree ι) : 0 < tree.depth := by
  cases tree <;> simp [UseTree.depth]

namespace Grammar

open Source

/-! ## Writings -/

/-- A segment of a use tree with the `::` after it; `joint` says whether a further mark follows
    directly. -/
structure Segment where
  raw : Bool
  name : String
  joint : Bool

/-- The trees of a segment. -/
def Segment.trees (segment : Segment) : List Tree :=
  [.leaf (.word segment.raw segment.name), .leaf (.punct ':' true), .leaf (.punct ':' segment.joint)]

/-- A star, and whether a further mark follows directly. -/
def starTree (joint : Bool) : Tree := .leaf (.punct '*' joint)

/-- A comma, and whether a further mark follows directly. -/
def commaOf (joint : Bool) : Tree := .leaf (.punct ',' joint)

mutual

/-- Trees that a use tree is written with when `after` lexemes follow. A raw mark makes no
    difference, and a star is known by its place. -/
inductive Written : (after : Nat) → UseTree Place → List Tree → Prop where
  | path {after : Nat} {rest : UseTree Place} {trees : List Tree} (segment : Segment) :
      OpensSegment segment.raw segment.name → Written after rest trees →
      Written after (.path segment.name rest) (segment.trees ++ trees)
  | name {after : Nat} {raw : Bool} {name : String} :
      OpensSegment raw name → Written after (.name name) [.leaf (.word raw name)]
  | rename {after : Nat} {raw newRaw : Bool} {name newName : String} :
      OpensSegment raw name → NewName newRaw newName →
      Written after (.rename name newName)
        [.leaf (.word raw name), .leaf (.word false "as"), .leaf (.word newRaw newName)]
  | glob {after : Nat} (joint : Bool) : Written after (.glob (1 + after)) [starTree joint]
  | group {after : Nat} {items : List (UseTree Place)} {trees : List Tree} :
      WrittenAll (1 + after) items trees → Written after (.group items) [.group .brace trees]

/-- Trees that the members of a group are written with. A comma may follow the last one. -/
inductive WrittenAll : (after : Nat) → List (UseTree Place) → List Tree → Prop where
  | nil {after : Nat} : WrittenAll after [] []
  | last {after : Nat} {tree : UseTree Place} {trees : List Tree} :
      Written after tree trees → WrittenAll after [tree] trees
  | cons {after : Nat} {tree : UseTree Place} {items : List (UseTree Place)} {trees rest : List Tree} (joint : Bool) :
      Written (sizeAll (commaOf joint :: rest) + after) tree trees → WrittenAll after items rest →
      WrittenAll after (tree :: items) (trees ++ commaOf joint :: rest)

end

mutual

/-- A use tree is no deeper than it is long. -/
theorem Written.depth_le {after : Nat} {tree : UseTree Place} {body : List Tree} :
    Written after tree body → tree.depth ≤ sizeAll body
  | @Written.path _ rest trees segment _ h => by
    have hrest : rest.depth ≤ sizeAll trees := h.depth_le
    simp only [UseTree.depth, Segment.trees, sizeAll_append, sizeAll, Tree.size]
    omega
  | .name _ => by simp [UseTree.depth, sizeAll, Tree.size]
  | .rename _ _ => by simp [UseTree.depth, sizeAll, Tree.size]
  | .glob _ => by simp [UseTree.depth, starTree, sizeAll, Tree.size]
  | @Written.group _ items trees h => by
    have hitems : depthAll items ≤ sizeAll trees + 1 := h.depth_le
    simp only [UseTree.depth, sizeAll, Tree.size]
    omega

theorem WrittenAll.depth_le {after : Nat} {items : List (UseTree Place)} {body : List Tree} :
    WrittenAll after items body → depthAll items ≤ sizeAll body + 1
  | .nil => Nat.le_refl 1
  | @WrittenAll.last _ tree trees h => by
    have htree : tree.depth ≤ sizeAll trees := h.depth_le
    have hpos := tree.depth_pos
    simp only [depthAll]
    omega
  | @WrittenAll.cons _ tree items trees rest joint h hall => by
    have htree : tree.depth ≤ sizeAll trees := h.depth_le
    have hitems : depthAll items ≤ sizeAll rest + 1 := hall.depth_le
    simp only [depthAll, sizeAll_append, commaOf, sizeAll, Tree.size]
    omega

end

/-! ## What is read is written so -/

/-- What the runs with this much fuel are read from. -/
structure ReadsWritten (fuel : Nat) : Prop where
  tree : ∀ {rooted : Bool} {tree : UseTree Place} {s later : State},
    parse fuel (.useTree rooted) s = .ok (some tree) later →
    ∃ body, s.rest = body ++ later.rest ∧ Written later.place tree body ∧ later.stray = s.stray ∧ tree.depth ≤ fuel
  members : ∀ {rooted : Bool} {items : List (UseTree Place)} {s later : State},
    parse fuel (.useGroup rooted) s = .ok (some items) later →
    later.rest = [] ∧ WrittenAll s.after items s.rest ∧ later.stray = s.stray ∧ depthAll items ≤ fuel

theorem ReadsWritten.useTree {fuel : Nat} (hreads : ReadsWritten fuel) {rooted : Bool} {tree : UseTree Place}
    {s later : State} (h : (Rule.useTree rooted).exec (parse fuel) s = .ok (some tree) later) :
    ∃ body, s.rest = body ++ later.rest ∧ Written later.place tree body ∧ later.stray = s.stray ∧
      tree.depth ≤ fuel + 1 := by
  rw [exec_useTree] at h
  split_ifs at h with hsegment hstar hbrace
  · obtain ⟨name, s₁, hname, h⟩ := Outcome.bind_eq_ok h
    obtain ⟨rest₁, hread, rfl⟩ := State.taking_eq_ok hname
    obtain ⟨raw, hraw⟩ := read?_word.1 hread
    obtain ⟨raw', name', ts, heq, hopens⟩ := any_segmentClasses.1 hsegment
    rw [hraw] at heq
    cases heq
    split_ifs at h with hcolons has
    · obtain ⟨_, s₂, htaking, h⟩ := Outcome.bind_eq_ok h
      obtain ⟨rest₂, hread₂, rfl⟩ := State.taking_eq_ok htaking
      obtain ⟨-, joint, hjoint⟩ := read?_op_colons.1 hread₂
      obtain ⟨rest, s₃, htree, h⟩ := Outcome.bind_eq_ok h
      cases rest with
      | none => cases h
      | some rest =>
        cases h
        obtain ⟨body, hrest, hwritten, hstray, hdepth⟩ := hreads.tree htree
        refine ⟨_, ?_, .path ⟨raw, name, joint⟩ hopens hwritten, hstray, Nat.succ_le_succ hdepth⟩
        simp only at hrest hjoint
        rw [hraw, hjoint, hrest]
        rfl
    · obtain ⟨_, s₂, htaking, h⟩ := Outcome.bind_eq_ok h
      obtain ⟨rest₂, hread₂, rfl⟩ := State.taking_eq_ok htaking
      obtain ⟨-, has⟩ := read?_keyword.1 hread₂
      split_ifs at h with hnew
      obtain ⟨newName, s₃, hnewName, h⟩ := Outcome.bind_eq_ok h
      obtain ⟨rest₃, hread₃, rfl⟩ := State.taking_eq_ok hnewName
      obtain ⟨newRaw, hnewRaw⟩ := read?_word.1 hread₃
      obtain ⟨raw', name', ts, heq, hnew⟩ := any_newName.1 hnew
      rw [hnewRaw] at heq
      cases heq
      cases h
      refine ⟨_, ?_, .rename hopens hnew, rfl, Nat.le_add_left 1 fuel⟩
      simp only at has hnewRaw
      rw [hraw, has, hnewRaw]
      rfl
    · cases h
      exact ⟨[.leaf (.word raw name)], hraw, .name hopens, rfl, Nat.le_add_left 1 fuel⟩
  · obtain ⟨_, s₁, htaking, h⟩ := Outcome.bind_eq_ok h
    obtain ⟨rest₁, hread, rfl⟩ := State.taking_eq_ok htaking
    obtain ⟨-, joint, hjoint⟩ := (read?_op_single rfl).1 hread
    cases h
    refine ⟨[starTree joint], hjoint, ?_, rfl, Nat.le_add_left 1 fuel⟩
    have hplace : s.place = 1 + (sizeAll rest₁ + s.after) := by
      rw [State.place, hjoint]
      simp only [sizeAll, Tree.size, Nat.add_assoc]
    rw [hplace]
    exact .glob joint
  · obtain ⟨members, s₁, hentering, h⟩ := Outcome.bind_eq_ok h
    obtain ⟨content, rest, inner, hrest, hcall, rfl⟩ := State.entering_eq_ok hentering
    cases members with
    | none => cases h
    | some items =>
      cases h
      obtain ⟨hend, hall, hstray, hdepth⟩ := hreads.members hcall
      refine ⟨[.group .brace content], hrest, .group hall, ?_, Nat.succ_le_succ hdepth⟩
      simp only [State.leave, hend, List.isEmpty_nil, if_true, Option.or_none, hstray, State.enter]

theorem ReadsWritten.useGroup {fuel : Nat} (hreads : ReadsWritten fuel) {rooted : Bool} {items : List (UseTree Place)}
    {s later : State} (h : (Rule.useGroup rooted).exec (parse fuel) s = .ok (some items) later) :
    later.rest = [] ∧ WrittenAll s.after items s.rest ∧ later.stray = s.stray ∧ depthAll items ≤ fuel + 1 := by
  have hroot : rooted = true → ((op "::").read? s.rest).isSome = false := by
    intro hrooted
    by_contra hroot
    cases useGroup_fromRoot _ (eq_true_of_ne_false hroot) hrooted h
  rw [exec_useGroup _ hroot] at h
  split_ifs at h with hnothing
  · cases h
    rw [read?_nothing] at hnothing
    rw [hnothing]
    exact ⟨rfl, .nil, rfl, Nat.le_add_left 1 fuel⟩
  · obtain ⟨tree, s₁, htree, h⟩ := Outcome.bind_eq_ok h
    have hafter := (parse_leads _ _ _ _ _ htree).after
    cases tree with
    | none =>
      split_ifs at h
      · cases h
      · obtain ⟨_, s₂, -, h⟩ := Outcome.bind_eq_ok h
        obtain ⟨_, s₃, -, h⟩ := Outcome.bind_eq_ok h
        cases h
    | some tree =>
      obtain ⟨body, hrest, hwritten, hstray, hdepth⟩ := hreads.tree htree
      rw [State.place, hafter] at hwritten
      split_ifs at h with hend
      · cases h
        rw [read?_nothing] at hend
        rw [hend, List.append_nil] at hrest
        rw [hend, sizeAll, Nat.zero_add] at hwritten
        refine ⟨hend, hrest ▸ .last hwritten, hstray, ?_⟩
        have hpos := tree.depth_pos
        simp only [depthAll]
        omega
      · obtain ⟨_, s₂, htaking, h⟩ := Outcome.bind_eq_ok h
        obtain ⟨rest₁, hread, rfl⟩ := State.taking_eq_ok htaking
        obtain ⟨-, joint, hjoint⟩ := (read?_op_single rfl).1 hread
        obtain ⟨others, s₃, hothers, h⟩ := Outcome.bind_eq_ok h
        cases others with
        | none => cases h
        | some others =>
          cases h
          obtain ⟨hend, hall, hstray', hdepth'⟩ := hreads.members hothers
          rw [hjoint] at hwritten
          simp only [hafter] at hall
          rw [hrest, hjoint]
          exact ⟨hend, .cons joint hwritten hall, hstray'.trans hstray, Nat.succ_le_succ (Nat.max_le.2 ⟨hdepth, hdepth'⟩)⟩

theorem readsWritten (fuel : Nat) : ReadsWritten fuel := by
  induction fuel with
  | zero => exact ⟨fun h => by (cases h), fun h => by (cases h)⟩
  | succ fuel ih => exact ⟨ih.useTree, ih.useGroup⟩

/-! ## What is written so is read -/

/-- Trees behind a use tree that do not go on with it. -/
def Stops (others : List Tree) : Prop :=
  ((op "::").read? others).isSome = false ∧ ((kw "as").read? others).isSome = false

theorem stops_punct {c : Char} (hc : c ≠ ':') (joint : Bool) (others : List Tree) :
    Stops (.leaf (.punct c joint) :: others) :=
  ⟨by simp [Class.read?, afterOp?, Ne.symm hc], by simp [Class.read?]⟩

/-- A use tree starts with neither a colon nor nothing. -/
theorem Written.opens {after : Nat} {tree : UseTree Place} {body : List Tree} (h : Written after tree body)
    (others : List Tree) : ((op "::").read? (body ++ others)).isSome = false ∧
      (Class.nothing.read? (body ++ others)).isSome = false := by
  cases h <;> simp [Segment.trees, starTree, Class.read?, afterOp?]

/-- What a run reads with enough fuel. -/
structure WritingsRead (fuel : Nat) : Prop where
  tree : ∀ {rooted : Bool} {tree : UseTree Place} {s : State} {body others : List Tree},
    Written (sizeAll others + s.after) tree body → tree.depth ≤ fuel → s.rest = body ++ others → Stops others →
    ∃ braced, parse fuel (.useTree rooted) s = .ok (some tree) ⟨others, s.after, s.stray, braced⟩
  members : ∀ {rooted : Bool} {items : List (UseTree Place)} {s : State},
    WrittenAll s.after items s.rest → depthAll items ≤ fuel →
    ∃ braced, parse fuel (.useGroup rooted) s = .ok (some items) ⟨[], s.after, s.stray, braced⟩

theorem WritingsRead.useTree {fuel : Nat} (hread : WritingsRead fuel) {rooted : Bool} {tree : UseTree Place} {s : State}
    {body others : List Tree} (h : Written (sizeAll others + s.after) tree body) (hfuel : tree.depth ≤ fuel + 1)
    (hrest : s.rest = body ++ others) (hstops : Stops others) :
    ∃ braced, (Rule.useTree rooted).exec (parse fuel) s = .ok (some tree) ⟨others, s.after, s.stray, braced⟩ := by
  rw [exec_useTree]
  cases h with
  | @path _ rest trees segment hopens hwritten =>
    have hany := any_segmentClasses.2 ⟨_, _, _, hrest, hopens⟩
    have hword : Class.word.read? s.rest = some (segment.name,
        .leaf (.punct ':' true) :: .leaf (.punct ':' segment.joint) :: (trees ++ others)) := by
      rw [hrest]
      rfl
    have hcolons : (op "::").read? (.leaf (.punct ':' true) :: .leaf (.punct ':' segment.joint) ::
        (trees ++ others)) = some ("", trees ++ others) := read?_op_colons.2 ⟨rfl, segment.joint, rfl⟩
    rw [if_pos hany, State.taking_of_read? hword, Outcome.bind_ok, if_pos (by rw [hcolons]; rfl),
      State.taking_of_read? hcolons, Outcome.bind_ok]
    obtain ⟨braced, hparse⟩ := @WritingsRead.tree _ hread false _ ⟨trees ++ others, s.after, s.stray, false⟩ _ _
      hwritten (Nat.le_of_succ_le_succ hfuel) rfl hstops
    exact ⟨braced, by simp only [opensBrace, hparse]; rfl⟩
  | @name _ raw name hopens =>
    have hany := any_segmentClasses.2 ⟨_, _, _, hrest, hopens⟩
    have hword : Class.word.read? s.rest = some (name, others) := by
      rw [hrest]
      rfl
    rw [if_pos hany, State.taking_of_read? hword]
    simp only [Outcome.bind_ok, hstops.1, hstops.2, Bool.false_eq_true, if_false]
    exact ⟨_, rfl⟩
  | @rename _ raw newRaw name newName hopens hnew =>
    have hany := any_segmentClasses.2 ⟨_, _, _, hrest, hopens⟩
    have hword : Class.word.read? s.rest = some (name, .leaf (.word false "as") :: .leaf (.word newRaw newName) :: others) := by
      rw [hrest]
      rfl
    have has : (kw "as").read? (.leaf (.word false "as") :: .leaf (.word newRaw newName) :: others) =
      some ("as", .leaf (.word newRaw newName) :: others) := rfl
    have hnewAny := any_newName.2 ⟨newRaw, newName, others, rfl, hnew⟩
    have hnewWord : Class.word.read? (.leaf (.word newRaw newName) :: others) = some (newName, others) := rfl
    rw [if_pos hany, State.taking_of_read? hword, Outcome.bind_ok, if_neg (by simp [Class.read?, afterOp?]),
      if_pos (by rw [has]; rfl), State.taking_of_read? has, Outcome.bind_ok, if_pos hnewAny,
      State.taking_of_read? hnewWord]
    exact ⟨_, rfl⟩
  | glob joint =>
    have hstar : (op "*").read? s.rest = some ("", others) := (read?_op_single rfl).2 ⟨rfl, joint, hrest⟩
    have hplace : s.place = 1 + (sizeAll others + s.after) := by
      rw [State.place, hrest]
      simp only [starTree, List.singleton_append, sizeAll, Tree.size, Nat.add_assoc]
    rw [if_neg (by rw [hrest]; simp [segmentClasses, Class.read?, starTree]), if_pos (by rw [hstar]; rfl),
      State.taking_of_read? hstar, hplace]
    exact ⟨_, rfl⟩
  | @group _ items trees hwritten =>
    obtain ⟨braced, hparse⟩ := @WritingsRead.members _ hread rooted _ (s.enter trees others) hwritten
      (Nat.le_of_succ_le_succ hfuel)
    rw [if_neg (by rw [hrest]; simp [segmentClasses, Class.read?]), if_neg (by rw [hrest]; simp [Class.read?, afterOp?]),
      if_pos (by rw [hrest]; rfl)]
    simp only [State.entering, hrest, List.singleton_append, if_true, hparse, Outcome.bind_ok, Option.map_some, State.leave,
      List.isEmpty_nil, Option.or_none]
    exact ⟨_, rfl⟩

theorem WritingsRead.useGroup {fuel : Nat} (hread : WritingsRead fuel) {rooted : Bool} {items : List (UseTree Place)}
    {s : State} (h : WrittenAll s.after items s.rest) (hfuel : depthAll items ≤ fuel + 1) :
    ∃ braced, (Rule.useGroup rooted).exec (parse fuel) s = .ok (some items) ⟨[], s.after, s.stray, braced⟩ := by
  obtain ⟨rest, after, stray, braced⟩ := s
  simp only at h
  cases h with
  | nil =>
    rw [exec_useGroup _ fun _ => rfl, if_pos (read?_nothing.2 rfl)]
    exact ⟨braced, rfl⟩
  | last hwritten =>
    obtain ⟨hroot, hnothing⟩ := hwritten.opens []
    rw [List.append_nil] at hroot hnothing
    obtain ⟨braced', hparse⟩ := @WritingsRead.tree _ hread rooted _ ⟨rest, after, stray, braced⟩ rest []
      (by simpa [sizeAll] using hwritten) (Nat.max_le.1 (Nat.le_of_succ_le_succ hfuel)).1 (List.append_nil _).symm ⟨rfl, rfl⟩
    rw [exec_useGroup _ fun _ => hroot, if_neg (by simp [hnothing]), hparse]
    exact ⟨_, rfl⟩
  | @cons _ tree others trees rest joint hwritten hothers =>
    obtain ⟨hroot, hnothing⟩ := hwritten.opens (commaOf joint :: rest)
    have hcomma : (op ",").read? (commaOf joint :: rest) = some ("", rest) := (read?_op_single rfl).2 ⟨rfl, joint, rfl⟩
    obtain ⟨htree, hmembers⟩ := Nat.max_le.1 (Nat.le_of_succ_le_succ hfuel)
    obtain ⟨braced', hparse⟩ := @WritingsRead.tree _ hread rooted _ ⟨trees ++ commaOf joint :: rest, after, stray, braced⟩
      trees (commaOf joint :: rest) hwritten htree rfl (stops_punct (by decide) joint rest)
    obtain ⟨braced'', hparse'⟩ := @WritingsRead.members _ hread rooted _ ⟨rest, after, stray, false⟩ hothers hmembers
    rw [exec_useGroup _ fun _ => hroot, if_neg (by simp [hnothing]), hparse, Outcome.bind_ok,
      if_neg (by simp [Class.read?]), State.taking_of_read? hcomma, Outcome.bind_ok]
    simp only [commaOf, opensBrace, hparse']
    exact ⟨_, rfl⟩

theorem writingsRead (fuel : Nat) : WritingsRead fuel := by
  induction fuel with
  | zero =>
    refine ⟨fun {_ tree _ _ _} _ h => absurd h (Nat.not_le.2 tree.depth_pos), fun {_ items _} _ h => ?_⟩
    cases items <;> cases h
  | succ fuel ih => exact ⟨ih.useTree, ih.useGroup⟩

/-- No two use trees are written with the same trees. -/
theorem Written.unique {after : Nat} {tree other : UseTree Place} {body : List Tree} (h : Written after tree body)
    (h' : Written after other body) : tree = other := by
  have hread : ∀ {found : UseTree Place}, Written after found body → ∃ braced,
      parse (sizeAll body) (.useTree false) ⟨body, after, none, false⟩ = .ok (some found) ⟨[], after, none, braced⟩ :=
    fun h => (writingsRead _).tree (by simpa [sizeAll] using h) h.depth_le (List.append_nil _).symm ⟨rfl, rfl⟩
  obtain ⟨_, hparse⟩ := hread h
  obtain ⟨_, hparse'⟩ := hread h'
  cases hparse.symm.trans hparse'
  rfl

/-! ## Use items -/

section Root

variable {s later : State}

/-- The `::` in front of a use tree, if there is one. -/
theorem root_of_optional {absolute : Bool}
    (h : (if ((op "::").read? s.rest).isSome then (s.taking (op "::")).bind fun _ state => .ok true state
      else .ok false s) = .ok absolute later) :
    ∃ root, absolute = Option.isSome root ∧ s.rest = rootTrees root ++ later.rest ∧ later.after = s.after ∧
      later.stray = s.stray := by
  split_ifs at h
  · obtain ⟨_, _, htaking, hok⟩ := Outcome.bind_eq_ok h
    obtain ⟨rest, hread, rfl⟩ := State.taking_eq_ok htaking
    obtain ⟨-, joint, hjoint⟩ := read?_op_colons.1 hread
    cases hok
    exact ⟨some joint, rfl, hjoint, rfl, rfl⟩
  · cases h
    exact ⟨none, rfl, rfl, rfl, rfl⟩

theorem optional_of_root {root : Option Bool} {others : List Tree} (hrest : s.rest = rootTrees root ++ others)
    (hothers : ((op "::").read? others).isSome = false) : ∃ braced,
    (if ((op "::").read? s.rest).isSome then (s.taking (op "::")).bind fun _ state => .ok true state
      else .ok false s) = .ok root.isSome ⟨others, s.after, s.stray, braced⟩ := by
  cases root with
  | none =>
    obtain ⟨rest, after, stray, braced⟩ := s
    obtain rfl : rest = others := hrest
    exact ⟨braced, by rw [if_neg (by rw [hothers]; simp)]; rfl⟩
  | some joint =>
    have hcolons := read?_op_colons.2 ⟨rfl, joint, hrest⟩
    rw [if_pos (by rw [hcolons]; rfl), State.taking_of_read? hcolons]
    exact ⟨_, rfl⟩

end Root

/-- What a `use` item is read from. -/
theorem useItem_written {fuel : Nat} {vis : Visibility} {s later : State} {u : UseItem}
    (h : (Rule.useItem vis).exec (parse fuel) s = .ok (.imports u) later) : ∃ root body ending,
      s.rest = .leaf (.word false "use") :: (rootTrees root ++ (body ++ .leaf (.punct ';' ending) :: later.rest)) ∧
      Written (1 + (sizeAll later.rest + s.after)) u.tree body ∧
      u = ⟨vis, s.place, root.isSome, u.tree, 1 + (sizeAll later.rest + s.after)⟩ ∧
      later = ⟨later.rest, s.after, s.stray, false⟩ ∧ u.tree.depth ≤ fuel := by
  rw [exec_useItem] at h
  obtain ⟨word, s₁, hword, h⟩ := Outcome.bind_eq_ok h
  obtain ⟨rest₁, hread₁, rfl⟩ := State.taking_eq_ok hword
  obtain ⟨-, hrest₁⟩ := read?_keyword.1 hread₁
  obtain ⟨absolute, s₂, habsolute, h⟩ := Outcome.bind_eq_ok h
  obtain ⟨tree, s₃, hparse, h⟩ := Outcome.bind_eq_ok h
  obtain ⟨found, s₄, hsemicolon, h⟩ := Outcome.bind_eq_ok h
  obtain ⟨rest₄, hread₄, rfl⟩ := State.taking_eq_ok hsemicolon
  obtain ⟨-, ending, hending⟩ := (read?_op_single (c := ';') rfl).1 hread₄
  obtain ⟨root, rfl, hroot, hafter₂, hstray₂⟩ := root_of_optional habsolute
  cases tree with
  | none => cases h
  | some tree =>
    simp only [Option.elim_some, Outcome.ok.injEq, Item.imports.injEq] at h
    obtain ⟨rfl, rfl⟩ := h
    obtain ⟨body, hbody, hwritten, hstray, hdepth⟩ := (readsWritten fuel).tree hparse
    have hafter : s₃.after = s.after := (parse_leads _ _ _ _ _ hparse).after.trans hafter₂
    have hplace : s₃.place = 1 + (sizeAll rest₄ + s.after) := by
      rw [State.place, hending, hafter]
      simp only [sizeAll, Tree.size, Nat.add_assoc]
    simp only at hroot
    refine ⟨root, body, ending, by rw [hrest₁, hroot, hbody, hending], hplace ▸ hwritten, by rw [hplace], ?_, hdepth⟩
    rw [State.mk.injEq]
    exact ⟨rfl, hafter, hstray.trans hstray₂, by rw [hending]; rfl⟩

/-- A `use` item is read from its trees. -/
theorem useItem_of_written {fuel : Nat} {vis : Visibility} {s : State} {root : Option Bool} {body back : List Tree}
    {ending : Bool} {tree : UseTree Place} (hrest : s.rest =
      .leaf (.word false "use") :: (rootTrees root ++ (body ++ .leaf (.punct ';' ending) :: back)))
    (h : Written (1 + (sizeAll back + s.after)) tree body) (hfuel : tree.depth ≤ fuel) :
    (Rule.useItem vis).exec (parse fuel) s =
      .ok (.imports ⟨vis, s.place, root.isSome, tree, 1 + (sizeAll back + s.after)⟩) ⟨back, s.after, s.stray, false⟩ := by
  have huse : (kw "use").read? s.rest = some ("use", rootTrees root ++ (body ++ .leaf (.punct ';' ending) :: back)) := by
    rw [hrest]
    rfl
  have hplace : ∀ braced, State.place ⟨.leaf (.punct ';' ending) :: back, s.after, s.stray, braced⟩ =
      1 + (sizeAll back + s.after) := fun _ => by
    simp only [State.place, sizeAll, Tree.size, Nat.add_assoc]
  have hsemicolon : (op ";").read? (.leaf (.punct ';' ending) :: back) = some ("", back) :=
    (read?_op_single rfl).2 ⟨rfl, ending, rfl⟩
  obtain ⟨braced, hroot⟩ := @optional_of_root ⟨_, s.after, s.stray, opensBrace s.rest⟩ root _ rfl (h.opens _).1
  obtain ⟨braced', hparse⟩ := @WritingsRead.tree _ (writingsRead fuel) (!root.isSome) tree
    ⟨body ++ .leaf (.punct ';' ending) :: back, s.after, s.stray, braced⟩ body (.leaf (.punct ';' ending) :: back)
    (by simpa [sizeAll, Tree.size, Nat.add_assoc] using h) hfuel rfl (stops_punct (by decide) ending back)
  rw [exec_useItem, State.taking_of_read? huse, Outcome.bind_ok, hroot, Outcome.bind_ok, hparse, Outcome.bind_ok,
    State.taking_of_read? hsemicolon, Outcome.bind_ok, hplace]
  rfl

/-! ## Visible items -/

/-- The trees of a visible `use` item with what follows it. -/
def itemTrees (root : Option Bool) (body : List Tree) (ending : Bool) (back : List Tree) : List Tree :=
  .leaf (.word false "pub") :: .leaf (.word false "use") :: (rootTrees root ++ (body ++ .leaf (.punct ';' ending) :: back))

theorem sizeAll_itemTrees (root : Option Bool) (body : List Tree) (ending : Bool) (back : List Tree) :
    sizeAll (itemTrees root body ending back) = 3 + sizeAll (rootTrees root) + sizeAll body + sizeAll back := by
  simp only [itemTrees, sizeAll, sizeAll_append, Tree.size]
  omega

/-- The item is visible, and its trees are these. -/
structure UseItem.At (u : UseItem) (root : Option Bool) (body : List Tree) (ending : Bool) (back : List Tree)
    (after : Nat) : Prop where
  visibility : u.visibility = .visible (sizeAll (itemTrees root body ending back) + after)
  absolute : u.absolute = root.isSome
  semicolon : u.semicolon = 1 + (sizeAll back + after)
  tree : Written (1 + (sizeAll back + after)) u.tree body

/-- What a visible `use` item is read from, after its attributes. -/
theorem item_written {fuel : Nat} {s later : State} {u : UseItem} {first : Place}
    (h : parse fuel .item s = .ok (.imports u) later) (hvis : u.visibility = .visible first) :
    ∃ front root body ending, s.rest = front ++ itemTrees root body ending later.rest ∧ later.after = s.after ∧
      u.At root body ending later.rest s.after := by
  obtain ⟨fuel, s₁, s₂, attributes, vis, rfl, hattributes, hvisibility, -, huse⟩ := item_imports h
  obtain ⟨root, body, ending, hrest₂, hwritten, hu, hlater, -⟩ := useItem_written huse
  obtain _ | fuel := fuel
  · cases hvisibility
  have hvis₂ : vis = .visible first := by rw [← hvis, hu]
  rw [hvis₂, parse, Nonterminal.rule] at hvisibility
  obtain ⟨hrest₁, hfirst, hs₂⟩ := visibility_visible hvisibility
  obtain ⟨front, hfront⟩ := (parse_leads _ _ _ _ _ hattributes).rest
  have hafter₁ : s₁.after = s.after := (parse_leads _ _ _ _ _ hattributes).after
  have hafter₂ : s₂.after = s.after := by rw [hs₂, hafter₁]
  have hrest : s₁.rest = itemTrees root body ending later.rest := by
    rw [hrest₁, hrest₂]
    rfl
  rw [hafter₂] at hwritten hu
  refine ⟨front, root, body, ending, by rw [← hrest, hfront], by rw [hlater, hafter₂], ?_, by rw [hu], by rw [hu], hwritten⟩
  rw [hvis, hfirst, State.place, hrest, hafter₁]

/-- A visible `use` item is read from its trees. -/
theorem item_of_written {fuel : Nat} {s : State} {root : Option Bool} {body back : List Tree} {ending : Bool}
    {tree : UseTree Place} (hrest : s.rest = itemTrees root body ending back)
    (h : Written (1 + (sizeAll back + s.after)) tree body) (hfuel : tree.depth ≤ fuel) :
    ∃ u : UseItem, parse (fuel + 2) .item s = .ok (.imports u) ⟨back, s.after, s.stray, false⟩ ∧ u.tree = tree ∧
      u.At root body ending back s.after := by
  obtain ⟨fuel, rfl⟩ : ∃ n, fuel = n + 1 := ⟨fuel - 1, (Nat.sub_add_cancel (Nat.le_trans tree.depth_pos hfuel)).symm⟩
  have huse := @useItem_of_written (fuel + 1) (.visible s.place) ⟨_, s.after, s.stray, false⟩ root body back ending
    tree rfl h hfuel
  exact ⟨_, (parse_item_use (outerAttributes_pub _ hrest) hrest).trans huse, rfl, by rw [State.place, hrest], rfl, rfl, h⟩

/-- The same trees are not read as two items. -/
theorem Written.unique_item {root root' : Option Bool} {body body' back back' : List Tree} {ending ending' : Bool}
    {tree tree' : UseTree Place} (heq : itemTrees root body ending back = itemTrees root' body' ending' back')
    (h : Written (1 + sizeAll back) tree body) (h' : Written (1 + sizeAll back') tree' body') : tree = tree' := by
  obtain ⟨u, hparse, rfl, -⟩ := @item_of_written (max tree.depth tree'.depth)
    ⟨itemTrees root body ending back, 0, none, false⟩ _ _ _ _ _ rfl h (Nat.le_max_left _ _)
  obtain ⟨u', hparse', rfl, -⟩ := @item_of_written (max u.tree.depth tree'.depth)
    ⟨itemTrees root' body' ending' back', 0, none, false⟩ _ _ _ _ _ rfl h' (Nat.le_max_right _ _)
  rw [← heq] at hparse'
  cases hparse.symm.trans hparse'
  rfl

end Grammar

end Reexport
