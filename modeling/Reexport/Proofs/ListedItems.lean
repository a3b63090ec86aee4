import Reexport.Proofs.Borders
import Reexport.Source.Lexer

/-!
# Items with a list in the place of a star

Once a list of names stands in the place of the star of a wildcard, its item lists these names,
the items before it are read as before, only further from the end, and the items behind it are
read as before.

Results:

* `writtenAll_names`, `useItem_list`: what a list of names is read as.
* `parse_stray`: a stray tree is never forgotten.
* `item_listed`, `items_listed`: what an item and the items of a unit become.
* `parseUnit_listed`: what a unit becomes.
-/

namespace Reexport

mutual

theorem UseTree.map_id {ι : Type} : (tree : UseTree ι) → tree.map (fun star => star) = tree
  | .path _ rest => by rw [UseTree.map, rest.map_id]
  | .name _ => rfl
  | .rename _ _ => rfl
  | .glob _ => rfl
  | .group items => by rw [UseTree.map, mapAll_id items]

theorem mapAll_id {ι : Type} : (items : List (UseTree ι)) → mapAll (fun star => star) items = items
  | [] => rfl
  | tree :: rest => by rw [mapAll, tree.map_id, mapAll_id rest]

end

namespace Grammar

open Source

/-! ## Lists of names -/

/-- A name in a list of names, which carries the raw mark where it has to. -/
def nameTree (name : String) : Tree := .leaf (.word (Text.reservedNames.contains name) name)

/-- A comma with a blank after it. -/
def commaTree : Tree := .leaf (.punct ',' false)

/-- The trees of a list of names, with a comma after the last one if it is `closed`. -/
def memberTrees (closed : Bool) : List String → List Tree
  | [] => []
  | name :: rest =>
    nameTree name :: if rest.isEmpty && !closed then [] else commaTree :: memberTrees closed rest

/-- A name that may stand in a list of names: none of the words that stay reserved under the raw
    mark. -/
def Listable (name : String) : Prop := name ∉ neverRaw

theorem opensSegment_of_listable {name : String} (h : Listable name) :
    OpensSegment (Text.reservedNames.contains name) name := by
  have hkeywords : ∀ word ∈ keywords, word ∈ Text.reservedNames ∨ word ∈ neverRaw := by decide
  by_cases hname : name ∈ keywords
  · left
    rw [List.contains_iff_mem]
    exact (hkeywords name hname).resolve_right h
  · exact .inr (.inl hname)

/-- Names are the members of a group that is written with the list of them. -/
theorem writtenAll_names (closed : Bool) (after : Nat) : ∀ {names : List String}, (∀ name ∈ names, Listable name) →
    WrittenAll after (names.map .name) (memberTrees closed names) := by
  intro names
  induction names with
  | nil => exact fun _ => .nil
  | cons name rest ih =>
    intro hnames
    obtain ⟨hname, hrest⟩ := List.forall_mem_cons.1 hnames
    rw [memberTrees]
    split_ifs with hlast
    · rw [Bool.and_eq_true, List.isEmpty_iff] at hlast
      obtain ⟨rfl, -⟩ := hlast
      exact .last (.name (opensSegment_of_listable hname))
    · exact .cons false (.name (opensSegment_of_listable hname)) (ih hrest)

theorem depthAll_names (names : List String) : depthAll (names.map (.name : String → UseTree Place)) = names.length + 1 := by
  induction names with
  | nil => rfl
  | cons name rest ih =>
    rw [List.map_cons, depthAll, UseTree.depth, ih, List.length_cons]
    omega

/-! ## Items -/

/-- A `use` item that lists names. -/
theorem useItem_list {fuel : Nat} {vis : Visibility} {root : Option Bool} {segments : List Segment} {names : List String}
    {closed ending : Bool} {others : List Tree} {s : State}
    (hsegments : ∀ segment ∈ segments, OpensSegment segment.raw segment.name) (hnames : ∀ name ∈ names, Listable name)
    (hfuel : segments.length + (names.length + 1 + 1) ≤ fuel)
    (hrest : s.rest = .leaf (.word false "use") :: (rootTrees root ++ (segmentTrees segments ++
      .group .brace (memberTrees closed names) :: .leaf (.punct ';' ending) :: others))) :
    (Rule.useItem vis).exec (parse fuel) s =
      .ok (.imports ⟨vis, s.place, root.isSome, .chain (segments.map Segment.name) (.group (names.map .name)),
        1 + (sizeAll others + s.after)⟩) ⟨others, s.after, s.stray, false⟩ := by
  have hwritten : Written (1 + (sizeAll others + s.after))
      (.chain (segments.map Segment.name) (.group (names.map .name)))
      (segmentTrees segments ++ [.group .brace (memberTrees closed names)]) :=
    written_chain_iff.2 ⟨segments, _, rfl, hsegments, rfl, .group (writtenAll_names closed _ hnames)⟩
  refine useItem_of_written (by rw [hrest, List.append_assoc]; rfl) hwritten ?_
  rw [UseTree.depth_chain, UseTree.depth, depthAll_names, List.length_map]
  exact hfuel

/-! ## Strays -/

/-- A stray tree is never forgotten. -/
theorem exec_stray {calls : (nt : Nonterminal) → State → Outcome nt.Result} {α : Type}
    (hcalls : ∀ nt s value later, calls nt s = .ok value later → later.stray = none → s.stray = none) (p : Prog α) :
    ∀ {s later : State} {value : α}, p.exec calls s = .ok value later → later.stray = none → s.stray = none := by
  induction p with
  | done _ => intro s later value h hlater; cases h; exact hlater
  | refuse _ => intro s later value h; cases h
  | mark next ih => intro s later value h; exact ih _ h
  | ask skip cls next ih => intro s later value h; exact ih _ h
  | braced next ih => intro s later value h; exact ih _ h
  | take cls next ih =>
    intro s later value h hlater
    simp only [Prog.exec] at h
    split at h
    · have hnext := ih _ h hlater
      exact hnext
    · cases h
  | inside d content next ih =>
    intro s later value h hlater
    simp only [Prog.exec] at h
    split at h
    · split at h
      · split at h
        · rename_i hcall
          have hleave := ih _ h hlater
          rw [State.leave, Option.or_eq_none_iff] at hleave
          have henter := hcalls _ _ _ _ hcall hleave.1
          exact henter
        · cases h
        · cases h
      · cases h
    · cases h
  | call nt next ih =>
    intro s later value h hlater
    simp only [Prog.exec] at h
    split at h
    · rename_i hcall
      exact hcalls _ _ _ _ hcall (ih _ h hlater)
    · cases h
    · cases h
  | attempt nt next ih =>
    intro s later value h hlater
    simp only [Prog.exec] at h
    split at h
    · have hboth := ih _ h hlater
      rw [Option.or_eq_none_iff] at hboth
      exact hboth.1
    · exact ih _ h hlater
    · cases h
  | ahead nt next ih =>
    intro s later value h hlater
    simp only [Prog.exec] at h
    split at h
    · exact ih _ h hlater
    · exact ih _ h hlater
    · cases h

theorem parse_stray : ∀ (fuel : Nat) (nt : Nonterminal) (s : State) (value : nt.Result) (later : State),
    parse fuel nt s = .ok value later → later.stray = none → s.stray = none := by
  intro fuel
  induction fuel with
  | zero => intro nt s value later h; cases h
  | succ fuel ih => intro nt s value later h; exact exec_stray ih nt.rule h

/-! ## Units -/

/-- The trees of a wildcard, from its `pub` on, with what follows it. -/
def wildTrees (root : Option Bool) (segments : List Segment) (joint ending : Bool) (back : List Tree) : List Tree :=
  .leaf (.word false "pub") :: .leaf (.word false "use") :: (rootTrees root ++ (segmentTrees segments ++
    starTree joint :: .leaf (.punct ';' ending) :: back))

/-- The same with a list of names in the place of the star. -/
def listedTrees (root : Option Bool) (segments : List Segment) (closed : Bool) (names : List String) (ending : Bool)
    (back : List Tree) : List Tree :=
  .leaf (.word false "pub") :: .leaf (.word false "use") :: (rootTrees root ++ (segmentTrees segments ++
    .group .brace (memberTrees closed names) :: .leaf (.punct ';' ending) :: back))

/-- The item that lists names in the place of the star of `u`. -/
def UseItem.listing (δ : Nat) (path names : List String) (u : UseItem) : UseItem :=
  ⟨u.visibility.moved δ, u.word + δ, u.absolute, .chain path (.group (names.map .name)), u.semicolon⟩

/-- Other segments with the same words. -/
def SameWords (segments segments' : List Segment) : Prop :=
  segments'.map (fun segment => (segment.raw, segment.name)) = segments.map fun segment => (segment.raw, segment.name)

theorem SameWords.names {segments segments' : List Segment} (h : SameWords segments segments') :
    segments'.map Segment.name = segments.map Segment.name := by
  have hsecond := congrArg (List.map Prod.snd) h
  simpa [Function.comp_def] using hsecond

theorem SameWords.opens {segments segments' : List Segment} (h : SameWords segments segments')
    (hopens : ∀ segment ∈ segments, OpensSegment segment.raw segment.name) :
    ∀ segment ∈ segments', OpensSegment segment.raw segment.name := by
  intro segment hsegment
  have hmem : (segment.raw, segment.name) ∈ segments.map fun segment => (segment.raw, segment.name) := by
    rw [← h]
    exact List.mem_map.2 ⟨segment, hsegment, rfl⟩
  obtain ⟨other, hother, heq⟩ := List.mem_map.1 hmem
  obtain ⟨hraw, hname⟩ := Prod.mk.inj heq
  rw [← hraw, ← hname]
  exact hopens other hother

/-- What an item with a star becomes once a list of names stands in the place of the star. -/
theorem item_listed {fuel : Nat} {s later : State} {u : UseItem} {first star : Place} {path : List String}
    (h : parse fuel .item s = .ok (.imports u) later) (hstray : later.stray = none)
    (hvis : u.visibility = .visible first) (htree : u.tree = .chain path (.glob star)) :
    ∃ front root segments joint ending,
      s.rest = front ++ wildTrees root segments joint ending later.rest ∧
      path = segments.map Segment.name ∧ star = 2 + (sizeAll later.rest + s.after) ∧
      ∀ {δ fuel' : Nat} {root' : Option Bool} {segments' : List Segment} {closed : Bool} {names : List String} {s' : State},
        root'.isSome = root.isSome → SameWords segments segments' → (∀ name ∈ names, Listable name) →
        fuel + names.length + 2 ≤ fuel' →
        s.Moved δ (wildTrees root segments joint ending later.rest)
          (listedTrees root' segments' closed names ending later.rest) s' → s'.after = s.after →
        parse fuel' .item s' = .ok (.imports (u.listing δ path names)) later := by
  obtain ⟨fuel, s₁, s₂, attributes, vis, rfl, hattributes, hvisibility, -, huse⟩ := item_imports h
  obtain ⟨root, segments, joint, ending, rfl, hopens, hrest₂, rfl, hu, hlater⟩ := useItem_star huse htree
  obtain ⟨-, -, -, -, -, -, -, hdepth⟩ := useItem_written huse
  rw [htree, UseTree.depth_chain, List.length_map, UseTree.depth] at hdepth
  subst hu
  simp only at hvis htree
  subst hvis
  obtain ⟨fuel, rfl⟩ : ∃ n, fuel = n + 1 := ⟨fuel - 1, by omega⟩
  rw [parse, Nonterminal.rule] at hvisibility
  obtain ⟨hrest₁, rfl, hs₂⟩ := visibility_visible hvisibility
  have hleads := parse_leads _ _ _ _ _ hattributes
  obtain ⟨front, hfront⟩ := hleads.rest
  have hs₁ : s₁.rest = wildTrees root segments joint ending later.rest := by
    rw [hrest₁, hrest₂]
    rfl
  refine ⟨front, root, segments, joint, ending, by rw [← hs₁, hfront], rfl, ?_, ?_⟩
  · rw [hs₂, ← hleads.after]
  · intro δ fuel' root' segments' closed names s' hroot hwords hnames hfuel hs hafter
    obtain ⟨fuel', rfl⟩ : ∃ n, fuel' = n + 3 := ⟨fuel' - 3, by omega⟩
    have hborder : Border true (wildTrees root segments joint ending later.rest)
      (listedTrees root' segments' closed names ending later.rest) := .item _ _
    obtain ⟨s₁', hattributes', hmoved⟩ := (parse_fenced hborder (by omega : fuel + 2 ≤ fuel' + 2) .outerAttributes rfl
      s s' hs).ok attributes s₁ hattributes (hs₁ ▸ List.suffix_refl _)
    have hafter₁ : s₁'.after = s₁.after :=
      (parse_leads _ _ _ _ _ hattributes').after.trans (hafter.trans hleads.after.symm)
    have hstray₁ : s₁.stray = none := by
      rw [hlater, hs₂] at hstray
      exact hstray
    have hs₁' : s₁' = ⟨listedTrees root' segments' closed names ending later.rest, s₁.after, none, s₁.braced⟩ := by
      rw [hmoved.reached hs₁, hafter₁, hstray₁]
      rfl
    -- the word `use` comes next, one lexeme after `pub`
    have hvisible : @Eq Nat s₁'.place (s₁.place + δ) := hmoved.place
    have hword : sizeAll (.leaf (.word false "use") :: (rootTrees root' ++ (segmentTrees segments' ++ .group .brace
        (memberTrees closed names) :: .leaf (.punct ';' ending) :: later.rest))) + s₁.after = s₂.place + δ := by
      rw [hs₁', State.place, State.place, hrest₁] at hvisible
      show (_ : Nat) = _
      rw [State.place, hs₂]
      simp only [listedTrees, sizeAll, Tree.size] at hvisible ⊢
      omega
    have hlength := congrArg List.length hwords.names
    simp only [List.length_map] at hlength
    rw [parse_item_use hattributes' (by rw [hs₁']; rfl), useItem_list (hwords.opens hopens) hnames (by omega) rfl,
      hwords.names, hroot, hlater, hs₂, hvisible, hs₁']
    simp only [UseItem.listing, Visibility.moved, State.place, hword, hstray₁]
    rw [hs₂]

theorem Item.moved_zero (item : Item) : item.moved 0 = item := by
  have hvis : ∀ vis : Visibility, vis.moved 0 = vis := fun vis => by cases vis <;> rfl
  cases item with
  | declaration vis kind name place => rw [Item.moved, hvis, Nat.add_zero]
  | imports u => simp only [Item.moved, UseItem.moved, hvis, Nat.add_zero, UseTree.map_id]
  | other => rfl

/-- More fuel changes nothing about items that have been read. -/
theorem items_more_fuel {fuel fuel' : Nat} (hfuel : fuel ≤ fuel') {s last : State} {items : List Item}
    (h : parse fuel .items s = .ok items last) : parse fuel' .items s = .ok items last := by
  have hself : s.Moved 0 [] [] s := ⟨⟨s.rest, by simp, by simp⟩, rfl, by simp, rfl⟩
  obtain ⟨last', hlast', hmoved⟩ := (parse_moved hfuel .items s s hself).ok items last h List.nil_suffix
  have hitems : Nonterminal.moved 0 .items items = items := by
    show items.map (Item.moved 0) = items
    rw [show Item.moved 0 = id from funext Item.moved_zero, List.map_id]
  obtain ⟨front, hrest, hrest'⟩ := hmoved.rest
  have hlast : last' = last := by
    obtain ⟨rest', after', stray', braced'⟩ := last'
    obtain ⟨rest, after, stray, braced⟩ := last
    have hafter := hmoved.after
    have hstray := hmoved.stray
    have hbraced := hmoved.braced
    simp only [sizeAll, Nat.zero_add, Nat.add_zero, Option.map_id'] at hrest hrest' hafter hstray hbraced
    rw [hrest, hrest', hafter, hstray, hbraced]
  rw [hlast', hitems, hlast]

/-- What the items of a unit are once a list of names stands in the place of a star. -/
theorem items_listed : ∀ (fuel : Nat) {s last : State} {before after : List Item} {u : UseItem} {first star : Place}
    {path : List String}, parse fuel .items s = .ok (before ++ .imports u :: after) last → last.stray = none →
    u.visibility = .visible first → u.tree = .chain path (.glob star) →
    ∃ front root segments joint ending back,
      s.rest = front ++ wildTrees root segments joint ending back ∧
      path = segments.map Segment.name ∧ star = 2 + (sizeAll back + s.after) ∧
      ∀ {δ fuel' : Nat} {root' : Option Bool} {segments' : List Segment} {closed : Bool} {names : List String} {s' : State},
        root'.isSome = root.isSome → SameWords segments segments' → (∀ name ∈ names, Listable name) →
        fuel + names.length + 2 ≤ fuel' →
        s.Moved δ (wildTrees root segments joint ending back) (listedTrees root' segments' closed names ending back) s' →
        s'.after = s.after →
        parse fuel' .items s' = .ok (before.map (Item.moved δ) ++ .imports (u.listing δ path names) :: after) last := by
  intro fuel
  induction fuel with
  | zero => intro s last before after u first star path h; cases h
  | succ fuel ih =>
    intro s last before after u first star path h hstray hvis htree
    rw [parse_items] at h
    split_ifs at h
    · cases before <;> cases h
    · obtain ⟨item, s₁, hitem, h⟩ := Outcome.bind_eq_ok h
      obtain ⟨others, s₂, hothers, h⟩ := Outcome.bind_eq_ok h
      obtain ⟨hlist, rfl⟩ := Outcome.ok.inj h
      have hsome : ∀ {δ : Nat} {s' : State} {trees trees' : List Tree}, trees' ≠ [] → s.Moved δ trees trees' s' →
          ¬ (Class.nothing.read? s'.rest).isSome = true := by
        intro δ s' trees trees' hne hs
        obtain ⟨front, -, hrest'⟩ := hs.rest
        obtain ⟨t, ts, rfl⟩ := List.exists_cons_of_ne_nil hne
        rw [hrest']
        cases front <;> simp [Class.read?]
      cases before with
      | nil =>
        obtain ⟨rfl, rfl⟩ := List.cons.inj hlist
        obtain ⟨front, root, segments, joint, ending, hrest, hpath, hstar, hedit⟩ :=
          item_listed hitem (parse_stray _ _ _ _ _ hothers hstray) hvis htree
        refine ⟨front, root, segments, joint, ending, s₁.rest, hrest, hpath, hstar, ?_⟩
        intro δ fuel' root' segments' closed names s' hroot hwords hnames hfuel hs hafter
        obtain ⟨fuel', rfl⟩ : ∃ n, fuel' = n + 1 := ⟨fuel' - 1, by omega⟩
        rw [parse_items, if_neg (hsome (by simp [listedTrees]) hs), hedit hroot hwords hnames (by omega) hs hafter,
          Outcome.bind_ok, items_more_fuel (by omega) hothers]
        rfl
      | cons x before =>
        obtain ⟨rfl, rfl⟩ := List.cons.inj hlist
        obtain ⟨front, root, segments, joint, ending, back, hrest, hpath, hstar, hedit⟩ := ih hothers hstray hvis htree
        have hleads := parse_leads _ _ _ _ _ hitem
        obtain ⟨lead, hlead⟩ := hleads.rest
        refine ⟨lead ++ front, root, segments, joint, ending, back, ?_, hpath, by rw [hstar, hleads.after], ?_⟩
        · rw [← hlead, hrest, List.append_assoc]
        · intro δ fuel' root' segments' closed names s' hroot hwords hnames hfuel hs hafter
          obtain ⟨fuel', rfl⟩ : ∃ n, fuel' = n + 1 := ⟨fuel' - 1, by omega⟩
          have hborder : Border true (wildTrees root segments joint ending back)
            (listedTrees root' segments' closed names ending back) := .item _ _
          obtain ⟨s₁', hitem', hmoved⟩ := (parse_fenced hborder (by omega : fuel ≤ fuel') .item rfl s s' hs).ok
            item s₁ hitem ⟨front, hrest.symm⟩
          have hafter₁ : s₁'.after = s₁.after := by
            rw [(parse_leads _ _ _ _ _ hitem').after, hafter, hleads.after]
          rw [parse_items, if_neg (hsome (by simp [listedTrees]) hs), hitem', Outcome.bind_ok,
            hedit hroot hwords hnames (by omega) hmoved hafter₁]
          rfl

theorem length_le_memberTrees (closed : Bool) : ∀ (names : List String),
    names.length ≤ sizeAll (memberTrees closed names) := by
  intro names
  induction names with
  | nil => exact Nat.le_refl 0
  | cons name rest ih =>
    rw [memberTrees]
    split_ifs with hlast
    · rw [Bool.and_eq_true, List.isEmpty_iff] at hlast
      simp [hlast.1, sizeAll, nameTree, Tree.size]
    · simp only [sizeAll, nameTree, commaTree, Tree.size, List.length_cons]
      omega

theorem sizeAll_listedTrees {root root' : Option Bool} {segments segments' : List Segment}
    (hroot : root'.isSome = root.isSome) (hwords : SameWords segments segments') (joint closed ending : Bool)
    (names : List String) (back : List Tree) : sizeAll (listedTrees root' segments' closed names ending back) =
      sizeAll (wildTrees root segments joint ending back) + (sizeAll (memberTrees closed names) + 1) := by
  have hroots : sizeAll (rootTrees root') = sizeAll (rootTrees root) := by
    cases root <;> cases root' <;> first | rfl | cases hroot
  have hsegments : ∀ segments : List Segment, sizeAll (segmentTrees segments) = 3 * segments.length := by
    intro segments
    induction segments with
    | nil => rfl
    | cons segment rest ih =>
      have hrest : sizeAll (segmentTrees (segment :: rest)) = 1 + (1 + (1 + sizeAll (segmentTrees rest))) := rfl
      rw [hrest, ih, List.length_cons]
      omega
  have hlength := congrArg List.length hwords
  simp only [List.length_map] at hlength
  simp only [listedTrees, wildTrees, sizeAll, sizeAll_append, starTree, Tree.size, hroots, hsegments, hlength]
  omega

/-- What a unit holds once a list of names stands in the place of a star. -/
theorem parseUnit_listed {trees : List Tree} {before after : List Item} {u : UseItem} {first star : Place}
    {path : List String} (h : parseUnit trees = .ok (before ++ .imports u :: after))
    (hvis : u.visibility = .visible first) (htree : u.tree = .chain path (.glob star)) :
    ∃ front root segments joint ending back, trees = front ++ wildTrees root segments joint ending back ∧
      path = segments.map Segment.name ∧ star = 2 + sizeAll back ∧
      ∀ {δ : Nat} {root' : Option Bool} {segments' : List Segment} {closed : Bool} {names : List String},
        root'.isSome = root.isSome → SameWords segments segments' → (∀ name ∈ names, Listable name) →
        sizeAll (memberTrees closed names) + 1 = δ →
        parseUnit (front ++ listedTrees root' segments' closed names ending back) =
          .ok (before.map (Item.moved δ) ++ .imports (u.listing δ path names) :: after) := by
  have hfuel : ∀ trees, ∃ fuel, 64 * (sizeAll trees + 2) = fuel + 1 := fun trees =>
    ⟨64 * (sizeAll trees + 2) - 1, by omega⟩
  unfold parseUnit at h
  split at h
  · rename_i found state hparse
    split at h
    · cases h
    · rename_i hstray
      split_ifs at h with hempty
      obtain rfl := Except.ok.inj h
      obtain ⟨fuel, hfuel₀⟩ := hfuel trees
      rw [hfuel₀, parse_unit] at hparse
      obtain ⟨_, s₁, hattributes, hitems⟩ := Outcome.bind_eq_ok hparse
      obtain ⟨front, root, segments, joint, ending, back, hrest, hpath, hstar, hedit⟩ :=
        items_listed fuel hitems hstray hvis htree
      have hleads := parse_leads _ _ _ _ _ hattributes
      obtain ⟨lead, hlead⟩ := hleads.rest
      simp only at hlead
      rw [hleads.after] at hstar
      refine ⟨lead ++ front, root, segments, joint, ending, back, ?_, hpath, by simpa using hstar, ?_⟩
      · rw [← hlead, hrest, List.append_assoc]
      · intro δ root' segments' closed names hroot hwords hnames hδ
        have hsize := sizeAll_listedTrees hroot hwords joint closed ending names back
        rw [hδ] at hsize
        have hmoved : State.Moved δ (wildTrees root segments joint ending back)
            (listedTrees root' segments' closed names ending back) ⟨trees, 0, none, false⟩
            ⟨lead ++ front ++ listedTrees root' segments' closed names ending back, 0, none, false⟩ :=
          ⟨⟨lead ++ front, by simp [← hlead, hrest], rfl⟩, by simp [hsize], rfl, rfl⟩
        obtain ⟨fuel', hfuel₁⟩ := hfuel (lead ++ front ++ listedTrees root' segments' closed names ending back)
        have hle : fuel + names.length + 2 ≤ fuel' := by
          have hnames := length_le_memberTrees closed names
          have htrees : sizeAll trees = sizeAll (lead ++ front) + sizeAll (wildTrees root segments joint ending back) := by
            rw [← sizeAll_append, List.append_assoc, ← hrest, hlead]
          rw [sizeAll_append, hsize] at hfuel₁
          omega
        have hborder : Border true (wildTrees root segments joint ending back)
          (listedTrees root' segments' closed names ending back) := .item _ _
        obtain ⟨s₁', hattributes', hmoved₁⟩ := (parse_fenced hborder (by omega : fuel ≤ fuel') .innerAttributes rfl
          _ _ hmoved).ok _ s₁ hattributes ⟨front, hrest.symm⟩
        have hafter : s₁'.after = s₁.after := by
          rw [(parse_leads _ _ _ _ _ hattributes').after, hleads.after]
        have hitems' := hedit hroot hwords hnames hle hmoved₁ hafter
        simp only [parseUnit, hfuel₁, parse_unit, hattributes', Outcome.bind_ok, hitems', hstray, hempty, if_true]
  · cases h
  · cases h

end Grammar
end Reexport
