import Mathlib.Data.Finset.Card
import Reexport.Proofs.Ambiguity

/-!
# Contested names

Contributions to one name may agree or not. Declarations and listed names come first: if
they disagree the name collides, if they agree they hide whatever else wildcards bring in
under it. Where there are none, wildcards may collide among themselves. Each name is judged
once and by its own contributions only.

Results:

* `origins_pairwise`: lists of origins are in the order of paths, then of lines.
* `listsEach_origins`: such a list has one item for each identity.
* `Draft.collisions_of`, `Draft.shadowed_of`: what is on record about one name.
* `contested_names_settled`: when a name collides or hides something, what is then on
  record, and which entry is exported.
-/

namespace Reexport

/-! ## The order of origins -/

namespace Path

/-- The text of a component that is a name. -/
def Component.key : Component → String
  | .name text => String.ofList text
  | .root | .here | .up => ""

theorem Component.compare_eq : Component.compare =
    compareLex (compareOn Component.rank) (compareOn Component.key) := by
  funext a b
  cases a <;> cases b <;> rfl

instance : Std.TransCmp Component.compare := by
  rw [Component.compare_eq]
  infer_instance

theorem compareComponents_eq : compareComponents = List.compareLex Component.compare := by
  funext as bs
  induction as generalizing bs with
  | nil => cases bs <;> rfl
  | cons a as ih =>
    cases bs with
    | nil => rfl
    | cons b bs =>
      rw [compareComponents, List.compareLex_cons_cons, ih]
      cases a.compare b <;> rfl

instance : Std.TransCmp Path.compare where
  eq_swap := by
    intro a b
    rw [Path.compare, Path.compare, compareComponents_eq]
    exact Std.OrientedCmp.eq_swap
  isLE_trans := by
    intro a b c
    rw [Path.compare, Path.compare, Path.compare, compareComponents_eq]
    exact Std.TransCmp.isLE_trans

end Path

theorem Origin.le_iff {a b : Origin} : a.le b = true ↔ Path.compare a.path b.path = .lt ∨
    (Path.compare a.path b.path = .eq ∧ a.line ≤ b.line) := by
  unfold Origin.le
  cases Path.compare a.path b.path <;> simp

theorem Origin.le_trans {a b c : Origin} (hab : a.le b = true) (hbc : b.le c = true) :
    a.le c = true := by
  rw [Origin.le_iff] at hab hbc ⊢
  rcases hab with hab | ⟨hab, hline⟩ <;> rcases hbc with hbc | ⟨hbc, hline'⟩
  · exact .inl (Std.TransCmp.lt_trans hab hbc)
  · exact .inl (Std.TransCmp.lt_of_lt_of_eq hab hbc)
  · exact .inl (Std.TransCmp.lt_of_eq_of_lt hab hbc)
  · exact .inr ⟨Std.TransCmp.eq_trans hab hbc, Nat.le_trans hline hline'⟩

theorem Origin.le_total (a b : Origin) : (a.le b || b.le a) = true := by
  have hswap : Path.compare b.path a.path = (Path.compare a.path b.path).swap :=
    Std.OrientedCmp.eq_swap
  rw [Bool.or_eq_true, Origin.le_iff, Origin.le_iff, hswap]
  cases Path.compare a.path b.path with
  | lt => exact .inl (.inl rfl)
  | gt => exact .inr (.inl rfl)
  | eq =>
    rcases Nat.le_total a.line b.line with hle | hle
    · exact .inl (.inr ⟨rfl, hle⟩)
    · exact .inr (.inr ⟨rfl, hle⟩)

/-- Lists of origins are in the order of paths, then of lines. -/
theorem origins_pairwise (routes : List Contribution) (directives : List Directive) :
    (origins routes directives).Pairwise fun a b => Path.compare a.path b.path = .lt ∨
      (Path.compare a.path b.path = .eq ∧ a.line ≤ b.line) := by
  have hsorted := @List.pairwise_mergeSort _ Origin.le (fun _ _ _ => Origin.le_trans)
    Origin.le_total ((firstOfEach routes).map (·.origin directives))
  exact hsorted.imp fun hle => Origin.le_iff.1 hle

/-! ## One item for each identity -/

/-- The identities of contributions. -/
def identities (cs : List Contribution) : Finset Identity :=
  (cs.map (·.entry.identity)).toFinset

theorem mem_identities {cs : List Contribution} {i : Identity} :
    i ∈ identities cs ↔ ∃ c ∈ cs, c.entry.identity = i := by
  simp [identities]

/-- A list has the origin of one contribution for each identity, in the order of paths and
    then of lines. -/
structure ListsEach (cs : List Contribution) (directives : List Directive) (os : List Origin) :
    Prop where
  chosen : ∃ firsts : List Contribution, firsts.Sublist cs ∧
    (firsts.map (·.entry.identity)).Nodup ∧ identities firsts = identities cs ∧
    os.Perm (firsts.map (·.origin directives))
  sorted : os.Pairwise fun a b => Path.compare a.path b.path = .lt ∨
    (Path.compare a.path b.path = .eq ∧ a.line ≤ b.line)

theorem identities_firstOfEach (cs : List Contribution) :
    identities (firstOfEach cs) = identities cs := by
  ext i
  rw [mem_identities, mem_identities]
  constructor
  · rintro ⟨c, hc, hi⟩
    exact ⟨c, (firstOfEach_sublist cs).subset hc, hi⟩
  · rintro ⟨c, hc, hi⟩
    obtain ⟨first, hfirst, heq⟩ := exists_mem_firstOfEach hc
    exact ⟨first, hfirst, heq.trans hi⟩

theorem listsEach_origins (cs : List Contribution) (directives : List Directive) :
    ListsEach cs directives (origins cs directives) where
  chosen := ⟨firstOfEach cs, firstOfEach_sublist cs, List.pairwise_map.2 (firstOfEach_pairwise cs),
    identities_firstOfEach cs, List.mergeSort_perm _ _⟩
  sorted := origins_pairwise cs directives

/-- There is an item for every identity, so for a contribution there is one. -/
theorem ListsEach.length {cs : List Contribution} {directives : List Directive} {os : List Origin}
    (h : ListsEach cs directives os) : os.length = (identities cs).card := by
  obtain ⟨firsts, -, hnodup, hsame, hperm⟩ := h.chosen
  rw [hperm.length_eq, List.length_map, ← hsame, identities, List.toFinset_card_of_nodup hnodup,
    List.length_map]

theorem ListsEach.ne_nil {cs : List Contribution} {directives : List Directive} {os : List Origin}
    (h : ListsEach cs directives os) (hcs : cs ≠ []) : os ≠ [] := by
  rintro rfl
  obtain ⟨c, hc⟩ := List.exists_mem_of_ne_nil _ hcs
  have hcard := h.length
  rw [List.length_nil, eq_comm, Finset.card_eq_zero] at hcard
  have hmem := mem_identities.2 ⟨c, hc, rfl⟩
  rw [hcard] at hmem
  cases hmem

/-! ## Contributions that agree or not -/

/-- What comes in directly. -/
abbrev direct (routes : List Contribution) : List Contribution := routes.filter (·.via.isDirect)

/-- What comes in through wildcards. -/
abbrev indirect (routes : List Contribution) : List Contribution := routes.filter (!·.via.isDirect)

theorem differ_iff {cs : List Contribution} : differ cs = true ↔ 2 ≤ (identities cs).card := by
  rw [Nat.succ_le_iff, Finset.one_lt_card]
  constructor
  · intro h
    obtain ⟨a, ha, b, hb, hne⟩ := exists_of_differ h
    exact ⟨_, mem_identities.2 ⟨a, ha, rfl⟩, _, mem_identities.2 ⟨b, hb, rfl⟩, hne⟩
  · rintro ⟨i, hi, j, hj, hne⟩
    obtain ⟨a, ha, rfl⟩ := mem_identities.1 hi
    obtain ⟨b, hb, rfl⟩ := mem_identities.1 hj
    by_contra hsame
    exact hne (differ_eq_false (by simpa using hsame) a ha b hb)

theorem indirect_of_direct_nil {routes : List Contribution} (h : direct routes = []) :
    indirect routes = routes := by
  rw [List.filter_eq_self]
  intro c hc
  simpa using List.filter_eq_nil_iff.1 h c hc

theorem winners_eq (routes : List Contribution) :
    winners routes = if direct routes = [] then indirect routes else direct routes := by
  unfold winners
  simp only [List.isEmpty_iff]
  split_ifs with hdirect
  · rw [indirect_of_direct_nil hdirect]
  · rfl

/-- Contributions of one name disagree where it counts. -/
def Contested (routes : List Contribution) : Prop :=
  2 ≤ (identities (direct routes)).card ∨
    (direct routes = [] ∧ 2 ≤ (identities (indirect routes)).card)

/-- Contributions of one name agree where it counts, and wildcards bring in something else. -/
def Hiding (routes : List Contribution) : Prop :=
  (identities (direct routes)).card = 1 ∧
    ∃ c ∈ indirect routes, c.entry.identity ∉ identities (direct routes)

theorem differ_winners_iff {routes : List Contribution} :
    differ (winners routes) = true ↔ Contested routes := by
  rw [differ_iff, winners_eq, Contested]
  split_ifs with hdirect
  · simp [hdirect, identities]
  · simp [hdirect]

/-! ## What is on record about one name -/

/-- Of records that are made name by name, those of one name. -/
theorem filterMap_filter_name {β : Type} {f : String → Option β} {key : β → String}
    (hkey : ∀ {name b}, f name = some b → key b = name) (name : String) :
    ∀ {names : List String}, names.Nodup → (name ∉ names → f name = none) →
      (names.filterMap f).filter (fun b => key b == name) = (f name).toList := by
  intro names
  induction names with
  | nil =>
    intro _ hnone
    rw [hnone List.not_mem_nil]
    rfl
  | cons head rest ih =>
    intro hnodup hnone
    obtain ⟨hhead, hrest⟩ := List.nodup_cons.1 hnodup
    by_cases hsame : head = name
    · subst hsame
      have hothers : (rest.filterMap f).filter (fun b => key b == head) = [] := by
        rw [List.filter_eq_nil_iff]
        intro b hb
        obtain ⟨other, hother, hf⟩ := List.mem_filterMap.1 hb
        rw [hkey hf, beq_iff_eq]
        rintro rfl
        exact hhead hother
      cases hf : f head with
      | none => rw [List.filterMap_cons_none hf, hothers]; rfl
      | some b =>
        rw [List.filterMap_cons_some hf, List.filter_cons_of_pos (by simp [hkey hf]), hothers]
        rfl
    · have hrest' := ih hrest fun hnot => hnone (by simp [hnot, Ne.symm hsame])
      cases hf : f head with
      | none => rw [List.filterMap_cons_none hf, hrest']
      | some b =>
        rw [List.filterMap_cons_some hf, List.filter_cons_of_neg (by simp [hkey hf, hsame]), hrest']

/-- Where what comes in directly agrees, whatever differs from it comes in through
    wildcards. -/
theorem hidden_eq {routes : List Contribution} {kept : Contribution}
    (hkept : (direct routes).head? = some kept) (hagree : differ (direct routes) = false) :
    (routes.filter fun c => c.entry.identity != kept.entry.identity) =
      (indirect routes).filter fun c => c.entry.identity ∉ identities (direct routes) := by
  have hmem := List.mem_of_mem_head? hkept
  have hsame : ∀ i, i ∈ identities (direct routes) ↔ i = kept.entry.identity := by
    intro i
    rw [mem_identities]
    constructor
    · rintro ⟨c, hc, rfl⟩
      exact differ_eq_false hagree c hc kept hmem
    · rintro rfl
      exact ⟨kept, hmem, rfl⟩
  rw [indirect, List.filter_filter]
  apply List.filter_congr
  intro c hc
  rw [Bool.eq_iff_iff]
  simp only [bne_iff_ne, ne_eq, hsame, decide_not, Bool.and_eq_true,
    decide_eq_false_iff_not, iff_self_and, Bool.not_eq_eq_eq_not, Bool.not_true]
  intro hne
  by_contra hdirect
  have hc' : c ∈ direct routes := List.mem_filter.2 ⟨hc, by simpa using hdirect⟩
  exact hne (differ_eq_false hagree c hc' kept hmem)

/-- What is on record as hidden, if anything is. -/
theorem shadowing?_of_head {m : Module} {name : String} {routes : List Contribution}
    {kept : Contribution} (hkept : (direct routes).head? = some kept) :
    shadowing? m name routes =
      if differ (direct routes) = true then none
      else if (routes.filter fun c => c.entry.identity != kept.entry.identity) = [] then none
      else some ⟨m.qualifiedName, name, kept.origin m.directives,
        origins (routes.filter fun c => c.entry.identity != kept.entry.identity) m.directives⟩ := by
  obtain ⟨others, hdirect⟩ := List.head?_eq_some_iff.1 hkept
  simp only [shadowing?, hdirect, List.isEmpty_iff]

theorem shadowing?_of_no_direct {m : Module} {name : String} {routes : List Contribution}
    (hdirect : direct routes = []) : shadowing? m name routes = none := by
  simp only [shadowing?, hdirect]

theorem card_eq_one_iff {cs : List Contribution} {c : Contribution} (hc : c ∈ cs) :
    (identities cs).card = 1 ↔ differ cs = false := by
  have hpos : 0 < (identities cs).card :=
    Finset.card_pos.2 ⟨_, mem_identities.2 ⟨c, hc, rfl⟩⟩
  rw [Bool.eq_false_iff, Ne, differ_iff]
  omega

theorem shadowing?_isSome_iff {m : Module} {name : String} {routes : List Contribution} :
    (shadowing? m name routes).isSome = true ↔ Hiding routes := by
  unfold Hiding
  cases hhead : (direct routes).head? with
  | none =>
    have hdirect := List.head?_eq_none_iff.1 hhead
    rw [shadowing?_of_no_direct hdirect, hdirect]
    simp [identities]
  | some kept =>
    rw [shadowing?_of_head hhead, card_eq_one_iff (List.mem_of_mem_head? hhead)]
    split_ifs with hdiffer hhidden
    · simp [hdiffer]
    · rw [hidden_eq hhead (by simpa using hdiffer), List.filter_eq_nil_iff] at hhidden
      simp only [Option.isSome_none, Bool.false_eq_true, false_iff, not_and, not_exists]
      intro _ c hc
      simpa using hhidden c hc
    · rw [hidden_eq hhead (by simpa using hdiffer)] at hhidden
      obtain ⟨c, hc⟩ := List.exists_mem_of_ne_nil _ hhidden
      obtain ⟨hc, hnot⟩ := List.mem_filter.1 hc
      simp only [Option.isSome_some, true_iff]
      exact ⟨by simpa using hdiffer, c, hc, by simpa using hnot⟩

/-- What a shadowing on record holds: the first that comes in directly is kept, and hidden is
    what wildcards bring in under another identity. -/
theorem shadowing?_eq_some {m : Module} {name : String} {routes : List Contribution} {s : Shadowing}
    (hs : shadowing? m name routes = some s) :
    s.module = m.qualifiedName ∧ s.name = name ∧
      (direct routes).head?.map (·.origin m.directives) = some s.kept ∧ s.hidden ≠ [] ∧
      ListsEach ((indirect routes).filter fun c => c.entry.identity ∉ identities (direct routes))
        m.directives s.hidden := by
  cases hhead : (direct routes).head? with
  | none => simp [shadowing?_of_no_direct (List.head?_eq_none_iff.1 hhead)] at hs
  | some kept =>
    rw [shadowing?_of_head hhead] at hs
    split_ifs at hs with hdiffer hhidden
    cases hs
    rw [hidden_eq hhead (by simpa using hdiffer)] at hhidden ⊢
    have hlists := listsEach_origins ((indirect routes).filter fun c =>
      c.entry.identity ∉ identities (direct routes)) m.directives
    exact ⟨rfl, rfl, rfl, hlists.ne_nil hhidden, hlists⟩

namespace Draft

variable (draft : Draft) (m : Module) (name : String)

theorem routes_eq_nil (h : name ∉ draft.names) : draft.routes name = [] := by
  rw [List.eq_nil_iff_forall_not_mem]
  intro c hc
  exact h (draft.mem_names.2 ⟨c, draft.mem_routes.1 hc⟩)

/-- What is on record as a collision of one name. -/
theorem collisions_of : (draft.settle m).collisions.filter (·.name == name) =
    (collision? m name (draft.routes name)).toList := by
  refine filterMap_filter_name (f := fun name => collision? m name (draft.routes name)) ?_ name
    (sortedNames_nodup _) fun hnot => ?_
  · intro name c hc
    rw [(collision?_eq_some_iff.1 hc).2]
  · simp only [draft.routes_eq_nil name hnot]
    rfl

/-- What is on record as hidden under one name. -/
theorem shadowed_of : (draft.settle m).shadowed.filter (·.name == name) =
    (shadowing? m name (draft.routes name)).toList := by
  refine filterMap_filter_name (f := fun name => shadowing? m name (draft.routes name)) ?_ name
    (sortedNames_nodup _) fun hnot => ?_
  · intro name s hs
    exact (shadowing?_eq_some hs).2.1
  · simp only [draft.routes_eq_nil name hnot]
    rfl

/-- Records that are made name by name are in the order of the names. -/
theorem filterMap_in_order {β : Type} {f : String → Option β} {key : β → String}
    (hkey : ∀ {name b}, f name = some b → key b = name) :
    ((draft.names.filterMap f).map key).Pairwise fun a b => bytes a < bytes b := by
  have hsub : ∀ names : List String, ((names.filterMap f).map key).Sublist names := by
    intro names
    induction names with
    | nil => exact List.Sublist.slnil
    | cons head rest ih =>
      cases hf : f head with
      | none => rw [List.filterMap_cons_none hf]; exact ih.cons head
      | some b =>
        rw [List.filterMap_cons_some hf, List.map_cons, hkey hf]
        exact ih.cons_cons head
  exact sortedNames_bytes (hsub draft.names)

end Draft

namespace Resolution

/-! ## The contributions to a name -/

/-- All ways in which a name comes into a module: each declaration of it, each listed name
    that is exported as it, and each entry of it in the target of a wildcard that makes no
    circle. -/
structure Contributed (tree : ModuleTree) (id : ModuleId) (name : String)
    (routes : List Contribution) : Prop where
  source : ∀ c ∈ routes, c.name = name ∧ Source tree id c
  own : ∀ s ∈ (tree.get id).symbols, s.name = name → ⟨⟨s, s.identity, false⟩, .own⟩ ∈ routes
  listed : ∀ {index : Nat} {d : Directive} {pins : List Pin} {pin : Pin},
    (tree.get id).directives[index]? = some d → d.form = .explicit pins → pin ∈ pins →
    pin.exportedName = some name → ∃ c ∈ routes, c.via = .pinned index
  taken : ∀ {index : Nat} {d : Directive} {target : ModuleId} {e : Entry},
    (tree.get id).directives[index]? = some d → target? tree id d = some target →
    (resolvedAt tree id).plans[index]? ≠ some .cycle →
    e ∈ (resolvedAt tree target).exports.entries → e.symbol.name = name →
    ⟨e, .wildcard index⟩ ∈ routes
  /-- Declarations come first, in their order, then what each directive brings in. -/
  ordered : ∃ parts : List (List Contribution),
    parts.length = (tree.get id).directives.length ∧
    routes = ((tree.get id).symbols.filter (·.name == name)).map
      (fun s => ⟨⟨s, s.identity, false⟩, .own⟩) ++ parts.flatten ∧
    ∀ {index : Nat} {part : List Contribution}, parts[index]? = some part → ∀ c ∈ part,
      c.via = .pinned index ∨ c.via = .wildcard index

theorem contributed_routes {tree : ModuleTree} (h : tree.WellFormed) {id : ModuleId}
    (hid : id < tree.size) (name : String) :
    Contributed tree id name ((draftAt tree id).routes name) := by
  have hdrafted := drafted_draftAt h hid
  have heffects := effectsOf_effectsAt h hid
  refine ⟨fun c hc => ?_, fun s hs hname => ?_, ?_, ?_, ?_⟩
  · obtain ⟨hmem, hname⟩ := (Draft.mem_routes _).1 hc
    exact ⟨hname, hdrafted.source c hmem⟩
  · exact (Draft.mem_routes _).2 ⟨mem_addEffects.2 (.inl ⟨s, hs, rfl⟩), hname⟩
  · intro index d pins pin hd hform hpin hexported
    obtain ⟨e, he, heffect⟩ := heffects.of_directive hd
    cases heffect with
    | ambiguous hform' => simp [hform] at hform'
    | unresolved hwild _ => simp [Directive.isWildcard, hform] at hwild
    | cycle ht => simp [target?, hform] at ht
    | taken ht _ _ => simp [target?, hform] at ht
    | @explicit pins' cs hform' hnames hvia =>
      rw [hform] at hform'
      cases hform'
      have hmem : name ∈ cs.map (·.name) := by
        rw [hnames]
        exact List.mem_filterMap.2 ⟨pin, hpin, hexported⟩
      obtain ⟨c, hc, hname⟩ := List.mem_map.1 hmem
      exact ⟨c, (Draft.mem_routes _).2 ⟨mem_addEffects.2 (.inr ⟨index, _, he, hc⟩), hname⟩, hvia c hc⟩
  · intro index d target e hd ht hcycle hentry hname
    obtain ⟨effect, he, heffect⟩ := heffects.of_directive hd
    have hplan : effect.plan ≠ .cycle := by
      intro heq
      rw [resolvedAt_eq_record h hid, record_plans, he, Option.map_some, heq] at hcycle
      exact hcycle rfl
    exact (Draft.mem_routes _).2
      ⟨mem_addEffects.2 (.inr ⟨index, effect, he, heffect.brings_target ht hplan hentry⟩), hname⟩
  · refine ⟨(effectsAt tree id).map fun e => e.contributions.filter (·.name == name), ?_, ?_, ?_⟩
    · rw [List.length_map, heffects.length]
    · rw [Draft.routes, draftAt, Draft.addEffects, ownDraft, List.filter_append, List.filter_map,
        List.filter_flatMap, List.flatMap_def]
      rfl
    · intro index part hpart c hc
      rw [List.getElem?_map, Option.map_eq_some_iff] at hpart
      obtain ⟨e, he, rfl⟩ := hpart
      obtain ⟨d, -, heffect⟩ := heffects.of_effect he
      exact heffect.via c (List.mem_filter.1 hc).1

/-! ## Main result -/

/-- The records about a name in a module agree with the contributions to it. -/
structure Judged (tree : ModuleTree) (id : ModuleId) (name : String)
    (routes : List Contribution) : Prop where
  /-- A collision is on record once if the contributions disagree where it counts. -/
  collides : Contested routes →
    ((resolvedAt tree id).collisions.filter (·.name == name)).length = 1
  /-- Otherwise there is none. -/
  quiet : ¬ Contested routes → ∀ c ∈ (resolvedAt tree id).collisions, c.name ≠ name
  contributors : ∀ c ∈ (resolvedAt tree id).collisions, c.name = name →
    c.module = (tree.get id).qualifiedName ∧
    ListsEach routes (tree.get id).directives c.contributors
  /-- A shadowing is on record once if wildcards bring in something else. -/
  hides : Hiding routes →
    ((resolvedAt tree id).shadowed.filter (·.name == name)).length = 1
  /-- Otherwise there is none. -/
  plain : ¬ Hiding routes → ∀ s ∈ (resolvedAt tree id).shadowed, s.name ≠ name
  /-- What is hidden comes in through wildcards. -/
  hidden : ∀ s ∈ (resolvedAt tree id).shadowed, s.name = name →
    s.module = (tree.get id).qualifiedName ∧
    (direct routes).head?.map (·.origin (tree.get id).directives) = some s.kept ∧
    s.hidden ≠ [] ∧
    ListsEach ((indirect routes).filter fun c => c.entry.identity ∉ identities (direct routes))
      (tree.get id).directives s.hidden
  /-- A name that nothing contributes to is not exported. -/
  absent : routes = [] → (resolvedAt tree id).exports.find? name = none
  /-- The first direct contribution is exported, else the first of a wildcard. -/
  entry : ∀ first, (direct routes ++ indirect routes).head? = some first →
    ∃ e, (resolvedAt tree id).exports.find? name = some e ∧ e.symbol = first.entry.symbol ∧
      e.identity = first.entry.identity ∧
      (e.ambiguous = true ↔ (∃ c ∈ (resolvedAt tree id).collisions, c.name = name) ∨
        ∃ c ∈ if direct routes = [] then indirect routes else direct routes,
          c.entry.ambiguous = true)

section Judged

variable {tree : ModuleTree} {id : ModuleId} {draft : Draft} (h : Drafted tree id draft)
  (name : String)

include h

theorem collisions_of_name : (resolvedAt tree id).collisions.filter (·.name == name) =
    (collision? (tree.get id) name (draft.routes name)).toList := by
  rw [h.settled, Draft.collisions_of]

theorem shadowed_of_name : (resolvedAt tree id).shadowed.filter (·.name == name) =
    (shadowing? (tree.get id) name (draft.routes name)).toList := by
  rw [h.settled, Draft.shadowed_of]

theorem exists_collision_iff : (∃ c ∈ (resolvedAt tree id).collisions, c.name = name) ↔
    Contested (draft.routes name) := by
  have hof := collisions_of_name h name
  rw [← differ_winners_iff]
  constructor
  · rintro ⟨c, hc, hname⟩
    have hmem : c ∈ (resolvedAt tree id).collisions.filter (·.name == name) :=
      List.mem_filter.2 ⟨hc, by simpa using hname⟩
    rw [hof, Option.mem_toList] at hmem
    exact (collision?_eq_some_iff.1 hmem).1
  · intro hdiffer
    have hsome : collision? (tree.get id) name (draft.routes name) =
        some ⟨(tree.get id).qualifiedName, name,
          origins (draft.routes name) (tree.get id).directives⟩ :=
      collision?_eq_some_iff.2 ⟨hdiffer, rfl⟩
    have hmem := Option.mem_toList.2 hsome
    rw [← hof, List.mem_filter] at hmem
    exact ⟨_, hmem.1, by simp⟩

theorem judged_routes : Judged tree id name (draft.routes name) := by
  have hcollisions := collisions_of_name h name
  have hshadowed := shadowed_of_name h name
  refine ⟨fun hcontested => ?_, fun hcontested c hc hname => ?_, fun c hc hname => ?_,
    fun hhiding => ?_, fun hhiding s hs hname => ?_, fun s hs hname => ?_, fun hnil => ?_,
    fun first hfirst => ?_⟩
  · rw [hcollisions, collision?, if_pos (differ_winners_iff.2 hcontested)]
    rfl
  · exact hcontested ((exists_collision_iff h name).1 ⟨c, hc, hname⟩)
  · have hmem : c ∈ (resolvedAt tree id).collisions.filter (·.name == name) :=
      List.mem_filter.2 ⟨hc, by simpa using hname⟩
    rw [hcollisions, Option.mem_toList] at hmem
    obtain ⟨-, rfl⟩ := collision?_eq_some_iff.1 hmem
    exact ⟨rfl, listsEach_origins _ _⟩
  · obtain ⟨s, hs⟩ := Option.isSome_iff_exists.1
      ((@shadowing?_isSome_iff (tree.get id) name _).2 hhiding)
    rw [hshadowed, hs]
    rfl
  · have hmem : s ∈ (resolvedAt tree id).shadowed.filter (·.name == name) :=
      List.mem_filter.2 ⟨hs, by simpa using hname⟩
    rw [hshadowed, Option.mem_toList] at hmem
    exact hhiding (shadowing?_isSome_iff.1 (Option.isSome_iff_exists.2 ⟨s, hmem⟩))
  · have hmem : s ∈ (resolvedAt tree id).shadowed.filter (·.name == name) :=
      List.mem_filter.2 ⟨hs, by simpa using hname⟩
    rw [hshadowed, Option.mem_toList] at hmem
    obtain ⟨hmodule, -, hrest⟩ := shadowing?_eq_some hmem
    exact ⟨hmodule, hrest⟩
  · rw [h.find?, hnil]
    rfl
  · have hhead : (winners (draft.routes name)).head? = some first := by
      rw [winners_eq]
      split_ifs with hdirect
      · rw [hdirect, List.nil_append] at hfirst
        exact hfirst
      · rwa [List.head?_append_of_ne_nil _ hdirect] at hfirst
    rw [h.find?, entryOf?, hhead, exists_collision_iff h name, ← differ_winners_iff, ← winners_eq]
    exact ⟨_, rfl, rfl, rfl, by simp⟩

end Judged

/-- **Contested names are settled right.** Take all contributions to a name of a module, in
    the order in which they come in: declarations, then directive by directive. A collision is
    on record, and then once, exactly if those that come in directly have two identities, or
    there are none and those of wildcards have two. A shadowing is on record, and then once,
    exactly if those that come in directly have one identity and a wildcard brings in another
    one; what it hides comes in through wildcards. The first that comes in directly is
    exported, else the first of a wildcard, and it is ambiguous exactly if a collision is on
    record or one of those that count arrives ambiguous. Records have one item for each
    identity, by path and line, and are in the order of the names. -/
theorem contested_names_settled {tree : ModuleTree} (h : tree.Built) {id : ModuleId}
    (hid : id < tree.size) :
    (∀ name, Contributed tree id name ((draftAt tree id).routes name) ∧
      Judged tree id name ((draftAt tree id).routes name)) ∧
    ((resolvedAt tree id).collisions.map (·.name)).Pairwise (fun a b => bytes a < bytes b) ∧
    ((resolvedAt tree id).shadowed.map (·.name)).Pairwise (fun a b => bytes a < bytes b) := by
  have hwf := h.wellFormed
  have hdrafted := drafted_draftAt hwf hid
  refine ⟨fun name => ⟨contributed_routes hwf hid name, judged_routes hdrafted name⟩, ?_, ?_⟩
  · rw [hdrafted.settled]
    exact Draft.filterMap_in_order _ fun hc => by rw [(collision?_eq_some_iff.1 hc).2]
  · rw [hdrafted.settled]
    exact Draft.filterMap_in_order _ fun hs => (shadowing?_eq_some hs).2.1

/-- Three modules declare `x`. Module `one` lists that of `a` and has wildcards for all of
    them; module `two` lists it too and declares another one. -/
def rivals : ModuleTree :=
  .flat [
    ("a", [⟨"x", .function, "a", 1⟩], []),
    ("b", [⟨"x", .constant, "b", 1⟩], []),
    ("c", [⟨"x", .trait, "c", 2⟩], []),
    ("one", [], [.star ["super", "c"], .star ["super", "a"], .star ["super", "b"],
      .list [⟨["super", "a"], "x", none⟩]]),
    ("two", [⟨"x", .function, "two", 7⟩],
      [.list [⟨["super", "a"], "x", none⟩], .star ["super", "b"]])]

/-- In module `one` the listed name hides two others, though wildcards come before it; in
    module `two` it collides. -/
theorem contested_names_settled_rivals :
    (Hiding ((draftAt rivals 4).routes "x") ∧ ¬ Contested ((draftAt rivals 4).routes "x") ∧
      ((resolvedAt rivals 4).exports.find? "x").map (·.symbol.origin) = some "a") ∧
    Contested ((draftAt rivals 5).routes "x") ∧ ¬ Hiding ((draftAt rivals 5).routes "x") := by
  have hone := (contested_names_settled (ModuleTree.built_flat _)
    (show 4 < rivals.size by decide +kernel)).1 "x"
  have htwo := (contested_names_settled (ModuleTree.built_flat _)
    (show 5 < rivals.size by decide +kernel)).1 "x"
  refine ⟨⟨?_, ?_, by decide +kernel⟩, ?_, ?_⟩
  · by_contra hnot
    exact absurd (hone.2.plain hnot) (by decide +kernel)
  · intro hcontested
    exact absurd (hone.2.collides hcontested) (by decide +kernel)
  · by_contra hnot
    exact absurd (htwo.2.quiet hnot) (by decide +kernel)
  · intro hhiding
    exact absurd (htwo.2.hides hhiding) (by decide +kernel)

end Resolution

end Reexport
