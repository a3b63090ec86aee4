import Reexport.Proofs.Verdicts

/-!
# The drafts of modules

Every record is settled from a draft: what the module declares and what its
directives contribute. `draftAt` reads that draft off the course of the resolution,
so one can speak of the contributions to a name and not only of the entry that they
make.

Results:

* `Drafted`: what holds of the draft of any module, complete or not.
* `drafted_draftAt`: every module has a draft.
-/

namespace Reexport.Resolution

/-- A name that stands for different declarations in a module. -/
def Ambiguous (tree : ModuleTree) (id : ModuleId) (name : String) : Prop :=
  ∃ e, (resolvedAt tree id).exports.find? name = some e ∧ e.ambiguous = true

/-- Where a contribution to a module comes from. -/
inductive Source (tree : ModuleTree) (id : ModuleId) (c : Contribution) : Prop
  | own {s : Symbol} : s ∈ (tree.get id).symbols → s.name = c.name → c.via = .own →
      Source tree id c
  | listed {index : Nat} {d : Directive} {pins : List Pin} {pin : Pin} :
      (tree.get id).directives[index]? = some d → d.form = .explicit pins → pin ∈ pins →
      pin.exportedName = some c.name → c.via = .pinned index → Source tree id c
  | taken {index : Nat} {d : Directive} {target : ModuleId} :
      (tree.get id).directives[index]? = some d → target? tree id d = some target →
      c.entry ∈ (resolvedAt tree target).exports.entries → c.via = .wildcard index →
      Source tree id c

/-- A draft that the record of a module is settled from. -/
structure Drafted (tree : ModuleTree) (id : ModuleId) (draft : Draft) : Prop where
  settled : resolvedAt tree id = draft.settle (tree.get id)
  source : ∀ c ∈ draft.contributions, Source tree id c
  direct : ∀ {name : String}, Declares tree id name →
    ∃ c ∈ draft.routes name, c.via.isDirect = true

/-! ## Drafts from effects -/

@[simp] theorem takeAll_contributions (tree : ModuleTree) (index : Nat) (target : ModuleId)
    (exports : ExportSet) :
    (takeAll tree index target exports).contributions = exports.entries.map (⟨·, .wildcard index⟩) := by
  unfold takeAll
  cases exports.gaps <;> rfl

theorem EffectOf.source {tree : ModuleTree} {id : ModuleId} {index : Nat} {d : Directive} {e : Effect}
    (h : EffectOf tree (resolveAll tree) id index d e)
    (hd : (tree.get id).directives[index]? = some d) {c : Contribution}
    (hc : c ∈ e.contributions) : Source tree id c := by
  cases h with
  | ambiguous _ => cases hc
  | unresolved _ _ => cases hc
  | cycle _ => cases hc
  | explicit hform hnames hvia =>
    have hname := List.mem_map_of_mem (f := Contribution.name) hc
    rw [hnames, List.mem_filterMap] at hname
    obtain ⟨pin, hpin, hexported⟩ := hname
    exact .listed hd hform hpin hexported (hvia c hc)
  | taken ht _ hr =>
    rw [takeAll_contributions] at hc
    obtain ⟨entry, hentry, rfl⟩ := List.mem_map.1 hc
    exact .taken hd ht (by rwa [resolvedAt_eq hr]) rfl

/-- The contributions to a module: what it declares, and those of its directives. -/
theorem mem_addEffects {tree : ModuleTree} {id : ModuleId} {effects : List Effect} {c : Contribution} :
    c ∈ ((ownDraft (tree.get id)).addEffects effects).contributions ↔
      (∃ s ∈ (tree.get id).symbols, ⟨⟨s, s.identity, false⟩, .own⟩ = c) ∨
        ∃ (index : Nat) (e : Effect), effects[index]? = some e ∧ c ∈ e.contributions := by
  simp only [Draft.addEffects, ownDraft, List.mem_append, List.mem_map, List.mem_flatMap]
  refine or_congr Iff.rfl ⟨?_, ?_⟩
  · rintro ⟨e, he, hc⟩
    obtain ⟨index, hindex⟩ := List.mem_iff_getElem?.1 he
    exact ⟨index, e, hindex, hc⟩
  · rintro ⟨index, e, hindex, hc⟩
    exact ⟨e, List.mem_of_getElem? hindex, hc⟩

theorem EffectsOf.drafted {tree : ModuleTree} {id : ModuleId} {effects : List Effect}
    (h : EffectsOf tree (resolveAll tree) id effects)
    (hr : resolvedAt tree id = record tree id effects) :
    Drafted tree id ((ownDraft (tree.get id)).addEffects effects) := by
  refine ⟨hr, fun c hc => ?_, ?_⟩
  · rcases mem_addEffects.1 hc with ⟨s, hs, rfl⟩ | ⟨index, e, he, hce⟩
    · exact .own hs rfl rfl
    · obtain ⟨d, hd, heffect⟩ := h.of_effect he
      exact heffect.source hd hce
  · rintro name (⟨s, hs, rfl⟩ | ⟨d, hd, pins, hform, pin, hpin, hexported⟩)
    · exact ⟨_, (Draft.mem_routes _).2 ⟨mem_addEffects.2 (.inl ⟨s, hs, rfl⟩), rfl⟩, rfl⟩
    · obtain ⟨index, hindex⟩ := List.mem_iff_getElem?.1 hd
      obtain ⟨e, he, heffect⟩ := h.of_directive hindex
      cases heffect with
      | ambiguous hform' => simp [hform] at hform'
      | unresolved hwild _ => simp [Directive.isWildcard, hform] at hwild
      | cycle ht => simp [target?, hform] at ht
      | taken ht _ _ => simp [target?, hform] at ht
      | @explicit pins' cs hform' hnames hvia =>
        rw [hform] at hform'
        cases hform'
        have hname : name ∈ cs.map (·.name) := by
          rw [hnames]
          exact List.mem_filterMap.2 ⟨pin, hpin, hexported⟩
        obtain ⟨c, hcs, hcname⟩ := List.mem_map.1 hname
        refine ⟨c, (Draft.mem_routes _).2 ⟨?_, hcname⟩, by rw [hvia c hcs]; rfl⟩
        exact mem_addEffects.2 (.inr ⟨index, _, he, hcs⟩)

/-- A module's own declaration of a name comes before all others. -/
theorem record_find?_own {tree : ModuleTree} {id : ModuleId} (effects : List Effect) {name : String}
    {s : Symbol} (hs : (tree.get id).symbols.find? (fun s => s.name == name) = some s) :
    ∃ e, (record tree id effects).exports.find? name = some e ∧
      e.MadeFrom ⟨s, s.identity, false⟩ := by
  rw [record, Draft.settle_find?]
  have hhead : (((ownDraft (tree.get id)).addEffects effects).routes name).head? =
      some ⟨⟨s, s.identity, false⟩, .own⟩ := by
    rw [Draft.routes, List.head?_filter]
    show ((_ ++ _ : List Contribution).find? _) = _
    rw [List.find?_append, ownDraft, List.find?_map]
    show (((tree.get id).symbols.find? fun s => s.name == name).map _).or _ = _
    rw [hs]
    rfl
  have hfirst : (((ownDraft (tree.get id)).addEffects effects).routes name).find? (·.via.isDirect) =
      some ⟨⟨s, s.identity, false⟩, .own⟩ := by
    obtain ⟨rest, hrest⟩ := List.head?_eq_some_iff.1 hhead
    rw [hrest]
    rfl
  exact entryOf?_of_direct hfirst

namespace Drafted

variable {tree : ModuleTree} {id : ModuleId} {draft : Draft} (h : Drafted tree id draft)

include h

theorem declares_of_direct {name : String} {c : Contribution} (hc : c ∈ draft.routes name)
    (hdirect : c.via.isDirect = true) : Declares tree id name := by
  obtain ⟨hmem, rfl⟩ := draft.mem_routes.1 hc
  cases h.source c hmem with
  | own hs hname _ => exact .inl ⟨_, hs, hname⟩
  | listed hd hform hpin hexported _ =>
    exact .inr ⟨_, List.mem_of_getElem? hd, _, hform, _, hpin, hexported⟩
  | taken _ _ _ hvia =>
    rw [hvia] at hdirect
    cases hdirect

theorem no_direct_iff {name : String} :
    (∀ c ∈ draft.routes name, c.via.isDirect = false) ↔ ¬ Declares tree id name := by
  constructor
  · intro hno hdecl
    obtain ⟨c, hc, hdirect⟩ := h.direct hdecl
    rw [hno c hc] at hdirect
    cases hdirect
  · intro hdecl c hc
    by_contra hdirect
    exact hdecl (h.declares_of_direct hc (by simpa using hdirect))

theorem mem_names {name : String} :
    name ∈ (resolvedAt tree id).exports.names ↔ name ∈ draft.names := by
  rw [h.settled, Draft.settle_names]

theorem find? (name : String) :
    (resolvedAt tree id).exports.find? name = entryOf? (draft.routes name) := by
  rw [h.settled, Draft.settle_find?]

theorem ambiguous_iff {name : String} :
    Ambiguous tree id name ↔ isAmbiguous (draft.routes name) = true := by
  unfold Ambiguous isAmbiguous
  rw [h.find? name, Option.any_eq_true]

/-- Where nothing comes in directly, every contribution counts and passes its mark on. -/
theorem ambiguous_of_route {name : String} (hdecl : ¬ Declares tree id name) {c : Contribution}
    (hc : c ∈ draft.routes name) (hmarked : c.entry.ambiguous = true) : Ambiguous tree id name := by
  rw [h.ambiguous_iff, isAmbiguous_eq, winners_of_no_direct (h.no_direct_iff.2 hdecl),
    Bool.or_eq_true]
  exact .inr (List.any_eq_true.2 ⟨c, hc, hmarked⟩)

theorem directive_of_wildcard {name : String} {c : Contribution} {index : Nat}
    (hc : c ∈ draft.routes name) (hvia : c.via = .wildcard index) :
    ∃ d target, (tree.get id).directives[index]? = some d ∧ target? tree id d = some target ∧
      c.entry ∈ (resolvedAt tree target).exports.entries := by
  cases h.source c (draft.mem_routes.1 hc).1 with
  | own _ _ hvia' => simp [hvia] at hvia'
  | listed _ _ _ _ hvia' => simp [hvia] at hvia'
  | taken hd ht hentry hvia' =>
    rw [hvia] at hvia'
    cases hvia'
    exact ⟨_, _, hd, ht, hentry⟩

end Drafted

/-- An entry is found under its name. -/
theorem find?_of_mem {tree : ModuleTree} (h : tree.WellFormed) {id : ModuleId} (hid : id < tree.size)
    {e : Entry} (he : e ∈ (resolvedAt tree id).exports.entries) :
    (resolvedAt tree id).exports.find? e.symbol.name = some e := by
  obtain ⟨effects, -, hr⟩ := resolvedAt_record h hid
  rw [hr] at he ⊢
  exact Draft.settle_find?_of_mem _ _ he

/-! ## The draft of a module -/

/-- The visit in which a module is opened. -/
def opening? (tree : ModuleTree) (id : ModuleId) : Option Visit :=
  (trace tree).find? fun v => v.request == .resolve id && v.memo.isUnvisited id

/-- The effects of a module's directives. -/
def effectsAt (tree : ModuleTree) (id : ModuleId) : List Effect :=
  match opening? tree id with
  | some v => v.effects tree id
  | none => []

/-- What is known about a module before its names are settled. -/
def draftAt (tree : ModuleTree) (id : ModuleId) : Draft :=
  (ownDraft (tree.get id)).addEffects (effectsAt tree id)

section DraftAt

variable {tree : ModuleTree} (h : tree.WellFormed) {id : ModuleId} (hid : id < tree.size)

include h hid

theorem effectsAt_eq : ∃ v ∈ trace tree, v.Opens id ∧ effectsAt tree id = v.effects tree id := by
  obtain ⟨v, hv, hreq, hget⟩ := exists_opens h hid
  have hsome : (opening? tree id).isSome := by
    refine List.find?_isSome.2 ⟨v, hv, ?_⟩
    simp [hreq, Memo.isUnvisited_iff.2 hget]
  obtain ⟨w, hw⟩ := Option.isSome_iff_exists.1 hsome
  have hopens := List.find?_some hw
  simp only [Bool.and_eq_true, beq_iff_eq, Memo.isUnvisited_iff] at hopens
  exact ⟨w, List.mem_of_find?_eq_some hw, hopens, by rw [effectsAt, hw]⟩

theorem effectsOf_effectsAt : EffectsOf tree (resolveAll tree) id (effectsAt tree id) := by
  obtain ⟨v, hv, hopens, heq⟩ := effectsAt_eq h hid
  rw [heq]
  exact Visit.effectsOf hv hopens

/-- Every module is settled from its draft. -/
theorem resolvedAt_eq_record : resolvedAt tree id = record tree id (effectsAt tree id) := by
  obtain ⟨v, hv, hopens, heq⟩ := effectsAt_eq h hid
  rw [heq]
  exact Visit.resolvedAt_eq h hv hopens hid

theorem drafted_draftAt : Drafted tree id (draftAt tree id) :=
  (effectsOf_effectsAt h hid).drafted (resolvedAt_eq_record h hid)

end DraftAt

end Reexport.Resolution
