import Reexport.Proofs.LookUps

/-!
# Where an export comes from

The entry of a name is made from the first contribution that counts: the module's own
declaration, else the first listed name that is exported as it, else, where directives make
no circle, what the first target of a wildcard exports under it.

Results:

* `exists_listed`: what a listed name contributes, and when it is looked up.
* `exportAt_own`, `exportAt_listed`, `exportAt_wildcards`: what an export is made from.
-/

namespace Reexport.Resolution

/-! ## The contribution of a listed name -/

section Contribution

variable (tree : ModuleTree) (inner : Calls)

theorem expandPins_append (id : ModuleId) (index : Nat) (d : Directive) (second : List Pin) :
    ∀ (first : List Pin) (memo : Memo),
      (expandPins tree inner id index d (first ++ second) memo).1 =
        (expandPins tree inner id index d first memo).1 ++ (expandPins tree inner id index d second
          (expandPins tree inner id index d first memo).2).1 := by
  intro first
  induction first with
  | nil => intro memo; rfl
  | cons pin rest ih =>
    intro memo
    simp only [List.cons_append, expandPins, ih, List.append_assoc]

/-- The calls of a directive are made in the memo in which it is looked at. -/
theorem directiveRequests_inCourse {tree : ModuleTree} {depth : Nat} {id : ModuleId} :
    ∀ {ds : List Directive} {start : Nat} {memo : Memo} {index : Nat} {d : Directive},
      InCourse tree depth (allRequests tree (calls tree depth) id start ds memo) memo →
      ds[index]? = some d →
      InCourse tree depth
        (directiveRequests tree id d
          (effectsFrom tree (calls tree depth) id start (ds.take index) memo).2)
        (effectsFrom tree (calls tree depth) id start (ds.take index) memo).2 := by
  intro ds
  induction ds with
  | nil => intro start memo index d _ hd; simp at hd
  | cons first rest ih =>
    intro start memo index d hcourse hd
    rw [allRequests, InCourse.append_iff, ← expand_memo tree _ id start] at hcourse
    cases index with
    | zero =>
      obtain rfl : first = d := by simpa using hd
      exact hcourse.1
    | succ index => exact ih hcourse.2 (by simpa using hd)

end Contribution

/-- The contribution of the listed name that follows `before` in directive number `index`. -/
def contributionOf? (tree : ModuleTree) (id : ModuleId) (index : Nat) (before : List Pin) :
    Option Contribution :=
  (effectsAt tree id)[index]?.bind fun effect =>
    effect.contributions[(before.filterMap (·.exportedName)).length]?

/-- A listed name contributes what it refers to when it is looked at. -/
structure Listed (tree : ModuleTree) (v : Visit) (id : ModuleId) (index : Nat) (d : Directive)
    (before : List Pin) (pin : Pin) (name : String) (e : Effect) (memo : Memo) : Prop where
  effect : (effectsAt tree id)[index]? = some e
  contributions : ∃ first rest, e.contributions =
      first ++ ⟨(pinAs tree (calls tree v.depth) id d pin name memo).1, .pinned index⟩ :: rest ∧
    first.map (·.name) = before.filterMap (·.exportedName)
  later : Later v.memo memo
  inCourse : InCourse tree v.depth (pinRequests tree id d pin) memo

/-- What is known when the listed name that follows `before` is looked up. -/
def Visit.looked (v : Visit) (tree : ModuleTree) (id : ModuleId) (index : Nat) (d : Directive)
    (before : List Pin) : Memo :=
  (expandPins tree (calls tree v.depth) id index d before (v.examined tree id index)).2

section Opened

variable {tree : ModuleTree} (h : tree.WellFormed) {v : Visit} (hv : v ∈ trace tree) {id : ModuleId}
  (hid : id < tree.size) (hopens : v.Opens id)

include h hv hid hopens

theorem exists_listed {index : Nat} {d : Directive} {before after : List Pin} {pin : Pin}
    {name : String} (hd : (tree.get id).directives[index]? = some d)
    (hform : d.form = .explicit (before ++ pin :: after)) (hname : pin.exportedName = some name) :
    ∃ e, Listed tree v id index d before pin name e (v.looked tree id index d before) := by
  let examined := v.examined tree id index
  have hlooked : v.looked tree id index d before = (calls tree v.depth).answerAll
      (before.flatMap (pinRequests tree id d)) examined := expandPins_memo tree _ id index d before _
  have hnew : isNew (.resolve id) v.memo = true := Memo.isUnvisited_iff.2 hopens.2
  refine ⟨(expand tree (calls tree v.depth) id index d examined).1, ?_, ?_, ?_, ?_⟩
  · rw [effectsAt_of_opens h hv hid hopens]
    exact v.effects_getElem? hd
  · refine ⟨_, (expandPins tree (calls tree v.depth) id index d after
      (pin? tree (calls tree v.depth) id d pin (v.looked tree id index d before)).2).1, ?_,
      expandPins_names tree (calls tree v.depth) id index d before examined⟩
    simp only [expand, hform, expandPins_append]
    simp [expandPins, pin?, hname, Visit.looked, examined]
  · have hexamined := effectsFrom_grows tree (calls_grow tree v.depth) id 0
      ((tree.get id).directives.take index) (entered (.resolve id) v.memo)
    rw [hlooked]
    exact (Later.entered hnew).trans
      (.of_grows (hexamined.trans ((calls_grow tree v.depth).all _ _)))
  · have hcourse := Visit.inCourse hv hopens.isNew
    rw [hopens.1] at hcourse
    have hdirective := directiveRequests_inCourse hcourse hd
    rw [directiveRequests, hform] at hdirective
    simp only [List.flatMap_append, List.flatMap_cons] at hdirective
    rw [InCourse.append_iff, InCourse.append_iff] at hdirective
    rw [hlooked]
    exact hdirective.2.1

end Opened

/-! ## Where an export comes from -/

/-- The first listed name that is exported as `name` stands in some directive; no earlier
    one lists that name. -/
theorem listedPins_find? {m : Module} {name : String} {d : Directive} {pin : Pin}
    (hfind : (listedPins m).find? (fun p => p.2.exportedName == some name) = some (d, pin)) :
    ∃ (index : Nat) (before after : List Pin), m.directives[index]? = some d ∧
      d.form = .explicit (before ++ pin :: after) ∧ name ∉ before.filterMap (·.exportedName) ∧
      ∀ i < index, ∀ d' pins, m.directives[i]? = some d' → d'.form = .explicit pins →
        name ∉ pins.filterMap (·.exportedName) := by
  unfold listedPins at hfind
  rw [List.find?_flatMap, List.findSome?_eq_some_iff] at hfind
  obtain ⟨front, d', back, hds, hd', hfront⟩ := hfind
  cases hform : d'.form with
  | wildcard path star => simp [hform] at hd'
  | ambiguous why => simp [hform] at hd'
  | explicit pins =>
    simp only [hform, List.find?_map, Option.map_eq_some_iff] at hd'
    obtain ⟨pin', hpin, heq⟩ := hd'
    cases heq
    obtain ⟨-, before, after, rfl, hbefore⟩ := List.find?_eq_some_iff_append.1 hpin
    refine ⟨front.length, before, after, by simp [hds], hform, fun hmem => ?_, ?_⟩
    · obtain ⟨other, hother, hexported⟩ := List.mem_filterMap.1 hmem
      simpa [hexported] using hbefore other hother
    · intro i hi other pins hother hform' hmem
      rw [hds, List.getElem?_append_left hi] at hother
      have hnone := hfront other (List.mem_of_getElem? hother)
      simp only [hform', List.find?_map, Option.map_eq_none_iff, List.find?_eq_none] at hnone
      obtain ⟨pin', hpin', hexported⟩ := List.mem_filterMap.1 hmem
      simpa [hexported] using hnone pin' hpin'

/-- Where a search among what a module declares and lists finds nothing. -/
theorem not_declares_iff {tree : ModuleTree} {id : ModuleId} {name : String} :
    ¬ Declares tree id name ↔ (tree.get id).symbols.find? (fun s => s.name == name) = none ∧
      (listedPins (tree.get id)).find? (fun p => p.2.exportedName == some name) = none := by
  simp only [List.find?_eq_none]
  constructor
  · refine fun hdecl => ⟨fun s hs hname => ?_, fun p hp hname => ?_⟩
    · exact hdecl (.inl ⟨s, hs, by simpa using hname⟩)
    · obtain ⟨hd, pins, hform, hpin⟩ := mem_listedPins.1 (show (p.1, p.2) ∈ _ from hp)
      exact hdecl (.inr ⟨p.1, hd, pins, hform, p.2, hpin, by simpa using hname⟩)
  · rintro ⟨hown, hlisted⟩ (⟨s, hs, hname⟩ | ⟨d, hd, pins, hform, pin, hpin, hname⟩)
    · exact hown s hs (by simpa using hname)
    · exact hlisted (d, pin) (mem_listedPins.2 ⟨hd, pins, hform, hpin⟩) (by simpa using hname)

/-- Whether a contribution brings in a name directly. -/
def directly (name : String) (c : Contribution) : Bool := c.name == name && c.via.isDirect

theorem directly_iff {name : String} {c : Contribution} :
    directly name c = true ↔ c.name = name ∧ c.via.isDirect = true := by
  simp [directly]

/-- The entry of a name is made from the first contribution that brings it in directly. -/
theorem entryOf?_of_directly {draft : Draft} {name : String} {c : Contribution}
    (hc : draft.contributions.find? (directly name) = some c) :
    ∃ e, entryOf? (draft.routes name) = some e ∧ e.MadeFrom c.entry := by
  apply entryOf?_of_direct
  rw [Draft.routes, List.find?_filter, ← hc]
  congr 1
  funext c'
  simp only [Bool.decide_and, Bool.decide_eq_true]
  rfl

/-- A directive that does not list a name contributes it through a wildcard at most. -/
theorem EffectOf.not_directly {tree : ModuleTree} {memo : Memo} {id : ModuleId} {index : Nat}
    {d : Directive} {e : Effect} (h : EffectOf tree memo id index d e) {name : String}
    (hno : ∀ pins, d.form = .explicit pins → name ∉ pins.filterMap (·.exportedName)) :
    e.contributions.find? (directly name) = none := by
  rw [List.find?_eq_none]
  intro c hc hdirect
  obtain ⟨rfl, hvia⟩ := directly_iff.1 hdirect
  cases h with
  | ambiguous _ => cases hc
  | unresolved _ _ => cases hc
  | cycle _ => cases hc
  | explicit hform hnames _ => exact hno _ hform (hnames ▸ List.mem_map_of_mem hc)
  | taken _ _ _ =>
    rw [takeAll_contributions] at hc
    obtain ⟨entry, -, rfl⟩ := List.mem_map.1 hc
    cases hvia

/-- The first listed name that is exported as `name` is the first that contributes it. -/
theorem Listed.find? {tree : ModuleTree} {v : Visit} {id : ModuleId} {index : Nat} {d : Directive}
    {before : List Pin} {pin : Pin} {name : String} {e : Effect} {memo : Memo}
    (h : Listed tree v id index d before pin name e memo)
    (hbefore : name ∉ before.filterMap (·.exportedName)) :
    e.contributions.find? (directly name) =
      some ⟨(pinAs tree (calls tree v.depth) id d pin name memo).1, .pinned index⟩ := by
  obtain ⟨first, rest, hcs, hfirst⟩ := h.contributions
  have hnone : first.find? (directly name) = none := by
    rw [List.find?_eq_none]
    intro c hc hdirect
    obtain ⟨rfl, -⟩ := directly_iff.1 hdirect
    exact hbefore (hfirst ▸ List.mem_map_of_mem hc)
  rw [hcs, List.find?_append, hnone, Option.none_or]
  exact List.find?_cons_of_pos (directly_iff.2 ⟨pinAs_name tree _ id d pin name memo, rfl⟩)

theorem findSome?_filterMap {α β γ : Type} (f : α → Option β) (g : β → Option γ) (l : List α) :
    (l.filterMap f).findSome? g = l.findSome? fun a => (f a).bind g := by
  induction l with
  | nil => rfl
  | cons a rest ih =>
    rw [List.filterMap_cons, List.findSome?_cons]
    cases hf : f a with
    | none => exact ih
    | some b => rw [List.findSome?_cons, ih, Option.bind_some]

section Exports

variable {tree : ModuleTree} (h : tree.WellFormed) {id : ModuleId} (hid : id < tree.size)
  {name : String}

include h hid

theorem exportAt_own {s : Symbol}
    (hown : (tree.get id).symbols.find? (fun s => s.name == name) = some s) :
    ∃ e, exportAt tree id name = some e ∧ e.MadeFrom ⟨s, s.identity, false⟩ := by
  rw [exportAt, resolvedAt_eq_record h hid]
  exact record_find?_own _ hown

/-- A name that a module lists and does not declare is made from what the first such
    listed name contributes. -/
theorem exportAt_listed {v : Visit} (hv : v ∈ trace tree) (hopens : v.Opens id)
    (hown : (tree.get id).symbols.find? (fun s => s.name == name) = none) {d : Directive} {pin : Pin}
    (hpin : (listedPins (tree.get id)).find? (fun p => p.2.exportedName == some name) =
      some (d, pin)) :
    ∃ memo, Later v.memo memo ∧ InCourse tree v.depth (pinRequests tree id d pin) memo ∧
      ∃ e, exportAt tree id name = some e ∧
        e.MadeFrom (pinAs tree (calls tree v.depth) id d pin name memo).1 := by
  obtain ⟨index, before, after, hd, hform, hbefore, hearlier⟩ := listedPins_find? hpin
  have hexported : pin.exportedName = some name := by simpa using List.find?_some hpin
  obtain ⟨effect, hlisted⟩ := exists_listed h hv hid hopens hd hform hexported
  refine ⟨v.looked tree id index d before, hlisted.later, hlisted.inCourse, ?_⟩
  have hnone : (ownDraft (tree.get id)).contributions.find? (directly name) = none := by
    rw [List.find?_eq_none]
    intro c hc hdirect
    obtain ⟨s, hs, rfl⟩ := List.mem_map.1 hc
    exact List.find?_eq_none.1 hown s hs (beq_iff_eq.2 (directly_iff.1 hdirect).1)
  rw [exportAt, (drafted_draftAt h hid).find?]
  refine entryOf?_of_directly ?_ (c := ⟨_, .pinned index⟩)
  rw [draftAt, Draft.addEffects, List.find?_append, hnone, Option.none_or, List.find?_flatMap,
    List.findSome?_eq_some_iff]
  obtain ⟨hlt, heffect⟩ := List.getElem?_eq_some_iff.1 hlisted.effect
  refine ⟨(effectsAt tree id).take index, effect, (effectsAt tree id).drop (index + 1), ?_,
    hlisted.find? hbefore, fun e' he' => ?_⟩
  · rw [← heffect, List.getElem_cons_drop, List.take_append_drop]
  · obtain ⟨i, hi, rfl⟩ := List.mem_take_iff_getElem.1 he'
    have hei := List.getElem?_eq_getElem (Nat.lt_of_lt_of_le hi (Nat.min_le_right _ _))
    obtain ⟨d', hd', hof⟩ := (effectsOf_effectsAt h hid).of_effect hei
    exact hof.not_directly fun pins => hearlier i (by omega) d' pins hd'

/-- A directive of a module that does not declare a name contributes what the target of the
    wildcard exports, or nothing. -/
theorem effect_find? (hacyclic : Acyclic tree) (hdecl : ¬ Declares tree id name) {index : Nat}
    {d : Directive} {e : Effect} (hd : (tree.get id).directives[index]? = some d)
    (he : (effectsAt tree id)[index]? = some e) :
    (e.contributions.find? fun c => c.name == name).map (·.entry) =
      (target? tree id d).bind (exportAt tree · name) := by
  cases ht : target? tree id d with
  | some target =>
    have htaken := hacyclic.taken h hid hd ht
    rw [he] at htaken
    cases htaken
    rw [takeAll_contributions, List.find?_map, Option.map_map]
    exact Option.map_id'
  | none =>
    have hnone : e.contributions.find? (fun c => c.name == name) = none := by
      rw [List.find?_eq_none]
      intro c hc hname
      obtain rfl : c.name = name := by simpa using hname
      cases (effectsOf_effectsAt h hid).effect hd he with
      | ambiguous _ => cases hc
      | unresolved _ _ => cases hc
      | cycle ht' => simp [ht] at ht'
      | taken ht' _ _ => simp [ht] at ht'
      | explicit hform hnames _ =>
        have hmem := List.mem_map_of_mem (f := Contribution.name) hc
        rw [hnames, List.mem_filterMap] at hmem
        obtain ⟨pin, hpin, hexported⟩ := hmem
        exact hdecl (.inr ⟨d, List.mem_of_getElem? hd, _, hform, pin, hpin, hexported⟩)
    rw [hnone]
    rfl

/-- A name that a module does not declare is made from what the first target of a wildcard
    exports under it. -/
theorem exportAt_wildcards (hacyclic : Acyclic tree) (hdecl : ¬ Declares tree id name) :
    Option.Rel Entry.MadeFrom (exportAt tree id name)
      ((targets tree id).findSome? (exportAt tree · name)) := by
  have hdrafted := drafted_draftAt h hid
  have hhead : ((draftAt tree id).routes name).head?.map (·.entry) =
      (targets tree id).findSome? (exportAt tree · name) := by
    have hnone : (ownDraft (tree.get id)).contributions.find? (fun c => c.name == name) = none := by
      rw [List.find?_eq_none]
      intro c hc hname
      obtain ⟨s, hs, rfl⟩ := List.mem_map.1 hc
      exact hdecl (.inl ⟨s, hs, beq_iff_eq.1 hname⟩)
    have heffects : (effectsAt tree id).map
        (fun e => (e.contributions.find? fun c => c.name == name).map (·.entry)) =
        (tree.get id).directives.map fun d => (target? tree id d).bind (exportAt tree · name) := by
      apply List.ext_getElem?
      intro index
      rw [List.getElem?_map, List.getElem?_map]
      cases hd : (tree.get id).directives[index]? with
      | none =>
        rw [List.getElem?_eq_none_iff, ← (effectsOf_effectsAt h hid).length] at hd
        rw [List.getElem?_eq_none hd]
        rfl
      | some d =>
        obtain ⟨e, he, -⟩ := (effectsOf_effectsAt h hid).of_directive hd
        rw [he, Option.map_some, Option.map_some, effect_find? h hid hacyclic hdecl hd he]
    rw [Draft.routes, List.head?_filter, draftAt, Draft.addEffects, List.find?_append, hnone,
      Option.none_or, List.find?_flatMap, List.map_findSome?]
    calc (effectsAt tree id).findSome? (Option.map (·.entry) ∘ fun e =>
          e.contributions.find? fun c => c.name == name)
        = ((effectsAt tree id).map fun e => (e.contributions.find? fun c => c.name == name).map
            (·.entry)).findSome? fun found => found := by
          rw [List.findSome?_map]
          rfl
      _ = (targets tree id).findSome? (exportAt tree · name) := by
          rw [heffects, List.findSome?_map, findSome?_filterMap]
          rfl
  rw [exportAt, hdrafted.find?, ← hhead]
  cases hfirst : ((draftAt tree id).routes name).head? with
  | none =>
    rw [entryOf?_eq_none_iff.2 (List.head?_eq_none_iff.1 hfirst)]
    exact .none
  | some c =>
    have hwinners := winners_of_no_direct (hdrafted.no_direct_iff.2 hdecl)
    obtain ⟨e, he, hmade⟩ := entryOf?_of_head (by rw [hwinners, hfirst])
    rw [he]
    exact .some hmade

end Exports

end Reexport.Resolution
