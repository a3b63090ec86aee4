import Reexport.Proofs.Drafts

/-!
# How entries are handed on

Entries are handed on by four operations that call each other: listed names, look-ups,
wildcards and the settlement of a module. A property that each of them hands on
(`HandedOn`) holds of every contribution and of every entry, whatever was under way when
they were found. The settlement may use that what it puts down is on record in the end.

Results:

* `pinAs_eq`: what a listed name refers to, found or not.
* `HandedOn.contribution`, `HandedOn.entry`: what is handed on holds everywhere.
-/

namespace Reexport.Resolution

/-! ## Listed names -/

/-- What is found under the path of a listed name. -/
def pinFound (tree : ModuleTree) (calls : Calls) (id : ModuleId) (d : Directive) (pin : Pin)
    (memo : Memo) : Option Entry :=
  if d.absolute then none
  else (pinKey? tree id pin).bind fun key => (calls.lookup id key.1 key.2 memo).1

/-- What a listed name refers to where nothing is found under its path: the module that
    it names, or something outside the tree. -/
def unfound (tree : ModuleTree) (id : ModuleId) (d : Directive) (pin : Pin) (name : String) : Entry :=
  if d.absolute || pin.itemPath.isEmpty then external d name pin.itemPath
  else
    match tree.resolvePath id pin.itemPath with
    | some target => reference (tree.get target) name
    | none => external d name pin.itemPath

/-- A listed name refers to what is found; only what is found depends on the memo. -/
theorem pinAs_eq (tree : ModuleTree) (calls : Calls) (id : ModuleId) (d : Directive) (pin : Pin)
    (name : String) (memo : Memo) :
    (pinAs tree calls id d pin name memo).1 =
      ((pinFound tree calls id d pin memo).map (·.renamed name)).getD (unfound tree id d pin name) := by
  unfold pinAs pinFound unfound pinKey?
  by_cases habs : d.absolute = true
  · simp [habs]
  cases hlast : pin.itemPath.getLast? with
  | none =>
    rw [List.getLast?_eq_none_iff] at hlast
    simp [habs, hlast]
  | some last =>
    have hne : pin.itemPath.isEmpty = false := by
      cases hpath : pin.itemPath with
      | nil => simp [hpath] at hlast
      | cons _ _ => rfl
    cases hparent : tree.resolvePath id pin.itemPath.dropLast with
    | none =>
      cases ht : tree.resolvePath id pin.itemPath <;> simp [habs, hlast, hparent, ht, hne]
    | some parent =>
      cases hfound : (calls.lookup id parent last memo).1 <;>
        cases ht : tree.resolvePath id pin.itemPath <;>
        simp [habs, hlast, hparent, ht, hne, hfound]

theorem pinFound_eq_some_iff {tree : ModuleTree} {calls : Calls} {id : ModuleId} {d : Directive}
    {pin : Pin} {memo : Memo} {e : Entry} :
    pinFound tree calls id d pin memo = some e ↔ ∃ parent last, d.absolute = false ∧
      pinKey? tree id pin = some (parent, last) ∧ (calls.lookup id parent last memo).1 = some e := by
  unfold pinFound
  by_cases habs : d.absolute = true
  · simp [habs]
  · simp [habs, Option.bind_eq_some_iff]

theorem unfound_cases (tree : ModuleTree) (id : ModuleId) (d : Directive) (pin : Pin) (name : String) :
    (∃ target, d.absolute = false ∧ tree.resolvePath id pin.itemPath = some target ∧
      unfound tree id d pin name = reference (tree.get target) name) ∨
    unfound tree id d pin name = external d name pin.itemPath := by
  unfold unfound
  by_cases hskip : (d.absolute || pin.itemPath.isEmpty) = true
  · exact .inr (by simp [hskip])
  · have hrelative : d.absolute = false := by simp_all
    cases ht : tree.resolvePath id pin.itemPath with
    | some target => exact .inl ⟨target, hrelative, rfl, by simp [hskip]⟩
    | none => exact .inr (by simp)

/-! ## Properties that are handed on -/

/-- A property of entries, by module and name, that every step of a resolution hands
    on. -/
structure HandedOn (tree : ModuleTree) (Q : ModuleId → String → Entry → Prop) : Prop where
  own : ∀ {id : ModuleId} {s : Symbol}, s ∈ (tree.get id).symbols → Q id s.name ⟨s, s.identity, false⟩
  pinned : ∀ {id parent : ModuleId} {d : Directive} {pin : Pin} {name last : String} {e : Entry},
    (d, pin) ∈ listedPins (tree.get id) → pin.exportedName = some name → d.absolute = false →
    pinKey? tree id pin = some (parent, last) → Q parent last e → Q id name (e.renamed name)
  reference : ∀ {id target : ModuleId} {d : Directive} {pin : Pin} {name : String},
    (d, pin) ∈ listedPins (tree.get id) → pin.exportedName = some name → d.absolute = false →
    tree.resolvePath id pin.itemPath = some target → Q id name (reference (tree.get target) name)
  external : ∀ {id : ModuleId} {d : Directive} {pin : Pin} {name : String},
    (d, pin) ∈ listedPins (tree.get id) → pin.exportedName = some name →
    Q id name (external d name pin.itemPath)
  wildcard : ∀ {id target : ModuleId} {name : String} {e : Entry}, Edge tree id target →
    Q target name e → Q id name e
  /-- Settling hands on what holds of all contributions. -/
  settled : ∀ {id : ModuleId} {effects : List Effect},
    (resolveAll tree).get id = .done (record tree id effects) →
    (∀ c ∈ ((ownDraft (tree.get id)).addEffects effects).contributions, Q id c.name c.entry) →
    ∀ e ∈ (record tree id effects).exports.entries, Q id e.symbol.name e

/-- The property holds of all entries of finished modules, in a memo whose records are
    kept to the end. -/
def HoldsIn (tree : ModuleTree) (Q : ModuleId → String → Entry → Prop) (memo : Memo) : Prop :=
  Keeps memo (resolveAll tree) → ∀ (id : ModuleId) (r : Resolved), memo.get id = .done r →
    ∀ e ∈ r.exports.entries, Q id e.symbol.name e

section HoldsIn

variable {tree : ModuleTree} {Q : ModuleId → String → Entry → Prop} {memo : Memo}

theorem HoldsIn.exported? (h : HoldsIn tree Q memo) (hkept : Keeps memo (resolveAll tree))
    {id : ModuleId} {name : String} {e : Entry} (he : memo.exported? id name = some e) :
    Q id name e := by
  obtain ⟨r, hr, hfind⟩ := Option.bind_eq_some_iff.1 he
  have hname : e.symbol.name = name := by simpa using List.find?_some hfind
  rw [← hname]
  exact h hkept id r (Memo.done?_eq_some_iff.1 hr) e (List.mem_of_find?_eq_some hfind)

theorem HoldsIn.entered (h : HoldsIn tree Q memo) {r : Request} (hnew : isNew r memo = true) :
    HoldsIn tree Q (entered r memo) := by
  intro hkept
  have hbefore : Keeps memo (resolveAll tree) := (Later.entered hnew).keeps.trans hkept
  cases r with
  | resolve id => exact fun other r hr => h hbefore other r (Memo.get_done_of_set_open hr)
  | lookup user parent name => exact h hbefore

theorem holdsIn_start (tree : ModuleTree) (Q : ModuleId → String → Entry → Prop) (size : Nat) :
    HoldsIn tree Q (.start size) := by
  intro _ id r hr
  rw [Memo.get_start] at hr
  cases hr

end HoldsIn

/-- Only finished modules have entries. -/
theorem done_of_mem_entries {tree : ModuleTree} {id : ModuleId} {e : Entry}
    (he : e ∈ (resolvedAt tree id).exports.entries) : ∃ r, (resolveAll tree).get id = .done r := by
  by_cases hid : id < (resolveAll tree).progress.size
  · cases hget : (resolveAll tree).get id with
    | done r => exact ⟨r, rfl⟩
    | unvisited | «open» =>
      simp only [Memo.get, Array.getD, dif_pos hid, Array.getInternal_eq_getElem] at hget
      simp only [resolvedAt, resolve, List.getD_eq_getElem?_getD, List.getElem?_map,
        Array.getElem?_toList, Array.getElem?_eq_getElem hid, Option.map_some, Option.getD_some,
        hget] at he
      cases he
  · rw [resolvedAt_of_size_le (by rw [← size_resolveAll]; simpa using hid)] at he
    cases he

/-- Calls that keep the property and whose answers have it. -/
structure Calls.HandOn (calls : Calls) (tree : ModuleTree) (Q : ModuleId → String → Entry → Prop) :
    Prop where
  grow : calls.Grow
  keeps : ∀ r memo, HoldsIn tree Q memo → HoldsIn tree Q (calls.answer r memo)
  found : ∀ {user parent name memo e}, HoldsIn tree Q memo →
    Keeps (calls.lookup user parent name memo).2 (resolveAll tree) →
    (calls.lookup user parent name memo).1 = some e → Q parent name e

namespace HandedOn

variable {tree : ModuleTree} {Q : ModuleId → String → Entry → Prop} (h : HandedOn tree Q)
  {inner : Calls} (hinner : Calls.HandOn inner tree Q)

include h hinner

/-! ### Listed names -/

theorem pinAs {id : ModuleId} {d : Directive} {pin : Pin} {name : String} {memo : Memo}
    (hpin : (d, pin) ∈ listedPins (tree.get id)) (hname : pin.exportedName = some name)
    (hmemo : HoldsIn tree Q memo)
    (hkept : Keeps (inner.answerAll (pinRequests tree id d pin) memo) (resolveAll tree)) :
    Q id name (Resolution.pinAs tree inner id d pin name memo).1 := by
  rw [pinAs_eq]
  cases hfound : pinFound tree inner id d pin memo with
  | some e =>
    obtain ⟨parent, last, hrelative, hkey, hlookup⟩ := pinFound_eq_some_iff.1 hfound
    have hrequests : pinRequests tree id d pin = [.lookup id parent last] := by
      rw [pinRequests_eq, hname, hrelative, hkey]
      rfl
    rw [hrequests] at hkept
    exact h.pinned hpin hname hrelative hkey (hinner.found hmemo hkept hlookup)
  | none =>
    rcases unfound_cases tree id d pin name with ⟨target, hrelative, ht, heq⟩ | heq
    · rw [heq]
      exact h.reference hpin hname hrelative ht
    · rw [heq]
      exact h.external hpin hname

theorem pin? {id : ModuleId} {d : Directive} {pin : Pin} {memo : Memo} {e : Entry}
    (hpin : (d, pin) ∈ listedPins (tree.get id)) (hmemo : HoldsIn tree Q memo)
    (hkept : Keeps (Resolution.pin? tree inner id d pin memo).2 (resolveAll tree))
    (he : (Resolution.pin? tree inner id d pin memo).1 = some e) : Q id e.symbol.name e := by
  have hexported := pin?_name tree inner id d pin memo
  rw [he, Option.map_some] at hexported
  rw [pin?_memo] at hkept
  have hentry := h.pinAs hinner hpin hexported.symm hmemo hkept
  rw [Resolution.pin?, ← hexported] at he
  have heq : (Resolution.pinAs tree inner id d pin e.symbol.name memo).1 = e := Option.some.inj he
  rwa [heq] at hentry

/-! ### Look-ups -/

theorem findWildcard {user parent : ModuleId} {name : String} {e : Entry} :
    ∀ {targets : List ModuleId} {memo : Memo}, (∀ target ∈ targets, Edge tree parent target) →
      HoldsIn tree Q memo →
      Keeps (findWildcard tree inner user parent name targets memo).2 (resolveAll tree) →
      (findWildcard tree inner user parent name targets memo).1 = some e → Q parent name e := by
  intro targets
  induction targets with
  | nil => intro memo _ _ _ he; cases he
  | cons target rest ih =>
    intro memo hedges hmemo hkept he
    obtain ⟨hedge, hrest⟩ := List.forall_mem_cons.1 hedges
    rw [Resolution.findWildcard] at he hkept
    split_ifs at he hkept
    · exact ih hrest hmemo hkept he
    · have hafter : HoldsIn tree Q (inner.resolve target memo) :=
        hinner.keeps (.resolve target) memo hmemo
      simp only at he hkept
      cases hexp : (inner.resolve target memo).exported? target name with
      | some found =>
        rw [hexp] at he hkept
        obtain rfl := Option.some.inj he
        exact h.wildcard hedge (hafter.exported? hkept hexp)
      | none =>
        rw [hexp] at he hkept
        exact ih hrest hafter hkept he

theorem find {user parent : ModuleId} {name : String} {memo : Memo} {e : Entry}
    (hmemo : HoldsIn tree Q memo)
    (hkept : Keeps (find tree inner user parent name memo).2 (resolveAll tree))
    (he : (find tree inner user parent name memo).1 = some e) : Q parent name e := by
  unfold Resolution.find at he hkept
  cases hdone : memo.done? parent with
  | some r =>
    simp only [hdone] at he hkept
    exact hmemo.exported? hkept (by rw [Memo.exported?, hdone]; exact he)
  | none =>
    simp only [hdone, findPinned_eq] at he hkept
    cases hown : (tree.get parent).symbols.find? fun s => s.name == name with
    | some s =>
      rw [hown] at he
      obtain rfl := Option.some.inj he
      have hname : s.name = name := by simpa using List.find?_some hown
      exact hname ▸ h.own (List.mem_of_find?_eq_some hown)
    | none =>
      simp only [hown] at he hkept
      cases hpin : (listedPins (tree.get parent)).find? fun p => p.2.exportedName == some name with
      | some p =>
        obtain ⟨d, pin⟩ := p
        have hexported : pin.exportedName = some name := by simpa using List.find?_some hpin
        simp only [hpin, Resolution.pin?, hexported] at he hkept
        have hmemos := pin?_memo tree inner parent d pin memo
        simp only [Resolution.pin?, hexported] at hmemos
        rw [hmemos] at hkept
        have hentry := h.pinAs hinner (List.mem_of_find?_eq_some hpin) hexported hmemo hkept
        obtain rfl := Option.some.inj he
        exact hentry
      | none =>
        simp only [hpin] at he hkept
        have hedges : ∀ target ∈ (tree.get parent).directives.filterMap (target? tree parent),
            Edge tree parent target := fun target ht => List.mem_filterMap.1 ht
        have hthrough : Keeps (Resolution.findWildcard tree inner user parent name _ memo).2
            (resolveAll tree) →
            (Resolution.findWildcard tree inner user parent name _ memo).1 = some e →
            Q parent name e := h.findWildcard hinner hedges hmemo
        have hanswered := findWildcard_memo tree inner user parent name
          ((tree.get parent).directives.filterMap (target? tree parent)) memo
        generalize Resolution.findWildcard tree inner user parent name _ memo = found
          at he hkept hthrough hanswered
        obtain ⟨_ | entry, after⟩ := found
        · simp only at he hkept hanswered
          have hafter : HoldsIn tree Q after := hanswered ▸ Calls.answerAll_keeps hinner.keeps _ hmemo
          split_ifs at he hkept
          exact (hinner.keeps (.resolve parent) after hafter).exported? hkept he
        · exact hthrough hkept he

theorem lookup {user parent : ModuleId} {name : String} {memo : Memo} {e : Entry}
    (hmemo : HoldsIn tree Q memo)
    (hkept : Keeps (lookup tree inner user parent name memo).2 (resolveAll tree))
    (he : (lookup tree inner user parent name memo).1 = some e) : Q parent name e := by
  unfold Resolution.lookup at he hkept
  split_ifs at he hkept with hpending
  have hnew : isNew (.lookup user parent name) memo = true := by simpa [isNew] using hpending
  have hentered := hmemo.entered hnew
  exact h.find hinner hentered hkept he

/-! ### Directives -/

theorem expandPins {id : ModuleId} {index : Nat} {d : Directive} : ∀ {pins : List Pin} {memo : Memo},
    (∀ pin ∈ pins, (d, pin) ∈ listedPins (tree.get id)) → HoldsIn tree Q memo →
    Keeps (expandPins tree inner id index d pins memo).2 (resolveAll tree) →
    ∀ c ∈ (expandPins tree inner id index d pins memo).1, Q id c.name c.entry := by
  intro pins
  induction pins with
  | nil => intro memo _ _ _ c hc; cases hc
  | cons pin rest ih =>
    intro memo hpins hmemo hkept c hc
    obtain ⟨hpin, hrest⟩ := List.forall_mem_cons.1 hpins
    rw [Resolution.expandPins] at hc hkept
    have hgrows := hinner.grow.all (rest.flatMap (pinRequests tree id d))
      (Resolution.pin? tree inner id d pin memo).2
    rw [← expandPins_memo tree inner id index] at hgrows
    simp only [List.mem_append, List.mem_map, Option.mem_toList] at hc
    rcases hc with ⟨e, he, rfl⟩ | hc
    · exact h.pin? hinner hpin hmemo ((Keeps.of_grows hgrows).trans hkept) he
    · refine ih hrest ?_ hkept c hc
      rw [pin?_memo]
      exact Calls.answerAll_keeps hinner.keeps _ hmemo

theorem expand {id : ModuleId} {index : Nat} {d : Directive} {memo : Memo}
    (hd : d ∈ (tree.get id).directives) (hmemo : HoldsIn tree Q memo)
    (hkept : Keeps (expand tree inner id index d memo).2 (resolveAll tree)) :
    ∀ c ∈ (expand tree inner id index d memo).1.contributions, Q id c.name c.entry := by
  intro c hc
  unfold Resolution.expand at hc hkept
  cases hform : d.form with
  | ambiguous why =>
    simp only [hform] at hc
    cases hc
  | explicit pins =>
    simp only [hform] at hc hkept
    exact h.expandPins hinner (fun pin hpin => mem_listedPins.2 ⟨hd, pins, hform, hpin⟩) hmemo
      hkept c hc
  | wildcard path star =>
    simp only [hform, expandWildcard] at hc hkept
    cases ht : target? tree id d with
    | none =>
      simp only [ht] at hc
      cases hc
    | some target =>
      simp only [ht] at hc hkept
      split_ifs at hc hkept
      · cases hc
      · cases hdone : (inner.resolve target memo).done? target with
        | none =>
          simp only [hdone] at hc
          cases hc
        | some r =>
          simp only [hdone, takeAll_contributions, List.mem_map] at hc hkept
          obtain ⟨e, he, rfl⟩ := hc
          refine h.wildcard ⟨d, hd, ht⟩ ?_
          exact hinner.keeps (.resolve target) memo hmemo hkept target r
            (Memo.done?_eq_some_iff.1 hdone) e he

theorem effectsFrom {id : ModuleId} : ∀ {ds : List Directive} {index : Nat} {memo : Memo},
    (∀ d ∈ ds, d ∈ (tree.get id).directives) → HoldsIn tree Q memo →
    Keeps (effectsFrom tree inner id index ds memo).2 (resolveAll tree) →
    ∀ effect ∈ (effectsFrom tree inner id index ds memo).1, ∀ c ∈ effect.contributions,
      Q id c.name c.entry := by
  intro ds
  induction ds with
  | nil => intro index memo _ _ _ effect he; cases he
  | cons d rest ih =>
    intro index memo hds hmemo hkept effect he
    obtain ⟨hd, hrest⟩ := List.forall_mem_cons.1 hds
    rw [Resolution.effectsFrom] at he hkept
    have hgrows := effectsFrom_grows tree hinner.grow id (index + 1) rest
      (Resolution.expand tree inner id index d memo).2
    rcases List.mem_cons.1 he with rfl | he
    · exact h.expand hinner hd hmemo ((Keeps.of_grows hgrows).trans hkept)
    · refine ih hrest ?_ hkept effect he
      rw [expand_memo]
      exact Calls.answerAll_keeps hinner.keeps _ hmemo

theorem addEffects {id : ModuleId} {memo : Memo} (hmemo : HoldsIn tree Q memo)
    (hkept : Keeps (Resolution.effectsFrom tree inner id 0 (tree.get id).directives memo).2
      (resolveAll tree)) :
    ∀ c ∈ ((ownDraft (tree.get id)).addEffects
      (Resolution.effectsFrom tree inner id 0 (tree.get id).directives memo).1).contributions,
      Q id c.name c.entry := by
  intro c hc
  rcases mem_addEffects.1 hc with ⟨s, hs, rfl⟩ | ⟨index, effect, he, hce⟩
  · exact h.own hs
  · exact h.effectsFrom hinner (fun d hd => hd) hmemo hkept effect (List.mem_of_getElem? he) c hce

/-! ### Whole resolutions -/

/-- Records that are put down have the property. -/
theorem resolveModule {id : ModuleId} {memo : Memo} (hmemo : HoldsIn tree Q memo)
    (hlater : isNew (.resolve id) memo = true →
      Keeps (Resolution.effectsFrom tree inner id 0 (tree.get id).directives
        (entered (.resolve id) memo)).2 (resolveModule tree inner id memo)) :
    HoldsIn tree Q (resolveModule tree inner id memo) := by
  rw [resolveModule_eq] at hlater ⊢
  split_ifs at hlater ⊢ with hnew
  · have hentered := hmemo.entered hnew
    intro hkept other r hr
    have hcalls := (hlater hnew).trans hkept
    rcases Memo.get_done_of_set_done hr with ⟨rfl, rfl⟩ | hr'
    · exact h.settled (hkept _ _ hr) (h.addEffects hinner hentered hcalls)
    · rw [effectsFrom_memo] at hr' hcalls
      exact Calls.answerAll_keeps hinner.keeps _ hentered hcalls other r hr'
  · exact hmemo

omit hinner in
theorem calls (depth : Nat) : Calls.HandOn (calls tree depth) tree Q := by
  induction depth with
  | zero =>
    exact ⟨calls_grow tree 0, fun r memo hmemo => by cases r <;> exact hmemo,
      fun _ _ he => by cases he⟩
  | succ depth ih =>
    refine ⟨calls_grow tree (depth + 1), fun r memo hmemo => ?_,
      fun hmemo hkept he => h.lookup ih hmemo hkept he⟩
    cases r with
    | resolve id =>
      refine h.resolveModule ih hmemo fun hnew => ?_
      rw [effectsFrom_memo]
      exact (later_answer tree depth hnew).keeps
    | lookup user parent name =>
      show HoldsIn tree Q (Resolution.lookup tree (Resolution.calls tree depth) user parent name memo).2
      rw [lookup_memo]
      split_ifs with hnew
      · exact Calls.answerAll_keeps ih.keeps (requests tree (Resolution.calls tree depth)
          (.lookup user parent name) (Resolution.entered (.lookup user parent name) memo))
          (hmemo.entered hnew)
      · exact hmemo

omit hinner in
/-- What is handed on holds of every entry. -/
theorem entry {id : ModuleId} {e : Entry} (he : e ∈ (resolvedAt tree id).exports.entries) :
    Q id e.symbol.name e := by
  have hall : HoldsIn tree Q (resolveAll tree) := by
    rw [resolveAll_eq]
    exact Calls.answerAll_keeps (h.calls _).keeps _ (holdsIn_start tree Q tree.size)
  obtain ⟨r, hr⟩ := done_of_mem_entries he
  rw [resolvedAt_eq hr] at he
  exact hall (fun _ _ h => h) id r hr e he

omit hinner in
/-- What is handed on holds of every contribution. -/
theorem contribution {id : ModuleId} {c : Contribution} (hc : c ∈ (draftAt tree id).contributions) :
    Q id c.name c.entry := by
  unfold draftAt effectsAt at hc
  cases hopening : opening? tree id with
  | none =>
    simp only [hopening] at hc
    rcases mem_addEffects.1 hc with ⟨s, hs, rfl⟩ | ⟨index, effect, he, -⟩
    · exact h.own hs
    · simp at he
  | some v =>
    simp only [hopening] at hc
    have hv := List.mem_of_find?_eq_some hopening
    have hopens := List.find?_some hopening
    simp only [Bool.and_eq_true, beq_iff_eq] at hopens
    obtain ⟨hrequest, hunvisited⟩ := hopens
    have hnew : isNew (.resolve id) v.memo = true := hunvisited
    have hmemo : HoldsIn tree Q v.memo := trace_memo_of_kept (holdsIn_start tree Q tree.size)
      (fun depth => (h.calls depth).keeps) (fun r memo hnew hmemo => hmemo.entered hnew) hv
    have hafter := Visit.keeps_resolveAll hv
    rw [Visit.after, hrequest] at hafter
    have hkept := (later_answer tree v.depth hnew).keeps.trans hafter
    rw [requests, ← effectsFrom_memo] at hkept
    exact h.addEffects (h.calls v.depth) (hmemo.entered hnew) hkept c hc

end HandedOn

end Reexport.Resolution
