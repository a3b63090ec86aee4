import Reexport.Proofs.Rewriting

/-!
# What the rewritten tree exports

In the rewritten tree every name that came in through a wildcard is looked up in the
module that the wildcard led to, and from there in the next one, until a module
declares it. No look-up meets itself: the modules it goes through follow one another
along wildcards of the tree before, and these make no circle. Nor does a look-up
ever have to resolve a module, so the memo stays as it is.

Results:

* `lookup_listed`: what such a look-up finds.
* `exports_rewritten`: carrying out all plans keeps what every module exports.
-/

namespace Reexport.Resolution

/-- A name stands for one declaration in a module. -/
def StandsFor (tree : ModuleTree) (id : ModuleId) (name : String) (s : Symbol) : Prop :=
  ∃ e, (resolvedAt tree id).exports.find? name = some e ∧ e.ambiguous = false ∧ e.symbol = s

theorem StandsFor.unique {tree : ModuleTree} {id : ModuleId} {name : String} {s t : Symbol}
    (hs : StandsFor tree id name s) (ht : StandsFor tree id name t) : s = t := by
  obtain ⟨e, he, -, rfl⟩ := hs
  obtain ⟨e', he', -, rfl⟩ := ht
  rw [he] at he'
  cases he'
  rfl

theorem find?_name {set : ExportSet} {name : String} {e : Entry} (h : set.find? name = some e) :
    e.symbol.name = name := by
  simpa using List.find?_some h

theorem StandsFor.mem_names {tree : ModuleTree} {id : ModuleId} {name : String} {s : Symbol}
    (hs : StandsFor tree id name s) : name ∈ (resolvedAt tree id).exports.names := by
  obtain ⟨e, he, -, -⟩ := hs
  exact List.mem_map.2 ⟨e, List.mem_of_find?_eq_some he, find?_name he⟩

theorem StandsFor.not_ambiguous {tree : ModuleTree} {id : ModuleId} {name : String} {s : Symbol}
    (hs : StandsFor tree id name s) : ¬ Ambiguous tree id name := by
  obtain ⟨e, he, hamb, -⟩ := hs
  rintro ⟨e', he', hamb'⟩
  rw [he] at he'
  cases he'
  rw [hamb] at hamb'
  cases hamb'

theorem StandsFor.name {tree : ModuleTree} {id : ModuleId} {name : String} {s : Symbol}
    (hs : StandsFor tree id name s) : s.name = name := by
  obtain ⟨e, he, -, rfl⟩ := hs
  exact find?_name he

section Preservation

variable {tree : ModuleTree} (h : tree.WellFormed) (hall : ∀ id < tree.size, Complete tree id)
  (hself : ∀ id < tree.size, "self" ∉ (resolvedAt tree id).exports.names)
  (hplain : ∀ id < tree.size, ∀ d ∈ (tree.get id).directives, ∀ pins, d.form ≠ .explicit pins)

/-! ## Where a name comes from -/

include h in
theorem StandsFor.own {id : ModuleId} (hid : id < tree.size) {name : String} {s t : Symbol}
    (hs : StandsFor tree id name s)
    (ht : (tree.get id).symbols.find? (fun s => s.name == name) = some t) : s = t := by
  obtain ⟨effects, -, hr⟩ := resolvedAt_record h hid
  obtain ⟨e, he, hmade⟩ := record_find?_own effects ht
  obtain ⟨e', he', -, rfl⟩ := hs
  rw [hr, he] at he'
  cases he'
  exact hmade.symbol

include hplain in
theorem not_declares {id : ModuleId} (hid : id < tree.size) {name : String}
    (hnone : (tree.get id).symbols.find? (fun s => s.name == name) = none) :
    ¬ Declares tree id name := by
  rintro (⟨s, hs, hname⟩ | ⟨d, hd, pins, hform, -⟩)
  · exact absurd (by simpa using hname) (List.find?_eq_none.1 hnone s hs)
  · exact hplain id hid d hd pins hform

include h hall in
/-- A name that comes in through wildcards stands for what it stands for in the
    target of the wildcard that lists it. -/
theorem StandsFor.target {id : ModuleId} (hid : id < tree.size) {draft : Draft}
    (hdraft : CompleteDraft tree id draft) {name : String} {s : Symbol}
    (hs : StandsFor tree id name s) (hdecl : ¬ Declares tree id name) :
    ∃ index d target, (tree.get id).directives[index]? = some d ∧ target? tree id d = some target ∧
      name ∈ draft.listed index ∧ StandsFor tree target name s := by
  obtain ⟨e, he, hamb, rfl⟩ := hs
  have hdirect := hdraft.no_direct_iff.2 hdecl
  have hnot : isAmbiguous (draft.routes name) = false := by
    rw [isAmbiguous, ← hdraft.find?, he]
    exact hamb
  rw [hdraft.find?] at he
  obtain ⟨c, hhead, hc, hsymbol, -⟩ := entryOf?_eq_some he
  rw [winners_of_no_direct hdirect] at hhead
  obtain ⟨index, hvia, hfirst⟩ := firstWildcard?_of_no_direct hdirect hhead
  obtain ⟨d, target, hd, ht, hentry⟩ := hdraft.directive_of_wildcard hc hvia
  refine ⟨index, d, target, hd, ht, draft.mem_listed_iff.2 ⟨hfirst, hnot, hdirect⟩, c.entry, ?_, ?_,
    hsymbol.symm⟩
  · have htarget := target?_lt tree h hid ht
    obtain ⟨draft', hdraft'⟩ := (hall target htarget).draft h htarget
    rw [hdraft'.settled] at hentry ⊢
    rw [← (draft.mem_routes.1 hc).2]
    exact draft'.settle_find?_of_mem _ hentry
  · rw [isAmbiguous_eq, winners_of_no_direct hdirect, Bool.or_eq_false_iff] at hnot
    simpa using List.any_eq_false.1 hnot.2 c hc

/-- A listed name of the rewritten tree: it leads on along a wildcard of the tree
    before, to a module where it stands for the same. -/
structure LeadsOn (tree : ModuleTree) (id : ModuleId) (d : Directive) (pin : Pin) (name : String)
    (target : ModuleId) (s : Symbol) : Prop where
  ne_self : name ≠ "self"
  relative : d.absolute = false
  pin_eq : ∃ path, pin = ⟨path, name, none⟩ ∧ tree.resolvePath id path = some target
  edge : Edge tree id target
  here : StandsFor tree id name s
  there : StandsFor tree target name s

include h hall hself hplain in
theorem listedPins_rewritten {id : ModuleId} (hid : id < tree.size) {d : Directive} {pin : Pin}
    (hmem : (d, pin) ∈ listedPins ((rewritten tree).get id)) :
    ∃ name target s, LeadsOn tree id d pin name target s := by
  obtain ⟨hd, pins, hform, hpin⟩ := mem_listedPins.1 hmem
  obtain ⟨draft, hdraft⟩ := (hall id hid).draft h hid
  obtain ⟨index, hindex⟩ := List.mem_iff_getElem?.1 hd
  have hold := hindex
  rw [directives_rewritten, Option.map_eq_some_iff] at hold
  obtain ⟨d', hd', -⟩ := hold
  have hmem' := List.mem_of_getElem? hd'
  rcases hdraft.directive_rewritten hd' with ⟨pins', hform', -⟩ | ⟨path, target, habs, hpath, ht, heq⟩
  · exact absurd hform' (hplain id hid d' hmem' pins')
  · rw [hindex] at heq
    cases heq
    cases hform
    obtain ⟨name, hlisted, rfl⟩ := List.mem_map.1 hpin
    obtain ⟨hname, hamb, hdecl⟩ := hdraft.exists_listed_iff.1 ⟨index, hlisted⟩
    obtain ⟨e, he⟩ : ∃ e, (resolvedAt tree id).exports.find? name = some e := by
      obtain ⟨e, he, hen⟩ := List.mem_map.1 hname
      exact Option.isSome_iff_exists.1 (List.find?_isSome.2 ⟨e, he, by simpa using hen⟩)
    have hhere : StandsFor tree id name e.symbol := by
      refine ⟨e, he, ?_, rfl⟩
      by_contra hambiguous
      exact hamb ⟨e, he, by simpa using hambiguous⟩
    obtain ⟨index', d'', target', hd'', ht', hlisted', hthere⟩ :=
      hhere.target h hall hid hdraft hdecl
    -- a name is listed by the first wildcard that brings it in, so by one only
    have hsame := (draft.mem_listed_iff.1 hlisted).1.symm.trans (draft.mem_listed_iff.1 hlisted').1
    cases hsame
    rw [hd'] at hd''
    cases hd''
    rw [ht] at ht'
    cases ht'
    exact ⟨name, target, e.symbol, mem_listed_ne_self hself hid hdraft hlisted, habs,
      ⟨path, rfl, hpath⟩, ⟨d', hmem', ht⟩, hhere, hthere⟩

/-! ## Looking up a listed name -/

/-- The records of a memo of the rewritten tree give every name the meaning that it
    had before. -/
def Agrees (tree : ModuleTree) (memo : Memo) : Prop :=
  ∀ (id : ModuleId) (r : Resolved), memo.get id = .done r → ∀ name s, StandsFor tree id name s →
    ∃ e, r.exports.find? name = some e ∧ e.symbol = s

namespace LeadsOn

variable {id : ModuleId} {d : Directive} {pin : Pin} {name : String} {target : ModuleId} {s : Symbol}
  (hl : LeadsOn tree id d pin name target s)

include hl

theorem exportedName : pin.exportedName = some name := by
  obtain ⟨path, rfl, -⟩ := hl.pin_eq
  exact exportedName_plain path hl.ne_self

/-- A listed name is looked up where it leads to. -/
theorem pin? {inner : Calls} {memo : Memo} {e : Entry}
    (hlookup : inner.lookup id target name memo = (some e, memo)) :
    pin? (rewritten tree) inner id d pin memo = (some (e.renamed name), memo) := by
  unfold Resolution.pin?
  rw [hl.exportedName]
  obtain ⟨path, rfl, hpath⟩ := hl.pin_eq
  rw [← (sameShape_rewritten tree).resolvePath] at hpath
  simp [pinAs, hl.relative, Pin.itemPath, hl.ne_self, hpath, hlookup]

theorem requests : pinRequests (rewritten tree) id d pin = [.lookup id target name] := by
  unfold pinRequests
  rw [hl.exportedName]
  obtain ⟨path, rfl, hpath⟩ := hl.pin_eq
  rw [← (sameShape_rewritten tree).resolvePath] at hpath
  simp [hl.relative, Pin.itemPath, hl.ne_self, hpath]

theorem valid (h : tree.WellFormed) (hid : id < tree.size)
    (hlisted : (d, pin) ∈ listedPins ((rewritten tree).get id)) :
    Valid (rewritten tree) (.lookup id target name) := by
  have hshape := sameShape_rewritten tree
  have hrequest : Request.lookup id target name ∈ pinRequests (rewritten tree) id d pin := by
    rw [hl.requests]
    exact List.mem_singleton_self _
  have hvalid : id < (rewritten tree).size := hshape.size.symm ▸ hid
  exact (pinRequests_prompts (r := .resolve id) hlisted hrequest).valid (hshape.wellFormed h) hvalid

end LeadsOn

include h hall hself hplain in
/-- A name that stands for something and is not declared is listed. -/
theorem find?_listedPins {id : ModuleId} (hid : id < tree.size) {name : String} {s : Symbol}
    (hs : StandsFor tree id name s)
    (hnone : (tree.get id).symbols.find? (fun s => s.name == name) = none) :
    ∃ d pin target, (listedPins ((rewritten tree).get id)).find?
        (fun p => p.2.exportedName == some name) = some (d, pin) ∧
      LeadsOn tree id d pin name target s := by
  obtain ⟨draft, hdraft⟩ := (hall id hid).draft h hid
  have hnew : Declares (rewritten tree) id name :=
    (declares_rewritten_iff hself hid hdraft name).2
      (.inr (hdraft.exists_listed_iff.2 ⟨hs.mem_names, hs.not_ambiguous, not_declares hplain hid hnone⟩))
  rcases hnew with ⟨t, ht, htname⟩ | ⟨d, hd, pins, hform, pin, hpin, hexported⟩
  · rw [get_rewritten] at ht
    exact absurd (by simpa using htname) (List.find?_eq_none.1 hnone t ht)
  · have hsome : ((listedPins ((rewritten tree).get id)).find?
        fun p => p.2.exportedName == some name).isSome :=
      List.find?_isSome.2 ⟨(d, pin), mem_listedPins.2 ⟨hd, pins, hform, hpin⟩, by simpa using hexported⟩
    obtain ⟨⟨d', pin'⟩, hfind⟩ := Option.isSome_iff_exists.1 hsome
    obtain ⟨name', target, s', hl⟩ := listedPins_rewritten h hall hself hplain hid
      (List.mem_of_find?_eq_some hfind)
    have hexported' : pin'.exportedName = some name := by simpa using List.find?_some hfind
    rw [hl.exportedName] at hexported'
    cases hexported'
    obtain rfl := hs.unique hl.here
    exact ⟨d', pin', target, hfind, hl⟩

/-- A look-up that resolves no module leaves the memo as it was. -/
theorem lookup_of_find {other : ModuleTree} {inner : Calls} {user id : ModuleId} {name : String}
    {memo : Memo} {e : Entry} (hnew : memo.pending.contains (id, name) = false)
    (hfind : find other inner user id name (entered (.lookup user id name) memo) =
      (some e, entered (.lookup user id name) memo)) :
    lookup other inner user id name memo = (some e, memo) := by
  unfold lookup
  rw [hnew]
  exact congrArg (fun found : Option Entry × Memo =>
    (found.1, { found.2 with pending := found.2.pending.tail })) hfind

include h hall hself hplain in
/-- What a listed name is found to be: what it stood for before. The look-ups that
    are under way are of modules that lie behind, so none is met again, and every
    look-up takes up room, so the depth is never used up. -/
theorem lookup_listed : ∀ (depth : Nat) (memo : Memo) {user id : ModuleId} {name : String} {s : Symbol},
    Valid (rewritten tree) (.lookup user id name) → memo.progress.size = tree.size →
    room (rewritten tree) memo < depth → Agrees tree memo →
    (∀ key ∈ memo.pending, ¬ Reach tree id key.1) → StandsFor tree id name s →
    ∃ e, (calls (rewritten tree) depth).lookup user id name memo = (some e, memo) ∧ e.symbol = s := by
  have hshape := sameShape_rewritten tree
  intro depth
  induction depth with
  | zero => intro memo user id name s _ _ hroom; omega
  | succ depth ih =>
    intro memo user id name s hvalid hsize hroom hagrees hpending hs
    have hid : id < tree.size := hshape.size ▸ hvalid.2.1
    have hnew : memo.pending.contains (id, name) = false := by
      by_contra hcontains
      exact hpending (id, name) (by simpa using hcontains) .refl
    let inside := entered (.lookup user id name) memo
    suffices hfind : ∃ e, find (rewritten tree) (calls (rewritten tree) depth) user id name inside =
        (some e, inside) ∧ e.symbol = s by
      obtain ⟨e, he, hes⟩ := hfind
      exact ⟨e, lookup_of_find hnew he, hes⟩
    unfold find
    cases hdone : inside.done? id with
    | some r =>
      obtain ⟨e, he, hes⟩ := hagrees id r (Memo.done?_eq_some_iff.1 hdone) name s hs
      exact ⟨e, by simp only [he], hes⟩
    | none =>
      simp only [get_rewritten]
      cases hown : (tree.get id).symbols.find? fun s => s.name == name with
      | some t => exact ⟨_, rfl, (hs.own h hid hown).symm⟩
      | none =>
        obtain ⟨d, pin, target, hlisted, hl⟩ := find?_listedPins h hall hself hplain hid hs hown
        have htarget := hl.valid h hid (List.mem_of_find?_eq_some hlisted)
        have hlt : room (rewritten tree) inside < room (rewritten tree) memo :=
          room_entered_lt hvalid (hsize.trans hshape.size.symm) (by simp only [isNew, hnew]; rfl)
        have hbehind : ∀ key ∈ inside.pending, ¬ Reach tree target key.1 := by
          intro key hkey hreach
          rcases List.mem_cons.1 hkey with rfl | hkey
          · exact ((hall id hid).grounded h hid).not_circular (.head' hl.edge hreach)
          · exact hpending key hkey (hreach.head hl.edge)
        obtain ⟨e, he, hes⟩ := ih inside htarget hsize (by omega) hagrees hbehind hl.there
        rw [get_rewritten] at hlisted
        refine ⟨e.renamed name, ?_, ?_⟩
        · simp only [findPinned_eq, hlisted, hl.pin? he]
        · rw [Entry.renamed, Symbol.renamed, hes, ← hs.name]

/-! ## Resolving a module of the rewritten tree -/

theorem expandPins_listed (tree : ModuleTree) {other : ModuleTree} {inner : Calls} {id : ModuleId} {d : Directive}
    {memo : Memo} (index : Nat) : ∀ (pins : List Pin),
    (∀ pin ∈ pins, ∃ e, pin? other inner id d pin memo = (some e, memo) ∧
      StandsFor tree id e.symbol.name e.symbol) →
    (expandPins other inner id index d pins memo).2 = memo ∧
      ∀ c ∈ (expandPins other inner id index d pins memo).1, StandsFor tree id c.name c.entry.symbol := by
  intro pins
  induction pins with
  | nil => intro _; exact ⟨rfl, fun c hc => by cases hc⟩
  | cons pin rest ih =>
    intro hpins
    obtain ⟨e, he, hes⟩ := hpins pin List.mem_cons_self
    obtain ⟨hmemo, hrest⟩ := ih fun pin' hpin' => hpins pin' (List.mem_cons_of_mem _ hpin')
    simp only [expandPins, he]
    refine ⟨hmemo, fun c hc => ?_⟩
    rcases List.mem_append.1 hc with hc | hc
    · obtain rfl : c = ⟨e, .pinned index⟩ := by simpa using hc
      exact hes
    · exact hrest c hc

theorem effectsFrom_listed (tree : ModuleTree) {other : ModuleTree} {inner : Calls} {id : ModuleId}
    {memo : Memo} :
    ∀ (ds : List Directive) (index : Nat),
    (∀ d ∈ ds, ∃ pins, d.form = .explicit pins ∧ ∀ pin ∈ pins,
      ∃ e, pin? other inner id d pin memo = (some e, memo) ∧
        StandsFor tree id e.symbol.name e.symbol) →
    (effectsFrom other inner id index ds memo).2 = memo ∧
      ∀ e ∈ (effectsFrom other inner id index ds memo).1, ∀ c ∈ e.contributions,
        StandsFor tree id c.name c.entry.symbol := by
  intro ds
  induction ds with
  | nil => intro index _; exact ⟨rfl, fun e he => by cases he⟩
  | cons d rest ih =>
    intro index hds
    obtain ⟨pins, hform, hpins⟩ := hds d List.mem_cons_self
    obtain ⟨hmemo, hfirst⟩ := expandPins_listed tree index pins hpins
    obtain ⟨hmemo', hrest⟩ := ih (index + 1) fun d' hd' => hds d' (List.mem_cons_of_mem _ hd')
    simp only [effectsFrom, expand, hform, hmemo]
    refine ⟨hmemo', fun e he => ?_⟩
    rcases List.mem_cons.1 he with rfl | he
    · exact hfirst
    · exact hrest e he

/-- A name that a module declares or lists is on record. -/
theorem EffectsOf.mem_names {memo : Memo} {id : ModuleId} {effects : List Effect} {name : String}
    (heffects : EffectsOf tree memo id effects) (hdecl : Declares tree id name) :
    name ∈ (record tree id effects).exports.names := by
  rw [mem_record_names]
  rcases hdecl with hown | ⟨d, hd, pins, hform, hpin⟩
  · exact .inl hown
  · obtain ⟨index, hindex⟩ := List.mem_iff_getElem?.1 hd
    obtain ⟨e, he, heffect⟩ := heffects.of_directive hindex
    refine .inr ⟨e, List.mem_of_getElem? he, ?_⟩
    cases heffect with
    | explicit hform' hnames _ =>
      rw [hform] at hform'
      cases hform'
      rw [hnames]
      exact List.mem_filterMap.2 hpin
    | ambiguous hform' => simp [hform] at hform'
    | unresolved hwild _ => simp [Directive.isWildcard, hform] at hwild
    | cycle ht => simp [target?, hform] at ht
    | taken ht _ _ => simp [target?, hform] at ht

include h hall hself hplain in
/-- If what comes in means what it meant before, so does what is on record. -/
theorem record_agrees {id : ModuleId} (hid : id < tree.size) {memo : Memo} {effects : List Effect}
    (heffects : EffectsOf (rewritten tree) memo id effects)
    (hcs : ∀ e ∈ effects, ∀ c ∈ e.contributions, StandsFor tree id c.name c.entry.symbol)
    {name : String} {s : Symbol} (hs : StandsFor tree id name s) :
    ∃ e, (record (rewritten tree) id effects).exports.find? name = some e ∧ e.symbol = s := by
  have hsymbols : ((rewritten tree).get id).symbols = (tree.get id).symbols := by rw [get_rewritten]
  cases hown : (tree.get id).symbols.find? fun s => s.name == name with
  | some t =>
    obtain rfl := hs.own h hid hown
    obtain ⟨e, he, hmade⟩ := record_find?_own effects (by rw [hsymbols, hown])
    exact ⟨e, he, hmade.symbol⟩
  | none =>
    obtain ⟨d, pin, target, hlisted, hl⟩ := find?_listedPins h hall hself hplain hid hs hown
    obtain ⟨hd, pins, hform, hpin⟩ := mem_listedPins.1 (List.mem_of_find?_eq_some hlisted)
    have hname := heffects.mem_names (.inr ⟨d, hd, pins, hform, pin, hpin, hl.exportedName⟩)
    rw [record, Draft.settle_names] at hname
    obtain ⟨e, he⟩ := Option.ne_none_iff_exists'.1
      (mt entryOf?_eq_none_iff.1 (Draft.routes_ne_nil _ hname))
    refine ⟨e, by rw [record, Draft.settle_find?, he], ?_⟩
    obtain ⟨c, -, hc, hsymbol, -⟩ := entryOf?_eq_some he
    obtain ⟨hmem, rfl⟩ := (Draft.mem_routes _).1 hc
    rw [hsymbol]
    rcases List.mem_append.1 hmem with hc | hc
    · obtain ⟨t, ht, rfl⟩ := List.mem_map.1 hc
      rw [hsymbols] at ht
      exact absurd (beq_self_eq_true _) (List.find?_eq_none.1 hown t ht)
    · obtain ⟨e', he', hce⟩ := List.mem_flatMap.1 hc
      exact (hcs e' he' c hce).unique hs

include h hall hself hplain in
theorem pin?_listed (depth : Nat) {id : ModuleId} (hid : id < tree.size) {memo : Memo}
    (hsize : memo.progress.size = tree.size) (hpending : memo.pending = [])
    (hroom : room (rewritten tree) memo < depth) (hagrees : Agrees tree memo) {d : Directive} {pin : Pin}
    (hlisted : (d, pin) ∈ listedPins ((rewritten tree).get id)) :
    ∃ e, pin? (rewritten tree) (calls (rewritten tree) depth) id d pin memo = (some e, memo) ∧
      StandsFor tree id e.symbol.name e.symbol := by
  obtain ⟨name, target, s, hl⟩ := listedPins_rewritten h hall hself hplain hid hlisted
  have hvalid := hl.valid h hid hlisted
  obtain ⟨e, he, rfl⟩ := lookup_listed h hall hself hplain depth memo hvalid hsize hroom hagrees
    (by simp [hpending]) hl.there
  refine ⟨e.renamed name, hl.pin? he, ?_⟩
  have hname := hl.here.name
  subst hname
  exact hl.here

include h hall hself hplain in
/-- Resolving one module of the rewritten tree keeps the agreement. -/
theorem agrees_resolve (depth : Nat) {id : ModuleId} (hid : id < tree.size) {memo : Memo}
    (hsize : memo.progress.size = tree.size) (hpending : memo.pending = [])
    (hroom : room (rewritten tree) memo < depth + 1) (hagrees : Agrees tree memo) :
    Agrees tree (resolveModule (rewritten tree) (calls (rewritten tree) depth) id memo) := by
  have hshape := sameShape_rewritten tree
  rw [resolveModule_eq]
  split_ifs with hnew
  · have hagrees' : Agrees tree (entered (.resolve id) memo) :=
      fun other r hr => hagrees other r (Memo.get_done_of_set_open hr)
    have hvalid : Valid (rewritten tree) (.resolve id) := by
      show id < (rewritten tree).size
      rwa [hshape.size]
    have hlt := room_entered_lt hvalid (hsize.trans hshape.size.symm) hnew
    obtain ⟨hmemo, hcs⟩ := effectsFrom_listed tree ((rewritten tree).get id).directives 0 (by
      intro d hd
      obtain ⟨pins, hform⟩ := explicit_rewritten h hall hid hd
      refine ⟨pins, hform, fun pin hpin => ?_⟩
      exact pin?_listed h hall hself hplain depth hid (by simpa [entered] using hsize)
        (by simpa [entered] using hpending) (by omega) hagrees'
        (mem_listedPins.2 ⟨hd, pins, hform, hpin⟩))
    have heffects := effectsFrom_effectsOf (rewritten tree) (calls_grow (rewritten tree) depth) id
      (entered (.resolve id) memo)
    rw [hmemo] at heffects
    simp only [hmemo]
    intro other r hr name s hs
    rcases Memo.get_done_of_set_done hr with ⟨rfl, rfl⟩ | hr
    · exact record_agrees h hall hself hplain hid heffects hcs hs
    · exact hagrees' other r hr name s hs
  · exact hagrees

include h hall hself hplain in
theorem agrees_resolveAll : Agrees tree (resolveAll (rewritten tree)) := by
  have hshape := sameShape_rewritten tree
  have hfold : ∀ (ids : List ModuleId) (memo : Memo), (∀ id ∈ ids, id < tree.size) →
      memo.progress.size = tree.size → memo.pending = [] →
      room (rewritten tree) memo < depthBound (rewritten tree) → Agrees tree memo →
      Agrees tree (ids.foldl
        (fun memo id => (calls (rewritten tree) (depthBound (rewritten tree))).resolve id memo) memo) := by
    intro ids
    induction ids with
    | nil => intro memo _ _ _ _ hagrees; exact hagrees
    | cons id rest ih =>
      intro memo hids hsize hpending hroom hagrees
      have hgrows := calls_grow (rewritten tree) (depthBound (rewritten tree)) (.resolve id) memo
      have hle := room_le_of_grows (rewritten tree) hgrows
      exact ih _ (fun other hother => hids other (List.mem_cons_of_mem _ hother))
        (hgrows.size.trans hsize) (hgrows.pending.trans hpending) (Nat.lt_of_le_of_lt hle hroom)
        (agrees_resolve h hall hself hplain _ (hids id List.mem_cons_self) hsize hpending hroom hagrees)
  refine hfold _ _ ?_ (by simp [Memo.start, hshape.size]) rfl (room_start_lt _) ?_
  · intro id hid
    exact hshape.size ▸ (hshape.wellFormed h).postOrder_lt hid
  · intro id r hr
    rw [Memo.get_start] at hr
    cases hr

end Preservation

/-! ## Main result -/

/-- **Carrying out plans keeps what every module exports.** If every module is
    complete, the rewritten tree exports the same names, but for ambiguous ones
    that nothing declares or lists, and has no wildcard left to replace. If all
    directives were wildcards, every name that stood for one declaration stands for
    the same one. -/
theorem exports_rewritten {tree : ModuleTree} (h : tree.Built)
    (hall : ∀ id < tree.size, Complete tree id)
    (hself : ∀ id < tree.size, "self" ∉ (resolvedAt tree id).exports.names) :
    (∀ id < tree.size, ∀ name, name ∈ (resolvedAt (rewritten tree) id).exports.names ↔
      name ∈ (resolvedAt tree id).exports.names ∧
        ¬ (Ambiguous tree id name ∧ ¬ Declares tree id name)) ∧
    (∀ id index, ¬ Replaced (rewritten tree) id index) ∧
    ((∀ id < tree.size, ∀ d ∈ (tree.get id).directives, ∀ pins, d.form ≠ .explicit pins) →
      ∀ id < tree.size, ∀ name e, (resolvedAt tree id).exports.find? name = some e →
        e.ambiguous = false → ∃ e', (resolvedAt (rewritten tree) id).exports.find? name = some e' ∧
          e'.symbol = e.symbol) := by
  have hwf := h.wellFormed
  refine ⟨fun id hid name => mem_names_rewritten hwf hall hself hid name,
    not_replaced_rewritten hwf hall, fun hplain id hid name e he hamb => ?_⟩
  have hshape := sameShape_rewritten tree
  obtain ⟨r, hr⟩ := resolveAll_done (hshape.wellFormed hwf) (hshape.size.symm ▸ hid)
  rw [resolvedAt_eq hr]
  exact agrees_resolveAll hwf hall hself hplain id r hr name e.symbol ⟨e, he, hamb, rfl⟩

theorem exports_rewritten_diamond :
    (∀ id < diamond.size, Complete diamond id) ∧
      Ambiguous diamond 4 "z" ∧ "z" ∉ (resolvedAt (rewritten diamond) 4).exports.names ∧
      "y" ∈ (resolvedAt (rewritten diamond) 4).exports.names ∧
      (∀ index, ¬ Replaced (rewritten diamond) 4 index) ∧
      ∃ e, (resolvedAt (rewritten diamond) 4).exports.find? "y" = some e ∧
        e.symbol = ⟨"y", .trait, "c", 2⟩ := by
  have hall : ∀ id < diamond.size, Complete diamond id := by decide +kernel
  have hself : ∀ id < diamond.size, "self" ∉ (resolvedAt diamond id).exports.names := by
    decide +kernel
  have hplain : ∀ id < diamond.size, ∀ d ∈ (diamond.get id).directives, ∀ pins,
      d.form ≠ .explicit pins := by
    have hwild : ∀ id < diamond.size, ∀ d ∈ (diamond.get id).directives, d.isWildcard = true := by
      decide +kernel
    intro id hid d hd pins hform
    simpa [Directive.isWildcard, hform] using hwild id hid d hd
  have hz : Ambiguous diamond 4 "z" :=
    ⟨⟨⟨"z", .function, "a", 1⟩, .declared "a" "z", true⟩, by decide +kernel, rfl⟩
  have hnot : ¬ Declares diamond 4 "z" := by
    rintro (⟨s, hs, -⟩ | ⟨d, hd, pins, hform, -⟩)
    · rw [show (diamond.get 4).symbols = [] by decide +kernel] at hs
      cases hs
    · exact hplain 4 (by decide +kernel) d hd pins hform
  obtain ⟨hnames, hnone, hsymbols⟩ := exports_rewritten (ModuleTree.built_flat _) hall hself
  have h4 : 4 < diamond.size := by decide +kernel
  have hy : (resolvedAt diamond 4).exports.find? "y" =
      some ⟨⟨"y", .trait, "c", 2⟩, .declared "c" "y", false⟩ := by decide +kernel
  have hkept : ¬ Ambiguous diamond 4 "y" := by
    rintro ⟨e, he, hamb⟩
    rw [hy] at he
    cases he
    cases hamb
  refine ⟨hall, hz, fun hmem => ((hnames 4 h4 "z").1 hmem).2 ⟨hz, hnot⟩, ?_, hnone 4,
    hsymbols hplain 4 h4 "y" _ hy rfl⟩
  exact (hnames 4 h4 "y").2 ⟨by decide +kernel, fun hlost => hkept hlost.1⟩

end Reexport.Resolution
