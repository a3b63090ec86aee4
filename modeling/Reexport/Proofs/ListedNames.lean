import Reexport.Proofs.Provenance

/-!
# What listed names mean

A listed name is looked up when its module is resolved, and the module that it leads to
may then be unfinished. Where directives make no circle, what it refers to depends on the
tree and on how far modules have come: the search goes from listed name to listed name and
ends at a finished module, at a declaration, or at the wildcards of a module that has not
been visited. Only such wildcards can be misleading, since their targets are not searched
where they lie above the user.

Results:

* `refers_pinAs`: what a listed name refers to, by how far modules have come.
* `Refers.means_iff`: it stands for what it refers to later, unless the search misses that.
* `Refers.ambiguous_iff`, `Refers.marked_later`: when it is marked ambiguous.
* `listed_name_exact`: what a listed name contributes.
-/

namespace Reexport

namespace Entry

/-- Two entries stand for the same thing, under whatever names. -/
structure Means (a b : Entry) : Prop where
  identity : a.identity = b.identity
  kind : a.symbol.kind = b.symbol.kind
  origin : a.symbol.origin = b.symbol.origin
  line : a.symbol.line = b.symbol.line

namespace Means

variable {a b c : Entry}

@[refl] theorem refl (a : Entry) : a.Means a := ⟨rfl, rfl, rfl, rfl⟩

theorem symm (h : a.Means b) : b.Means a :=
  ⟨h.identity.symm, h.kind.symm, h.origin.symm, h.line.symm⟩

theorem trans (hab : a.Means b) (hbc : b.Means c) : a.Means c :=
  ⟨hab.identity.trans hbc.identity, hab.kind.trans hbc.kind, hab.origin.trans hbc.origin,
    hab.line.trans hbc.line⟩

@[simp] theorem renamed_iff {name : String} : (a.renamed name).Means b ↔ a.Means b :=
  ⟨fun h => ⟨h.identity, h.kind, h.origin, h.line⟩, fun h => ⟨h.identity, h.kind, h.origin, h.line⟩⟩

end Means

theorem MadeFrom.means {a b : Entry} (h : a.MadeFrom b) : a.Means b := by
  obtain ⟨hsymbol, hidentity, -⟩ := h
  exact ⟨hidentity, by rw [hsymbol], by rw [hsymbol], by rw [hsymbol]⟩

/-- What is made from something stands for it, and so do the defaults for nothing. -/
theorem getD_means_getD {found source : Option Entry} (h : Option.Rel MadeFrom found source)
    (default : Entry) : (found.getD default).Means (source.getD default) := by
  cases h with
  | none => exact .refl default
  | some hmade => exact hmade.means

end Entry

namespace Resolution

/-! ## Where a search leads -/

/-- The module that a listed name is looked up in, and the name that it has there. -/
def searched? (tree : ModuleTree) (id : ModuleId) (d : Directive) (pin : Pin) :
    Option (ModuleId × String) :=
  if d.absolute then none else pinKey? tree id pin

/-- What a search in a module that has not been visited and neither declares nor lists the
    name finds on behalf of `user`. -/
def answer? (tree : ModuleTree) (user parent : ModuleId) (name : String) : Option Entry :=
  (scan tree user parent name).or
    (if tree.isAncestor parent user then none else exportAt tree parent name)

/-- Where a name stands in a module. -/
inductive Place where
  | own (s : Symbol)
  | listed (d : Directive) (pin : Pin)
  | elsewhere

/-- Where a search finds a name in a module: among what it declares, else among what it
    lists, else not in the module itself. -/
def place (tree : ModuleTree) (parent : ModuleId) (name : String) : Place :=
  match (tree.get parent).symbols.find? fun s => s.name == name with
  | some s => .own s
  | none =>
    match (listedPins (tree.get parent)).find? fun p => p.2.exportedName == some name with
    | some (d, pin) => .listed d pin
    | none => .elsewhere

/-- The search for a listed name misses `e`: it ends in an unfinished module that neither
    declares nor lists the name, and what is taken from there, or from the path itself if
    nothing is found, stands for something else. -/
inductive Missed (tree : ModuleTree) (done? : ModuleId → Option Resolved) (e : Entry) :
    ModuleId → Directive → Pin → Prop
  | listed {id parent : ModuleId} {d d' : Directive} {pin pin' : Pin} {last : String} :
      searched? tree id d pin = some (parent, last) → done? parent = none →
      place tree parent last = .listed d' pin' → Missed tree done? e parent d' pin' →
      Missed tree done? e id d pin
  | elsewhere {id parent : ModuleId} {d : Directive} {pin : Pin} {last : String} :
      searched? tree id d pin = some (parent, last) → done? parent = none →
      place tree parent last = .elsewhere →
      ¬ ((answer? tree id parent last).getD (unfound tree id d pin last)).Means e →
      Missed tree done? e id d pin

/-- The search for a listed name passes over the place that the name comes from: it comes to
    a module that neither declares nor lists the name, and the first target of its wildcards
    that exports the name lies above the module on whose behalf it is searched. -/
inductive PassedOver (tree : ModuleTree) : ModuleId → Directive → Pin → Prop
  | listed {id parent : ModuleId} {d d' : Directive} {pin pin' : Pin} {last : String} :
      searched? tree id d pin = some (parent, last) → place tree parent last = .listed d' pin' →
      PassedOver tree parent d' pin' → PassedOver tree id d pin
  | elsewhere {id parent target : ModuleId} {d : Directive} {pin : Pin} {last : String} :
      searched? tree id d pin = some (parent, last) → place tree parent last = .elsewhere →
      (targets tree parent).find? (fun target => (exportAt tree target last).isSome) = some target →
      tree.isAncestor target id = true → PassedOver tree id d pin

/-- The search for a listed name ends at a mark: in a finished module that exports an
    ambiguous name, or in an unfinished one whose wildcards bring one in. -/
inductive Marked (tree : ModuleTree) (done? : ModuleId → Option Resolved) :
    ModuleId → Directive → Pin → Prop
  | finished {id parent : ModuleId} {d : Directive} {pin : Pin} {last : String} {r : Resolved} :
      searched? tree id d pin = some (parent, last) → done? parent = some r →
      Ambiguous tree parent last → Marked tree done? id d pin
  | listed {id parent : ModuleId} {d d' : Directive} {pin pin' : Pin} {last : String} :
      searched? tree id d pin = some (parent, last) → done? parent = none →
      place tree parent last = .listed d' pin' → Marked tree done? parent d' pin' →
      Marked tree done? id d pin
  | elsewhere {id parent : ModuleId} {d : Directive} {pin : Pin} {last : String} :
      searched? tree id d pin = some (parent, last) → done? parent = none →
      place tree parent last = .elsewhere →
      (answer? tree id parent last).any (·.ambiguous) = true → Marked tree done? id d pin

/-- What a listed name refers to, exported as `name`, when modules have come as far as
    `progress` says and the search meets none that is open. -/
inductive Refers (tree : ModuleTree) (progress : ModuleId → Progress) :
    (id : ModuleId) → Directive → Pin → (name : String) → Entry → Prop
  | outside {id : ModuleId} {d : Directive} {pin : Pin} {name : String} :
      searched? tree id d pin = none →
      Refers tree progress id d pin name (unfound tree id d pin name)
  | finished {id parent : ModuleId} {d : Directive} {pin : Pin} {name last : String}
      {r : Resolved} :
      searched? tree id d pin = some (parent, last) → progress parent = .done r →
      Refers tree progress id d pin name
        (((exportAt tree parent last).map (·.renamed name)).getD (unfound tree id d pin name))
  | own {id parent : ModuleId} {d : Directive} {pin : Pin} {name last : String} {s : Symbol} :
      searched? tree id d pin = some (parent, last) → progress parent = .unvisited →
      place tree parent last = .own s →
      Refers tree progress id d pin name ((⟨s, s.identity, false⟩ : Entry).renamed name)
  | listed {id parent : ModuleId} {d d' : Directive} {pin pin' : Pin} {name last : String}
      {e : Entry} :
      searched? tree id d pin = some (parent, last) → progress parent = .unvisited →
      place tree parent last = .listed d' pin' → Refers tree progress parent d' pin' last e →
      Refers tree progress id d pin name (e.renamed name)
  | elsewhere {id parent : ModuleId} {d : Directive} {pin : Pin} {name last : String} :
      searched? tree id d pin = some (parent, last) → progress parent = .unvisited →
      place tree parent last = .elsewhere →
      Refers tree progress id d pin name
        (((answer? tree id parent last).map (·.renamed name)).getD (unfound tree id d pin name))

theorem findSome?_filter {α β : Type} {p : α → Bool} {f : α → Option β} {l : List α}
    (h : ∀ a, l.find? (fun a => (f a).isSome) = some a → p a = true) :
    (l.filter p).findSome? f = l.findSome? f := by
  induction l with
  | nil => rfl
  | cons a rest ih =>
    cases hf : f a with
    | some b =>
      have hp : p a = true := h a (List.find?_cons_of_pos (by simp [hf]))
      rw [List.filter_cons_of_pos hp, List.findSome?_cons, List.findSome?_cons, hf]
    | none =>
      have hrest := ih fun a' ha' => h a' (by rw [List.find?_cons_of_neg (by simp [hf]), ha'])
      rw [List.findSome?_cons, hf, ← hrest, List.filter_cons]
      split_ifs
      · rw [List.findSome?_cons, hf]
      · rfl

section Inversion

variable {tree : ModuleTree} {id parent : ModuleId} {d : Directive} {pin : Pin} {name last : String}

theorem place_own {s : Symbol} (h : place tree parent name = .own s) :
    (tree.get parent).symbols.find? (fun s => s.name == name) = some s := by
  unfold place at h
  split at h
  · cases h
    assumption
  · split at h <;> cases h

theorem place_listed (h : place tree parent name = .listed d pin) :
    (tree.get parent).symbols.find? (fun s => s.name == name) = none ∧
      (listedPins (tree.get parent)).find? (fun p => p.2.exportedName == some name) =
        some (d, pin) := by
  unfold place at h
  split at h
  · cases h
  · split at h
    · cases h
      exact ⟨by assumption, by assumption⟩
    · cases h

theorem place_elsewhere (h : place tree parent name = .elsewhere) :
    (tree.get parent).symbols.find? (fun s => s.name == name) = none ∧
      (listedPins (tree.get parent)).find? (fun p => p.2.exportedName == some name) = none := by
  unfold place at h
  split at h
  · cases h
  · split at h
    · cases h
    · exact ⟨by assumption, by assumption⟩

/-- A search that goes nowhere misses nothing. -/
theorem not_missed_outside {done? : ModuleId → Option Resolved} {e : Entry}
    (hkey : searched? tree id d pin = none) : ¬ Missed tree done? e id d pin := by
  intro hmissed
  cases hmissed <;> simp_all

theorem missed_iff {done? : ModuleId → Option Resolved} {e : Entry}
    (hkey : searched? tree id d pin = some (parent, last)) :
    Missed tree done? e id d pin ↔ done? parent = none ∧
      match place tree parent last with
      | .own _ => False
      | .listed d' pin' => Missed tree done? e parent d' pin'
      | .elsewhere => ¬ ((answer? tree id parent last).getD (unfound tree id d pin last)).Means e := by
  constructor
  · intro hmissed
    cases hmissed <;> simp_all
  · rintro ⟨hdone, hend⟩
    split at hend
    · exact hend.elim
    · exact .listed hkey hdone ‹_› hend
    · exact .elsewhere hkey hdone ‹_› hend

theorem not_marked_outside {done? : ModuleId → Option Resolved}
    (hkey : searched? tree id d pin = none) : ¬ Marked tree done? id d pin := by
  intro hmarked
  cases hmarked <;> simp_all

theorem marked_iff {done? : ModuleId → Option Resolved}
    (hkey : searched? tree id d pin = some (parent, last)) :
    Marked tree done? id d pin ↔
      match done? parent, place tree parent last with
      | some _, _ => Ambiguous tree parent last
      | none, .own _ => False
      | none, .listed d' pin' => Marked tree done? parent d' pin'
      | none, .elsewhere => (answer? tree id parent last).any (·.ambiguous) = true := by
  constructor
  · intro hmarked
    cases hmarked <;> simp_all
  · intro hend
    split at hend
    · exact .finished hkey ‹_› hend
    · exact hend.elim
    · exact .listed hkey ‹_› ‹_› hend
    · exact .elsewhere hkey ‹_› ‹_› hend

theorem Refers.outside_eq {progress : ModuleId → Progress} {r : Entry}
    (hr : Refers tree progress id d pin name r) (hkey : searched? tree id d pin = none) :
    r = unfound tree id d pin name := by
  cases hr <;> simp_all

/-- What is found, by how far the module has come that the search leads to and by where the
    name stands in it. -/
theorem Refers.inv {progress : ModuleId → Progress} {r : Entry}
    (hr : Refers tree progress id d pin name r)
    (hkey : searched? tree id d pin = some (parent, last)) :
    match progress parent, place tree parent last with
    | .done _, _ =>
      r = ((exportAt tree parent last).map (·.renamed name)).getD (unfound tree id d pin name)
    | .open, _ => False
    | .unvisited, .own s => r = (⟨s, s.identity, false⟩ : Entry).renamed name
    | .unvisited, .listed d' pin' =>
      ∃ e, Refers tree progress parent d' pin' last e ∧ r = e.renamed name
    | .unvisited, .elsewhere =>
      r = ((answer? tree id parent last).map (·.renamed name)).getD (unfound tree id d pin name) := by
  cases hr with
  | outside hkey' => simp_all
  | finished hkey' hdone =>
    rw [hkey] at hkey'
    cases hkey'
    simp [hdone]
  | own hkey' hget hplace =>
    rw [hkey] at hkey'
    cases hkey'
    simp [hget, hplace]
  | listed hkey' hget hplace hinner =>
    rw [hkey] at hkey'
    cases hkey'
    simp only [hget, hplace]
    exact ⟨_, hinner, rfl⟩
  | elsewhere hkey' hget hplace =>
    rw [hkey] at hkey'
    cases hkey'
    simp [hget, hplace]

/-- A search does not come to a module that is under way. -/
theorem Refers.not_open {progress : ModuleId → Progress} {r : Entry}
    (hr : Refers tree progress id d pin name r)
    (hkey : searched? tree id d pin = some (parent, last)) : progress parent ≠ .open := by
  intro hget
  have hinv := hr.inv hkey
  rw [hget] at hinv
  exact hinv

end Inversion

/-! ## What a listed name refers to -/

section PinAs

variable {tree : ModuleTree} {inner : Calls} {id : ModuleId} {d : Directive} {pin : Pin}

theorem searched?_eq_some_iff {key : ModuleId × String} :
    searched? tree id d pin = some key ↔ d.absolute = false ∧ pinKey? tree id pin = some key := by
  simp [searched?]

theorem searched?_lt (h : tree.WellFormed) (hid : id < tree.size) {parent : ModuleId} {last : String}
    (hkey : searched? tree id d pin = some (parent, last)) : parent < tree.size :=
  pinKey?_lt h hid (searched?_eq_some_iff.1 hkey).2

/-- A listed name refers to what is found where it is looked up. -/
theorem pinAs_of_searched {parent : ModuleId} {last : String}
    (hkey : searched? tree id d pin = some (parent, last)) (name : String) (memo : Memo) :
    (pinAs tree inner id d pin name memo).1 =
      ((inner.lookup id parent last memo).1.map (·.renamed name)).getD
        (unfound tree id d pin name) := by
  obtain ⟨habs, hkey⟩ := searched?_eq_some_iff.1 hkey
  rw [pinAs_eq, pinFound, habs, hkey]
  rfl

theorem pinAs_of_not_searched (hkey : searched? tree id d pin = none) (name : String) (memo : Memo) :
    (pinAs tree inner id d pin name memo).1 = unfound tree id d pin name := by
  rw [pinAs_eq, pinFound]
  cases habs : d.absolute with
  | true => rfl
  | false =>
    rw [searched?, habs] at hkey
    rw [show pinKey? tree id pin = none from hkey]
    rfl

/-- The look-up of a listed name belongs to the resolution. -/
theorem InCourse.searched {depth : Nat} {parent : ModuleId} {name last : String} {memo : Memo}
    (hcourse : InCourse tree (depth + 1) (pinRequests tree id d pin) memo)
    (hname : pin.exportedName = some name)
    (hkey : searched? tree id d pin = some (parent, last)) :
    ⟨depth, .lookup id parent last, memo⟩ ∈ trace tree := by
  obtain ⟨habs, hkey⟩ := searched?_eq_some_iff.1 hkey
  rw [pinRequests_eq, hname, habs, hkey] at hcourse
  exact hcourse.head

theorem unfound_not_ambiguous (tree : ModuleTree) (id : ModuleId) (d : Directive) (pin : Pin)
    (name : String) : (unfound tree id d pin name).ambiguous = false := by
  rcases unfound_cases tree id d pin name with ⟨target, -, -, heq⟩ | heq
  · rw [heq]
    rfl
  · rw [heq]
    rfl

/-- What stands for the path of a listed name is the same under all names. -/
theorem unfound_means (tree : ModuleTree) (id : ModuleId) (d : Directive) (pin : Pin)
    (name other : String) :
    (unfound tree id d pin name).Means (unfound tree id d pin other) := by
  unfold unfound
  split_ifs
  · exact ⟨rfl, rfl, rfl, rfl⟩
  · cases tree.resolvePath id pin.itemPath with
    | some target => exact ⟨rfl, rfl, rfl, rfl⟩
    | none => exact ⟨rfl, rfl, rfl, rfl⟩

/-- The name that is exported does not matter to what is meant. -/
theorem getD_means (found : Option Entry) (name other : String) :
    ((found.map (·.renamed name)).getD (unfound tree id d pin name)).Means
      (found.getD (unfound tree id d pin other)) := by
  cases found with
  | none => exact unfound_means tree id d pin name other
  | some e => exact Entry.Means.renamed_iff.2 (.refl e)

theorem getD_ambiguous_iff (found : Option Entry) (name : String) :
    ((found.map (·.renamed name)).getD (unfound tree id d pin name)).ambiguous = true ↔
      found.any (·.ambiguous) = true := by
  cases found with
  | none => simp [unfound_not_ambiguous]
  | some e => exact Iff.rfl

end PinAs

section Refers

variable {tree : ModuleTree} (h : tree.WellFormed) (hacyclic : Acyclic tree)

include h hacyclic

/-- **What a listed name refers to**, by how far modules have come. Induction on the depth: the
    look-up of a listed name nests less deep than the call that looks at it. -/
theorem refers_pinAs : ∀ {depth : Nat} {id : ModuleId} {d : Directive} {pin : Pin} {name : String}
    {memo : Memo}, InCourse tree (depth + 1) (pinRequests tree id d pin) memo →
    pin.exportedName = some name →
    Refers tree memo.get id d pin name
      (pinAs tree (calls tree (depth + 1)) id d pin name memo).1 := by
  intro depth
  induction depth using Nat.strongRecOn with
  | ind depth ih =>
    intro id d pin name memo hcourse hname
    cases hkey : searched? tree id d pin with
    | none =>
      rw [pinAs_of_not_searched hkey]
      exact .outside hkey
    | some key =>
      obtain ⟨parent, last⟩ := key
      have hv := hcourse.searched hname hkey
      rw [pinAs_of_searched hkey]
      show Refers tree memo.get id d pin name
        (((lookup tree (calls tree depth) id parent last memo).1.map _).getD _)
      cases hget : memo.get parent with
      | «open» => exact absurd hget (hacyclic.lookup_not_open hv rfl)
      | done r =>
        rw [lookup_of_done hacyclic hv hget]
        exact .finished hkey hget
      | unvisited =>
        have hdone : memo.done? parent = none := by rw [Memo.done?, hget]
        cases hplace : place tree parent last with
        | own s =>
          rw [lookup_of_own hacyclic hv hdone (place_own hplace)]
          exact .own hkey hget hplace
        | listed d' pin' =>
          obtain ⟨hown, hpin⟩ := place_listed hplace
          have hname' : pin'.exportedName = some last := by simpa using List.find?_some hpin
          obtain ⟨hlookup, hinner⟩ := lookup_of_listed hacyclic hv hdone hown hpin
          obtain ⟨depth, rfl⟩ := Visit.depth_of_new h hv (hacyclic.lookup_isNew hv rfl)
          rw [hlookup]
          exact .listed hkey hget hplace (ih depth (Nat.lt_succ_self depth) hinner hname')
        | elsewhere =>
          obtain ⟨hown, hpin⟩ := place_elsewhere hplace
          rw [lookup_of_wildcards h hacyclic hv hdone hown hpin]
          exact .elsewhere hkey hget hplace

end Refers

/-! ## What it refers to later -/

section Later

variable {tree : ModuleTree} (h : tree.WellFormed) (hacyclic : Acyclic tree)

include h hacyclic

/-- An export that a module lists is made from what the listed name refers to when the
    module is resolved, which is later if the module has not been visited. -/
theorem exportAt_refers {v : Visit} (hv : v ∈ trace tree) {parent : ModuleId}
    (hparent : parent < tree.size) (hget : v.memo.get parent = .unvisited) {d : Directive} {pin : Pin}
    {name : String} (hplace : place tree parent name = .listed d pin) :
    ∃ (memo : Memo) (r e : Entry), Keeps v.memo memo ∧ Refers tree memo.get parent d pin name r ∧
      exportAt tree parent name = some e ∧ e.MadeFrom r := by
  obtain ⟨hown, hpin⟩ := place_listed hplace
  have hname : pin.exportedName = some name := by simpa using List.find?_some hpin
  obtain ⟨w, hw, hopens⟩ := exists_opens h hparent
  obtain ⟨memo, hlater, hcourse, e, he, hmade⟩ := exportAt_listed h hparent hw hopens hown hpin
  obtain ⟨depth, hdepth⟩ := Visit.depth_of_new h hw hopens.isNew
  rw [hdepth] at hcourse hmade
  have hkeeps := (hopens.later h hv hw hparent hget).keeps.trans hlater.keeps
  exact ⟨memo, _, e, hkeeps, refers_pinAs h hacyclic hcourse hname, he, hmade⟩

/-- A mark that wildcards bring in stays on the name when the module is resolved. -/
theorem ambiguous_of_answer {user parent : ModuleId} (hparent : parent < tree.size) {name : String}
    (hdecl : ¬ Declares tree parent name)
    (hmarked : (answer? tree user parent name).any (·.ambiguous) = true) :
    Ambiguous tree parent name := by
  obtain ⟨e, he, hmark⟩ := (Option.any_eq_true _ _).1 hmarked
  rcases Option.or_eq_some_iff.1 he with hscan | ⟨-, hwhole⟩
  · obtain ⟨target, ht, hexport⟩ := List.exists_of_findSome?_eq_some hscan
    obtain ⟨d, hd, htarget⟩ := mem_targets.1 (List.mem_filter.1 ht).1
    obtain ⟨index, hindex⟩ := List.mem_iff_getElem?.1 hd
    have htaken := hacyclic.taken h hparent hindex htarget
    have hname : e.symbol.name = name := by simpa using List.find?_some hexport
    refine (drafted_draftAt h hparent).ambiguous_of_route hdecl (c := ⟨e, .wildcard index⟩) ?_ hmark
    refine (Draft.mem_routes _).2 ⟨mem_addEffects.2 (.inr ⟨index, _, htaken, ?_⟩), hname⟩
    rw [takeAll_contributions]
    exact List.mem_map_of_mem (List.mem_of_find?_eq_some hexport)
  · split_ifs at hwhole
    exact ⟨e, hwhole, hmark⟩

variable {v : Visit} (hv : v ∈ trace tree)

include hv

/-- Where the search goes on to a listed name of a module that has not been visited, what is
    found later is made from what that listed name refers to later. -/
theorem Refers.later_listed {id parent : ModuleId} (hparent : parent < tree.size) {d d' : Directive}
    {pin pin' : Pin} {name last : String} {memo : Memo} {r : Entry} (hkeeps : Keeps v.memo memo)
    (hr : Refers tree memo.get id d pin name r) (hkey : searched? tree id d pin = some (parent, last))
    (hget : v.memo.get parent = .unvisited) (hplace : place tree parent last = .listed d' pin') :
    ∃ (memo' : Memo) (inner : Entry), Keeps v.memo memo' ∧
      Refers tree memo'.get parent d' pin' last inner ∧ r.Means inner ∧
      (inner.ambiguous = true → r.ambiguous = true) := by
  have hinv := hr.inv hkey
  rw [hplace] at hinv
  cases hget' : memo.get parent with
  | «open» => exact absurd hget' (hr.not_open hkey)
  | unvisited =>
    rw [hget'] at hinv
    obtain ⟨inner, hinner, rfl⟩ := hinv
    exact ⟨memo, inner, hkeeps, hinner, Entry.Means.renamed_iff.2 (.refl inner), fun h => h⟩
  | done record =>
    obtain ⟨memo', inner, e, hkeeps', hinner, hexport, hmade⟩ :=
      exportAt_refers h hacyclic hv hparent hget hplace
    simp only [hget', hexport, Option.map_some, Option.getD_some] at hinv
    rw [hinv]
    exact ⟨memo', inner, hkeeps', hinner, Entry.Means.renamed_iff.2 hmade.means, hmade.marked⟩

/-- What a listed name refers to stands for what it refers to later, unless the search
    misses that. Induction on the search: where it ends and has not missed anything, the
    end is the same later. -/
theorem Refers.means_iff {id : ModuleId} {d : Directive} {pin : Pin} {name : String} {r : Entry}
    (hr : Refers tree v.memo.get id d pin name r) (hid : id < tree.size) {memo : Memo} {r' e : Entry}
    (hkeeps : Keeps v.memo memo) (hr' : Refers tree memo.get id d pin name r') (he : r'.Means e) :
    r.Means e ↔ ¬ Missed tree v.memo.done? e id d pin := by
  induction hr generalizing memo r' with
  | outside hkey =>
    rw [hr'.outside_eq hkey] at he
    exact iff_of_true he (not_missed_outside hkey)
  | @finished _ parent _ _ _ last _ hkey hdone =>
    have hinv := hr'.inv hkey
    rw [hkeeps _ _ hdone] at hinv
    rw [missed_iff hkey, Memo.done?_eq_some_iff.2 hdone, ← show r' = _ from hinv]
    exact iff_of_true he (by simp)
  | @own id parent d pin name last s hkey hget hplace =>
    have hparent := searched?_lt h hid hkey
    have hinv := hr'.inv hkey
    rw [missed_iff hkey, hplace]
    refine iff_of_true ?_ (by simp)
    rw [hplace] at hinv
    cases hget' : memo.get parent with
    | «open» => exact absurd hget' (hr'.not_open hkey)
    | unvisited =>
      rw [hget'] at hinv
      rwa [← show r' = _ from hinv]
    | done record =>
      obtain ⟨e', hexport, hmade⟩ := exportAt_own h hparent (place_own hplace)
      simp only [hget', hexport, Option.map_some, Option.getD_some] at hinv
      rw [hinv, Entry.Means.renamed_iff] at he
      exact Entry.Means.renamed_iff.2 (hmade.means.symm.trans he)
  | @listed id parent d d' pin pin' name last inner hkey hget hplace hinner ih =>
    have hparent := searched?_lt h hid hkey
    obtain ⟨memo', inner', hkeeps', hinner', hmeans, -⟩ :=
      Refers.later_listed h hacyclic hv hparent hkeeps hr' hkey hget hplace
    rw [missed_iff hkey, hplace]
    simp only [show v.memo.done? parent = none by rw [Memo.done?, hget], true_and,
      Entry.Means.renamed_iff]
    exact ih hparent hkeeps' hinner' (hmeans.symm.trans he)
  | @elsewhere id parent d pin name last hkey hget hplace =>
    rw [missed_iff hkey, hplace]
    simp only [show v.memo.done? parent = none by rw [Memo.done?, hget], true_and, not_not]
    have hsame : (((answer? tree id parent last).map (·.renamed name)).getD
        (unfound tree id d pin name)).Means
        ((answer? tree id parent last).getD (unfound tree id d pin last)) := getD_means _ name last
    exact ⟨hsame.symm.trans, hsame.trans⟩

omit hv in
/-- Unless the place that a name comes from is passed over, what a module exports is made
    from what the search through its wildcards finds. -/
theorem exportAt_answer {user parent : ModuleId} (hparent : parent < tree.size) {name : String}
    (hplace : place tree parent name = .elsewhere)
    (hseen : ∀ target, (targets tree parent).find? (fun target =>
      (exportAt tree target name).isSome) = some target → tree.isAncestor target user = false) :
    Option.Rel Entry.MadeFrom (exportAt tree parent name) (answer? tree user parent name) := by
  have hrel := exportAt_wildcards h hparent hacyclic (not_declares_iff.2 (place_elsewhere hplace))
  have hscan : scan tree user parent name = (targets tree parent).findSome? (exportAt tree · name) :=
    findSome?_filter fun target ht => by simp [hseen target ht]
  rw [← hscan] at hrel
  unfold answer?
  generalize exportAt tree parent name = exported at hrel ⊢
  generalize scan tree user parent name = found at hrel ⊢
  cases hrel with
  | none => simp
  | some hmade => exact .some hmade

/-- A search misses what a name refers to later only if it passes over where that comes
    from. -/
theorem Refers.passedOver_of_missed {id : ModuleId} {d : Directive} {pin : Pin} {name : String}
    {memo : Memo} {r r' e : Entry} (hmissed : Missed tree v.memo.done? e id d pin)
    (hid : id < tree.size) (hr : Refers tree v.memo.get id d pin name r) (hkeeps : Keeps v.memo memo)
    (hr' : Refers tree memo.get id d pin name r') (he : r'.Means e) : PassedOver tree id d pin := by
  induction hmissed generalizing name memo r r' with
  | @listed id parent d d' pin pin' last hkey hdone hplace _ ih =>
    have hparent := searched?_lt h hid hkey
    have hinv := hr.inv hkey
    rw [hplace] at hinv
    cases hget : v.memo.get parent with
    | «open» => exact absurd hget (hr.not_open hkey)
    | done record =>
      rw [Memo.done?_eq_some_iff.2 hget] at hdone
      cases hdone
    | unvisited =>
      rw [hget] at hinv
      obtain ⟨inner, hinner, -⟩ := hinv
      obtain ⟨memo', inner', hkeeps', hinner', hmeans, -⟩ :=
        Refers.later_listed h hacyclic hv hparent hkeeps hr' hkey hget hplace
      exact .listed hkey hplace (ih hparent hinner hkeeps' hinner' (hmeans.symm.trans he))
  | @elsewhere id parent d pin last hkey hdone hplace hother =>
    by_contra hpassed
    have hrel : Option.Rel Entry.MadeFrom (exportAt tree parent last)
        (answer? tree id parent last) := by
      refine exportAt_answer h hacyclic (searched?_lt h hid hkey) hplace fun target ht => ?_
      rw [Bool.eq_false_iff]
      exact fun habove => hpassed (.elsewhere hkey hplace ht habove)
    have hinv := hr'.inv hkey
    rw [hplace] at hinv
    refine hother ((Entry.Means.symm ?_).trans he)
    cases hget : memo.get parent with
    | «open» => exact absurd hget (hr'.not_open hkey)
    | unvisited =>
      rw [hget] at hinv
      rw [show r' = _ from hinv]
      exact getD_means _ name last
    | done record =>
      rw [hget] at hinv
      rw [show r' = _ from hinv]
      exact (getD_means _ name last).trans (Entry.getD_means_getD hrel _)

/-- A mark on what a listed name refers to is also on what it refers to later. -/
theorem Refers.marked_later {id : ModuleId} {d : Directive} {pin : Pin} {name : String} {r : Entry}
    (hr : Refers tree v.memo.get id d pin name r) (hid : id < tree.size) {memo : Memo} {r' : Entry}
    (hkeeps : Keeps v.memo memo) (hr' : Refers tree memo.get id d pin name r')
    (hmarked : r.ambiguous = true) : r'.ambiguous = true := by
  induction hr generalizing memo r' with
  | outside hkey => simp [unfound_not_ambiguous] at hmarked
  | own hkey hget hplace => cases hmarked
  | @finished _ parent _ _ _ last _ hkey hdone =>
    have hinv := hr'.inv hkey
    rw [hkeeps _ _ hdone] at hinv
    rwa [show r' = _ from hinv]
  | @listed id parent d d' pin pin' name last inner hkey hget hplace hinner ih =>
    have hparent := searched?_lt h hid hkey
    obtain ⟨memo', inner', hkeeps', hinner', -, hmarks⟩ :=
      Refers.later_listed h hacyclic hv hparent hkeeps hr' hkey hget hplace
    exact hmarks (ih hparent hkeeps' hinner' hmarked)
  | @elsewhere id parent d pin name last hkey hget hplace =>
    have hparent := searched?_lt h hid hkey
    have hinv := hr'.inv hkey
    rw [hplace] at hinv
    cases hget' : memo.get parent with
    | «open» => exact absurd hget' (hr'.not_open hkey)
    | unvisited =>
      rw [hget'] at hinv
      rwa [show r' = _ from hinv]
    | done record =>
      rw [hget'] at hinv
      rw [show r' = _ from hinv, getD_ambiguous_iff]
      exact (Option.any_eq_true _ _).2 (ambiguous_of_answer h hacyclic hparent
        (not_declares_iff.2 (place_elsewhere hplace)) ((getD_ambiguous_iff _ _).1 hmarked))

end Later

/-- What a listed name refers to is marked if the search ends at a mark. -/
theorem Refers.ambiguous_iff {tree : ModuleTree} {memo : Memo} {id : ModuleId} {d : Directive}
    {pin : Pin} {name : String} {r : Entry} (hr : Refers tree memo.get id d pin name r) :
    r.ambiguous = true ↔ Marked tree memo.done? id d pin := by
  induction hr with
  | outside hkey => exact iff_of_false (by simp [unfound_not_ambiguous]) (not_marked_outside hkey)
  | finished hkey hdone =>
    rw [marked_iff hkey, Memo.done?_eq_some_iff.2 hdone, getD_ambiguous_iff, Option.any_eq_true]
    rfl
  | own hkey hget hplace =>
    rw [marked_iff hkey, Memo.done?, hget, hplace]
    simp [Entry.renamed]
  | listed hkey hget hplace _ ih =>
    rw [marked_iff hkey, Memo.done?, hget, hplace]
    exact ih
  | elsewhere hkey hget hplace =>
    rw [marked_iff hkey, Memo.done?, hget, hplace, getD_ambiguous_iff]

/-! ## Main result -/

theorem Listed.contributionOf? {tree : ModuleTree} {v : Visit} {id : ModuleId} {index : Nat}
    {d : Directive} {before : List Pin} {pin : Pin} {name : String} {e : Effect} {memo : Memo}
    (h : Listed tree v id index d before pin name e memo) :
    contributionOf? tree id index before =
      some ⟨(pinAs tree (calls tree v.depth) id d pin name memo).1, .pinned index⟩ := by
  obtain ⟨first, rest, hcs, hfirst⟩ := h.contributions
  rw [Resolution.contributionOf?, h.effect, Option.bind_some, hcs, ← hfirst, List.length_map]
  simp

/-- **What a listed name means.** Where directives make no circle, a listed name whose path
    leads to module `parent` contributes what `parent` exports in the end under the last
    segment, with the same identity, kind, origin and line, exactly if the search for it
    does not miss that; a search misses something only if it passes over the place that the
    name comes from. The contribution is marked ambiguous exactly if the search ends at a
    mark, and then the export is marked too. If `parent` is finished when the name is looked
    up, the whole entry is that of `parent` under the name that is listed. -/
theorem listed_name_exact {tree : ModuleTree} (h : tree.Built) (hacyclic : Acyclic tree)
    {id : ModuleId} (hid : id < tree.size) {index : Nat} {d : Directive} {before after : List Pin}
    {pin : Pin} {name last : String} {parent : ModuleId} {e : Entry}
    (hd : (tree.get id).directives[index]? = some d)
    (hform : d.form = .explicit (before ++ pin :: after)) (habs : d.absolute = false)
    (hname : pin.exportedName = some name) (hkey : pinKey? tree id pin = some (parent, last))
    (he : (resolvedAt tree parent).exports.find? last = some e) :
    ∃ v ∈ trace tree, v.Opens id ∧ ∃ c, contributionOf? tree id index before = some c ∧
      c.name = name ∧ c.via = .pinned index ∧
      (c.entry.Means e ↔ ¬ Missed tree (v.looked tree id index d before).done? e id d pin) ∧
      (Missed tree (v.looked tree id index d before).done? e id d pin → PassedOver tree id d pin) ∧
      (c.entry.ambiguous = true ↔ Marked tree (v.looked tree id index d before).done? id d pin) ∧
      (c.entry.ambiguous = true → e.ambiguous = true) ∧
      (((v.looked tree id index d before).done? parent).isSome = true →
        c.entry = e.renamed name) := by
  have hwf := h.wellFormed
  obtain ⟨v, hv, hopens⟩ := exists_opens hwf hid
  obtain ⟨effect, hlisted⟩ := exists_listed hwf hv hid hopens hd hform hname
  obtain ⟨depth, hdepth⟩ := Visit.depth_of_new hwf hv hopens.isNew
  have hcourse := hlisted.inCourse
  have hcontribution := hlisted.contributionOf?
  rw [hdepth] at hcourse hcontribution
  have hsearched : searched? tree id d pin = some (parent, last) :=
    searched?_eq_some_iff.2 ⟨habs, hkey⟩
  have hlookup := hcourse.searched hname hsearched
  have hrefers := refers_pinAs hwf hacyclic hcourse hname
  -- in the end every module is finished, so the name then refers to the export
  obtain ⟨r, hr⟩ := resolveAll_done hwf (searched?_lt hwf hid hsearched)
  have hfinal : Refers tree (resolveAll tree).get id d pin name _ := .finished hsearched hr
  rw [exportAt, he, Option.map_some, Option.getD_some] at hfinal
  have hmeans : (e.renamed name).Means e := Entry.Means.renamed_iff.2 (.refl e)
  have hkeeps := Visit.keeps_memo hlookup
  refine ⟨v, hv, hopens, _, hcontribution, pinAs_name tree _ id d pin name _, rfl, ?_, ?_, ?_, ?_,
    ?_⟩
  · exact hrefers.means_iff hwf hacyclic hlookup hid hkeeps hfinal hmeans
  · intro hmissed
    exact Refers.passedOver_of_missed hwf hacyclic hlookup hmissed hid hrefers hkeeps hfinal hmeans
  · exact hrefers.ambiguous_iff
  · intro hmarked
    have hlater : (e.renamed name).ambiguous = true :=
      hrefers.marked_later hwf hacyclic hlookup hid hkeeps hfinal hmarked
    exact hlater
  · intro hdone
    obtain ⟨r, hr⟩ := Option.isSome_iff_exists.1 hdone
    have hinv := hrefers.inv hsearched
    rw [Memo.done?_eq_some_iff.1 hr] at hinv
    rw [show (pinAs tree _ id d pin name _).1 = _ from hinv, exportAt, he]
    rfl

/-- Modules `a` and `other` declare `f`. Module `b` lists `f` of `c` as `g`, and `c` lists that of
    `both`, which passes on the two. When `b` is resolved, neither `c` nor `both` is
    finished. -/
def detour : ModuleTree :=
  .flat [
    ("a", [⟨"f", .function, "a", 7⟩], []),
    ("other", [⟨"f", .constant, "other", 1⟩], []),
    ("b", [], [.list [⟨["super", "c"], "f", some "g"⟩]]),
    ("both", [], [.star ["super", "a"], .star ["super", "other"]]),
    ("c", [], [.list [⟨["super", "both"], "f", none⟩]])]

/-- The search from `b` ends at the wildcards of `both`: it does not miss what `c` exports,
    but there is no mark yet. -/
theorem listed_name_exact_detour :
    Acyclic detour ∧ ∃ e c, (resolvedAt detour 5).exports.find? "f" = some e ∧
      contributionOf? detour 3 0 [] = some c ∧ c.name = "g" ∧ c.entry.Means e ∧
      e.ambiguous = true ∧
      ∃ v ∈ trace detour, v.Opens 3 ∧
        let pin : Pin := ⟨["super", "c"], "f", some "g"⟩
        let looked := v.looked detour 3 0 (.list [pin]) []
        looked.done? 5 = none ∧ ¬ Missed detour looked.done? e 3 (.list [pin]) pin ∧
          ¬ Marked detour looked.done? 3 (.list [pin]) pin := by
  have hbuilt : detour.Built := ModuleTree.built_flat _
  have hacyclic : Acyclic detour :=
    acyclic_of_rank ([0, 0, 0, 3, 1, 2].getD · 0) (by decide +kernel)
  have hfind : (resolvedAt detour 5).exports.find? "f" =
      some ⟨⟨"f", .function, "a", 7⟩, .declared "a" "f", true⟩ := by decide +kernel
  have hcontribution : contributionOf? detour 3 0 [] =
      some ⟨⟨⟨"g", .function, "a", 7⟩, .declared "a" "f", false⟩, .pinned 0⟩ := by decide +kernel
  let pin : Pin := ⟨["super", "c"], "f", some "g"⟩
  have hd : (detour.get 3).directives[0]? = some (.list [pin]) := by rfl
  have hform : (Directive.list [pin]).form = .explicit ([] ++ pin :: []) := rfl
  have hkey : pinKey? detour 3 pin = some (5, "f") := by decide +kernel
  obtain ⟨v, hv, hopens, c, hc, hname, -, hmeans, -, hmarked, -, hdone⟩ := listed_name_exact
    hbuilt hacyclic (show 3 < detour.size by decide +kernel) hd hform rfl
    (show pin.exportedName = some "g" from rfl) hkey hfind
  rw [hcontribution] at hc
  cases hc
  refine ⟨hacyclic, _, _, hfind, hcontribution, rfl, ⟨rfl, rfl, rfl, rfl⟩, rfl, v, hv, hopens, ?_,
    hmeans.1 ⟨rfl, rfl, rfl, rfl⟩, fun h => by cases hmarked.2 h⟩
  rw [← Option.not_isSome_iff_eq_none]
  intro h
  cases hdone h

/-- The root declares `x`, module `a` passes on the root, and module `m` below it lists `x` of
    `a`. Module `z` passes on both. -/
def upward : ModuleTree :=
  (((ModuleTree.rooted [⟨"x", .function, "root", 1⟩] []).extended 0 "a" []
    [.star ["super"]]).extended 1 "m" [] [.list [⟨["super"], "x", none⟩]]).extended 0 "z" []
    [.star ["super", "a"], .star ["super", "a", "m"]]

theorem built_upward : upward.Built :=
  (((ModuleTree.built_rooted _ _).extended (by decide +kernel) _ _ _).extended (by decide +kernel)
    _ _ _).extended (by decide +kernel) _ _ _

/-- The root lies above `m`, so `m` does not find what `a` exports and takes `x` to come from
    outside. Then `x` collides with itself in `z`, and neither list has it. -/
theorem upward_collides :
    upward.Built ∧ Acyclic upward ∧ pinKey? upward 2 ⟨["super"], "x", none⟩ = some (1, "x") ∧
      (∃ e c, (resolvedAt upward 1).exports.find? "x" = some e ∧
        e.symbol = ⟨"x", .function, "root", 1⟩ ∧ contributionOf? upward 2 0 [] = some c ∧
        c.entry.symbol.kind = .external ∧ c.entry.symbol.origin ≠ e.symbol.origin ∧
        c.entry.identity = .external "super::x") ∧
      (resolvedAt upward 3).collisions.map (·.name) = ["x"] ∧
      (resolvedAt upward 3).plans = [.replaced [] ["x"], .replaced [] ["x"]] := by
  have hacyclic : Acyclic upward := acyclic_of_rank ([0, 1, 2, 3].getD · 0) (by decide +kernel)
  have hx : (resolvedAt upward 1).exports.find? "x" =
      some ⟨⟨"x", .function, "root", 1⟩, .declared "root" "x", false⟩ := by decide +kernel
  have hc : contributionOf? upward 2 0 [] =
      some ⟨external (.list [⟨["super"], "x", none⟩]) "x" ["super", "x"], .pinned 0⟩ := by
    decide +kernel
  refine ⟨built_upward, hacyclic, by decide +kernel, ⟨_, _, hx, rfl, hc, rfl, ?_, ?_⟩, ?_, ?_⟩
  · decide +kernel
  · decide +kernel
  · decide +kernel
  · decide +kernel

end Resolution

end Reexport
