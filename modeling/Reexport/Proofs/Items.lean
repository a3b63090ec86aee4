import Reexport.Proofs.Handover

/-!
# What names stand for

A name of a module stands for an item: a declaration of some unit, a module of the
tree, or something outside of it. `Exports` says by which chains of listed names and
wildcards an item comes into a module; it knows nothing of the order in which modules
are resolved.

A property of what entries are about is passed on by all steps of a resolution
(`PassedOn`) if settling a module, which changes nothing but the mark, does no harm to it.

Results:

* `PassedOn.contribution`, `PassedOn.entry`: what is passed on holds everywhere.
* `entry_justified`: every entry stands for an item that the module exports.
-/

namespace Reexport.Resolution

/-! ## Items -/

/-- What a name can stand for. -/
inductive Item where
  /-- A declaration. -/
  | declared (s : Symbol)
  /-- A module of the tree. -/
  | module (id : ModuleId)
  /-- Something outside the tree, by the path that a directive of module `user`
      gives. -/
  | external (user : ModuleId) (d : Directive) (path : List String)

namespace Item

/-- The kind that is shown for an item. -/
def kind : Item → SymbolKind
  | .declared s => s.kind
  | .module _ => .submodule
  | .external .. => .external

/-- The unit that an item is found in. -/
def origin (tree : ModuleTree) : Item → String
  | .declared s => s.origin
  | .module id => ((tree.get id).manifest.or (tree.get id).dir).getD ""
  | .external _ d _ => d.unit

/-- The line that an item is found at. -/
def line : Item → Nat
  | .declared s => s.line
  | .module _ => 1
  | .external _ d _ => d.line

/-- The identity of an item. -/
def identity (tree : ModuleTree) : Item → Identity
  | .declared s => s.identity
  | .module id => .module (tree.get id).qualifiedName
  | .external _ _ path => .external ("::".intercalate path)

/-- An entry is about an item, under whatever name. -/
structure Describes (tree : ModuleTree) (item : Item) (e : Entry) : Prop where
  kind : e.symbol.kind = item.kind
  origin : e.symbol.origin = item.origin tree
  line : e.symbol.line = item.line
  identity : e.identity = item.identity tree

end Item

/-- An item that a module exports under a name. -/
inductive Exports (tree : ModuleTree) : ModuleId → String → Item → Prop
  | own {id : ModuleId} {s : Symbol} : s ∈ (tree.get id).symbols →
      Exports tree id s.name (.declared s)
  | pinned {id parent : ModuleId} {d : Directive} {pin : Pin} {name last : String} {item : Item} :
      (d, pin) ∈ listedPins (tree.get id) → pin.exportedName = some name → d.absolute = false →
      pinKey? tree id pin = some (parent, last) → Exports tree parent last item →
      Exports tree id name item
  | module {id target : ModuleId} {d : Directive} {pin : Pin} {name : String} :
      (d, pin) ∈ listedPins (tree.get id) → pin.exportedName = some name → d.absolute = false →
      tree.resolvePath id pin.itemPath = some target → Exports tree id name (.module target)
  | external {id : ModuleId} {d : Directive} {pin : Pin} {name : String} :
      (d, pin) ∈ listedPins (tree.get id) → pin.exportedName = some name →
      Exports tree id name (.external id d pin.itemPath)
  | wildcard {id target : ModuleId} {name : String} {item : Item} : Edge tree id target →
      Exports tree target name item → Exports tree id name item

/-! ## Properties that are passed on -/

/-- A property of entries, by module and name, that every step of a resolution passes
    on. -/
structure PassedOn (tree : ModuleTree) (Q : ModuleId → String → Entry → Prop) : Prop where
  own : ∀ {id : ModuleId} {s : Symbol}, s ∈ (tree.get id).symbols → Q id s.name ⟨s, s.identity, false⟩
  pinned : ∀ {id parent : ModuleId} {d : Directive} {pin : Pin} {name last : String} {e : Entry},
    (d, pin) ∈ listedPins (tree.get id) → pin.exportedName = some name → d.absolute = false →
    pinKey? tree id pin = some (parent, last) → Q parent last e → Q id name (e.renamed name)
  reference : ∀ {id target : ModuleId} {d : Directive} {pin : Pin} {name : String},
    (d, pin) ∈ listedPins (tree.get id) → pin.exportedName = some name → d.absolute = false →
    tree.resolvePath id pin.itemPath = some target → Q id name (reference (tree.get target) name)
  external : ∀ {id : ModuleId} {d : Directive} {pin : Pin} {name : String},
    (d, pin) ∈ listedPins (tree.get id) → pin.exportedName = some name →
    Q id name (external d name pin.itemPath)
  wildcard : ∀ {id target : ModuleId} {name : String} {e : Entry}, Edge tree id target →
    Q target name e → Q id name e
  /-- Settling changes nothing but the mark. -/
  marked : ∀ {id : ModuleId} {name : String} {e : Entry} (ambiguous : Bool), Q id name e →
    Q id name { e with ambiguous := ambiguous }

namespace PassedOn

variable {tree : ModuleTree} {Q : ModuleId → String → Entry → Prop} (h : PassedOn tree Q)

include h

/-- If every contribution of a draft has the property, so has every entry that is
    settled from it. -/
theorem settle {id : ModuleId} {draft : Draft} {m : Module}
    (hall : ∀ c ∈ draft.contributions, Q id c.name c.entry) :
    ∀ e ∈ (draft.settle m).exports.entries, Q id e.symbol.name e := by
  intro e he
  obtain ⟨name, -, hentry⟩ := List.mem_filterMap.1 he
  obtain ⟨c, hhead, rfl⟩ := Option.map_eq_some_iff.1 hentry
  have hc := winners_subset (List.mem_of_mem_head? hhead)
  exact h.marked _ (hall c (draft.mem_routes.1 hc).1)

theorem handedOn : HandedOn tree Q where
  own := h.own
  pinned := h.pinned
  reference := h.reference
  external := h.external
  wildcard := h.wildcard
  settled _ hall := h.settle hall

/-- What is passed on holds of every entry. -/
theorem entry {id : ModuleId} {e : Entry} (he : e ∈ (resolvedAt tree id).exports.entries) :
    Q id e.symbol.name e :=
  h.handedOn.entry he

/-- What is passed on holds of every contribution. -/
theorem contribution {id : ModuleId} {c : Contribution} (hc : c ∈ (draftAt tree id).contributions) :
    Q id c.name c.entry :=
  h.handedOn.contribution hc

end PassedOn

/-! ## Main result -/

/-- An entry stands for an item that the module exports under the name. -/
def Justified (tree : ModuleTree) (id : ModuleId) (name : String) (e : Entry) : Prop :=
  ∃ item, Exports tree id name item ∧ item.Describes tree e

theorem justified_passedOn (tree : ModuleTree) : PassedOn tree (Justified tree) where
  own hs := ⟨_, .own hs, rfl, rfl, rfl, rfl⟩
  pinned hpin hname hrelative hkey hjustified := by
    obtain ⟨item, hexports, hkind, horigin, hline, hidentity⟩ := hjustified
    exact ⟨item, .pinned hpin hname hrelative hkey hexports, hkind, horigin, hline, hidentity⟩
  reference hpin hname hrelative ht := ⟨_, .module hpin hname hrelative ht, rfl, rfl, rfl, rfl⟩
  external hpin hname := ⟨_, .external hpin hname, rfl, rfl, rfl, rfl⟩
  wildcard hedge hjustified := by
    obtain ⟨item, hexports, hdescribes⟩ := hjustified
    exact ⟨item, .wildcard hedge hexports, hdescribes⟩
  marked _ hjustified := by
    obtain ⟨item, hexports, hkind, horigin, hline, hidentity⟩ := hjustified
    exact ⟨item, hexports, hkind, horigin, hline, hidentity⟩

/-- **Every entry is justified.** It has the name that it is exported under, and its
    kind, origin and line are those of an item that comes into the module under that
    name by listed names and wildcards. -/
theorem entry_justified {tree : ModuleTree} {id : ModuleId} {name : String} {e : Entry}
    (he : (resolvedAt tree id).exports.find? name = some e) :
    e.symbol.name = name ∧ ∃ item, Exports tree id name item ∧ e.symbol.kind = item.kind ∧
      e.symbol.origin = item.origin tree ∧ e.symbol.line = item.line := by
  have hname : e.symbol.name = name := by simpa using List.find?_some he
  obtain ⟨item, hexports, hdescribes⟩ :=
    (justified_passedOn tree).entry (List.mem_of_find?_eq_some he)
  rw [hname] at hexports
  exact ⟨hname, item, hexports, hdescribes.kind, hdescribes.origin, hdescribes.line⟩

/-- Modules `a` and `b` pass on each other. Module `c` lists `f` of `a` as `g`, and `b`
    lists that as `h`. -/
def tour : ModuleTree :=
  .flat [
    ("a", [⟨"f", .function, "a", 3⟩], [.star ["super", "b"]]),
    ("b", [], [.star ["super", "a"], .list [⟨["super", "c"], "g", some "h"⟩]]),
    ("c", [], [.list [⟨["super", "a"], "f", some "g"⟩]])]

theorem entry_justified_tour :
    ∃ e, (resolvedAt tour 1).exports.find? "h" = some e ∧ e.symbol = ⟨"h", .function, "a", 3⟩ ∧
      ∃ item, Exports tour 1 "h" item ∧ item.kind = .function ∧ item.origin tour = "a" ∧
        item.line = 3 := by
  have hfind : (resolvedAt tour 1).exports.find? "h" =
      some ⟨⟨"h", .function, "a", 3⟩, .declared "a" "f", false⟩ := by decide +kernel
  obtain ⟨-, item, hexports, hkind, horigin, hline⟩ := entry_justified hfind
  exact ⟨_, hfind, rfl, item, hexports, hkind.symm, horigin.symm, hline.symm⟩

end Reexport.Resolution
