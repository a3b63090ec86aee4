import Reexport.Proofs.Handover
import Reexport.Proofs.ReplacementLists

/-!
# Where ambiguity comes from

A name is marked ambiguous where contributions to it disagree, and the mark is handed on
through wildcards and listed names, under whatever name. A collision is put on record
only where contributions disagree. So every mark leads back to a collision on record: go
from a name of a module to the name that a directive takes it from, until the two
disagree.

Results:

* `collision_known`: what a collision on record says about the contributions.
* `ambiguous_handedOn`: marks that lead back to a collision are handed on.
* `ambiguity_traced`: every mark leads back to a collision, and every collision marks the
  name where it is on record and wherever a wildcard hands it on.
-/

namespace Reexport

/-! ## One contribution for each identity -/

theorem firstOfEach_sublist : ∀ (routes : List Contribution), (firstOfEach routes).Sublist routes := by
  intro routes
  induction routes with
  | nil => exact List.Sublist.slnil
  | cons c rest ih => exact (List.filter_sublist.trans ih).cons_cons c

theorem firstOfEach_pairwise : ∀ (routes : List Contribution),
    (firstOfEach routes).Pairwise fun a b => a.entry.identity ≠ b.entry.identity := by
  intro routes
  induction routes with
  | nil => exact List.Pairwise.nil
  | cons c rest ih =>
    refine List.Pairwise.cons (fun d hd => ?_) (ih.filter _)
    have hne := (List.mem_filter.1 hd).2
    exact fun heq => by simp [heq] at hne

theorem exists_mem_firstOfEach : ∀ {routes : List Contribution} {c : Contribution}, c ∈ routes →
    ∃ first ∈ firstOfEach routes, first.entry.identity = c.entry.identity := by
  intro routes
  induction routes with
  | nil => intro c hc; cases hc
  | cons head rest ih =>
    intro c hc
    rcases List.mem_cons.1 hc with rfl | hc
    · exact ⟨c, List.mem_cons_self, rfl⟩
    · obtain ⟨first, hfirst, heq⟩ := ih hc
      by_cases hsame : first.entry.identity = head.entry.identity
      · exact ⟨head, List.mem_cons_self, hsame.symm.trans heq⟩
      · refine ⟨first, List.mem_cons_of_mem _ (List.mem_filter.2 ⟨hfirst, ?_⟩), heq⟩
        simpa using hsame

/-- Two identities make two contributions. -/
theorem two_le_length_firstOfEach {routes : List Contribution} {a b : Contribution} (ha : a ∈ routes)
    (hb : b ∈ routes) (hne : a.entry.identity ≠ b.entry.identity) :
    2 ≤ (firstOfEach routes).length := by
  obtain ⟨a', ha', haeq⟩ := exists_mem_firstOfEach ha
  obtain ⟨b', hb', hbeq⟩ := exists_mem_firstOfEach hb
  match hfirst : firstOfEach routes with
  | [] =>
    rw [hfirst] at ha'
    cases ha'
  | [c] =>
    rw [hfirst, List.mem_singleton] at ha' hb'
    rw [← haeq, ← hbeq, ha', hb'] at hne
    exact absurd rfl hne
  | _ :: _ :: _ => simp

/-! ## Collisions on record -/

theorem collision?_eq_some_iff {m : Module} {name : String} {routes : List Contribution}
    {c : Collision} : collision? m name routes = some c ↔
      differ (winners routes) = true ∧ c = ⟨m.qualifiedName, name, origins routes m.directives⟩ := by
  unfold collision?
  split_ifs with hdiffer
  · simp [hdiffer, eq_comm]
  · simp [hdiffer]

theorem Draft.mem_collisions {draft : Draft} {m : Module} {c : Collision} :
    c ∈ (draft.settle m).collisions ↔ differ (winners (draft.routes c.name)) = true ∧
      c.module = m.qualifiedName ∧ c.contributors = origins (draft.routes c.name) m.directives := by
  constructor
  · intro hc
    obtain ⟨name, -, hname⟩ := List.mem_filterMap.1 hc
    obtain ⟨hdiffer, rfl⟩ := collision?_eq_some_iff.1 hname
    exact ⟨hdiffer, rfl, rfl⟩
  · rintro ⟨hdiffer, hmodule, hcontributors⟩
    obtain ⟨a, ha, -⟩ := exists_of_differ hdiffer
    have hname : c.name ∈ draft.names :=
      draft.mem_names.2 ⟨a, draft.mem_routes.1 (winners_subset ha)⟩
    refine List.mem_filterMap.2 ⟨c.name, hname, collision?_eq_some_iff.2 ⟨hdiffer, ?_⟩⟩
    rw [← hmodule, ← hcontributors]

namespace Resolution

/-- A collision is on record for a name of a module: its contributors are at least two,
    and they stand for contributions to the name of which no two have one identity. -/
structure Collides (tree : ModuleTree) (id : ModuleId) (name : String) (c : Collision) : Prop where
  recorded : c ∈ (resolvedAt tree id).collisions
  inModule : c.module = (tree.get id).qualifiedName
  named : c.name = name
  two : 2 ≤ c.contributors.length
  distinct : ∃ cs : List Contribution, cs.Sublist ((draftAt tree id).routes name) ∧
    cs.Pairwise (fun a b => a.entry.identity ≠ b.entry.identity) ∧
    c.contributors.Perm (cs.map (·.origin (tree.get id).directives))

theorem lt_of_mem_collisions {tree : ModuleTree} {id : ModuleId} {c : Collision}
    (hc : c ∈ (resolvedAt tree id).collisions) : id < tree.size := by
  by_contra hid
  rw [resolvedAt_of_size_le (by simpa using hid)] at hc
  cases hc

section Collisions

variable {tree : ModuleTree} (h : tree.WellFormed) {id : ModuleId} {c : Collision}
  (hc : c ∈ (resolvedAt tree id).collisions)

include h hc

theorem collision_known : Collides tree id c.name c := by
  have hdrafted := drafted_draftAt h (lt_of_mem_collisions hc)
  have hmem := hc
  rw [hdrafted.settled, Draft.mem_collisions] at hmem
  obtain ⟨hdiffer, hmodule, hcontributors⟩ := hmem
  obtain ⟨a, ha, b, hb, hne⟩ := exists_of_differ hdiffer
  have htwo := two_le_length_firstOfEach (winners_subset ha) (winners_subset hb) hne
  have hperm := List.mergeSort_perm ((firstOfEach ((draftAt tree id).routes c.name)).map
    (·.origin (tree.get id).directives)) Origin.le
  refine ⟨hc, hmodule, rfl, ?_, _, firstOfEach_sublist _, firstOfEach_pairwise _, ?_⟩
  · rw [hcontributors, origins, List.length_mergeSort, List.length_map]
    exact htwo
  · rw [hcontributors]
    exact hperm

/-- What collides is ambiguous. -/
theorem ambiguous_of_collision : Ambiguous tree id c.name := by
  have hdrafted := drafted_draftAt h (lt_of_mem_collisions hc)
  rw [hdrafted.settled, Draft.mem_collisions] at hc
  rw [hdrafted.ambiguous_iff, isAmbiguous_eq, hc.1, Bool.true_or]

end Collisions

/-- An ambiguous name is ambiguous wherever a wildcard hands it on and nothing comes in
    front of it. -/
theorem ambiguous_of_wildcard {tree : ModuleTree} (h : tree.WellFormed) {id : ModuleId}
    (hid : id < tree.size) {index : Nat} {d : Directive} {target : ModuleId} {name : String}
    (hd : (tree.get id).directives[index]? = some d) (ht : target? tree id d = some target)
    (hne : (resolvedAt tree id).plans[index]? ≠ some .cycle) (hdecl : ¬ Declares tree id name)
    (hamb : Ambiguous tree target name) : Ambiguous tree id name := by
  have hdrafted := drafted_draftAt h hid
  obtain ⟨e, he, hmarked⟩ := hamb
  have hname : e.symbol.name = name := by simpa using List.find?_some he
  have hmem : name ∈ (resolvedAt tree target).exports.names :=
    List.mem_map.2 ⟨e, List.mem_of_find?_eq_some he, hname⟩
  obtain ⟨c, hc, hvia⟩ := routes_of_target h hid hd ht hne hmem
  obtain ⟨d', target', hd', ht', hentry⟩ := hdrafted.directive_of_wildcard hc hvia
  rw [hd] at hd'
  cases hd'
  rw [ht] at ht'
  cases ht'
  -- the target has one entry of the name, so the contribution is that entry
  have hsame := find?_of_mem h (target?_lt tree h hid ht) hentry
  rw [show c.entry.symbol.name = name from ((Draft.mem_routes _).1 hc).2, he] at hsame
  cases hsame
  exact hdrafted.ambiguous_of_route hdecl hc hmarked

/-! ## Tracing a mark -/

/-- From a name of a module to where a directive takes it from: the same name of the target
    of a wildcard, or what the path of a listed name leads to. -/
inductive TakenFrom (tree : ModuleTree) : ModuleId × String → ModuleId × String → Prop
  | wildcard {id target : ModuleId} {name : String} : Edge tree id target →
      TakenFrom tree (id, name) (target, name)
  | listed {id parent : ModuleId} {d : Directive} {pin : Pin} {name last : String} :
      (d, pin) ∈ listedPins (tree.get id) → pin.exportedName = some name → d.absolute = false →
      pinKey? tree id pin = some (parent, last) → TakenFrom tree (id, name) (parent, last)

/-- An entry leads back to a collision: it comes from a module where a collision is on
    record for the name that it has there. -/
def LeadsBack (tree : ModuleTree) (id : ModuleId) (name : String) (e : Entry) : Prop :=
  ∃ source known, Relation.ReflTransGen (TakenFrom tree) (id, name) (source, known) ∧
    (∃ c ∈ (resolvedAt tree source).collisions, c.name = known) ∧
    ∃ e', (resolvedAt tree source).exports.find? known = some e' ∧ e'.identity = e.identity

theorem LeadsBack.of_step {tree : ModuleTree} {id id' : ModuleId} {name name' : String} {e e' : Entry}
    (hstep : TakenFrom tree (id, name) (id', name')) (hidentity : e.identity = e'.identity)
    (h : LeadsBack tree id' name' e') : LeadsBack tree id name e := by
  obtain ⟨source, known, hway, hcollision, found, hfind, hfound⟩ := h
  exact ⟨source, known, .head hstep hway, hcollision, found, hfind, hfound.trans hidentity.symm⟩

/-- The settlement of a module marks a name because contributions to it disagree, and then
    a collision is on record, or because one of them is marked. -/
theorem leadsBack_of_settled {tree : ModuleTree} {id : ModuleId} {effects : List Effect}
    (hrecord : resolvedAt tree id = record tree id effects)
    (hall : ∀ c ∈ ((ownDraft (tree.get id)).addEffects effects).contributions,
      c.entry.ambiguous = true → LeadsBack tree id c.name c.entry)
    {e : Entry} (he : e ∈ (record tree id effects).exports.entries) (hmarked : e.ambiguous = true) :
    LeadsBack tree id e.symbol.name e := by
  have hfind := Draft.settle_find?_of_mem _ _ he
  rw [Draft.settle_find?] at hfind
  generalize hdraft : (ownDraft (tree.get id)).addEffects effects = draft at hall hfind
  obtain ⟨first, hfirst, -, -, hidentity⟩ := entryOf?_eq_some hfind
  have hamb : isAmbiguous (draft.routes e.symbol.name) = true := by
    rw [isAmbiguous, hfind]
    exact hmarked
  rw [isAmbiguous_eq, Bool.or_eq_true] at hamb
  by_cases hdiffer : differ (winners (draft.routes e.symbol.name)) = true
  · refine ⟨id, e.symbol.name, .refl, ?_, e, ?_, rfl⟩
    · refine ⟨⟨(tree.get id).qualifiedName, e.symbol.name,
        origins (draft.routes e.symbol.name) (tree.get id).directives⟩, ?_, rfl⟩
      rw [hrecord, record, hdraft]
      exact Draft.mem_collisions.2 ⟨hdiffer, rfl, rfl⟩
    · rw [hrecord]
      exact Draft.settle_find?_of_mem _ _ he
  · obtain ⟨c, hc, hcmarked⟩ := List.any_eq_true.1 (hamb.resolve_left hdiffer)
    obtain ⟨hmem, hname⟩ := draft.mem_routes.1 (winners_subset hc)
    have hsame : c.entry.identity = e.identity := by
      rw [hidentity]
      exact differ_eq_false (by simpa using hdiffer) c hc first (List.mem_of_mem_head? hfirst)
    have hback := hall c hmem hcmarked
    rw [hname] at hback
    obtain ⟨source, known, hway, hcollision, found, hfound, heq⟩ := hback
    exact ⟨source, known, hway, hcollision, found, hfound, heq.trans hsame⟩

/-- Marks that lead back to a collision are handed on. -/
theorem ambiguous_handedOn (tree : ModuleTree) :
    HandedOn tree fun id name e => e.ambiguous = true → LeadsBack tree id name e where
  own _ hmarked := by cases hmarked
  pinned hpin hname hrelative hkey hback hmarked :=
    LeadsBack.of_step (.listed hpin hname hrelative hkey) rfl (hback hmarked)
  reference _ _ _ _ hmarked := by cases hmarked
  external _ _ hmarked := by cases hmarked
  wildcard hedge hback hmarked := LeadsBack.of_step (.wildcard hedge) rfl (hback hmarked)
  settled hdone hall e he hmarked := leadsBack_of_settled (resolvedAt_eq hdone) hall he hmarked

/-- An ambiguous name leads back to a collision on record. -/
theorem exists_collision {tree : ModuleTree} (h : tree.WellFormed) {id : ModuleId} {name : String}
    {e : Entry} (he : (resolvedAt tree id).exports.find? name = some e) (hmarked : e.ambiguous = true) :
    ∃ source known c, Relation.ReflTransGen (TakenFrom tree) (id, name) (source, known) ∧
      Collides tree source known c ∧
      ∃ e', (resolvedAt tree source).exports.find? known = some e' ∧ e'.identity = e.identity := by
  have hname : e.symbol.name = name := by simpa using List.find?_some he
  have hback := (ambiguous_handedOn tree).entry (List.mem_of_find?_eq_some he) hmarked
  rw [hname] at hback
  obtain ⟨source, known, hway, ⟨c, hc, rfl⟩, hfound⟩ := hback
  exact ⟨source, c.name, c, hway, collision_known h hc, hfound⟩

/-! ## Main result -/

/-- **Every ambiguity leads back to a collision.** An ambiguous entry of a module comes, by
    wildcards and listed names, from a module where a collision is on record for the name
    that it has there; so does every withheld name. A collision makes its name ambiguous in
    its module, and in every module that hands it on through a wildcard and neither declares
    nor lists the name. -/
theorem ambiguity_traced {tree : ModuleTree} (h : tree.Built) {id : ModuleId} (hid : id < tree.size) :
    (∀ name e, (resolvedAt tree id).exports.find? name = some e → e.ambiguous = true →
      ∃ source known c, Relation.ReflTransGen (TakenFrom tree) (id, name) (source, known) ∧
        Collides tree source known c ∧
        ∃ e', (resolvedAt tree source).exports.find? known = some e' ∧ e'.identity = e.identity) ∧
    (∀ index name, Withholds tree id index name → Ambiguous tree id name) ∧
    ∀ c ∈ (resolvedAt tree id).collisions, Ambiguous tree id c.name ∧
      ∀ user < tree.size, ¬ Declares tree user c.name → ∀ (index : Nat) (d : Directive),
        (tree.get user).directives[index]? = some d → target? tree user d = some id →
        (resolvedAt tree user).plans[index]? ≠ some .cycle → Ambiguous tree user c.name := by
  have hwf := h.wellFormed
  refine ⟨fun name e he hmarked => exists_collision hwf he hmarked, ?_, fun c hc => ?_⟩
  · intro index name hwithholds
    exact ((withholds_iff hwf hid).1 hwithholds).2.2
  · have hamb := ambiguous_of_collision hwf hc
    refine ⟨hamb, fun user huser hdecl index d hd ht hne => ?_⟩
    exact ambiguous_of_wildcard hwf huser hd ht hne hdecl hamb

/-- Modules `a` and `b` declare `f` and collide in `both`. Module `copy` lists that as
    `g`, and `top` passes `copy` on. -/
def feud : ModuleTree :=
  .flat [
    ("a", [⟨"f", .function, "a", 1⟩], []),
    ("b", [⟨"f", .constant, "b", 2⟩], []),
    ("both", [], [.star ["super", "a"], .star ["super", "b"]]),
    ("copy", [], [.list [⟨["super", "both"], "f", some "g"⟩]]),
    ("top", [], [.star ["super", "copy"]])]

theorem ambiguity_traced_feud :
    (resolvedAt feud 5).plans[0]? = some (.replaced [] ["g"]) ∧
    (∃ e, (resolvedAt feud 5).exports.find? "g" = some e ∧ e.ambiguous = true ∧
      ∃ source known c, Relation.ReflTransGen (TakenFrom feud) (5, "g") (source, known) ∧
        Collides feud source known c ∧
        ∃ e', (resolvedAt feud source).exports.find? known = some e' ∧ e'.identity = e.identity) ∧
    ∃ c ∈ (resolvedAt feud 3).collisions, c.name = "f" ∧ Ambiguous feud 3 c.name := by
  have hplan : (resolvedAt feud 5).plans[0]? = some (.replaced [] ["g"]) := by decide +kernel
  have hcollision : (resolvedAt feud 3).collisions.find? (·.name == "f") ≠ none := by decide +kernel
  have h5 := ambiguity_traced (ModuleTree.built_flat _) (show 5 < feud.size by decide +kernel)
  have h3 := ambiguity_traced (ModuleTree.built_flat _) (show 3 < feud.size by decide +kernel)
  obtain ⟨c, hc⟩ := Option.ne_none_iff_exists'.1 hcollision
  have hname : c.name = "f" := by simpa using List.find?_some hc
  obtain ⟨e, he, hmarked⟩ := h5.2.1 0 "g" ⟨[], ["g"], hplan, List.mem_singleton_self _⟩
  refine ⟨hplan, ⟨e, he, hmarked, h5.1 "g" e he hmarked⟩, c, List.mem_of_find?_eq_some hc, hname, ?_⟩
  exact (h3.2.2 c (List.mem_of_find?_eq_some hc)).1

end Resolution

end Reexport
