import Reexport.Proofs.Preservation

/-!
# Resolving again

What a second resolution makes of the directives that the first one left alone. A
wildcard without target, an ambiguous directive or a unit that cannot be scanned
stays what it is, and so does a gap that was taken over from one of these. Only a
wildcard that was found to make a circle may be seen otherwise, because that verdict
rests on which modules were under way. Where wildcards alone lead back, it never
changes.

Results:

* `CarriedOut.reach`: what leads to an incomplete module still does.
* `CarriedOut.from_cycle`: what is replaced in the end goes back to such a verdict.
-/

namespace Reexport

/-- What a resolution reads of a directive, but for texts and lines. -/
def Directive.gist (d : Directive) : Bool × Form Unit := (d.absolute, d.form.map fun _ => ())

namespace Resolution

/-- Plans of the modules in scope were carried out, and nothing else has changed. -/
structure CarriedOut (inScope : ModuleId → Bool) (before after : ModuleTree) : Prop where
  shape : after.SameShape before
  scanFailed : ∀ id, (after.get id).scanFailed = (before.get id).scanFailed
  directives : ∀ id, (after.get id).directives.map (·.gist) =
    (if inScope id then carryOutAll (before.get id).directives (resolvedAt before id).plans
      else (before.get id).directives).map (·.gist)

/-- It is enough to look at the modules of the tree. -/
theorem carriedOut_of_lt {inScope : ModuleId → Bool} {before after : ModuleTree}
    (hsize : after.size = before.size)
    (h : ∀ id < before.size, (after.get id).name = (before.get id).name ∧
      (after.get id).segments = (before.get id).segments ∧
      (after.get id).parent = (before.get id).parent ∧
      (after.get id).children = (before.get id).children ∧
      (after.get id).scanFailed = (before.get id).scanFailed ∧
      (after.get id).directives.map (·.gist) =
        (if inScope id then carryOutAll (before.get id).directives (resolvedAt before id).plans
          else (before.get id).directives).map (·.gist)) :
    CarriedOut inScope before after := by
  have hall : ∀ {α : Type} (f : Module → α),
      (∀ id < before.size, f (after.get id) = f (before.get id)) →
      ∀ id, f (after.get id) = f (before.get id) := by
    intro α f hf (id : Nat)
    by_cases hid : id < before.size
    · exact hf id hid
    · rw [ModuleTree.get_of_size_le (by omega), ModuleTree.get_of_size_le (by omega)]
  refine ⟨⟨hsize, hall (·.name) fun id hid => (h id hid).1,
    hall (·.segments) fun id hid => (h id hid).2.1, hall (·.parent) fun id hid => (h id hid).2.2.1,
    hall (·.children) fun id hid => (h id hid).2.2.2.1⟩,
    hall (·.scanFailed) fun id hid => (h id hid).2.2.2.2.1, fun (id : Nat) => ?_⟩
  by_cases hid : id < before.size
  · exact (h id hid).2.2.2.2.2
  · rw [ModuleTree.get_of_size_le (by omega), ModuleTree.get_of_size_le (by omega)]
    split_ifs <;> rfl

/-! ## Directives of one gist -/

theorem isWildcard_congr {d d' : Directive} (h : d'.gist = d.gist) : d'.isWildcard = d.isWildcard := by
  have hform : d'.form.map (fun _ => ()) = d.form.map fun _ => () := congrArg Prod.snd h
  unfold Directive.isWildcard
  cases hd : d.form <;> cases hd' : d'.form <;> simp_all [Form.map]

theorem explicit_congr {d d' : Directive} (h : d'.gist = d.gist) {pins : List Pin}
    (hform : d'.form = .explicit pins) : d.form = .explicit pins := by
  have hmap : d'.form.map (fun _ => ()) = d.form.map fun _ => () := congrArg Prod.snd h
  cases hd : d.form <;> simp_all [Form.map]

theorem target?_congr {before after : ModuleTree} (hshape : after.SameShape before) (id : ModuleId)
    {d d' : Directive} (h : d'.gist = d.gist) : target? after id d' = target? before id d := by
  have hform : d'.form.map (fun _ => ()) = d.form.map fun _ => () := congrArg Prod.snd h
  have habs : d'.absolute = d.absolute := congrArg Prod.fst h
  unfold target?
  cases hd : d.form <;> cases hd' : d'.form <;> simp_all [Form.map, hshape.resolvePath]

/-- What is still a wildcard after its plan is carried out was not replaced. -/
theorem carryOut_of_isWildcard {d : Directive} {status : Status}
    (h : (carryOut d status).isWildcard = true) : carryOut d status = d ∧ status.isReplaced = false := by
  unfold carryOut at h ⊢
  split
  · rename_i hform
    simp [hform, Directive.isWildcard] at h
  · rename_i hno
    refine ⟨rfl, ?_⟩
    have hwild : d.isWildcard = true := by
      split at h
      · simp [Directive.isWildcard] at h
      · exact h
    unfold Directive.isWildcard at hwild
    cases hform : d.form with
    | wildcard path star =>
      by_contra hrep
      obtain ⟨names, withheld, rfl⟩ := isReplaced_iff.1 (Bool.not_eq_false _ ▸ hrep)
      exact hno path star names withheld hform rfl
    | explicit pins => simp [hform] at hwild
    | ambiguous why => simp [hform] at hwild

/-! ## Verdicts -/

/-- A plan other than a replacement is the effect's own. -/
theorem plan_effect {tree : ModuleTree} (h : tree.WellFormed) {id : ModuleId} (hid : id < tree.size)
    {index : Nat} {status : Status} (hplan : (resolvedAt tree id).plans[index]? = some status)
    (hnot : status.isReplaced = false) :
    ∃ d e, (tree.get id).directives[index]? = some d ∧ EffectOf tree (resolveAll tree) id index d e ∧
      e.plan = status := by
  obtain ⟨effects, heffects, hr⟩ := resolvedAt_record h hid
  rw [hr, record_plans, Option.map_eq_some_iff] at hplan
  obtain ⟨e, he, rfl⟩ := hplan
  obtain ⟨d, hd, heffect⟩ := heffects.of_effect he
  refine ⟨d, e, hd, heffect, ?_⟩
  cases hp : e.plan <;> simp_all [Draft.plan, Status.isReplaced]

theorem Faulty.not_complete {tree : ModuleTree} (h : tree.WellFormed) {id : ModuleId}
    (hid : id < tree.size) (hfault : Faulty tree id) : ¬ Complete tree id := by
  intro hc
  obtain ⟨draft, hdraft⟩ := hc.draft h hid
  rcases hfault with hscan | ⟨status, hmem, hstatus⟩
  · rw [hdraft.scanned] at hscan
    cases hscan
  · obtain ⟨index, hindex⟩ := List.mem_iff_getElem?.1 hmem
    have hnot : status.isReplaced = false := by
      rcases hstatus with ⟨why, rfl⟩ | rfl | rfl <;> rfl
    obtain ⟨d, -, hd, -, -⟩ := plan_effect h hid hindex hnot
    rcases hdraft.plan hd with ⟨pins, names, -, hplan⟩ | ⟨target, -, hplan⟩ <;>
      rw [hindex] at hplan <;> cases hplan <;> simp at hstatus

/-! ## From one tree to the other -/

namespace CarriedOut

variable {inScope : ModuleId → Bool} {before after : ModuleTree} (h : CarriedOut inScope before after)

include h

/-- A directive that is not replaced is still there. -/
theorem kept {id : ModuleId} {index : Nat} {d : Directive}
    (hd : (before.get id).directives[index]? = some d) (hnot : ¬ Replaced before id index) :
    ∃ d', (after.get id).directives[index]? = some d' ∧ d'.gist = d.gist := by
  have hgist : ((after.get id).directives.map (·.gist))[index]? = some d.gist := by
    rw [h.directives id]
    split_ifs
    · rw [List.getElem?_map, carryOutAll, List.getElem?_mapIdx, hd]
      cases hplan : (resolvedAt before id).plans[index]? with
      | none => rfl
      | some status =>
        have hstatus : carryOut d status = d := by
          unfold carryOut
          split
          · exact absurd ⟨_, _, hplan⟩ hnot
          · rfl
        simp [hstatus]
    · rw [List.getElem?_map, hd]
      rfl
  rw [List.getElem?_map, Option.map_eq_some_iff] at hgist
  exact hgist

/-- A wildcard was there before, and it was not replaced. -/
theorem wildcard {id : ModuleId} {index : Nat} {d' : Directive}
    (hd' : (after.get id).directives[index]? = some d') (hwild : d'.isWildcard = true) :
    ∃ d, (before.get id).directives[index]? = some d ∧ d'.gist = d.gist ∧
      (inScope id = true → ¬ Replaced before id index) := by
  have hgist : ((after.get id).directives.map (·.gist))[index]? = some d'.gist := by
    rw [List.getElem?_map, hd']
    rfl
  rw [h.directives id] at hgist
  split_ifs at hgist with hscope
  · rw [List.getElem?_map, carryOutAll, List.getElem?_mapIdx, Option.map_map,
      Option.map_eq_some_iff] at hgist
    obtain ⟨d, hd, hcarried⟩ := hgist
    cases hplan : (resolvedAt before id).plans[index]? with
    | none =>
      refine ⟨d, hd, by simpa [hplan] using hcarried.symm, fun _ hrep => ?_⟩
      obtain ⟨names, withheld, hrep⟩ := hrep
      rw [hplan] at hrep
      cases hrep
    | some status =>
      simp only [Function.comp_apply, hplan, Option.map_some, Option.getD_some] at hcarried
      rw [← isWildcard_congr hcarried] at hwild
      obtain ⟨hsame, hnot⟩ := carryOut_of_isWildcard hwild
      refine ⟨d, hd, by rw [← hcarried, hsame], fun _ hrep => ?_⟩
      obtain ⟨names, withheld, hrep⟩ := hrep
      rw [hplan] at hrep
      cases hrep
      cases hnot
  · rw [List.getElem?_map, Option.map_eq_some_iff] at hgist
    obtain ⟨d, hd, hcarried⟩ := hgist
    exact ⟨d, hd, hcarried.symm, fun hin => absurd hin hscope⟩

theorem lt {id : ModuleId} (hid : id < before.size) : id < after.size := h.shape.size.symm ▸ hid

variable (hwf : before.WellFormed)

include hwf

/-- What leads to an incomplete module still does: no wildcard on the way is
    replaced, because its target is incomplete as well. -/
theorem reach {a b : ModuleId} (ha : a < before.size) (hab : Reach before a b)
    (hb : ¬ Complete before b) : Reach after a b := by
  induction hab using Relation.ReflTransGen.head_induction_on with
  | refl => exact .refl
  | @head a next hedge hrest ih =>
    have hnext := hedge.lt hwf ha
    obtain ⟨d, hd, ht⟩ := hedge
    obtain ⟨index, hindex⟩ := List.mem_iff_getElem?.1 hd
    have hnot : ¬ Replaced before a index := by
      intro hrep
      obtain ⟨target, ht', -, hc⟩ := hrep.target hwf ha hindex
      rw [ht] at ht'
      cases ht'
      exact hb (hc.reach hwf hnext hrest)
    obtain ⟨d', hd', hgist⟩ := h.kept hindex hnot
    have hedge' : Edge after a next :=
      ⟨d', List.mem_of_getElem? hd', by rw [target?_congr h.shape a hgist, ht]⟩
    exact (ih hnext).head hedge'

/-- A wildcard that was found to make a circle, and that is replaced now. Wildcards
    alone never made that circle. -/
theorem not_back {id target : ModuleId} (hid : id < before.size) {index : Nat} {d : Directive}
    (hd : (before.get id).directives[index]? = some d) (ht : target? before id d = some target)
    (hplan : (resolvedAt before id).plans[index]? = some .cycle) (hagain : Replaced after id index) :
    ¬ Reach before target id := by
  intro hback
  have hnot : ¬ Replaced before id index := by
    rintro ⟨names, withheld, hrep⟩
    rw [hplan] at hrep
    cases hrep
  have hfault : Faulty before id := .inr ⟨_, List.mem_of_getElem? hplan, .inr (.inr rfl)⟩
  obtain ⟨d', hd', hgist⟩ := h.kept hd hnot
  have ht' : target? after id d' = some target := by rw [target?_congr h.shape id hgist, ht]
  exact hagain.not_back (h.shape.wellFormed hwf) (h.lt hid) hd' ht'
    (h.reach hwf (target?_lt before hwf hid ht) hback (hfault.not_complete hwf hid))

/-- A fault of a module that is complete now was a wildcard that was found to make a
    circle. Other faults stay. -/
theorem cycle_of_faulty {id : ModuleId} (hid : id < before.size) (hfault : Faulty before id)
    (hc : Complete after id) :
    ∃ index d target, (before.get id).directives[index]? = some d ∧
      target? before id d = some target ∧ (resolvedAt before id).plans[index]? = some .cycle ∧
      Replaced after id index := by
  have hwf' := h.shape.wellFormed hwf
  obtain ⟨draft, hdraft⟩ := hc.draft hwf' (h.lt hid)
  rcases hfault with hscan | ⟨status, hmem, hstatus⟩
  · rw [← h.scanFailed, hdraft.scanned] at hscan
    cases hscan
  · obtain ⟨index, hindex⟩ := List.mem_iff_getElem?.1 hmem
    have hnot : status.isReplaced = false := by
      rcases hstatus with ⟨why, rfl⟩ | rfl | rfl <;> rfl
    obtain ⟨d, e, hd, heffect, rfl⟩ := plan_effect hwf hid hindex hnot
    have hleft : ¬ Replaced before id index := by
      rintro ⟨names, withheld, hrep⟩
      rw [hindex, Option.some.injEq] at hrep
      rw [hrep] at hnot
      cases hnot
    obtain ⟨d', hd', hgist⟩ := h.kept hd hleft
    have htarget := target?_congr h.shape id hgist
    rcases hdraft.plan hd' with ⟨pins, names, hform', -⟩ | ⟨target, ht, hplan⟩
    · -- a list of names has no such verdict
      have hform := explicit_congr hgist hform'
      cases heffect with
      | explicit _ _ _ => simp at hstatus
      | ambiguous hform' => simp [hform] at hform'
      | unresolved hwild _ => simp [Directive.isWildcard, hform] at hwild
      | cycle ht => simp [target?, hform] at ht
      | taken ht _ _ => simp [target?, hform] at ht
    · rw [htarget] at ht
      refine ⟨index, d, target, hd, ht, ?_, _, _, hplan⟩
      rw [hindex]
      cases heffect with
      | explicit hform' _ _ => simp [target?, hform'] at ht
      | ambiguous hform' => simp [target?, hform'] at ht
      | unresolved _ hnone => simp [ht] at hnone
      | cycle _ => rfl
      | @taken other r _ _ _ =>
        rcases hstatus with ⟨why, hwhy⟩ | hun | hcycle
        · unfold takeAll at hwhy
          cases hgaps : r.exports.gaps <;> simp [hgaps] at hwhy
        · unfold takeAll at hun
          cases hgaps : r.exports.gaps <;> simp [hgaps] at hun
        · rw [hcycle]

/-- **What a second resolution can still replace.** If a wildcard that was left alone
    is replaced, so is one that was found to make a circle although wildcards alone
    did not lead back to it. -/
theorem from_cycle {id : ModuleId} (hid : id < before.size) {index : Nat}
    (hleft : ¬ Replaced before id index) (hagain : Replaced after id index) :
    ∃ other j d target, other < before.size ∧ (before.get other).directives[j]? = some d ∧
      target? before other d = some target ∧ (resolvedAt before other).plans[j]? = some .cycle ∧
      ¬ Reach before target other ∧ Replaced after other j := by
  have hwf' := h.shape.wellFormed hwf
  obtain ⟨d', target, hd', ht', hc⟩ := hagain.directive hwf' (h.lt hid)
  have hwild := isWildcard_of_target? after ht'
  obtain ⟨d, hd, hgist, -⟩ := h.wildcard hd' hwild
  have ht : target? before id d = some target := by rw [← target?_congr h.shape id hgist, ht']
  obtain ⟨effects, heffects, hr⟩ := resolvedAt_record hwf hid
  obtain ⟨e, he, heffect⟩ := heffects.of_directive hd
  by_cases hcycle : e.plan = .cycle
  · have hplan : (resolvedAt before id).plans[index]? = some .cycle := by
      rw [hr, record_plans, he, Option.map_some, hcycle]
      rfl
    exact ⟨id, index, d, target, hid, hd, ht, hplan, h.not_back hwf hid hd ht hplan hagain, hagain⟩
  · -- the target was incomplete, so a fault is reached from it, now as before
    rw [replaced_iff_effect hr he, heffect.isReplaced_iff ht hcycle] at hleft
    have htarget := target?_lt before hwf hid ht
    obtain ⟨gap, hgap⟩ := List.exists_mem_of_ne_nil _ (mt complete_iff.2 hleft)
    obtain ⟨other, hreach, hfault⟩ := gap_reaches_fault hwf gap htarget hgap
    have hother := Reach.lt hwf htarget hreach
    have hreach' := h.reach hwf htarget hreach (hfault.not_complete hwf hother)
    obtain ⟨j, d, target', hd, ht, hplan, hrep⟩ := h.cycle_of_faulty hwf hother hfault
      (hc.reach hwf' (h.lt htarget) hreach')
    exact ⟨other, j, d, target', hother, hd, ht, hplan,
      h.not_back hwf hother hd ht hplan hrep, hrep⟩

end CarriedOut

end Resolution

end Reexport
