import InferStack.Kit.Machine
import InferStack.Kit.Ranked
import InferStack.Placement.Outcome

/-!
# InferStack.Placement.Stability

What a plan does not depend on, and what planning again does not move.

* `planPlacement_demand_only` — the order in which deployments are listed, and
  the idle residents among them, never change what demand gets;
* `planPlacement_displaced_iff` — an idle resident yields exactly when its GPUs
  are gone, or held by demand or by an older resident;
* `planPlacement_stable` — GPUs that a plan assigned stay where they are in
  every later plan that carries them, as hard allocations or as soft pins.
-/

namespace InferStack

open Kit

/-! ## the demanded part of a plan -/

/-- Whether demand decides about a deployment. -/
def PlacementInputs.demands (inputs : PlacementInputs) (d : Deployment) : Bool :=
  (inputs.hard.get? d.id).isSome || d.id ∈ inputs.requiredIds

/-- The deployments that `optionalHints` may keep. -/
def PlacementInputs.residents (inputs : PlacementInputs) (ds : List Deployment) :
    List Deployment :=
  (sortedDeployments ds).filter fun d => inputs.hard.get? d.id = none ∧ d.id ∉ inputs.requiredIds

/-- A plan before its optional residents: hard allocations, then new placements. -/
def planDemand (host : Host) (allowedGpus : Option (List Nat)) (inputs : PlacementInputs)
    (ds : List Deployment) : GpuPlan :=
  let ordered := sortedDeployments (ds.filter inputs.demands)
  planNew host (availableIndices host allowedGpus)
    (ordered.foldl (planHard (availableIndices host none) inputs.hard) {})
    (ordered.filter fun d => inputs.hard.get? d.id = none ∧ d.id ∈ inputs.requiredIds)

theorem foldl_planHard_filter {pinPool : List Nat} {inputs : PlacementInputs} {p : GpuPlan}
    (ds : List Deployment) : (ds.filter inputs.demands).foldl (planHard pinPool inputs.hard) p =
      ds.foldl (planHard pinPool inputs.hard) p := by
  induction ds generalizing p with
  | nil => rfl
  | cons d ds ih =>
      rw [List.filter_cons]
      split
      · exact ih
      · rename_i hnot
        have hnone : inputs.hard.get? d.id = none := by
          cases hget : inputs.hard.get? d.id with
          | none => rfl
          | some want => simp [PlacementInputs.demands, hget] at hnot
        have hskip : planHard pinPool inputs.hard p d = p := by simp [planHard, hnone]
        rw [List.foldl_cons, hskip, ih]

/-- A plan in admission mode: the demanded part, then the residents. -/
theorem planPlacement_eq_residents (host : Host) (allowedGpus : Option (List Nat))
    (pinned : Dict String (List Nat)) (inputs : PlacementInputs) (ds : List Deployment) :
    planPlacement host allowedGpus pinned (some inputs) ds =
      (inputs.residents ds).foldl (planOptional (availableIndices host none) inputs.optionalHints)
        (planDemand host allowedGpus inputs ds) := by
  have hsorted : sortedDeployments (ds.filter inputs.demands) =
      (sortedDeployments ds).filter inputs.demands := (filter_insertionSort _ _).symm
  have hrequired : ((sortedDeployments ds).filter inputs.demands).filter (fun d =>
      inputs.hard.get? d.id = none ∧ d.id ∈ inputs.requiredIds) =
      (sortedDeployments ds).filter fun d =>
        inputs.hard.get? d.id = none ∧ d.id ∈ inputs.requiredIds := by
    rw [List.filter_filter]
    refine List.filter_congr fun d _ => ?_
    by_cases hin : d.id ∈ inputs.requiredIds <;> simp [PlacementInputs.demands, hin]
  unfold planPlacement planDemand PlacementInputs.residents
  dsimp only
  rw [hsorted, hrequired, foldl_planHard_filter]

/-! ## the residents -/

theorem planOptional_errors {pool : List Nat} {hints : Dict String (List Nat)} {p : GpuPlan}
    (ds : List Deployment) : (ds.foldl (planOptional pool hints) p).errors = p.errors ∧
      (ds.foldl (planOptional pool hints) p).warnings = p.warnings := by
  induction ds generalizing p with
  | nil => exact ⟨rfl, rfl⟩
  | cons d ds ih =>
      have hstep : (planOptional pool hints p d).errors = p.errors ∧
          (planOptional pool hints p d).warnings = p.warnings := by
        unfold planOptional
        cases hints.get? d.id with
        | none => exact ⟨rfl, rfl⟩
        | some want =>
            dsimp only
            split <;> exact ⟨rfl, rfl⟩
      rw [List.foldl_cons]
      exact ⟨ih.1.trans hstep.1, ih.2.trans hstep.2⟩

theorem not_demands_of_resident {inputs : PlacementInputs} {ds : List Deployment} {d : Deployment}
    (hd : d ∈ inputs.residents ds) : d ∈ ds ∧ inputs.demands d = false := by
  obtain ⟨hin, hsel⟩ := List.mem_filter.mp hd
  simp only [decide_eq_true_eq] at hsel
  exact ⟨mem_sortedDeployments.mp hin, by simp [PlacementInputs.demands, hsel.1, hsel.2]⟩

theorem not_mem_residents {inputs : PlacementInputs} {ds : List Deployment} {d : Deployment}
    (hd : inputs.demands d = true) : d.id ∉ (inputs.residents ds).map Deployment.id := by
  intro hmem
  obtain ⟨e, he, hid⟩ := List.mem_map.mp hmem
  have hnot := (not_demands_of_resident he).2
  unfold PlacementInputs.demands at hd hnot
  rw [hid, hd] at hnot
  contradiction

/-! ## the order of the list -/

/-- Of deployments with distinct ids, one comes before another, or is it. -/
theorem eq_of_before {ds : List Deployment} (hnodup : (ds.map Deployment.id).Nodup)
    {a b : Deployment} (ha : a ∈ ds) (hb : b ∈ ds) (hab : a.before b) (hba : b.before a) :
    a = b := by
  have hid : a.id = b.id := by
    unfold Deployment.before at hab hba
    cases hab with
    | inl hlt => omega
    | inr heq =>
        cases hba with
        | inl hlt => omega
        | inr heq' => exact le_antisymm heq.2 heq'.2
  exact List.inj_on_of_nodup_map hnodup ha hb hid

theorem sortedDeployments_perm {ds ds' : List Deployment} (hnodup : (ds.map Deployment.id).Nodup)
    (h : ds'.Perm ds) : sortedDeployments ds' = sortedDeployments ds := by
  have hperm : (sortedDeployments ds').Perm (sortedDeployments ds) :=
    (List.perm_insertionSort _ _).trans (h.trans (List.perm_insertionSort _ _).symm)
  refine List.Perm.eq_of_pairwise (fun a b ha hb hab hba => ?_) (pairwise_sortedDeployments ds')
    (pairwise_sortedDeployments ds) hperm
  have ha' : a ∈ ds := h.mem_iff.mp (mem_sortedDeployments.mp ha)
  exact eq_of_before hnodup ha' (mem_sortedDeployments.mp hb) hab hba

/-- Demand decides for itself.  Two lists of deployments with the same demanded
part, in any order and with any idle residents and hints besides, are planned to
the same errors, warnings and degraded allocations, and every demanded
deployment gets the same GPUs. -/
theorem planPlacement_demand_only (host : Host) (allowedGpus : Option (List Nat))
    (pinned pinned' : Dict String (List Nat)) (inputs : PlacementInputs)
    (hints : Dict String (List Nat)) {ds ds' : List Deployment}
    (hnodup : (ds.map Deployment.id).Nodup)
    (hdemand : (ds'.filter inputs.demands).Perm (ds.filter inputs.demands)) :
    let plan := planPlacement host allowedGpus pinned (some inputs) ds
    let plan' := planPlacement host allowedGpus pinned'
      (some { inputs with optionalHints := hints }) ds'
    plan'.errors = plan.errors ∧ plan'.warnings = plan.warnings ∧
      plan'.degraded = plan.degraded ∧
      ∀ d ∈ ds, inputs.demands d = true →
        plan'.assignments.get? d.id = plan.assignments.get? d.id := by
  have hsame : planDemand host allowedGpus { inputs with optionalHints := hints } ds' =
      planDemand host allowedGpus inputs ds := by
    have hsorted := sortedDeployments_perm (nodup_ids_filter hnodup inputs.demands) hdemand
    change planDemand host allowedGpus inputs ds' = planDemand host allowedGpus inputs ds
    unfold planDemand
    rw [hsorted]
  dsimp only
  rw [planPlacement_eq_residents, planPlacement_eq_residents, hsame]
  dsimp only
  refine ⟨?_, ?_, ?_, fun d hd hdemanded => ?_⟩
  · rw [(planOptional_errors _).1, (planOptional_errors _).1]
  · rw [(planOptional_errors _).2, (planOptional_errors _).2]
  · rw [planOptional_step.foldl_degraded, planOptional_step.foldl_degraded]
  · have hother : d.id ∉ (inputs.residents ds).map Deployment.id := not_mem_residents hdemanded
    have hother' : d.id ∉
        (PlacementInputs.residents { inputs with optionalHints := hints } ds').map Deployment.id :=
      not_mem_residents hdemanded
    rw [planOptional_step.foldl_other hother, planOptional_step.foldl_other hother']

theorem planPlacement_demand_only_mixed :
    (planPlacement mixedHost none ∅
      (some { requiredIds := ["b"], optionalHints := Table.ofList [("w", [1])] })
      [sizedDeployment "w" 0 40, sizedDeployment "b" 1 40]).assignments.get? "b" =
    (planPlacement mixedHost none ∅ (some { requiredIds := ["b"] })
      [sizedDeployment "b" 1 40]).assignments.get? "b" :=
  (@planPlacement_demand_only mixedHost none ∅ ∅ { requiredIds := ["b"] }
    (Table.ofList [("w", [1])]) [sizedDeployment "b" 1 40]
    [sizedDeployment "w" 0 40, sizedDeployment "b" 1 40] (by decide)
    (by decide)).2.2.2 (sizedDeployment "b" 1 40) (by simp) (by decide)

/-! ## who yields -/

/-- Nothing is said of a deployment that demand does not ask for. -/
theorem planDemand_entry_other {host : Host} {allowedGpus : Option (List Nat)}
    {inputs : PlacementInputs} {ds : List Deployment} {g : String}
    (hg : g ∉ (ds.filter inputs.demands).map Deployment.id) :
    (planDemand host allowedGpus inputs ds).entry g = {} := by
  have hsorted : g ∉ (sortedDeployments (ds.filter inputs.demands)).map Deployment.id := by
    intro hmem
    obtain ⟨e, he, rfl⟩ := List.mem_map.mp hmem
    exact hg (List.mem_map_of_mem (mem_sortedDeployments.mp he))
  have hrequired : g ∉ ((sortedDeployments (ds.filter inputs.demands)).filter fun d =>
      inputs.hard.get? d.id = none ∧ d.id ∈ inputs.requiredIds).map Deployment.id :=
    fun hmem => hsorted ((List.filter_sublist.map Deployment.id).subset hmem)
  unfold planDemand
  exact (planNew_entry_other (nodup_availableIndices host allowedGpus) hrequired).trans
    ((planHard_layer _ _).foldl_other hsorted)

theorem planTask_eq_optional {inputs : PlacementInputs} {d : Deployment} {want : List Nat}
    (h : planTask (some inputs) d = .optional want) :
    inputs.hard.get? d.id = none ∧ d.id ∉ inputs.requiredIds ∧
      inputs.optionalHints.get? d.id = some want := by
  unfold planTask at h
  dsimp only at h
  cases hhard : inputs.hard.get? d.id with
  | some xs => simp [hhard] at h
  | none =>
      by_cases hrequired : d.id ∈ inputs.requiredIds
      · simp [hhard, hrequired] at h
      · cases hhint : inputs.optionalHints.get? d.id with
        | none => simp [hhard, hrequired, hhint] at h
        | some xs =>
            rw [hhard] at h
            simp only [if_neg hrequired, hhint] at h
            cases h
            exact ⟨rfl, hrequired, rfl⟩

/-- On its turn a resident stays, or yields. -/
theorem planOptional_own {pool : List Nat} {hints : Dict String (List Nat)} {p : GpuPlan}
    {d : Deployment} {want : List Nat} (hhint : hints.get? d.id = some want)
    (hblank : p.entry d.id = {}) :
    (((∀ i ∈ want, i ∈ pool) ∧ p.assignments.Free want) ∧
        (planOptional pool hints p d).entry d.id = { gpus := some want }) ∨
      (¬ ((∀ i ∈ want, i ∈ pool) ∧ p.assignments.Free want) ∧
        (planOptional pool hints p d).entry d.id = { displaced := 1 }) := by
  unfold planOptional
  rw [hhint]
  dsimp only
  by_cases hvalid : (∀ i ∈ want, i ∈ pool) ∧ p.assignments.Free want
  · rw [dif_pos hvalid, GpuPlan.entry_place, if_pos rfl, hblank]
    exact .inl ⟨hvalid, rfl⟩
  · rw [dif_neg hvalid, GpuPlan.entry_displace, if_pos rfl, hblank]
    exact .inr ⟨hvalid, rfl⟩

/-- What is used once the residents `pre` had their turn is held by one of them,
or by demand. -/
theorem holder_of_used {host : Host} {allowedGpus : Option (List Nat)} {inputs : PlacementInputs}
    {ds pre : List Deployment} {i : Nat}
    (h : i ∈ (pre.foldl (planOptional (availableIndices host none) inputs.optionalHints)
      (planDemand host allowedGpus inputs ds)).assignments.used) :
    ∃ e xs, (e ∈ pre ∨ (e ∈ ds ∧ inputs.demands e = true)) ∧ i ∈ xs ∧
      (pre.foldl (planOptional (availableIndices host none) inputs.optionalHints)
        (planDemand host allowedGpus inputs ds)).assignments.get? e.id = some xs := by
  obtain ⟨g, xs, hxs, hix⟩ := Holdings.mem_used.mp h
  by_cases hinpre : g ∈ pre.map Deployment.id
  · obtain ⟨e, he, rfl⟩ := List.mem_map.mp hinpre
    exact ⟨e, xs, .inl he, hix, hxs⟩
  · have hdemanded : g ∈ (ds.filter inputs.demands).map Deployment.id := by
      by_contra hnot
      have hentry := congrArg PlanEntry.gpus
        (@planDemand_entry_other host allowedGpus inputs ds g hnot)
      rw [planOptional_step.foldl_other hinpre] at hxs
      exact absurd (hxs.symm.trans hentry) (by simp)
    obtain ⟨e, he, rfl⟩ := List.mem_map.mp hdemanded
    obtain ⟨hein, hedem⟩ := List.mem_filter.mp he
    exact ⟨e, xs, .inr ⟨hein, hedem⟩, hix, hxs⟩

/-- An idle resident yields exactly when one of its GPUs is gone, or is held by
a demanded deployment or by an older resident. -/
theorem planPlacement_displaced_iff (host : Host) (allowedGpus : Option (List Nat))
    (pinned : Dict String (List Nat)) (inputs : PlacementInputs) {ds : List Deployment}
    (hnodup : (ds.map Deployment.id).Nodup) {d : Deployment} (hd : d ∈ ds) {want : List Nat}
    (htask : planTask (some inputs) d = .optional want) :
    let plan := planPlacement host allowedGpus pinned (some inputs) ds
    d.id ∈ plan.displaced ↔ (∃ i ∈ want, i ∉ availableIndices host none) ∨
      ∃ e ∈ ds, e.id ≠ d.id ∧ (inputs.demands e = true ∨ e.before d) ∧
        ∃ xs, plan.assignments.get? e.id = some xs ∧ ∃ i ∈ want, i ∈ xs := by
  obtain ⟨hhard, hrequired, hhint⟩ := planTask_eq_optional htask
  have hresident : d ∈ inputs.residents ds :=
    List.mem_filter.mpr ⟨mem_sortedDeployments.mpr hd, by simp [hhard, hrequired]⟩
  obtain ⟨pre, post, hsplit⟩ := List.append_of_mem hresident
  have hids : ((inputs.residents ds).map Deployment.id).Nodup :=
    nodup_ids_filter (nodup_sortedDeployments hnodup) _
  have hordered : (inputs.residents ds).Pairwise Deployment.before :=
    (pairwise_sortedDeployments ds).filter _
  rw [hsplit, List.map_append, List.map_cons] at hids
  rw [hsplit] at hordered
  have hpre : d.id ∉ pre.map Deployment.id :=
    fun hin => (List.nodup_append.mp hids).2.2 _ hin _ List.mem_cons_self rfl
  have hpost : d.id ∉ post.map Deployment.id :=
    (List.nodup_cons.mp (List.nodup_append.mp hids).2.1).1
  have hlayer := planOptional_layer (availableIndices host none) inputs.optionalHints
  dsimp only
  rw [planPlacement_eq_residents, hsplit, List.foldl_append, List.foldl_cons]
  generalize hp : pre.foldl (planOptional (availableIndices host none) inputs.optionalHints)
    (planDemand host allowedGpus inputs ds) = p
  -- nothing was said of the resident before its turn
  have hblank : p.entry d.id = {} := by
    rw [← hp, hlayer.foldl_other hpre]
    refine planDemand_entry_other fun hmem => ?_
    obtain ⟨e, he, hid⟩ := List.mem_map.mp hmem
    have hdemanded := (List.mem_filter.mp he).2
    simp [PlacementInputs.demands, hid, hhard, hrequired] at hdemanded
  have hown : ∀ q : GpuPlan, (post.foldl (planOptional (availableIndices host none)
      inputs.optionalHints) q).entry d.id = q.entry d.id := fun q => hlayer.foldl_other hpost
  have hdisplaced : ∀ q : GpuPlan, d.id ∈ q.displaced ↔ (q.entry d.id).displaced ≠ 0 := by
    intro q
    show _ ↔ q.displaced.count d.id ≠ 0
    rw [Ne, List.count_eq_zero, not_not]
  rw [hdisplaced]
  cases planOptional_own hhint hblank with
  | inl hstays =>
      -- it stays, so it shares no GPU with another
      obtain ⟨hvalid, hentry⟩ := hstays
      have hlast := (hown _).trans hentry
      rw [hlast]
      refine iff_of_false (by simp) fun hwhy => ?_
      cases hwhy with
      | inl hgone =>
          obtain ⟨i, hi, hout⟩ := hgone
          exact hout (hvalid.1 i hi)
      | inr hshared =>
          obtain ⟨e, -, hne, -, xs, hxs, i, hi, hix⟩ := hshared
          exact Holdings.disjoint (congrArg PlanEntry.gpus hlast) hxs (Ne.symm hne) hi hix
  | inr hyields =>
      -- it yields, to whoever holds one of its GPUs by now
      obtain ⟨hinvalid, hentry⟩ := hyields
      rw [(hown _).trans hentry]
      refine iff_of_true (by simp) ?_
      by_cases hpool : ∀ i ∈ want, i ∈ availableIndices host none
      · right
        have hused : ∃ i ∈ want, i ∈ p.assignments.used := by
          have hnotfree : ¬ p.assignments.Free want := fun hfree => hinvalid ⟨hpool, hfree⟩
          simpa [Holdings.Free] using hnotfree
        obtain ⟨i, hi, hiused⟩ := hused
        obtain ⟨e, xs, hwho, hix, hxs⟩ := holder_of_used (hp ▸ hiused)
        rw [hp] at hxs
        have hne : e.id ≠ d.id := by
          intro heq
          rw [heq] at hxs
          exact absurd (hxs.symm.trans (congrArg PlanEntry.gpus hblank)) (by simp)
        have hlater : e.id ∉ post.map Deployment.id → (post.foldl
            (planOptional (availableIndices host none) inputs.optionalHints)
            (planOptional (availableIndices host none) inputs.optionalHints p d)).assignments.get?
              e.id = some xs := fun hnot =>
          (planOptional_step.foldl_other hnot).trans
            ((planOptional_step.other p d e.id hne).trans hxs)
        cases hwho with
        | inl hearlier =>
            have hein : e ∈ inputs.residents ds := hsplit ▸ List.mem_append_left _ hearlier
            have hbefore : e.before d :=
              (List.pairwise_append.mp hordered).2.2 e hearlier d List.mem_cons_self
            have hnot : e.id ∉ post.map Deployment.id := fun hin =>
              (List.nodup_append.mp hids).2.2 _ (List.mem_map_of_mem hearlier) _
                (List.mem_cons_of_mem _ hin) rfl
            exact ⟨e, (not_demands_of_resident hein).1, hne, .inr hbefore, xs, hlater hnot, i, hi,
              hix⟩
        | inr hdemanded =>
            have hnot : e.id ∉ post.map Deployment.id := by
              intro hin
              have hout : e.id ∉ (inputs.residents ds).map Deployment.id :=
                not_mem_residents hdemanded.2
              rw [hsplit, List.map_append, List.map_cons] at hout
              refine hout ?_
              exact List.mem_append_right _ (List.mem_cons_of_mem _ hin)
            exact ⟨e, hdemanded.1, hne, .inl hdemanded.2, xs, hlater hnot, i, hi, hix⟩
      · left
        simpa using hpool

/-- An idle resident on the GPU that a newer model needs. -/
theorem planPlacement_displaced_mixed :
    "w" ∈ (planPlacement mixedHost none ∅
      (some { requiredIds := ["b"], optionalHints := Table.ofList [("w", [1])] })
      [sizedDeployment "w" 0 40, sizedDeployment "b" 1 40]).displaced :=
  (@planPlacement_displaced_iff mixedHost none ∅
    { requiredIds := ["b"], optionalHints := Table.ofList [("w", [1])] }
    [sizedDeployment "w" 0 40, sizedDeployment "b" 1 40] (by decide)
    (sizedDeployment "w" 0 40) (by simp) [1] (by decide)).mpr
    (.inr ⟨sizedDeployment "b" 1 40, by simp, by decide, .inl (by decide), [1], by decide +kernel, 1,
      by simp, by simp⟩)

/-! ## planning again -/

theorem planPinned_step {host : Host} {pinPool : List Nat} {pinned : Dict String (List Nat)} :
    PlanStep pinPool (planPinned host pinPool pinned) := by
  refine .of_place fun p d => ?_
  unfold planPinned
  cases pinned.get? d.id with
  | none => exact ⟨rfl, .inl rfl⟩
  | some want =>
      dsimp only
      by_cases hvalid : (∀ i ∈ want, i ∈ pinPool) ∧ p.assignments.Free want
      · rw [dif_pos hvalid]
        exact ⟨by simp [GpuPlan.place], .inr ⟨want, hvalid.2, hvalid.1, by simp⟩⟩
      · rw [dif_neg hvalid]
        exact ⟨rfl, .inl rfl⟩

/-- Every GPU a plan assigns is one of the host's that may be used. -/
theorem planPlacement_pool (host : Host) (allowedGpus : Option (List Nat))
    (pinned : Dict String (List Nat)) (inputs : Option PlacementInputs) {ds : List Deployment}
    (hnodup : (ds.map Deployment.id).Nodup) {g : String} {xs : List Nat}
    (h : (planPlacement host allowedGpus pinned inputs ds).assignments.get? g = some xs) :
    ∀ i ∈ xs, i ∈ availableIndices host none := by
  cases inputs with
  | some inputs => exact (planPlacement_admission host allowedGpus pinned inputs hnodup).pool g xs h
  | none =>
      unfold planPlacement at h
      exact planNew_pool (fun i hi => mem_availableIndices_none hi)
        (planPinned_step.foldl_pool (by simp)) g xs h

/-- Soft pins that no two deployments share are all honoured. -/
theorem foldl_planPinned_keeps {host : Host} {pool : List Nat} {pins : Dict String (List Nat)}
    {h : Holdings String Nat}
    (hpins : ∀ g xs, pins.get? g = some xs → h.get? g = some xs ∧ ∀ i ∈ xs, i ∈ pool)
    {ds : List Deployment} (hnodup : (ds.map Deployment.id).Nodup) {p : GpuPlan}
    (hp : ∀ g xs, p.assignments.get? g = some xs →
      h.get? g = some xs ∧ g ∉ ds.map Deployment.id) :
    ∀ d ∈ ds, ∀ xs, pins.get? d.id = some xs →
      (ds.foldl (planPinned host pool pins) p).assignments.get? d.id = some xs := by
  induction ds generalizing p with
  | nil => simp
  | cons e ds ih =>
      rw [List.map_cons, List.nodup_cons] at hnodup
      rw [List.foldl_cons]
      have hother : ∀ q : GpuPlan,
          (ds.foldl (planPinned host pool pins) q).entry e.id = q.entry e.id :=
        fun q => (planPinned_layer host pool pins).foldl_other hnodup.1
      cases hpin : pins.get? e.id with
      | none =>
          have hskip : planPinned host pool pins p e = p := by simp [planPinned, hpin]
          rw [hskip]
          intro d hd xs hxs
          cases List.mem_cons.mp hd with
          | inl heq =>
              rw [heq, hpin] at hxs
              contradiction
          | inr hin =>
              exact ih hnodup.2 (fun g ys hg => ⟨(hp g ys hg).1, fun hin =>
                (hp g ys hg).2 (List.mem_cons_of_mem _ hin)⟩) d hin xs hxs
      | some want =>
          obtain ⟨hheld, hpool⟩ := hpins e.id want hpin
          have hfree : p.assignments.Free want := by
            intro i hi hused
            obtain ⟨g, ys, hg, hiy⟩ := Holdings.mem_used.mp hused
            obtain ⟨hgheld, hgnot⟩ := hp g ys hg
            have hne : g ≠ e.id := fun heq => hgnot (heq ▸ List.mem_cons_self)
            exact Holdings.disjoint hgheld hheld hne hiy hi
          have hstep : (planPinned host pool pins p e).assignments =
              (p.place e want hfree).assignments := by
            unfold planPinned
            rw [hpin]
            dsimp only
            rw [dif_pos ⟨hpool, hfree⟩, GpuPlan.assignments_warn]
          intro d hd xs hxs
          cases List.mem_cons.mp hd with
          | inl heq =>
              rw [heq, hpin] at hxs
              rw [heq, ← hxs]
              have hown := congrArg PlanEntry.gpus (hother (planPinned host pool pins p e))
              refine hown.trans ?_
              show (planPinned host pool pins p e).assignments.get? e.id = some want
              rw [hstep, GpuPlan.get?_place, if_pos rfl]
          | inr hin =>
              refine ih hnodup.2 (fun g ys hg => ?_) d hin xs hxs
              rw [hstep, GpuPlan.get?_place] at hg
              by_cases hge : g = e.id
              · rw [if_pos hge] at hg
                rw [hge, ← hg]
                exact ⟨hheld, hnodup.1⟩
              · rw [if_neg hge] at hg
                exact ⟨(hp g ys hg).1, fun hin' => (hp g ys hg).2 (List.mem_cons_of_mem _ hin')⟩

/-- A later round of planning on the same host. -/
structure Replan where
  allowedGpus : Option (List Nat) := none
  pinned : Dict String (List Nat) := ∅
  inputs : Option PlacementInputs := none
  deployments : List Deployment := []

namespace Replan

/-- What a round takes over: its hard allocations, or its soft pins without inputs. -/
def carried (r : Replan) : Dict String (List Nat) := (r.inputs.map PlacementInputs.hard).getD r.pinned

def plan (host : Host) (r : Replan) : GpuPlan :=
  planPlacement host r.allowedGpus r.pinned r.inputs r.deployments

/-- A round that takes over nothing but assignments of the plan before it. -/
structure Follows (p : GpuPlan) (r : Replan) : Prop where
  nodup : (r.deployments.map Deployment.id).Nodup
  carried : ∀ g xs, r.carried.get? g = some xs → p.assignments.get? g = some xs

end Replan

/-- The plan of one round after that of another. -/
def replan (host : Host) (_ : GpuPlan) (r : Replan) : GpuPlan := r.plan host

/-- A round keeps what it takes over, whatever else it plans. -/
theorem Replan.Follows.keeps {host : Host} {p : GpuPlan} {r : Replan} (h : r.Follows p)
    (hpool : ∀ g xs, p.assignments.get? g = some xs → ∀ i ∈ xs, i ∈ availableIndices host none) :
    (r.plan host).degraded = [] ∧ ∀ d ∈ r.deployments, ∀ xs, r.carried.get? d.id = some xs →
      (r.plan host).assignments.get? d.id = some xs := by
  obtain ⟨allowedGpus, pinned, inputs, ds⟩ := r
  have hnodup : (ds.map Deployment.id).Nodup := h.nodup
  cases inputs with
  | some inputs =>
      have hcarried : ∀ g xs, inputs.hard.get? g = some xs → p.assignments.get? g = some xs :=
        h.carried
      have hadmitted := planPlacement_admission host allowedGpus pinned inputs hnodup
      have hdegraded : (planPlacement host allowedGpus pinned (some inputs) ds).degraded = [] := by
        refine List.eq_nil_iff_forall_not_mem.mpr fun g hg => ?_
        obtain ⟨d, -, rfl, want, hwant, hwhy⟩ := hadmitted.degraded g hg
        have hheld := hcarried d.id want hwant
        cases hwhy with
        | inl hgone =>
            obtain ⟨i, hi, hout⟩ := hgone
            exact hout (hpool d.id want hheld i hi)
        | inr hshared =>
            obtain ⟨e, -, -, hne, xs, hxs, i, hi, hix⟩ := hshared
            exact Holdings.disjoint hheld (hcarried e.id xs hxs) (Ne.symm hne) hi hix
      refine ⟨hdegraded, fun d hd xs hxs => ?_⟩
      cases hadmitted.kept d hd xs hxs with
      | inl hkept => exact hkept
      | inr hlost =>
          rw [hdegraded] at hlost
          contradiction
  | none =>
      have hcarried : ∀ g xs, pinned.get? g = some xs → p.assignments.get? g = some xs := h.carried
      have hsorted := nodup_sortedDeployments hnodup
      have hfits : ∀ g xs, pinned.get? g = some xs →
          p.assignments.get? g = some xs ∧ ∀ i ∈ xs, i ∈ availableIndices host none :=
        fun g xs hxs => ⟨hcarried g xs hxs, hpool g xs (hcarried g xs hxs)⟩
      have hpins := @foldl_planPinned_keeps host _ _ _ hfits _ hsorted {} (by simp)
      have hplan : Replan.plan host ⟨allowedGpus, pinned, none, ds⟩ =
          planNew host (availableIndices host allowedGpus)
            ((sortedDeployments ds).foldl (planPinned host (availableIndices host none) pinned) {})
            ((sortedDeployments ds).filter fun d => ((sortedDeployments ds).foldl
              (planPinned host (availableIndices host none) pinned) {}).assignments.get? d.id =
                none) := rfl
      rw [hplan]
      constructor
      · rw [planNew_degraded, planPinned_step.foldl_degraded]
      · intro d hd xs hxs
        have hmem := mem_sortedDeployments.mpr hd
        have hkept := hpins d hmem xs hxs
        rw [planNew_other (not_mem_ids_filter hsorted hmem (by simp [hkept]))]
        exact hkept

/-- Planning again moves nothing.  Over any rounds of planning, each of which
takes over only what the plan before it assigned, no allocation is degraded, and
a deployment that every round takes over keeps the GPUs it had. -/
theorem replan_keeps (host : Host) (first : Replan)
    (hfirst : (first.deployments.map Deployment.id).Nodup) (rounds : List Replan)
    (h : AllSteps (replan host) (fun p r => r.Follows p) (first.plan host) rounds) :
    (rounds ≠ [] → (run (replan host) (first.plan host) rounds).degraded = []) ∧
      ∀ g, (∀ r ∈ rounds, g ∈ r.deployments.map Deployment.id ∧ (r.carried.get? g).isSome) →
        (run (replan host) (first.plan host) rounds).assignments.get? g =
          (first.plan host).assignments.get? g := by
  induction rounds generalizing first with
  | nil => exact ⟨fun hne => absurd rfl hne, fun g _ => rfl⟩
  | cons r rounds ih =>
      have hfollows : r.Follows (first.plan host) := h.1
      have hpool : ∀ g xs, (first.plan host).assignments.get? g = some xs →
          ∀ i ∈ xs, i ∈ availableIndices host none := fun g xs hg =>
        planPlacement_pool host first.allowedGpus first.pinned first.inputs hfirst hg
      obtain ⟨hdegraded, hkept⟩ := hfollows.keeps hpool
      obtain ⟨hrest, hsame⟩ := ih r hfollows.nodup h.2
      constructor
      · intro _
        cases rounds with
        | nil => exact hdegraded
        | cons r' rounds => exact hrest (by simp)
      · intro g hcarried
        obtain ⟨hmem, hsome⟩ := hcarried r List.mem_cons_self
        obtain ⟨d, hd, rfl⟩ := List.mem_map.mp hmem
        obtain ⟨xs, hxs⟩ := Option.isSome_iff_exists.mp hsome
        rw [run_cons]
        refine (hsame d.id fun r' hr' => hcarried r' (List.mem_cons_of_mem _ hr')).trans ?_
        exact (hkept d hd xs hxs).trans (hfollows.carried d.id xs hxs).symm

/-- A model is placed, then carried by a round that places another. -/
theorem replan_keeps_mixed :
    (run (replan mixedHost) (Replan.plan mixedHost
        { deployments := [sizedDeployment "a" 0 40] })
      [{ inputs := some { requiredIds := ["b"], hard := Table.ofList [("a", [1])] },
         deployments := [sizedDeployment "b" 1 8, sizedDeployment "a" 0 40] }]).assignments.get? "a" =
      (Replan.plan mixedHost { deployments := [sizedDeployment "a" 0 40] }).assignments.get? "a" := by
  have hplaced : (Replan.plan mixedHost
      { deployments := [sizedDeployment "a" 0 40] }).assignments.get? "a" = some [1] := by
    decide +kernel
  refine (replan_keeps mixedHost { deployments := [sizedDeployment "a" 0 40] } (by decide)
    [{ inputs := some { requiredIds := ["b"], hard := Table.ofList [("a", [1])] },
       deployments := [sizedDeployment "b" 1 8, sizedDeployment "a" 0 40] }]
    ⟨⟨by decide, fun g xs hg => ?_⟩, trivial⟩).2 "a" (by simp; decide)
  have hrow : (g, xs) ∈ (Table.ofList [("a", [1])] : Dict String (List Nat)) :=
    Dict.get?_eq_some.mp hg
  obtain ⟨rfl, rfl⟩ := Prod.mk.inj (List.mem_singleton.mp (Table.mem_of_mem_ofList hrow))
  exact hplaced

end InferStack
