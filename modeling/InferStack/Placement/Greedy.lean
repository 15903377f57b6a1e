import InferStack.Kit.Supply
import InferStack.Placement.Outcome

/-!
# InferStack.Placement.Greedy

The fit phase finds room wherever there is room.

It goes by the number of GPUs that are large enough, and what is large enough for
a deployment is large enough for all that come later.  So whatever GPUs a
deployment takes, enough are left for the rest (`Enough.take`): the index order,
the best fit and the weight floor all do.
-/

namespace InferStack

open Kit

/-- A GPU with the memory a deployment needs. -/
def roomy (host : Host) (d : Deployment) (i : Nat) : Bool := minVramPerGpu d ≤ host.memory i

/-- The GPUs of the pool that a plan leaves free. -/
def freePool (pool : List Nat) (p : GpuPlan) : List Nat := pool.filter (· ∉ p.assignments.used)

/-! ## the order -/

section Order

variable {host : Host} {pool : List Nat}

/-- Where fewer GPUs are large enough, they are large enough for the other too. -/
theorem roomy_of_le {a b : Deployment}
    (h : (pool.filter (roomy host a)).length ≤ (pool.filter (roomy host b)).length) {i : Nat}
    (hi : i ∈ pool) (ha : roomy host a i = true) : roomy host b i = true := by
  cases le_total (minVramPerGpu b) (minVramPerGpu a) with
  | inl hle =>
      have ha : minVramPerGpu a ≤ host.memory i := of_decide_eq_true ha
      exact decide_eq_true (le_trans hle ha)
  | inr hle =>
      -- then all that is large enough for `b` is for `a`, and there is no less of it
      have hsub : (pool.filter (roomy host b)).Sublist (pool.filter (roomy host a)) := by
        refine List.monotone_filter_right pool fun j hj => ?_
        have hj : minVramPerGpu b ≤ host.memory j := of_decide_eq_true hj
        exact decide_eq_true (le_trans hle hj)
      have hsame := hsub.eq_of_length_le h
      have hmem : i ∈ pool.filter (roomy host b) := hsame ▸ List.mem_filter.mpr ⟨hi, ha⟩
      exact (List.mem_filter.mp hmem).2

theorem eligible_le_of_fitBefore {a b : Deployment} (h : fitBefore host pool a b) :
    (pool.filter (roomy host a)).length ≤ (pool.filter (roomy host b)).length := by
  cases h with
  | inl hlt => exact le_of_lt hlt
  | inr heq => exact le_of_eq heq.1

instance : Std.Total (fitBefore host pool) where
  total a b := by
    have hbefore := Std.Total.total (r := Deployment.before) a b
    unfold fitBefore
    dsimp only
    rcases lt_trichotomy (pool.filter fun i => minVramPerGpu a ≤ host.memory i).length
      (pool.filter fun i => minVramPerGpu b ≤ host.memory i).length with h | h | h
    · exact .inl (.inl h)
    · cases hbefore with
      | inl hab => exact .inl (.inr ⟨h, hab⟩)
      | inr hba => exact .inr (.inr ⟨h.symm, hba⟩)
    · exact .inr (.inl h)

instance : IsTrans Deployment (fitBefore host pool) where
  trans a b c hab hbc := by
    unfold fitBefore at *
    dsimp only at *
    rcases hab with hab | hab <;> rcases hbc with hbc | hbc
    · exact .inl (hab.trans hbc)
    · exact .inl (hbc.1 ▸ hab)
    · exact .inl (hab.1 ▸ hbc)
    · exact .inr ⟨hab.1.trans hbc.1, IsTrans.trans _ _ _ hab.2 hbc.2⟩

theorem nested_fitOrder (ds : List Deployment) {supply : List Nat} (h : ∀ i ∈ supply, i ∈ pool) :
    (fitOrder host pool ds).Pairwise fun d e =>
      ∀ i ∈ supply, roomy host d i = true → roomy host e i = true := by
  have hsorted : (fitOrder host pool ds).Pairwise (fitBefore host pool) :=
    List.pairwise_insertionSort _ _
  exact hsorted.imp fun hbefore i hi hd =>
    roomy_of_le (eligible_le_of_fitBefore hbefore) (h i hi) hd

end Order

/-! ## one deployment -/

section Fit

variable {host : Host} {pool : List Nat} (hpool : pool.Nodup)

/-- Enough free GPUs that are large enough: the fit succeeds. -/
theorem fitIndices_of_roomy {p : GpuPlan} {d : Deployment}
    (h : requiredGpuCount d ≤ ((freePool pool p).filter (roomy host d)).length) :
    ∃ xs, fitIndices host pool p.assignments.used d = .ok xs := by
  have hswap : (freePool pool p).filter (roomy host d) =
      (pool.filter fun i => minVramPerGpu d ≤ host.memory i).filter (· ∉ p.assignments.used) := by
    unfold freePool
    rw [List.filter_comm]
    rfl
  have hfree : requiredGpuCount d ≤ (freePool pool p).length :=
    h.trans (List.filter_sublist.length_le)
  have heligible : requiredGpuCount d ≤
      (pool.filter fun i => minVramPerGpu d ≤ host.memory i).length := by
    rw [hswap] at h
    exact h.trans (List.filter_sublist.length_le)
  rw [hswap] at h
  unfold fitIndices
  dsimp only
  split
  · unfold freePool at hfree
    rw [if_neg (not_lt.mpr hfree)]
    exact ⟨_, rfl⟩
  · rw [if_neg (not_lt.mpr heligible), if_neg (not_lt.mpr h)]
    split
    · exact ⟨_, rfl⟩
    · exact ⟨_, rfl⟩

theorem planFit_of_ok {p : GpuPlan} {d : Deployment} {xs : List Nat}
    (h : fitIndices host pool p.assignments.used d = .ok xs) :
    ∃ hfree, planFit host pool p d = p.place d xs hfree := by
  unfold planFit
  split
  · rename_i hfail
    rw [h] at hfail
    contradiction
  · rename_i ys hok
    have hsame : ys = xs := Except.ok.inj (hok.symm.trans h)
    subst hsame
    exact ⟨fun i hi => (fitIndices_spec h i hi).2, rfl⟩

/-- What is placed is no longer free. -/
theorem freePool_place {p : GpuPlan} {d : Deployment} {xs : List Nat}
    (hblank : p.assignments.get? d.id = none) (hfree : p.assignments.Free xs) :
    freePool pool (p.place d xs hfree) = (freePool pool p).filter (· ∉ xs) := by
  unfold freePool
  rw [List.filter_filter]
  refine List.filter_congr fun i _ => ?_
  have hused : i ∈ (p.place d xs hfree).assignments.used ↔ i ∈ xs ∨ i ∈ p.assignments.used :=
    Holdings.mem_used_grant hfree hblank
  simp [hused]

include hpool

/-- Where there is enough for all that are left, all are fitted. -/
theorem planFit_all {ds : List Deployment} (hnodup : (ds.map Deployment.id).Nodup) {p : GpuPlan}
    (henough : Enough requiredGpuCount (roomy host) (freePool pool p) ds)
    (hblank : ∀ d ∈ ds, p.entry d.id = {}) :
    ∀ d ∈ ds, ∃ xs, (ds.foldl (planFit host pool) p).entry d.id = (PlanOutcome.assigned xs).entry := by
  induction ds generalizing p with
  | nil => simp
  | cons d ds ih =>
      rw [List.map_cons, List.nodup_cons] at hnodup
      obtain ⟨xs, hxs⟩ := fitIndices_of_roomy henough.head
      obtain ⟨hfree, hplace⟩ := planFit_of_ok hxs
      have hnone : p.assignments.get? d.id = none :=
        congrArg PlanEntry.gpus (hblank d List.mem_cons_self)
      have hcount := (fitIndices_ok hpool hxs).1.count
      rw [List.foldl_cons, hplace]
      intro e he
      cases List.mem_cons.mp he with
      | inl heq =>
          subst heq
          refine ⟨xs, ?_⟩
          rw [(planFit_layer host hpool).foldl_other hnodup.1, GpuPlan.entry_place, if_pos rfl,
            hblank e List.mem_cons_self]
          rfl
      | inr hin =>
          refine ih hnodup.2 ?_ (fun f hf => ?_) e hin
          · rw [freePool_place hnone hfree]
            exact henough.take (hpool.filter _) hcount
          · have hne : f.id ≠ d.id := fun heq => hnodup.1 (heq ▸ List.mem_map_of_mem hf)
            rw [GpuPlan.entry_place, if_neg hne]
            exact hblank f (List.mem_cons_of_mem _ hf)

/-- New placements find room for all that are left to the fit. -/
theorem planNew_complete {p : GpuPlan} {ds : List Deployment}
    (hnodup : (ds.map Deployment.id).Nodup) (hblank : ∀ d ∈ ds, p.entry d.id = {})
    {given : Deployment → List Nat}
    (h : Meets requiredGpuCount (roomy host)
      (freePool pool (ds.foldl (planExplicit host pool) p)) (fitOrder host pool ds) given) :
    ∀ d ∈ fitOrder host pool ds,
      ∃ xs, (planNew host pool p ds).entry d.id = (PlanOutcome.assigned xs).entry := by
  have henough := Enough.of_meets h (nested_fitOrder ds fun i hi => (List.mem_filter.mp hi).1)
  refine planFit_all hpool (nodup_fitOrder hnodup) henough fun d hd => ?_
  obtain ⟨hin, hnone⟩ := mem_fitOrder.mp hd
  obtain ⟨o, ho, hentry⟩ := (planExplicit_layer host pool).foldl_own hnodup hin (hblank d hin)
  unfold ExplicitOrFails at ho
  rw [hnone] at ho
  rw [hentry, ho]
  rfl

end Fit

/-! ## the whole plan -/

/-- The plan before the fit phase, and the deployments left to it. -/
def beforeFit (host : Host) (allowedGpus : Option (List Nat)) (pinned : Dict String (List Nat))
    (inputs : Option PlacementInputs) (deployments : List Deployment) :
    GpuPlan × List Deployment :=
  let pool := availableIndices host allowedGpus
  let pinPool := availableIndices host none
  let ordered := sortedDeployments deployments
  match inputs with
  | some inputs =>
      let required := ordered.filter fun d =>
        inputs.hard.get? d.id = none ∧ d.id ∈ inputs.requiredIds
      let p := ordered.foldl (planHard pinPool inputs.hard) {}
      (required.foldl (planExplicit host pool) p, fitOrder host pool required)
  | none =>
      let p := ordered.foldl (planPinned host pinPool pinned) {}
      let deferred := ordered.filter fun d => p.assignments.get? d.id = none
      (deferred.foldl (planExplicit host pool) p, fitOrder host pool deferred)

/-- If some way of giving out free GPUs of the pool meets all that are left to
the fit phase, the plan places them all, without an error for any. -/
theorem planPlacement_complete (host : Host) (allowedGpus : Option (List Nat))
    (pinned : Dict String (List Nat)) (inputs : Option PlacementInputs) (ds : List Deployment)
    (hnodup : (ds.map Deployment.id).Nodup) (given : Deployment → List Nat)
    (h : Meets requiredGpuCount (roomy host) (freePool (availableIndices host allowedGpus)
      (beforeFit host allowedGpus pinned inputs ds).1)
      (beforeFit host allowedGpus pinned inputs ds).2 given) :
    ∀ d ∈ (beforeFit host allowedGpus pinned inputs ds).2,
      ∃ xs, (planPlacement host allowedGpus pinned inputs ds).entry d.id =
        (PlanOutcome.assigned xs).entry := by
  have hpool := nodup_availableIndices host allowedGpus
  have hsorted := nodup_sortedDeployments hnodup
  intro d hd
  cases inputs with
  | none =>
      refine planNew_complete hpool (nodup_ids_filter hsorted _) (fun e he => ?_) h d hd
      obtain ⟨hmem, hnone⟩ := List.mem_filter.mp he
      obtain ⟨o, ho, hentry⟩ := (planPinned_layer host _ pinned).foldl_own hsorted (p := {}) hmem rfl
      have hgpus := (congrArg PlanEntry.gpus hentry).symm.trans (of_decide_eq_true hnone)
      unfold KeepsOn at ho
      have ho' : o = none := by
        cases hpin : pinned.get? e.id with
        | none => rwa [hpin] at ho
        | some want =>
            rw [hpin] at ho
            cases ho with
            | inr hnone => exact hnone
            | inl hkept =>
                rw [hkept.1] at hgpus
                contradiction
      rw [hentry, ho']
      rfl
  | some inputs =>
      have hnew := planNew_complete hpool (nodup_ids_filter hsorted _) (fun e he => ?_) h d hd
      · obtain ⟨xs, hxs⟩ := hnew
        have hreq := (List.mem_filter.mp (mem_fitOrder.mp hd).1)
        have hother := @not_mem_ids_filter _ hsorted d hreq.1
          (fun d => inputs.hard.get? d.id = none ∧ d.id ∉ inputs.requiredIds) (by
            have hin := of_decide_eq_true hreq.2
            simp [hin.2])
        exact ⟨xs, ((planOptional_layer _ inputs.optionalHints).foldl_other hother).trans hxs⟩
      · obtain ⟨hmem, hsel⟩ := List.mem_filter.mp he
        obtain ⟨o, ho, hentry⟩ := (planHard_layer _ inputs.hard).foldl_own hsorted (p := {}) hmem rfl
        have hnone : inputs.hard.get? e.id = none := (of_decide_eq_true hsel).1
        unfold KeepsOn at ho
        rw [hnone] at ho
        rw [hentry, ho]
        rfl

/-- The small model goes first by age, and leaves the large GPU alone. -/
def smallThenLarge : List Deployment :=
  [sizedDeployment "small" 0 8, sizedDeployment "large" 1 40]

theorem planPlacement_complete_mixed :
    (∃ xs, (planPlacement mixedHost none ∅ none smallThenLarge).entry "large" =
      (PlanOutcome.assigned xs).entry) ∧
    ∃ xs, (planPlacement mixedHost none ∅ none smallThenLarge).entry "small" =
      (PlanOutcome.assigned xs).entry := by
  have hleft : (beforeFit mixedHost none ∅ none smallThenLarge).2 =
      [sizedDeployment "large" 1 40, sizedDeployment "small" 0 8] := by decide +kernel
  have hfree : freePool (availableIndices mixedHost none)
      (beforeFit mixedHost none ∅ none smallThenLarge).1 = [1, 0] := by decide +kernel
  have hall := planPlacement_complete mixedHost none ∅ none smallThenLarge (by decide)
    (fun d => if d.id = "large" then [1] else [0])
  rw [hleft, hfree] at hall
  have hplaced := hall ⟨by decide, by decide +kernel, by decide, by decide +kernel, by decide⟩
  exact ⟨hplaced _ (List.mem_cons_self), hplaced _ (List.mem_cons_of_mem _ List.mem_cons_self)⟩

end InferStack
