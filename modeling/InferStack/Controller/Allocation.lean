import InferStack.Admission.View
import InferStack.Controller.Scheme
import InferStack.Ledger.Overlay

/-!
# InferStack.Controller.Allocation

Committed GPU claims along the runs of the controller.

* `Granted` — LIVE deployments hold GPUs of the inventory, no two of them one;
* `KeepsPlaced` — an acquire that commits leaves every LIVE deployment its GPUs,
  and so does every plan of the ledger it leaves;
* `RevivesApart` — no deployment is revived on GPUs of a resident container that
  a LIVE deployment created after it has been given;
* `granted_run` — the first two along every run of the third.
-/

namespace InferStack

open Kit

variable {π δ φ : Type}

/-! ## the invariant -/

/-- What the LIVE deployments hold.  No other deployment holds anything. -/
structure Granted (host : Host) (s : Store π δ) : Prop where
  placed : ∀ d ∈ s.deployments, d.state = .live → ∃ gpus, d.assignedGpus = some gpus ∧
    ∀ i ∈ gpus, i ∈ availableIndices host none
  apart : ∀ d ∈ s.deployments, ∀ e ∈ s.deployments, d.id ≠ e.id → d.state = .live →
    e.state = .live → ∀ xs ys, d.assignedGpus = some xs → e.assignedGpus = some ys →
    ∀ i ∈ xs, i ∉ ys
  idle : ∀ d ∈ s.deployments, d.state ≠ .live → d.assignedGpus = none

/-- The row of a ledger under an id. -/
theorem Store.mem_of_getDeployment {s : Store π δ} {g : String} {d : Deployment}
    (h : s.getDeployment g = some d) : d ∈ s.deployments ∧ d.id = g := Table.find?_eq_some.mp h

theorem Store.getDeployment_of_mem {s : Store π δ} {d : Deployment} (h : d ∈ s.deployments) :
    s.getDeployment d.id = some d := Table.mem_iff_find?.mp h

/-- Rows keep what they hold, or stop being LIVE and hold nothing. -/
theorem Granted.shrink {host : Host} {s s' : Store π δ} (h : Granted host s)
    (hrows : ∀ g d', s'.getDeployment g = some d' →
      (∃ d, s.getDeployment g = some d ∧ d'.state = d.state ∧ d'.assignedGpus = d.assignedGpus) ∨
        (d'.state ≠ .live ∧ d'.assignedGpus = none)) : Granted host s' := by
  have hlive : ∀ d' ∈ s'.deployments, d'.state = .live → ∃ d ∈ s.deployments, d.id = d'.id ∧
      d.state = .live ∧ d'.assignedGpus = d.assignedGpus := by
    intro d' hd' hstate
    cases hrows d'.id d' (Store.getDeployment_of_mem hd') with
    | inl hsame =>
        obtain ⟨d, hd, hst, hgpus⟩ := hsame
        have hmem := Store.mem_of_getDeployment hd
        exact ⟨d, hmem.1, hmem.2, by rw [← hst, hstate], hgpus⟩
    | inr hnot => exact absurd hstate hnot.1
  constructor
  · intro d' hd' hstate
    obtain ⟨d, hd, -, hst, hgpus⟩ := hlive d' hd' hstate
    rw [hgpus]
    exact h.placed d hd hst
  · intro d' hd' e' he' hne hdstate hestate xs ys hxs hys
    obtain ⟨d, hd, hdid, hdst, hdgpus⟩ := hlive d' hd' hdstate
    obtain ⟨e, he, heid, hest, hegpus⟩ := hlive e' he' hestate
    rw [hdgpus] at hxs
    rw [hegpus] at hys
    exact h.apart d hd e he (by rw [hdid, heid]; exact hne) hdst hest xs ys hxs hys
  · intro d' hd' hstate
    cases hrows d'.id d' (Store.getDeployment_of_mem hd') with
    | inl hsame =>
        obtain ⟨d, hd, hst, hgpus⟩ := hsame
        rw [hgpus]
        exact h.idle d (Store.mem_of_getDeployment hd).1 (by rw [← hst]; exact hstate)
    | inr hnot => exact hnot.2

theorem Granted.of_rows {host : Host} {s s' : Store π δ} (h : Granted host s)
    (hrows : s'.deployments = s.deployments) : Granted host s' :=
  h.shrink fun g d' hd' => .inl ⟨d', by unfold Store.getDeployment at hd' ⊢; rw [← hrows, hd'], rfl, rfl⟩

/-- Some rows go to a state that is not LIVE. -/
theorem Granted.move {host : Host} {s s' : Store π δ} (h : Granted host s) {ids : List String}
    {state : DeploymentState} {now : Int} (hstate : state ≠ .live)
    (hrows : ∀ g, s'.getDeployment g = if g ∈ ids
      then (s.getDeployment g).map (·.withState state now) else s.getDeployment g) :
    Granted host s' := by
  refine h.shrink fun g d' hd' => ?_
  rw [hrows] at hd'
  by_cases hg : g ∈ ids
  · rw [if_pos hg] at hd'
    obtain ⟨d, -, rfl⟩ := Option.map_eq_some_iff.mp hd'
    exact .inr ⟨hstate, if_neg hstate⟩
  · rw [if_neg hg] at hd'
    exact .inl ⟨d', hd', rfl, rfl⟩

/-- Upkeep keeps it: nothing that is LIVE still lacks an allocation. -/
theorem Granted.upkeep {host : Host} {s s' : Store π δ} (h : Granted host s) (hup : Upkeep s s') :
    Granted host s' := by
  cases hup with
  | sweep now => exact h.move (by decide) getDeployment_sweep
  | release leaseId now => exact h.move (by decide) getDeployment_release
  | evict ids now => exact h.move (by decide) getDeployment_evictIdle
  | backfill residency d gpus hrow hgpus =>
      unfold backfillGpus at hgpus
      by_cases hc : d.state = .live ∧ d.assignedGpus = none
      · obtain ⟨xs, hxs, -⟩ := h.placed d (Store.mem_of_getDeployment hrow).1 hc.1
        rw [hc.2] at hxs
        contradiction
      · rw [if_neg hc] at hgpus
        contradiction
  | addresses table s' hadd =>
      obtain ⟨t, -, rfl⟩ := Option.map_eq_some_iff.mp hadd
      exact h.of_rows rfl
  | approve digest => exact h.of_rows rfl
  | mark apply interrupted profile hprofile => exact h.of_rows rfl

theorem Granted.prune {host : Host} {s : Store π δ} (h : Granted host s) :
    Granted host (pruneTerminal s) := by
  refine h.shrink fun g d' hd' => .inl ⟨d', ?_, rfl, rfl⟩
  obtain ⟨hmem, rfl⟩ := Store.mem_of_getDeployment hd'
  have hold : d' ∈ s.deployments := (Table.mem_filter.mp hmem).1
  exact Store.getDeployment_of_mem hold

/-! ## plans of the ledger -/

/-- A plan of a ledger whose claims are disjoint gives every LIVE deployment
what it holds. -/
theorem Granted.viewPlan {B : Backend π δ φ} {s : Store π δ} (h : Granted B.host s)
    (allowed : Option (List Nat)) (residency : Option Residency) {d : Deployment} {gpus : List Nat}
    (hd : d ∈ s.deployments) (hlive : d.state = .live) (hgpus : d.assignedGpus = some gpus) :
    (viewPlan B allowed s.listDeployments residency none).assignments.get? d.id = some gpus ∧
      d.id ∉ (viewPlan B allowed s.listDeployments residency none).degraded := by
  have hview : ∀ x, x ∈ viewRows s.listDeployments none ↔ x ∈ s.deployments := fun x =>
    mem_ledgerView_none
  have hkept : d.id ∉ (InferStack.viewPlan B allowed s.listDeployments residency none).degraded := by
    intro hdegraded
    obtain ⟨x, hx, hid, -, xs, hxs, hwhy⟩ := viewPlan_degraded hdegraded
    obtain rfl : x = d := Table.eq_of_key_eq ((hview x).mp hx) hd hid
    obtain rfl := Option.some.inj (hgpus.symm.trans hxs)
    cases hwhy with
    | inl hgone =>
        obtain ⟨i, hi, hnot⟩ := hgone
        obtain ⟨ys, hys, hin⟩ := h.placed x hd hlive
        obtain rfl := Option.some.inj (hgpus.symm.trans hys)
        exact hnot (hin i hi)
    | inr hheld =>
        obtain ⟨e, he, -, hne, helive, held, hegpus, i, hi, hiheld⟩ := hheld
        exact h.apart x hd e ((hview e).mp he) (Ne.symm hne) hlive helive gpus held hgpus hegpus i hi hiheld
  cases viewPlan_kept B allowed residency ((hview d).mpr hd)
    hlive hgpus with
  | inl hget => exact ⟨hget, hkept⟩
  | inr hdegraded => exact absurd hdegraded hkept

/-! ## what a commit may revive -/

/-- The GPUs a revived deployment adopts: those of its one warm container. -/
def warmGpus (residency : Option Residency) (d : Deployment) : Option (List Nat) :=
  if gpuUnits d = 0 then none
  else (residency.bind (·.uniqueUnit d.id)).bind fun c =>
    if c.allGpus ∨ c.gpus = [] then none else some c.gpus

/-- Reviving `d` takes no GPU that a LIVE deployment created after it holds. -/
def RevivableOn (residency : Option Residency) (s : Store π δ) (d : Deployment) : Prop :=
  ∀ e ∈ s.deployments, e.state = .live → d.before e →
    ∀ xs ys, warmGpus residency d = some xs → e.assignedGpus = some ys → ∀ i ∈ xs, i ∉ ys

theorem revivableOn_iff {residency : Option Residency} {s : Store π δ} {d : Deployment} :
    RevivableOn residency s d ↔
      ∀ e ∈ s.deployments.rows.filter fun e => e.state = .live ∧ d.before e,
        ∀ xs ∈ (warmGpus residency d).toList, ∀ ys ∈ e.assignedGpus.toList, ∀ i ∈ xs, i ∉ ys := by
  simp only [Option.mem_toList, List.mem_filter, decide_eq_true_eq]
  constructor
  · exact fun h e he xs hxs ys hys => h e he.1 he.2.1 he.2.2 xs ys hxs hys
  · exact fun h e he hlive hbefore xs ys hxs hys => h e ⟨he, hlive, hbefore⟩ xs hxs ys hys

instance (residency : Option Residency) (s : Store π δ) (d : Deployment) :
    Decidable (RevivableOn residency s d) := decidable_of_iff _ revivableOn_iff.symm

/-- What the step from `w` to `w'` revives, it revives apart from every LIVE
deployment created later. -/
def RevivesApart (w w' : World π δ φ) : Prop :=
  ∀ d ∈ w.store.deployments, d.state = .idle →
    ((w'.store.getDeployment d.id).any fun d' => d'.state = .live) →
    RevivableOn w.observed w.store d

instance (w w' : World π δ φ) : Decidable (RevivesApart w w') :=
  inferInstanceAs (Decidable (∀ d ∈ w.store.deployments.rows, _))

theorem adoptedGpus_eq {residency : Option Residency} {o : AcquireOverlay} {v d : Deployment}
    (hid : v.id = d.id) (hspec : v.spec = d.spec) (hrevived : d.id ∈ o.revived) :
    adoptedGpus residency o v = warmGpus residency d := by
  have hunits : gpuUnits v = gpuUnits d := by simp [gpuUnits, requiredGpuCount, hspec]
  simp [adoptedGpus, warmGpus, hunits, hid, hrevived]

theorem adoptRow_of_not_revived {residency : Option Residency} {o : AcquireOverlay}
    {v : Deployment} (h : v.id ∉ o.revived) : adoptRow residency o v = v := by
  simp [adoptRow, adoptedGpus, h]

@[simp] theorem adoptRow_createdAt (residency : Option Residency) (o : AcquireOverlay)
    (v : Deployment) : (adoptRow residency o v).createdAt = v.createdAt := by
  unfold adoptRow
  cases adoptedGpus residency o v <;> rfl

@[simp] theorem adoptRow_state (residency : Option Residency) (o : AcquireOverlay)
    (v : Deployment) : (adoptRow residency o v).state = v.state := by
  unfold adoptRow
  cases adoptedGpus residency o v <;> rfl

/-! ## the plan of a decision -/

section Decide

variable {B : Backend π δ φ} {s : Store π δ} {o : AcquireOverlay} {residency : Option Residency}
  {allowed : Option (List Nat)}

/-- The rows of a preview: the overlay's, with what they adopt, over the ledger's. -/
theorem find?_preview (s : Store π δ) (o : AcquireOverlay) (residency : Option Residency)
    (g : String) :
    (viewRows s.listDeployments (some (previewOverlay residency o))).find? g =
      ((o.deployments.find? g).map (adoptRow residency o)).or (s.getDeployment g) := by
  have hview := find?_ledgerView s (some (previewOverlay residency o)) g
  rw [Option.bind_some] at hview
  have hmap : (previewOverlay residency o).deployments.find? g =
      (o.deployments.find? g).map (adoptRow residency o) := by
    change (o.deployments.map _ (adoptRow_id residency o)).find? g = _
    exact Table.find?_map g
  rw [hmap] at hview
  exact hview

/-- What a LIVE row of a preview holds it holds in the ledger, or adopts. -/
theorem preview_row (ho : OverlayOn s o) (hgranted : Granted B.host s)
    (hfresh : ∀ d ∈ o.created, d.id ∉ s.deployments.keys) {x : Deployment} {gpus : List Nat}
    (hx : x ∈ viewRows s.listDeployments (some (previewOverlay residency o)))
    (hlive : x.state = .live) (hgpus : x.assignedGpus = some gpus) :
    ∃ d ∈ s.deployments, d.id = x.id ∧ d.createdAt = x.createdAt ∧
      ((d.state = .live ∧ d.assignedGpus = some gpus) ∨
        (d.state = .idle ∧ d.id ∈ o.revived ∧ warmGpus residency d = some gpus)) := by
  have hfind := find?_preview s o residency x.id
  rw [Table.mem_iff_find?.mp hx] at hfind
  cases hrow : o.deployments.find? x.id with
  | none =>
      rw [hrow] at hfind
      have hmem := Store.mem_of_getDeployment hfind.symm
      exact ⟨x, hmem.1, rfl, rfl, .inl ⟨hlive, hgpus⟩⟩
  | some v =>
      rw [hrow] at hfind
      obtain rfl : x = adoptRow residency o v := Option.some.inj hfind
      obtain ⟨hv, -⟩ := Table.find?_eq_some.mp hrow
      rw [adoptRow_id] at hrow ⊢
      by_cases hnew : v.id ∈ o.created.keys
      · -- a new row adopts nothing: it is not in the ledger, so it is not revived
        exfalso
        obtain ⟨c, hc, hcid⟩ := Table.mem_keys.mp hnew
        have hcreated := ho.created c hc
        have hcv : c = v := Table.eq_of_key_eq hcreated.1 hv hcid
        have hnot : v.id ∉ o.revived := fun hrevived => by
          obtain ⟨-, d, hd, -⟩ := ho.revived v.id hrevived
          have hmem := Store.mem_of_getDeployment hd
          exact hfresh c hc (Table.mem_keys.mpr ⟨d, hmem.1, by rw [hmem.2, hcid]⟩)
        rw [adoptRow_of_not_revived hnot, ← hcv, hcreated.2.2] at hgpus
        contradiction
      · obtain ⟨d, hd, hdemand⟩ := ho.stored v hv hnew
        have hmem := Store.mem_of_getDeployment hd
        refine ⟨d, hmem.1, hmem.2, ?_, ?_⟩
        · rw [adoptRow_createdAt, hdemand.createdAt]
        · cases hdemand.cases with
          | inl hstays =>
              have hnot : v.id ∉ o.revived := by rw [hdemand.id]; exact hstays.2.1
              rw [adoptRow_of_not_revived hnot, hstays.2.2] at hgpus
              exact .inl ⟨hstays.1, hgpus⟩
          | inr hrevived =>
              obtain ⟨hidle, hin, hsame⟩ := hrevived
              have hnone : v.assignedGpus = none := by
                cases hsame with
                | inl hnone => exact hnone
                | inr heq =>
                    rw [heq]
                    exact hgranted.idle d hmem.1 (by rw [hidle]; decide)
              have hadopt : adoptedGpus residency o v = warmGpus residency d :=
                adoptedGpus_eq hdemand.id hdemand.spec hin
              unfold adoptRow at hgpus
              rw [hadopt] at hgpus
              cases hwarm : warmGpus residency d with
              | none =>
                  rw [hwarm] at hgpus
                  exact absurd (hnone.symm.trans hgpus) (by simp)
              | some xs =>
                  rw [hwarm] at hgpus
                  exact .inr ⟨hidle, hin, by rw [← Option.some.inj hgpus]⟩

/-- The plan of a decision that degrades no claim gives every LIVE deployment
what it holds, if what it revives is revivable there. -/
theorem preview_keeps (ho : OverlayOn s o) (hgranted : Granted B.host s)
    (hfresh : ∀ d ∈ o.created, d.id ∉ s.deployments.keys)
    (hrevive : ∀ d ∈ s.deployments, d.state = .idle → d.id ∈ o.revived → RevivableOn residency s d)
    (hclaims : ∀ g ∈ o.deployments.keys,
      g ∉ (viewPlan B allowed s.listDeployments residency (some (previewOverlay residency o))).degraded)
    {d : Deployment} {gpus : List Nat} (hd : d ∈ s.deployments) (hlive : d.state = .live)
    (hgpus : d.assignedGpus = some gpus) :
    (viewPlan B allowed s.listDeployments residency
      (some (previewOverlay residency o))).assignments.get? d.id = some gpus := by
  -- the view shows the deployment with what it holds
  obtain ⟨x, hx, hxid, hxlive, hxgpus⟩ : ∃ x ∈ viewRows s.listDeployments
      (some (previewOverlay residency o)), x.id = d.id ∧ x.state = .live ∧
      x.assignedGpus = some gpus := by
    have hfind := find?_preview s o residency d.id
    rw [Store.getDeployment_of_mem hd] at hfind
    cases hrow : o.deployments.find? d.id with
    | none =>
        rw [hrow] at hfind
        exact ⟨d, (Table.find?_eq_some.mp hfind).1, rfl, hlive, hgpus⟩
    | some v =>
        rw [hrow] at hfind
        obtain ⟨hv, hvid⟩ := Table.find?_eq_some.mp hrow
        have hnew : v.id ∉ o.created.keys := fun hin => by
          obtain ⟨c, hc, hcid⟩ := Table.mem_keys.mp hin
          exact hfresh c hc (Table.mem_keys.mpr ⟨d, hd, (hcid.trans hvid).symm⟩)
        obtain ⟨d', hd', hdemand⟩ := ho.stored v hv hnew
        obtain rfl : d' = d := by
          rw [hvid, Store.getDeployment_of_mem hd] at hd'
          exact (Option.some.inj hd').symm
        obtain ⟨hin, -⟩ := Table.find?_eq_some.mp hfind
        cases hdemand.cases with
        | inl hstays =>
            have hnot : v.id ∉ o.revived := by rw [hvid]; exact hstays.2.1
            have hsame : adoptRow residency o v = v := adoptRow_of_not_revived hnot
            change adoptRow residency o v ∈ _ at hin
            rw [hsame] at hin
            exact ⟨v, hin, hvid, hdemand.state, hstays.2.2.trans hgpus⟩
        | inr hrevived =>
            rw [hlive] at hrevived
            exact absurd hrevived.1 (by decide)
  rw [← hxid]
  cases viewPlan_kept B allowed residency hx hxlive hxgpus with
  | inl hget => exact hget
  | inr hdegraded =>
      exfalso
      have hnotClaimed : x.id ∉ o.deployments.keys := fun hin => hclaims x.id hin hdegraded
      obtain ⟨y, hy, hyid, -, ys, hys, hwhy⟩ := viewPlan_degraded hdegraded
      obtain rfl : y = x := Table.eq_of_key_eq hy hx hyid
      obtain rfl := Option.some.inj (hxgpus.symm.trans hys)
      cases hwhy with
      | inl hgone =>
          obtain ⟨i, hi, hnot⟩ := hgone
          obtain ⟨zs, hzs, hin⟩ := hgranted.placed d hd hlive
          obtain rfl := Option.some.inj (hgpus.symm.trans hzs)
          exact hnot (hin i hi)
      | inr hheld =>
          obtain ⟨e, he, hbefore, hne, helive, held, hegpus, i, hi, hiheld⟩ := hheld
          obtain ⟨e', he', heid, hecreated, hcases⟩ := preview_row ho hgranted hfresh he helive hegpus
          cases hcases with
          | inl hstays =>
              have hne' : d.id ≠ e'.id := by rw [heid, ← hxid]; exact Ne.symm hne
              exact hgranted.apart d hd e' he' hne' hlive hstays.1 gpus held hgpus hstays.2 i hi hiheld
          | inr hrevived =>
              have hxd : y = d := by
                have hfind := find?_preview s o residency y.id
                have hnone : o.deployments.find? y.id = none :=
                  Table.find?_of_not_mem_keys hnotClaimed
                rw [hnone, Table.mem_iff_find?.mp hx, hxid, Store.getDeployment_of_mem hd] at hfind
                exact Option.some.inj hfind
              have hbefore' : e'.before d := by
                rw [hxd] at hbefore
                simpa [Deployment.before, heid, hecreated] using hbefore
              exact hrevive e' he' hrevived.1 hrevived.2.1 d hd hlive hbefore' held gpus
                hrevived.2.2 hgpus i hiheld hi

end Decide

/-! ## committing a decision -/

/-- A commit as the plan has it: what is fresh gets what the plan gives it, and
every other row stays as it is. -/
structure CommitsPlan (s s' : Store π δ) (fresh : List String) (plan : GpuPlan) : Prop where
  granted : ∀ g ∈ fresh, (plan.assignments.get? g).isSome ∧
    ∀ d', s'.getDeployment g = some d' → d'.assignedGpus = plan.assignments.get? g
  other : ∀ g, g ∉ fresh → ∀ d', s'.getDeployment g = some d' →
    ∃ d, s.getDeployment g = some d ∧ d'.state = d.state ∧ d'.assignedGpus = d.assignedGpus
  stays : ∀ g d, s.getDeployment g = some d → (s'.getDeployment g).isSome
  live : ∀ g ∈ fresh, ∀ d', s'.getDeployment g = some d' → d'.state = .live

/-- The commit of a plan that gives LIVE deployments what they hold keeps the
claims disjoint. -/
theorem CommitsPlan.keeps_granted {host : Host} {s s' : Store π δ} {fresh : List String} {plan : GpuPlan}
    (h : CommitsPlan s s' fresh plan) (hgranted : Granted host s)
    (hpool : ∀ g gpus, plan.assignments.get? g = some gpus → ∀ i ∈ gpus, i ∈ availableIndices host none)
    (hkeeps : ∀ d ∈ s.deployments, d.state = .live →
      plan.assignments.get? d.id = d.assignedGpus) : Granted host s' := by
  -- every LIVE row holds what the plan gives it
  have hlive : ∀ d' ∈ s'.deployments, d'.state = .live →
      d'.assignedGpus = plan.assignments.get? d'.id ∧ (plan.assignments.get? d'.id).isSome := by
    intro d' hd' hstate
    have hget := Store.getDeployment_of_mem hd'
    by_cases hg : d'.id ∈ fresh
    · exact ⟨(h.granted d'.id hg).2 d' hget, (h.granted d'.id hg).1⟩
    · obtain ⟨d, hd, hst, hgpus⟩ := h.other d'.id hg d' hget
      have hmem := Store.mem_of_getDeployment hd
      have hdlive : d.state = .live := by rw [← hst, hstate]
      obtain ⟨xs, hxs, -⟩ := hgranted.placed d hmem.1 hdlive
      have hplan := hkeeps d hmem.1 hdlive
      rw [hmem.2] at hplan
      exact ⟨by rw [hgpus, hplan], by rw [hplan, hxs]; rfl⟩
  constructor
  · intro d' hd' hstate
    obtain ⟨hgpus, hsome⟩ := hlive d' hd' hstate
    obtain ⟨xs, hxs⟩ := Option.isSome_iff_exists.mp hsome
    exact ⟨xs, hgpus.trans hxs, hpool d'.id xs hxs⟩
  · intro d' hd' e' he' hne hdstate hestate xs ys hxs hys
    rw [(hlive d' hd' hdstate).1] at hxs
    rw [(hlive e' he' hestate).1] at hys
    exact fun i hi => plan.assignments.disjoint hxs hys hne hi
  · intro d' hd' hstate
    have hget := Store.getDeployment_of_mem hd'
    by_cases hg : d'.id ∈ fresh
    · exact absurd (h.live d'.id hg d' hget) hstate
    · obtain ⟨d, hd, hst, hgpus⟩ := h.other d'.id hg d' hget
      rw [hgpus]
      exact hgranted.idle d (Store.mem_of_getDeployment hd).1 (by rw [← hst]; exact hstate)

/-- A LIVE deployment the commit leaves LIVE on what it holds. -/
theorem CommitsPlan.live_kept {s s' : Store π δ} {fresh : List String}
    {plan : GpuPlan} (h : CommitsPlan s s' fresh plan)
    (hidle : ∀ g ∈ fresh, ∀ d, s.getDeployment g = some d → d.state = .idle)
    {d : Deployment} (hd : d ∈ s.deployments) (hlive : d.state = .live) :
    ∃ d', s'.getDeployment d.id = some d' ∧ d'.state = .live ∧ d'.assignedGpus = d.assignedGpus := by
  have hget := Store.getDeployment_of_mem hd
  have hg : d.id ∉ fresh := fun hin => by
    have hstate := hidle d.id hin d hget
    rw [hlive] at hstate
    contradiction
  obtain ⟨d', hd'⟩ := Option.isSome_iff_exists.mp (h.stays d.id d hget)
  obtain ⟨d₀, hd₀, hst, hgpus⟩ := h.other d.id hg d' hd'
  obtain rfl := Option.some.inj (hget.symm.trans hd₀)
  exact ⟨d', hd', hst.trans hlive, hgpus⟩

/-! ## acquire and renew -/

section Commit

variable {B : Backend π δ φ} {s s' : Store π δ} {settings : RenderSettings π φ}
  {secrets : Dict String String} {managed : ManagedEnv} {o : AcquireOverlay}
  {residency : Option Residency} {a : Admission δ} {docs : Documents π δ φ}

/-- The rows an acquire of an admitted plan leaves. -/
theorem commitsPlan_acquire (ho : OverlayOn s o)
    (hadmitted : AdmittedBy B s settings secrets managed o residency a docs) {leaseId owner : String}
    {ttl : Option Int} {digest : Option δ} {candidate : Option π}
    (h : Acquired s s' leaseId owner ttl (enrichOverlay B o) a.allocations digest candidate) :
    CommitsPlan s s' (freshIds (some o)) docs.plan := by
  have hcreatedKeys : (o.created.map B.enrich B.enrich_id).keys = o.created.keys :=
    Table.keys_map
  have hnew : ∀ g ∈ o.created.keys, g ∉ s.deployments.keys := fun g hg => by
    rw [← hcreatedKeys] at hg
    obtain ⟨d, hd, rfl⟩ := Table.mem_keys.mp hg
    exact h.created_fresh d hd
  have hkeys : ∀ g ∈ freshIds (some o), g ∈ o.deployments.keys := fun g hg => ho.mem_keys_of_fresh hg
  have halloc : ∀ g, a.allocations.get? g = if g ∈ freshIds (some o)
      then docs.plan.assignments.get? g else none := fun g => by
    rw [hadmitted.get?_allocations]
    by_cases hg : g ∈ freshIds (some o)
    · rw [if_pos hg, if_pos ⟨hkeys g hg, hg⟩]
    · rw [if_neg hg, if_neg fun hc => hg hc.2]
  have hplaced : ∀ g ∈ freshIds (some o), (docs.plan.assignments.get? g).isSome := fun g hg =>
    (refusals_eq_nil (hadmitted.claims g (hkeys g hg))).2.1
  -- every row the acquire leaves, from the row it starts from
  have hrow : ∀ g d', s'.getDeployment g = some d' → ∃ d,
      (s.getDeployment g).or (((enrichOverlay B o).created.find? g).map Deployment.stored) = some d ∧
      d'.state = (if g ∈ o.revived then .live else d.state) ∧
      d'.assignedGpus = (a.allocations.get? g).or d.assignedGpus := by
    intro g d' hd'
    rw [h.getDeployment] at hd'
    cases hbase : (s.getDeployment g).or
        (((enrichOverlay B o).created.find? g).map Deployment.stored) with
    | none =>
        rw [acquiredRow_none s (enrichOverlay B o) a.allocations hbase] at hd'
        contradiction
    | some d =>
        obtain ⟨t, ht⟩ := acquiredRow_eq s (enrichOverlay B o) a.allocations hbase
        obtain rfl := Option.some.inj (ht.symm.trans hd')
        exact ⟨d, rfl, rfl, rfl⟩
  constructor
  · intro g hg
    refine ⟨hplaced g hg, fun d' hd' => ?_⟩
    obtain ⟨d, -, -, hgpus⟩ := hrow g d' hd'
    obtain ⟨xs, hxs⟩ := Option.isSome_iff_exists.mp (hplaced g hg)
    rw [hgpus, halloc, if_pos hg, hxs]
    rfl
  · intro g hg d' hd'
    obtain ⟨d, hbase, hstate, hgpus⟩ := hrow g d' hd'
    have hg' : g ∉ o.created.keys ∧ g ∉ o.revived := by
      simpa [freshIds] using hg
    have hnone : (enrichOverlay B o).created.find? g = none := by
      have hkey : g ∉ (o.created.map B.enrich B.enrich_id).keys := by
        rw [hcreatedKeys]
        exact hg'.1
      exact Table.find?_of_not_mem_keys hkey
    rw [hnone, Option.map_none, Option.or_none] at hbase
    exact ⟨d, hbase, by rw [hstate, if_neg hg'.2], by rw [hgpus, halloc, if_neg hg, Option.none_or]⟩
  · intro g d hd
    have hbase : (s.getDeployment g).or
        (((enrichOverlay B o).created.find? g).map Deployment.stored) = some d := by rw [hd]; rfl
    obtain ⟨t, ht⟩ := acquiredRow_eq s (enrichOverlay B o) a.allocations hbase
    rw [h.getDeployment, ht]
    rfl
  · intro g hg d' hd'
    obtain ⟨d, hbase, hstate, -⟩ := hrow g d' hd'
    by_cases hrevived : g ∈ o.revived
    · rw [hstate, if_pos hrevived]
    · rw [hstate, if_neg hrevived]
      have hcreated : g ∈ o.created.keys := by
        cases List.mem_append.mp hg with
        | inl hin => exact hin
        | inr hin => exact absurd hin hrevived
      have hnone : s.getDeployment g = none :=
        Table.find?_of_not_mem_keys (hnew g hcreated)
      rw [hnone, Option.none_or] at hbase
      obtain ⟨c, hc, rfl⟩ := Option.map_eq_some_iff.mp hbase
      have hmem : c ∈ o.created.map B.enrich B.enrich_id := (Table.find?_eq_some.mp hc).1
      obtain ⟨c₀, hc₀, rfl⟩ := Table.mem_map.mp hmem
      change (B.enrich c₀).state = .live
      rw [Backend.enrich_state]
      exact (ho.created c₀ hc₀).2.1

/-- The rows a renew of an admitted plan leaves. -/
theorem commitsPlan_renewed (ho : OverlayOn s o) (hnew : o.created = ∅) {leaseId : String}
    (hrevived : o.revived = idleAmong s (s.deploymentIds leaseId))
    (hadmitted : AdmittedBy B s settings secrets managed o residency a docs)
    {ttl : Option Int} {now : Int} :
    CommitsPlan s (renewedStore s leaseId ttl a.allocations now) (freshIds (some o)) docs.plan := by
  have hfresh : freshIds (some o) = idleAmong s (s.deploymentIds leaseId) := by
    rw [← hrevived]
    simp [freshIds, hnew, Table.keys]
  have hkeys : ∀ g ∈ freshIds (some o), g ∈ o.deployments.keys := fun g hg => ho.mem_keys_of_fresh hg
  have hplaced : ∀ g ∈ freshIds (some o), (docs.plan.assignments.get? g).isSome := fun g hg =>
    (refusals_eq_nil (hadmitted.claims g (hkeys g hg))).2.1
  have halloc : ∀ g ∈ freshIds (some o), a.allocations.get? g = docs.plan.assignments.get? g :=
    fun g hg => by rw [hadmitted.get?_allocations, if_pos ⟨hkeys g hg, hg⟩]
  have hrow : ∀ g ∈ freshIds (some o), ∀ d',
      (renewedStore s leaseId ttl a.allocations now).getDeployment g = some d' →
      d'.state = .live ∧ d'.assignedGpus = docs.plan.assignments.get? g := by
    intro g hg d' hd'
    obtain ⟨xs, hxs⟩ := Option.isSome_iff_exists.mp (hplaced g hg)
    rw [getDeployment_renewedStore, if_pos (hfresh ▸ hg), halloc g hg, hxs] at hd'
    obtain ⟨d, hd, rfl⟩ := Option.map_eq_some_iff.mp hd'
    obtain ⟨d₀, -, rfl⟩ := Option.map_eq_some_iff.mp hd
    exact ⟨rfl, hxs.symm⟩
  have hother : ∀ g, g ∉ freshIds (some o) →
      (renewedStore s leaseId ttl a.allocations now).getDeployment g = s.getDeployment g :=
    fun g hg => by rw [getDeployment_renewedStore, if_neg (hfresh ▸ hg)]
  constructor
  · exact fun g hg => ⟨hplaced g hg, fun d' hd' => (hrow g hg d' hd').2⟩
  · intro g hg d' hd'
    rw [hother g hg] at hd'
    exact ⟨d', hd', rfl, rfl⟩
  · intro g d hd
    rw [getDeployment_renewedStore, hd]
    split <;> rfl
  · exact fun g hg d' hd' => (hrow g hg d' hd').1

end Commit

/-! ## what the controller keeps -/

variable {B : Backend π δ φ}

/-- An acquire that commits leaves every LIVE deployment LIVE on what it holds,
and every plan of the ledger it leaves gives that to it, degrading none. -/
def KeepsPlaced (B : Backend π δ φ) (w w' : World π δ φ) : Prop :=
  (∃ l ∈ w'.store.leases.keys, l ∉ w.store.leases.keys) →
    ∀ d ∈ w.store.deployments, d.state = .live → ∀ gpus, d.assignedGpus = some gpus →
      (∃ d', w'.store.getDeployment d.id = some d' ∧ d'.state = .live ∧
        d'.assignedGpus = some gpus) ∧
      ∀ allowed residency,
        (viewPlan B allowed w'.store.listDeployments residency none).assignments.get? d.id =
            some gpus ∧
          d.id ∉ (viewPlan B allowed w'.store.listDeployments residency none).degraded

theorem KeepsPlaced.of_leases {w w' : World π δ φ}
    (h : w'.store.leases.keys ⊆ w.store.leases.keys) : KeepsPlaced B w w' := by
  intro hnew
  obtain ⟨l, hl, hnot⟩ := hnew
  exact absurd (h hl) hnot

theorem KeepsPlaced.refl (w : World π δ φ) : KeepsPlaced B w w :=
  .of_leases (List.Subset.refl _)

/-- The invariant of a run: every lease under a profile, claims disjoint. -/
structure GrantedWorld (B : Backend π δ φ) (w : World π δ φ) : Prop where
  leased : w.store.Leased
  granted : Granted B.host w.store

/-- The assumptions: what is revived is revived apart. -/
abbrev allocationRely (B : Backend π δ φ) : Rely (World π δ φ) Input :=
  ctlRely (fun w _ w' => RevivesApart w w') (GrantedWorld B) (KeepsPlaced B) KeepsPlaced.refl

/-- The invariant as an assertion: renewals change no deployment row. -/
def grantedWorld (B : Backend π δ φ) : Proc.Assertion (allocationRely B) where
  holds := GrantedWorld B
  inv := fun _ hw => hw
  moved := fun _ _ hw hm => ⟨hw.leased.moved hm, hw.granted.of_rows hm.deployments⟩

theorem Upkeep.leases {s s' : Store π δ} (h : Upkeep s s') : s'.leases.keys ⊆ s.leases.keys := by
  cases h with
  | sweep now => exact (rowsOnly_sweep s now).leases
  | release leaseId now => exact (rowsOnly_release s leaseId now).leases
  | evict ids now => exact (rowsOnly_evictIdle s ids now).leases
  | backfill residency d gpus hrow h => exact List.Subset.refl _
  | addresses table s' h =>
      obtain ⟨t, -, rfl⟩ := Option.map_eq_some_iff.mp h
      exact List.Subset.refl _
  | approve digest => exact List.Subset.refl _
  | mark apply interrupted profile h => exact List.Subset.refl _

section Scheme

variable [DecidableEq π] [DecidableEq δ]

omit [DecidableEq δ] in
/-- A transaction that leaves every deployment row alone and adds no lease. -/
theorem GrantedWorld.same_rows {w : World π δ φ} (h : GrantedWorld B w) {s : Store π δ}
    (hrows : s.deployments = w.store.deployments) (hleased : s.Leased)
    (hleases : s.leases.keys ⊆ w.store.leases.keys) :
    KeepsPlaced B w (w.withStore B s) ∧ GrantedWorld B (w.withStore B s) :=
  ⟨.of_leases hleases, hleased, h.granted.of_rows hrows⟩

omit [DecidableEq π] [DecidableEq δ] in
/-- The decision behind an admission, on the ledger as it is. -/
theorem AdmittedOnce.admittedBy {o : AcquireOverlay} {a : Admission δ} {w : World π δ φ}
    (h : AdmittedOnce B o a w) : ∃ settings secrets managed docs,
      AdmittedBy B w.store settings secrets managed o w.observed a docs := by
  obtain ⟨settings, secrets, managed, s, hread, hadmit⟩ := h.decided
  obtain ⟨docs, hdocs⟩ := admitView_ok hadmit h.reasons
  have hnetwork : networkTable s = networkTable w.store := by
    unfold networkTable
    rw [hread.network, hread.addresses]
  exact ⟨settings, secrets, managed, docs, hdocs.of_rows hread.deployments hnetwork⟩

omit [DecidableEq π] [DecidableEq δ] in
theorem Planned.overlayOn {requests : List EndpointRequest} {o : AcquireOverlay} {w : World π δ φ}
    (h : Planned requests o w) : OverlayOn w.store o := by
  obtain ⟨s, hread, now, newId, rfl⟩ := h
  exact (planAcquire_overlayOn s requests _ now newId).of_rows hread.deployments

omit [DecidableEq π] [DecidableEq δ] in
/-- The overlay of a renew, on the ledger it was computed on. -/
theorem renewOverlay_overlayOn (s : Store π δ) (leaseId : String) (now : Int) :
    OverlayOn s (renewOverlay s leaseId now) := by
  have hrow : ∀ v ∈ (renewOverlay s leaseId now).deployments, ∃ d ∈ s.deployments,
      v = { d with state := .live } ∧ d.id ∈ idleAmong s (s.deploymentIds leaseId) := by
    intro v hv
    obtain ⟨d, hd, rfl⟩ := List.mem_map.mp (Table.mem_of_mem_ofList hv)
    obtain ⟨g, hg, hget⟩ := List.mem_filterMap.mp hd
    have hmem := Store.mem_of_getDeployment hget
    exact ⟨d, hmem.1, rfl, by rw [hmem.2]; exact hg⟩
  constructor
  · intro d hd
    simp [renewOverlay, planAcquire, planLoop] at hd
  · intro v hv _
    obtain ⟨d, hd, rfl, hin⟩ := hrow v hv
    obtain ⟨-, d', hd', hidle⟩ := mem_idleAmong.mp hin
    obtain rfl := Option.some.inj ((Store.getDeployment_of_mem hd).symm.trans hd')
    exact ⟨d, Store.getDeployment_of_mem hd, rfl, rfl, .inr ⟨hidle, hin, .inr rfl⟩⟩
  · intro g hg
    obtain ⟨hclaimed, d, hd, hidle⟩ := mem_idleAmong.mp hg
    refine ⟨?_, d, hd, hidle⟩
    have hmem := Store.mem_of_getDeployment hd
    change g ∈ (Table.ofList _ : Table Deployment Deployment.id).keys
    rw [Table.mem_keys_ofList]
    refine List.mem_map.mpr ⟨{ d with state := .live }, List.mem_map_of_mem ?_, hmem.2⟩
    exact List.mem_filterMap.mpr ⟨g, hg, hd⟩
  · intro g m hm
    simp [renewOverlay, planAcquire, planLoop] at hm
  · intro rg hrg
    simp [renewOverlay, planAcquire, planLoop] at hrg

omit [DecidableEq π] [DecidableEq δ] in
/-- A decision that is committed keeps the claims disjoint. -/
theorem GrantedWorld.commit {w w' : World π δ φ} (h : GrantedWorld B w) (hleased : w'.store.Leased)
    {o : AcquireOverlay} {a : Admission δ} {settings : RenderSettings π φ}
    {secrets : Dict String String} {managed : ManagedEnv} {docs : Documents π δ φ}
    (ho : OverlayOn w.store o) (hfresh : ∀ d ∈ o.created, d.id ∉ w.store.deployments.keys)
    (hadmitted : AdmittedBy B w.store settings secrets managed o w.observed a docs)
    (hcommit : CommitsPlan w.store w'.store (freshIds (some o)) docs.plan)
    (hapart : RevivesApart w w') : KeepsPlaced B w w' ∧ GrantedWorld B w' := by
  have hplan := plan_renderDocuments hadmitted.rendered
  have hidle : ∀ g ∈ freshIds (some o), ∀ d, w.store.getDeployment g = some d → d.state = .idle := by
    intro g hg d hd
    cases List.mem_append.mp hg with
    | inl hnew =>
        obtain ⟨c, hc, hcid⟩ := Table.mem_keys.mp hnew
        have hmem := Store.mem_of_getDeployment hd
        exact absurd (Table.mem_keys.mpr ⟨d, hmem.1, by rw [hmem.2, hcid]⟩) (hfresh c hc)
    | inr hrevived =>
        obtain ⟨-, d', hd', hstate⟩ := ho.revived g hrevived
        obtain rfl := Option.some.inj (hd.symm.trans hd')
        exact hstate
  -- what is revived is LIVE after the commit, so it is revived apart
  have hrevive : ∀ d ∈ w.store.deployments, d.state = .idle → d.id ∈ o.revived →
      RevivableOn w.observed w.store d := by
    intro d hd hstate hrevived
    apply hapart d hd hstate
    have hin : d.id ∈ freshIds (some o) := List.mem_append_right _ hrevived
    obtain ⟨d', hd'⟩ := Option.isSome_iff_exists.mp
      (hcommit.stays d.id d (Store.getDeployment_of_mem hd))
    simp [hd', hcommit.live d.id hin d' hd']
  have hkeeps : ∀ d ∈ w.store.deployments, d.state = .live →
      docs.plan.assignments.get? d.id = d.assignedGpus := by
    intro d hd hlive
    obtain ⟨gpus, hgpus, -⟩ := h.granted.placed d hd hlive
    rw [hgpus, hplan]
    refine preview_keeps ho h.granted hfresh hrevive (fun g hg => ?_) hd hlive hgpus
    rw [← hplan]
    exact (refusals_eq_nil (hadmitted.claims g hg)).1
  have hgranted : Granted B.host w'.store := by
    refine hcommit.keeps_granted h.granted (fun g gpus hg => ?_) hkeeps
    rw [hplan] at hg
    exact viewPlan_pool hg
  refine ⟨fun _ d hd hlive gpus hgpus => ?_, hleased, hgranted⟩
  obtain ⟨d', hd', hlive', hgpus'⟩ := hcommit.live_kept hidle hd hlive
  have hmem := Store.mem_of_getDeployment hd'
  refine ⟨⟨d', hd', hlive', hgpus'.trans hgpus⟩, fun allowed residency => ?_⟩
  rw [← hmem.2]
  exact hgranted.viewPlan allowed residency hmem.1 hlive' (hgpus'.trans hgpus)

/-- The allocation scheme of the controller. -/
theorem allocationScheme (B : Backend π δ φ) :
    Scheme B False (grantedWorld B) (grantedWorld B) (grantedWorld B) := by
  have hfree : Free (grantedWorld B) := fun w w' ha hw => by
    refine ⟨.of_leases (by rw [ha.store]; exact List.Subset.refl _), ?_⟩
    change GrantedWorld B w'
    exact ⟨ha.store ▸ hw.leased, ha.store ▸ hw.granted⟩
  have hrecords : Records (grantedWorld B) := fun w w' hr hw => by
    refine ⟨.of_leases (by rw [hr.store]; exact List.Subset.refl _), ?_⟩
    change GrantedWorld B w'
    exact ⟨hr.store ▸ hw.leased, hr.store ▸ hw.granted⟩
  have hkept : Kept B (grantedWorld B) :=
    { write := fun w w' ho hw => hrecords w w' ho.toRecorded hw
      upkeep := fun w s hup hw =>
        ⟨.of_leases hup.leases, hup.leased hw.leased, hw.granted.upkeep hup⟩ }
  have hmark : ∀ w apply interrupted digest profile, (grantedWorld B).holds w →
      let w' := w.withStore B (w.store.markPublicationPending apply interrupted digest profile)
      KeepsPlaced B w w' ∧ (grantedWorld B).holds w' := fun w apply interrupted digest profile hw =>
    hw.same_rows rfl (leased_mark hw.leased apply interrupted digest profile) (List.Subset.refl _)
  have hclear : Kept.Clears B (grantedWorld B) := fun w version hw =>
    hw.same_rows rfl hw.leased (List.Subset.refl _)
  exact
    { free := hfree
      freeMarked := hfree
      observes := fun w r hw => ⟨.of_leases (List.Subset.refl _), hw.leased, hw.granted⟩
      leased := fun w hw => hw.leased
      guarded := fun hfalse => hfalse.elim
      marks := fun w apply fresh hw _ => hmark w apply false none fresh hw
      kept := hkept
      forget := fun _ hw => hw
      unapplied := fun _ hw => hw
      render := fun X hX =>
        (hkept.inUse fun u stored h => (hX u stored h).isSome).render hrecords.inUse
      apply := fun X hX rec => by
        have hin : Kept B (inUse (grantedWorld B) X) :=
          hkept.inUse fun u stored h => (hX u stored h).isSome
        refine hin.applyPending (fun w version hw => ?_) hrecords.inUse.runApply rec
        have hcleared := hclear w version hw.1
        exact ⟨hcleared.1, hcleared.2, hw.2⟩
      commit := fun w i requests o a leaseId owner ttl digest candidate s hw hprofile hplanned
          hadmitted hacq hapart => by
        obtain ⟨settings, secrets, managed, docs, hdocs⟩ := hadmitted.once.admittedBy
        have hcommitted := acquire_ok hacq
        have hfresh : ∀ d ∈ o.created, d.id ∉ w.store.deployments.keys := fun d hd => by
          have hmem : B.enrich d ∈ o.created.map B.enrich B.enrich_id :=
            Table.mem_map.mpr ⟨d, hd, rfl⟩
          have hnew := hcommitted.created_fresh (B.enrich d) hmem
          rwa [Backend.enrich_id] at hnew
        have hleased : s.Leased := Store.Leased.of_isSome (by
          rw [hcommitted.profile]
          cases candidate with
          | none => exact hprofile
          | some p => rfl)
        exact hw.commit hleased hplanned.overlayOn hfresh hdocs
          (commitsPlan_acquire hplanned.overlayOn hdocs hcommitted) hapart
      renew := fun w i leaseId ttl o a now hw hplanned hadmitted hapart => by
        obtain ⟨settings, secrets, managed, docs, hdocs⟩ := hadmitted.admittedBy
        have hrows := rowsOnly_renew w.store leaseId ttl a.allocations now
        cases renew_cases w.store leaseId ttl a.allocations now with
        | inl hsame =>
            rw [hsame.2]
            exact hw.same_rows rfl hw.leased (List.Subset.refl _)
        | inr hrenewed =>
            obtain ⟨l, -, -, hstore⟩ := hrenewed
            obtain ⟨s, hread, now', rfl⟩ := hplanned
            have ho := (renewOverlay_overlayOn s leaseId now').of_rows hread.deployments
            have hrevived : (renewOverlay s leaseId now').revived =
                idleAmong w.store (w.store.deploymentIds leaseId) := by
              change idleAmong s (s.deploymentIds leaseId) = _
              unfold idleAmong Store.deploymentIds Store.claimsOf Store.getDeployment
              rw [hread.deployments, hread.claims]
            have hleased := hw.leased.rowsOnly hrows
            rw [hstore] at hapart hleased ⊢
            exact hw.commit hleased ho
              (by simp [renewOverlay, planAcquire, planLoop]) hdocs
              (commitsPlan_renewed ho rfl hrevived hdocs) hapart
      renewLive := fun w leaseId ttl now hw hnone => by
        have hrows := rowsOnly_renew w.store leaseId ttl ∅ now
        exact hw.same_rows (deployments_renewLive hnone) (hw.leased.rowsOnly hrows) hrows.leases
      approve := fun w digest hw => hmark w true false (some digest) none hw
      prune := fun w hw => by
        have hrows := rowsOnly_prune w.store
        exact ⟨.of_leases hrows.leases, hw.leased.rowsOnly hrows, hw.granted.prune⟩
      publishProfile := fun w profile digest hw =>
        hw.same_rows rfl (Store.Leased.of_isSome rfl) (List.Subset.refl _)
      migrate := fun w subnet reset digest fresh hw _ =>
        hw.same_rows rfl (leased_mark hw.leased true false (some digest) fresh) (List.Subset.refl _)
      writeProfile := fun w profile hw =>
        hw.same_rows rfl (Store.Leased.of_isSome rfl) (List.Subset.refl _) }

/-- A run whose steps revive apart stays within what the scheme allows. -/
theorem allowed_of_apart {env : Dict String String} {files : φ} {process : Process π δ}
    {es : List (CtlEvent B)}
    (hapart : AllSteps (ctlStep B) (fun sys e => RevivesApart sys.state (ctlStep B sys e).state)
      (CtlSys.init env files process) es) :
    AllSteps (ctlStep B) (Sys.Allowed (allocationRely B) fun _ _ => True)
      (CtlSys.init env files process) es := by
  refine hapart.mono fun sys e hstep => ?_
  cases e with
  | start v => exact .inr trivial
  | step i => exact hstep
  | crash => trivial
  | disturb r => trivial

omit [DecidableEq π] [DecidableEq δ] in
theorem granted_init (B : Backend π δ φ) (env : Dict String String) (files : φ)
    (process : Process π δ) :
    Sys.Good (allocationRely B) (CtlSys.init env files process) :=
  ⟨⟨fun _ => rfl, by constructor <;> simp [CtlSys.init, Store.empty, Table.mem_def]⟩,
    by simp [CtlSys.init]⟩

/-- The claims stay disjoint and in the inventory. -/
theorem grantedWorld_run {env : Dict String String} {files : φ} {process : Process π δ}
    {es : List (CtlEvent B)}
    (hapart : AllSteps (ctlStep B) (fun sys e => RevivesApart sys.state (ctlStep B sys e).state)
      (CtlSys.init env files process) es) :
    GrantedWorld B (worldAfter B env files process es) :=
  (Sys.run_inv ((allocationScheme B).kept_system fun _ hw => hw) (granted_init B env files process)
    (allowed_of_apart hapart)).inv

/-- Along every run whose steps revive apart, the claims of LIVE deployments are
disjoint and in the inventory, and no acquire takes a LIVE deployment's place. -/
theorem granted_run (B : Backend π δ φ) (env : Dict String String) (files : φ)
    (process : Process π δ) (es : List (CtlEvent B))
    (hapart : AllSteps (ctlStep B) (fun sys e => RevivesApart sys.state (ctlStep B sys e).state)
      (CtlSys.init env files process) es) :
    Granted B.host (worldAfter B env files process es).store ∧
      AllSteps (ctlStep B) (fun sys e => KeepsPlaced B sys.state (ctlStep B sys e).state)
        (CtlSys.init env files process) es := by
  have hkept := (allocationScheme B).kept_system fun _ hw => hw
  refine ⟨(grantedWorld_run hapart).granted, ?_⟩
  refine Sys.allSteps_guar hkept (fun v w => .of_leases (List.Subset.refl _)) (fun r w => ?_)
    (granted_init B env files process) (allowed_of_apart hapart)
  exact .of_leases (renewIfLive_onlyRenewals w r.leaseId r.ttlSeconds r.now).leases

/-! ## a desk with one GPU -/

/-- A backend over one GPU that writes where each deployment runs. -/
def desk : Backend Unit (List (String × Option (List Nat))) Unit where
  host := { gpus := Table.ofList [{ index := 0, memoryGib := 24 }] }
  reclaimDefault := "keep-warm"
  compatible _ := true
  settingsOnly := id
  acquireProfile s _ _ _ := .ok (if s.profile.isNone then some () else none)
  validateRequests _ _ := true
  secretNames _ := []
  enrichPlacement spec := spec.placement
  render input := .ok
    { digest := input.desired.map fun d => (d.id, input.assignments.get? d.id) }
  remember _ := ()

/-- A request for one GPU. -/
def modelRequest (model : String) : EndpointRequest where
  endpoint := model
  engine := .vllm
  structural := .vllm model none none none 1 1 1 none none false [] none model [] {}
  spec := { hfModelId := some model }

def deskProcess : Process Unit (List (String × Option (List Nat))) :=
  { invocation := (), settings := (), rendersFrom := () }

/-- An operation and enough steps to finish it. -/
def deskRun {B : Backend Unit (List (String × Option (List Nat))) Unit} (op : Op B)
    (input : Input) : List (CtlEvent B) :=
  .start ⟨deskProcess, by intro q h; contradiction, op⟩ :: List.replicate 40 (.step input)

/-- The container of the first deployment, left running. -/
def warmFirst : Residency where
  containers := Table.ofList [
    { containerId := "c1", deploymentId := "dep-a", state := .running, gpus := [0]
      service := "a", composeService := "a" }]

/-- Acquired, released, and still warm. -/
def leftWarm : List (CtlEvent desk) :=
  deskRun (.acquire "u" [modelRequest "a"] none true)
      { now := 1, residency := some {}, leaseId := "l1", newId := fun _ => "dep-a" } ++
    deskRun (.release "l1") { now := 2, residency := some warmFirst }

/-- Another model is given the GPU, unapplied, and the first one comes back. -/
def takenBack : List (CtlEvent desk) :=
  leftWarm ++
    deskRun (.acquire "v" [modelRequest "b"] none false)
      { now := 3, residency := some warmFirst, leaseId := "l2", newId := fun _ => "dep-b" } ++
    deskRun (.acquire "u" [modelRequest "a"] none true)
      { now := 4, residency := some warmFirst, leaseId := "l3", newId := fun _ => "dep-a" }

/-- Both are LIVE on the one GPU. -/
theorem takenBack_shares : ¬ Granted desk.host (worldAfter desk ∅ () deskProcess takenBack).store := by
  intro h
  have hrows : (worldAfter desk ∅ () deskProcess takenBack).store.deployments.rows.map
      (fun d => (d.id, d.state, d.assignedGpus)) =
        [("dep-a", .live, some [0]), ("dep-b", .live, some [0])] := by decide +kernel
  have hrow : ∀ g gpus, (g, DeploymentState.live, gpus) ∈
      [("dep-a", DeploymentState.live, some [0]), ("dep-b", .live, some [0])] →
      ∃ d ∈ (worldAfter desk ∅ () deskProcess takenBack).store.deployments,
        d.id = g ∧ d.state = .live ∧ d.assignedGpus = gpus := by
    intro g gpus hg
    rw [← hrows] at hg
    obtain ⟨d, hd, heq⟩ := List.mem_map.mp hg
    simp only [Prod.mk.injEq] at heq
    exact ⟨d, hd, heq⟩
  obtain ⟨d, hd, hdid, hdlive, hdgpus⟩ := hrow "dep-a" (some [0]) (by simp)
  obtain ⟨e, he, heid, helive, hegpus⟩ := hrow "dep-b" (some [0]) (by simp)
  have hne : d.id ≠ e.id := by simp [hdid, heid]
  exact h.apart d hd e he hne hdlive helive [0] [0] hdgpus hegpus 0 (by simp) (by simp)

/-- A desk with a second GPU. -/
def bench : Backend Unit (List (String × Option (List Nat))) Unit :=
  { desk with host :=
      { gpus := Table.ofList [{ index := 0, memoryGib := 24 }, { index := 1, memoryGib := 24 }] } }

/-- Containers that run on one GPU each. -/
def running (containers : List (String × Nat)) : Option Residency :=
  some { containers := Table.ofList (containers.map fun c =>
    { containerId := c.1, deploymentId := c.1, state := .running, gpus := [c.2]
      service := c.1, composeService := c.1 }) }

/-- Two models are served, and a third takes the place of the first; then the
second, released and still warm on GPU 1, comes back beside the third. -/
def backBeside : List (CtlEvent bench) :=
  deskRun (.acquire "u" [modelRequest "x"] none true)
      { now := 1, residency := running [], leaseId := "l1", newId := fun _ => "dep-x" } ++
    deskRun (.acquire "u" [modelRequest "a"] none true)
      { now := 2, residency := running [("dep-x", 0)], leaseId := "l2", newId := fun _ => "dep-a" } ++
    deskRun (.release "l1") { now := 3, residency := running [("dep-x", 0), ("dep-a", 1)] } ++
    deskRun (.acquire "u" [modelRequest "b"] none true)
      { now := 4, residency := running [("dep-x", 0), ("dep-a", 1)], leaseId := "l3"
        newId := fun _ => "dep-b" } ++
    deskRun (.release "l2") { now := 5, residency := running [("dep-a", 1), ("dep-b", 0)] } ++
    deskRun (.acquire "u" [modelRequest "a"] none true)
      { now := 6, residency := running [("dep-a", 1), ("dep-b", 0)], leaseId := "l4" }

/-- Coming back to a GPU that nobody else was given is fine, and takes the place
of no other. -/
theorem backBeside_granted :
    ((worldAfter bench ∅ () deskProcess backBeside).store.deployments.rows.map fun d =>
        (d.id, d.state, d.assignedGpus)) =
      [("dep-x", .idle, none), ("dep-a", .live, some [1]), ("dep-b", .live, some [0])] ∧
    Granted bench.host (worldAfter bench ∅ () deskProcess backBeside).store ∧
    AllSteps (ctlStep bench) (fun sys e => KeepsPlaced bench sys.state (ctlStep bench sys e).state)
      (CtlSys.init ∅ () deskProcess) backBeside :=
  ⟨by decide +kernel, granted_run bench ∅ () deskProcess backBeside (by decide +kernel)⟩

end Scheme

end InferStack
