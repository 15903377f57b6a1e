import InferStack.Ledger.Plan

/-!
# InferStack.Ledger.Overlay

What a finished overlay says about the ledger it was computed on: `OverlayOn`.
Its rows are the claimed ones, each of them new, or a stored LIVE or IDLE row
as the commit leaves it.
-/

namespace InferStack

open Kit

variable {π δ : Type}

/-- The overlay's row `v` is the ledger's row `d`, in demand.  An IDLE one is
revived; what it says about GPUs is nothing, or what the ledger says. -/
structure InDemand (o : AcquireOverlay) (d v : Deployment) : Prop where
  row : v = { d with state := .live, served := v.served, assignedGpus := v.assignedGpus }
  served : v.served = (o.servedUpdates.get? d.id).getD d.served
  cases : (d.state = .live ∧ d.id ∉ o.revived ∧ v.assignedGpus = d.assignedGpus) ∨
    (d.state = .idle ∧ d.id ∈ o.revived ∧
      (v.assignedGpus = none ∨ v.assignedGpus = d.assignedGpus))

/-- The overlay shows the rows its lease claims, new or in the ledger `s`. -/
structure OverlayOn (s : Store π δ) (o : AcquireOverlay) : Prop where
  created : ∀ d ∈ o.created, d ∈ o.deployments ∧ d.state = .live ∧ d.assignedGpus = none
  stored : ∀ v ∈ o.deployments, v.id ∉ o.created.keys →
    ∃ d, s.getDeployment v.id = some d ∧ InDemand o d v
  revived : ∀ g ∈ o.revived, g ∈ o.deployments.keys ∧
    ∃ d, s.getDeployment g = some d ∧ d.state = .idle
  updates : ∀ g m, o.servedUpdates.get? g = some m → g ∈ o.deployments.keys
  claims : ∀ rg ∈ o.claims, rg.2 ∈ o.deployments.keys

theorem InDemand.id {o : AcquireOverlay} {d v : Deployment} (h : InDemand o d v) : v.id = d.id := by
  rw [h.row]

theorem InDemand.createdAt {o : AcquireOverlay} {d v : Deployment} (h : InDemand o d v) :
    v.createdAt = d.createdAt := by
  rw [h.row]

theorem InDemand.spec {o : AcquireOverlay} {d v : Deployment} (h : InDemand o d v) :
    v.spec = d.spec := by
  rw [h.row]

theorem InDemand.state {o : AcquireOverlay} {d v : Deployment} (h : InDemand o d v) :
    v.state = .live := by
  rw [h.row]

/-- Every row of an overlay is LIVE. -/
theorem OverlayOn.live {s : Store π δ} {o : AcquireOverlay} (h : OverlayOn s o) {v : Deployment}
    (hv : v ∈ o.deployments) : v.state = .live := by
  by_cases hnew : v.id ∈ o.created.keys
  · obtain ⟨d, hd, hid⟩ := Table.mem_keys.mp hnew
    have hcreated := h.created d hd
    have heq : d = v := Table.eq_of_key_eq hcreated.1 hv hid
    rw [← heq]
    exact hcreated.2.1
  · obtain ⟨d, -, hdemand⟩ := h.stored v hv hnew
    exact hdemand.state

/-- What a commit makes LIVE is a row of the overlay. -/
theorem OverlayOn.mem_keys_of_fresh {s : Store π δ} {o : AcquireOverlay} (h : OverlayOn s o)
    {g : String} (hg : g ∈ o.created.keys ++ o.revived) : g ∈ o.deployments.keys := by
  cases List.mem_append.mp hg with
  | inl hnew =>
      obtain ⟨d, hd, rfl⟩ := Table.mem_keys.mp hnew
      exact Table.mem_keys.mpr ⟨d, (h.created d hd).1, rfl⟩
  | inr hrevived => exact (h.revived g hrevived).1

/-- An overlay reads deployment rows only. -/
theorem OverlayOn.of_rows {s s' : Store π δ} {o : AcquireOverlay} (h : OverlayOn s o)
    (hrows : s.deployments = s'.deployments) : OverlayOn s' o := by
  have hget : ∀ g, s'.getDeployment g = s.getDeployment g := fun g => by
    unfold Store.getDeployment
    rw [hrows]
  constructor
  · exact h.created
  · intro v hv hnew
    rw [hget]
    exact h.stored v hv hnew
  · intro g hg
    rw [hget]
    exact h.revived g hg
  · exact h.updates
  · exact h.claims

/-! ## the plan of an acquire -/

/-- What the loop of a plan has put into its view is claimed, and what it has
created has no GPUs yet. -/
structure ClaimInv (p : PlanState) : Prop where
  claimed : ∀ g ∈ p.view.keys, g ∈ p.claims.map Prod.snd
  unassigned : ∀ d ∈ p.created, d.assignedGpus = none

theorem ClaimInv.put {p q : PlanState} {d : Deployment} (h : ClaimInv p)
    (hview : q.view = p.view.put d) (hclaims : q.claims.map Prod.snd = p.claims.map Prod.snd ++ [d.id])
    (hcreated : ∀ e ∈ q.created, e ∈ p.created ∨ e.assignedGpus = none) : ClaimInv q := by
  constructor
  · intro g hg
    rw [hview, Table.mem_keys_put] at hg
    rw [hclaims]
    cases hg with
    | inl hnew => simp [hnew]
    | inr hold => exact List.mem_append_left _ (h.claimed g hold)
  · intro e he
    cases hcreated e he with
    | inl hold => exact h.unassigned e hold
    | inr hnone => exact hnone

theorem planRequest_claimInv {s : Store π δ} {resident : String → Bool} {now : Int}
    {newId : Nat → String} {p : PlanState} (hp : PlanInv s p) (h : ClaimInv p)
    (r : EndpointRequest) : ClaimInv (planRequest s resident now newId p r) := by
  unfold planRequest
  cases hchoose : chooseDeployment s resident p r with
  | none =>
      apply h.put (d := newDeployment (newId p.claims.length) now r) rfl (by simp [PlanState.create])
      intro e he
      cases Table.mem_put.mp he with
      | inl hnew => exact .inr (by rw [hnew]; rfl)
      | inr hold => exact .inl hold.1
  | some c =>
      apply h.put (d := c.revive.serving r.endpoint r.served) rfl (by simp [PlanState.reuse])
      intro e he
      by_cases hc : c.id ∈ p.created.keys
      · simp only [PlanState.reuse, if_pos hc] at he
        cases Table.mem_put.mp he with
        | inl hnew =>
            -- the chosen row is the plan's own, which is LIVE already
            obtain ⟨b, hb, hid⟩ := Table.mem_keys.mp hc
            have hbview := (hp.created b hb).1
            have hcview : c ∈ p.view := by
              cases hp.choice hchoose with
              | inl hin => exact hin
              | inr hout => exact absurd (Table.mem_keys.mpr ⟨b, hbview, hid⟩) hout.1
            have heq : b = c := Table.eq_of_key_eq hbview hcview hid
            have hrevive : c.revive = c := Deployment.revive_of_live (hp.view_live hcview)
            right
            rw [hnew, hrevive, Deployment.serving_eq, ← heq]
            exact h.unassigned b hb
        | inr hold => exact .inl hold.1
      · simp only [PlanState.reuse, if_neg hc] at he
        exact .inl he

theorem planLoop_claimInv (s : Store π δ) (resident : String → Bool) (now : Int)
    (newId : Nat → String) (requests : List EndpointRequest) :
    ClaimInv (planLoop s resident now newId requests) := by
  unfold planLoop
  have hgen : ∀ p, PlanInv s p → ClaimInv p →
      ClaimInv (requests.foldl (planRequest s resident now newId) p) := by
    induction requests with
    | nil => exact fun p _ h => h
    | cons r rs ih =>
        exact fun p hp h => ih _ (planRequest_inv hp r) (planRequest_claimInv hp h r)
  exact hgen {} (PlanInv.empty s) ⟨by simp [Table.keys], by simp⟩

/-- The deployments of an overlay are the rows of the plan's view it claims. -/
theorem find?_overlay {s : Store π δ} {p : PlanState} (hp : PlanInv s p)
    {rg : EndpointRequest × String} (hrg : rg ∈ p.claims) :
    (Table.ofList ((p.claims.map Prod.snd).eraseDups.filterMap p.view.find?) :
      Table Deployment Deployment.id).find? rg.2 = p.view.find? rg.2 := by
  have hview : p.view.find? rg.2 ≠ none := by
    have hkey := hp.claims rg hrg
    rw [Table.mem_keys_iff] at hkey
    exact Option.isSome_iff_ne_none.mp hkey
  obtain ⟨d, hd⟩ := Option.ne_none_iff_exists'.mp hview
  obtain ⟨hmem, hid⟩ := Table.find?_eq_some.mp hd
  have hlisted : d ∈ (p.claims.map Prod.snd).eraseDups.filterMap p.view.find? := by
    rw [List.mem_filterMap]
    exact ⟨rg.2, List.mem_eraseDups.mpr (List.mem_map_of_mem hrg), hd⟩
  have hkey : rg.2 ∈ (Table.ofList ((p.claims.map Prod.snd).eraseDups.filterMap p.view.find?) :
      Table Deployment Deployment.id).keys := by
    rw [Table.mem_keys_ofList, ← hid]
    exact List.mem_map_of_mem hlisted
  obtain ⟨e, he, heid⟩ := Table.mem_keys.mp hkey
  -- whatever row the overlay has under this id is the view's row
  obtain ⟨g, -, hg⟩ := List.mem_filterMap.mp (Table.mem_of_mem_ofList he)
  obtain ⟨heview, -⟩ := Table.find?_eq_some.mp hg
  have hsame : e = d := Table.eq_of_key_eq heview hmem (heid.trans hid.symm)
  rw [hd, Table.find?_eq_some]
  exact ⟨hsame ▸ he, hid⟩

/-- The overlay of a plan shows its view. -/
theorem find?_planAcquire (s : Store π δ) (requests : List EndpointRequest)
    (resident : String → Bool) (now : Int) (newId : Nat → String) (g : String) :
    (planAcquire s requests resident now newId).deployments.find? g =
      (planLoop s resident now newId requests).view.find? g := by
  have hp := planLoop_inv s resident now newId requests
  have hclaimed := planLoop_claimInv s resident now newId requests
  by_cases hg : g ∈ (planLoop s resident now newId requests).view.keys
  · obtain ⟨rg, hrg, rfl⟩ := List.mem_map.mp (hclaimed.claimed g hg)
    exact find?_overlay hp hrg
  · have hnone : (planLoop s resident now newId requests).view.find? g = none :=
      Table.find?_of_not_mem_keys hg
    rw [hnone, Table.find?_eq_none]
    intro d hd hid
    obtain ⟨k, -, hfind⟩ := List.mem_filterMap.mp (Table.mem_of_mem_ofList hd)
    exact hg (Table.mem_keys.mpr ⟨d, (Table.find?_eq_some.mp hfind).1, hid⟩)

/-- The overlay of a plan, on the ledger it was computed on. -/
theorem planAcquire_overlayOn (s : Store π δ) (requests : List EndpointRequest)
    (resident : String → Bool) (now : Int) (newId : Nat → String) :
    OverlayOn s (planAcquire s requests resident now newId) := by
  have hp := planLoop_inv s resident now newId requests
  have hclaimed := planLoop_claimInv s resident now newId requests
  have hmem : ∀ v, v ∈ (planAcquire s requests resident now newId).deployments ↔
      v ∈ (planLoop s resident now newId requests).view := fun v => by
    rw [Table.mem_iff_find?, Table.mem_iff_find?, find?_planAcquire]
  have hkeys : ∀ g, g ∈ (planAcquire s requests resident now newId).deployments.keys ↔
      g ∈ (planLoop s resident now newId requests).view.keys := fun g => by
    rw [Table.mem_keys_iff, Table.mem_keys_iff, find?_planAcquire]
  constructor
  · intro d hd
    have hcreated := hp.created d hd
    exact ⟨(hmem d).mpr hcreated.1, hcreated.2, hclaimed.unassigned d hd⟩
  · intro v hv hnew
    obtain ⟨d, hd, hcl⟩ := hp.stored v ((hmem v).mp hv) hnew
    refine ⟨d, hd, ?_, hcl.served, ?_⟩
    · have hrow := hcl.row
      unfold Deployment.revive at hrow
      cases hcl.state with
      | inl hlive => rw [if_neg (by simp [hlive])] at hrow; rw [hrow, ← hlive]
      | inr hidle => rw [if_pos hidle] at hrow; rw [hrow]
    · have hrow := hcl.row
      cases hcl.state with
      | inl hlive =>
          rw [Deployment.revive_of_live hlive] at hrow
          have hnot : d.id ∉ (planLoop s resident now newId requests).revived := fun hin => by
            have hidle := hcl.revived.mpr hin
            rw [hlive] at hidle
            contradiction
          exact .inl ⟨hlive, hnot, by rw [hrow]⟩
      | inr hidle =>
          refine .inr ⟨hidle, hcl.revived.mp hidle, .inl ?_⟩
          unfold Deployment.revive at hrow
          rw [hrow, if_pos hidle]
  · intro g hg
    obtain ⟨hview, hidle⟩ := hp.revived g hg
    exact ⟨(hkeys g).mpr hview, hidle⟩
  · exact fun g m hm => (hkeys g).mpr (hp.updates g m hm)
  · exact fun rg hrg => (hkeys rg.2).mpr (hp.claims rg hrg)

end InferStack
