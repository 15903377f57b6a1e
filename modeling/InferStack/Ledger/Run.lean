import InferStack.Kit.Machine
import InferStack.Ledger.Spec

/-!
# InferStack.Ledger.Run

The ledger as a machine: its transactions in any order, an acquire committing
an overlay that may have been planned many steps earlier.

`AllRows R` says that every deployment row satisfies `R`.  What no write of the
ledger breaks (`RowStable`) holds of every row of every run, if it holds of the
rows acquires create: `AllRows.step`.
-/

namespace InferStack

open Kit

variable {π δ : Type}

/-! ## the operations as a machine -/

/-- An operation of the ledger.  An acquire commits an overlay planned earlier
in the run (by position), or plans inside its own transaction. -/
inductive LedgerOp (π δ : Type) where
  | plan (requests : List EndpointRequest) (resident : String → Bool) (newId : Nat → String)
  | acquire (leaseId owner : String) (ttlSeconds : Option Int) (overlay : Option Nat)
      (requests : List EndpointRequest) (newId : Nat → String)
      (allocations : Dict String (List Nat)) (approvedDigest : Option δ) (profile : Option π)
  | release (leaseId : String)
  | renew (leaseId : String) (ttlSeconds : Option Int) (allocations : Dict String (List Nat))
  | renewIfLive (leaseId : String) (ttlSeconds : Option Int)
  | sweep
  | evictIdle (deploymentIds : Option (List String))
  | prune
  | setAllocation (deploymentId : String) (gpus : Option (List Nat))

/-- The requests an operation plans for, with its ids. -/
def LedgerOp.requests : LedgerOp π δ → Option (List EndpointRequest × (Nat → String))
  | .plan requests _ newId => some (requests, newId)
  | .acquire _ _ _ none requests newId _ _ _ => some (requests, newId)
  | _ => none

/-- The store, the overlays planned so far and the last clock reading. -/
structure LedgerState (π δ : Type) where
  store : Store π δ
  overlays : List AcquireOverlay
  now : Int

/-- The empty store. -/
def LedgerState.init (now : Int) : LedgerState π δ := ⟨Store.empty, [], now⟩

/-- The store after an acquire, unchanged if its transaction rolled back. -/
def acquireOrKeep (s : Store π δ) (leaseId owner : String) (ttlSeconds : Option Int)
    (o : AcquireOverlay) (allocations : Dict String (List Nat)) (approvedDigest : Option δ)
    (profile : Option π) : Store π δ :=
  match acquire s leaseId owner ttlSeconds o allocations approvedDigest profile with
  | .ok s' => s'
  | .error _ => s

/-- The store after an operation at a clock reading. -/
def applyOp (st : LedgerState π δ) (now : Int) (op : LedgerOp π δ) : Store π δ :=
  match op with
  | .plan _ _ _ => st.store
  | .acquire leaseId owner ttl none requests newId allocations digest profile =>
      acquireOrKeep st.store leaseId owner ttl
        (planAcquire st.store requests (fun _ => false) now newId) allocations digest profile
  | .acquire leaseId owner ttl (some i) _ _ allocations digest profile =>
      match st.overlays[i]? with
      | none => st.store
      | some o => acquireOrKeep st.store leaseId owner ttl o allocations digest profile
  | .release leaseId => (release st.store leaseId now).2
  | .renew leaseId ttl allocations => (renew st.store leaseId ttl allocations now).2
  | .renewIfLive leaseId ttl => (renewIfLive st.store leaseId ttl now).2
  | .sweep => (sweep st.store now).2
  | .evictIdle ids => (evictIdle st.store ids now).2
  | .prune => pruneTerminal st.store
  | .setAllocation g gpus => setAllocation st.store g gpus

/-- One operation at its clock reading. -/
def ledgerStep (st : LedgerState π δ) (e : Int × LedgerOp π δ) : LedgerState π δ where
  store := applyOp st e.1 e.2
  overlays :=
    match e.2 with
    | .plan requests resident newId =>
        st.overlays ++ [planAcquire st.store requests resident e.1 newId]
    | _ => st.overlays
  now := e.1

/-- The clock does not run backwards. -/
def Timely (st : LedgerState π δ) (e : Int × LedgerOp π δ) : Prop := st.now ≤ e.1

instance (st : LedgerState π δ) (e : Int × LedgerOp π δ) : Decidable (Timely st e) :=
  inferInstanceAs (Decidable (_ ≤ _))

/-! ## what every row keeps -/

/-- A property of rows that no write of the ledger breaks. -/
structure RowStable (R : Deployment → Prop) : Prop where
  withState : ∀ d st t, st ≠ DeploymentState.reclaiming → R d → R (d.withState st t)
  withAllocation : ∀ d gpus, R d → R (d.withAllocation gpus)
  withServed : ∀ d m t, R d → R (d.withServed m t)
  stored : ∀ d, R d → R d.stored

/-- Every deployment row of the store satisfies `R`. -/
def AllRows (R : Deployment → Prop) (s : Store π δ) : Prop :=
  ∀ g d, s.getDeployment g = some d → R d

section Rows

variable {R : Deployment → Prop} {s s' : Store π δ}

theorem AllRows.of_mem (h : AllRows R s) {d : Deployment} (hd : d ∈ s.deployments) : R d :=
  h d.id d (Table.mem_iff_find?.mp hd)

/-- Moving some rows into a state the ledger writes. -/
theorem AllRows.move (hR : RowStable R) (h : AllRows R s) {ids : List String}
    {st : DeploymentState} (hst : st ≠ .reclaiming) {now : Int}
    (hget : ∀ g, s'.getDeployment g =
      if g ∈ ids then (s.getDeployment g).map (·.withState st now) else s.getDeployment g) :
    AllRows R s' := by
  intro g d' hd'
  rw [hget] at hd'
  by_cases hg : g ∈ ids
  · rw [if_pos hg] at hd'
    obtain ⟨d, hd, rfl⟩ := Option.map_eq_some_iff.mp hd'
    exact hR.withState d st now hst (h g d hd)
  · rw [if_neg hg] at hd'
    exact h g d' hd'

/-- An acquire writes its created rows and moves stored ones. -/
theorem AllRows.acquired (hR : RowStable R) (h : AllRows R s) {leaseId owner : String}
    {ttl : Option Int} {o : AcquireOverlay} {allocations : Dict String (List Nat)}
    {digest : Option δ} {profile : Option π} (hcreated : ∀ d ∈ o.created, R d)
    (hacq : Acquired s s' leaseId owner ttl o allocations digest profile) : AllRows R s' := by
  intro g d' hd'
  rw [hacq.getDeployment] at hd'
  unfold acquiredRow at hd'
  -- the writes in order: the base row, the revival, the served map, the allocation
  have hbase : ∀ d, (s.getDeployment g).or ((o.created.find? g).map Deployment.stored) = some d →
      R d := by
    intro d hd
    cases Option.or_eq_some_iff.mp hd with
    | inl hs => exact h g d hs
    | inr hc =>
        obtain ⟨c, hmem, rfl⟩ := Option.map_eq_some_iff.mp hc.2
        exact hR.stored c (hcreated c (Table.find?_eq_some.mp hmem).1)
  have hmap : ∀ (row : Option Deployment) (f : Deployment → Deployment),
      (∀ d, row = some d → R d) → (∀ d, R d → R (f d)) → ∀ d, row.map f = some d → R d := by
    intro row f hrow hf d hd
    obtain ⟨e, he, rfl⟩ := Option.map_eq_some_iff.mp hd
    exact hf e (hrow e he)
  have hrevived : ∀ d, (if g ∈ o.revived then
      ((s.getDeployment g).or ((o.created.find? g).map Deployment.stored)).map
        (·.withState .live o.now)
      else (s.getDeployment g).or ((o.created.find? g).map Deployment.stored)) = some d → R d := by
    by_cases hg : g ∈ o.revived
    · rw [if_pos hg]
      exact hmap _ _ hbase fun d hd => hR.withState d _ _ (by decide) hd
    · rw [if_neg hg]
      exact hbase
  cases hm : o.servedUpdates.get? g with
  | none =>
      rw [hm] at hd'
      cases ha : allocations.get? g with
      | none => rw [ha] at hd'; exact hrevived d' hd'
      | some gpus =>
          rw [ha] at hd'
          exact hmap _ _ hrevived (fun d hd => hR.withAllocation d _ hd) d' hd'
  | some m =>
      rw [hm] at hd'
      have hserved := hmap _ (·.withServed m o.now) hrevived fun d hd => hR.withServed d _ _ hd
      cases ha : allocations.get? g with
      | none => rw [ha] at hd'; exact hserved d' hd'
      | some gpus =>
          rw [ha] at hd'
          exact hmap _ _ hserved (fun d hd => hR.withAllocation d _ hd) d' hd'

theorem AllRows.acquireOrKeep (hR : RowStable R) (h : AllRows R s) {leaseId owner : String}
    {ttl : Option Int} {o : AcquireOverlay} {allocations : Dict String (List Nat)}
    {digest : Option δ} {profile : Option π} (hcreated : ∀ d ∈ o.created, R d) :
    AllRows R (acquireOrKeep s leaseId owner ttl o allocations digest profile) := by
  unfold InferStack.acquireOrKeep
  cases hacq : acquire s leaseId owner ttl o allocations digest profile with
  | error _ => exact h
  | ok s' => exact h.acquired hR hcreated (acquire_ok hacq)

theorem AllRows.prune (h : AllRows R s) : AllRows R (pruneTerminal s) := by
  intro g d hd
  have hget : (pruneTerminal s).getDeployment g =
      (s.getDeployment g).filter (fun d => d.state ∉ [DeploymentState.stopped]) :=
    Table.find?_filter g
  rw [hget, Option.filter_eq_some_iff] at hd
  exact h g d hd.1

theorem AllRows.setAllocation (hR : RowStable R) (h : AllRows R s) (g : String)
    (gpus : Option (List Nat)) : AllRows R (setAllocation s g gpus) := by
  intro g' d' hd'
  change (s.setDeploymentAllocation g gpus).getDeployment g' = some d' at hd'
  rw [Store.getDeployment_setDeploymentAllocation] at hd'
  by_cases hg : g' = g
  · rw [if_pos hg] at hd'
    obtain ⟨d, hd, rfl⟩ := Option.map_eq_some_iff.mp hd'
    exact hR.withAllocation d gpus (h g' d hd)
  · rw [if_neg hg] at hd'
    exact h g' d' hd'

theorem AllRows.renew (hR : RowStable R) (h : AllRows R s) (leaseId : String)
    (ttl : Option Int) (allocations : Dict String (List Nat)) (now : Int) :
    AllRows R (renew s leaseId ttl allocations now).2 := by
  cases renew_cases s leaseId ttl allocations now with
  | inl hnone => rw [hnone.2]; exact h
  | inr hsome =>
      obtain ⟨l, -, -, heq⟩ := hsome
      rw [heq]
      intro g d' hd'
      rw [getDeployment_renewedStore] at hd'
      by_cases hg : g ∈ idleAmong s (s.deploymentIds leaseId)
      · rw [if_pos hg] at hd'
        obtain ⟨d, hd, rfl⟩ := Option.map_eq_some_iff.mp hd'
        obtain ⟨e, he, rfl⟩ := Option.map_eq_some_iff.mp hd
        have hlive := hR.withState e .live now (by decide) (h g e he)
        cases allocations.get? g with
        | none => exact hlive
        | some gpus => exact hR.withAllocation _ _ hlive
      · rw [if_neg hg] at hd'
        exact h g d' hd'

theorem AllRows.renewIfLive (h : AllRows R s) (leaseId : String) (ttl : Option Int)
    (now : Int) : AllRows R (renewIfLive s leaseId ttl now).2 := by
  cases renewIfLive_cases s leaseId ttl now with
  | inl hsame => rw [hsame.1]; exact h
  | inr hrenewed =>
      obtain ⟨l, -, -, -, hstore⟩ := hrenewed
      rw [hstore]
      exact h

/-- One operation keeps `R` of every row, if what an acquire creates satisfies it. -/
theorem AllRows.step (hR : RowStable R) {st : LedgerState π δ} (h : AllRows R st.store)
    (hoverlays : ∀ o ∈ st.overlays, ∀ d ∈ o.created, R d) (e : Int × LedgerOp π δ)
    (hrequests : ∀ requests newId, e.2.requests = some (requests, newId) →
      ∀ d ∈ (planAcquire st.store requests (fun _ => false) e.1 newId).created, R d) :
    AllRows R (ledgerStep st e).store := by
  obtain ⟨now, op⟩ := e
  cases op with
  | plan _ _ _ => exact h
  | acquire leaseId owner ttl overlay requests newId allocations digest profile =>
      cases overlay with
      | none => exact h.acquireOrKeep hR (hrequests requests newId rfl)
      | some i =>
          dsimp only [ledgerStep, applyOp]
          cases ho : st.overlays[i]? with
          | none => exact h
          | some o => exact h.acquireOrKeep hR (hoverlays o (List.mem_of_getElem? ho))
  | release leaseId => exact h.move hR (by decide) getDeployment_release
  | renew leaseId ttl allocations => exact h.renew hR leaseId ttl allocations now
  | renewIfLive leaseId ttl => exact h.renewIfLive leaseId ttl now
  | sweep => exact h.move hR (by decide) getDeployment_sweep
  | evictIdle ids => exact h.move hR (by decide) getDeployment_evictIdle
  | prune => exact h.prune
  | setAllocation g gpus => exact h.setAllocation hR g gpus

end Rows

/-! ## what every planned row keeps -/

section Plans

variable {R : Deployment → Prop} {s : Store π δ}

theorem RowStable.revive (hR : RowStable R) {d : Deployment} (h : R d) : R d.revive := by
  unfold Deployment.revive
  by_cases hidle : d.state = .idle
  · rw [if_pos hidle]
    have hrow := hR.withState _ .live d.updatedAt (by decide) (hR.withAllocation d none h)
    exact hrow
  · rw [if_neg hidle]
    exact h

theorem RowStable.serving (hR : RowStable R) {d : Deployment} (h : R d) (e : String)
    (m : Served) : R (d.serving e m) := by
  unfold Deployment.serving
  by_cases hsame : d.served.get? e = some m
  · rw [if_pos hsame]
    exact h
  · rw [if_neg hsame]
    exact hR.withServed d _ d.updatedAt h

/-- The rows a plan has in view, its own included, satisfy `R`. -/
structure PlanRows (R : Deployment → Prop) (p : PlanState) : Prop where
  view : ∀ d ∈ p.view, R d
  created : ∀ d ∈ p.created, R d

/-- A chosen row satisfies `R`. -/
theorem PlanRows.choice {p : PlanState} (hp : PlanRows R p) (hs : AllRows R s)
    {resident : String → Bool} {r : EndpointRequest} {c : Deployment}
    (h : chooseDeployment s resident p r = some c) : R c := by
  obtain ⟨-, -, hc⟩ := chooseDeployment_spec h
  cases hc with
  | inr hcreated => exact hp.created c hcreated.1
  | inl hstored =>
      obtain ⟨g, hg, -, -, -, rfl⟩ := hstored
      cases hv : p.view.find? g.id with
      | none => exact hs.of_mem hg
      | some v => exact hp.view v (Table.find?_eq_some.mp hv).1

/-- One request keeps `R` of the plan's rows. -/
theorem PlanRows.planRequest (hR : RowStable R) {p : PlanState} (hp : PlanRows R p)
    (hs : AllRows R s) (resident : String → Bool) (now : Int) (newId : Nat → String)
    {r : EndpointRequest} (hnew : ∀ id, R (newDeployment id now r)) :
    PlanRows R (planRequest s resident now newId p r) := by
  have hput : ∀ (t : Table Deployment Deployment.id) (d : Deployment), (∀ e ∈ t, R e) → R d →
      ∀ e ∈ t.put d, R e := by
    intro t d ht hd e he
    cases Table.mem_put.mp he with
    | inl heq => rw [heq]; exact hd
    | inr hold => exact ht e hold.1
  unfold InferStack.planRequest
  cases h : chooseDeployment s resident p r with
  | none => exact ⟨hput _ _ hp.view (hnew _), hput _ _ hp.created (hnew _)⟩
  | some c =>
      have hrow : R (c.revive.serving r.endpoint r.served) :=
        hR.serving (hR.revive (hp.choice hs h)) _ _
      refine ⟨hput _ _ hp.view hrow, ?_⟩
      unfold PlanState.reuse
      by_cases hc : c.id ∈ p.created.keys
      · simp only [hc, if_true]
        exact hput _ _ hp.created hrow
      · simp only [hc, if_false]
        exact hp.created

/-- Every row a plan creates satisfies `R`, if its requests' new rows do. -/
theorem planAcquire_rows (hR : RowStable R) (hs : AllRows R s)
    {requests : List EndpointRequest} (resident : String → Bool) (now : Int)
    (newId : Nat → String) (hnew : ∀ r ∈ requests, ∀ id, R (newDeployment id now r)) :
    ∀ d ∈ (planAcquire s requests resident now newId).created, R d := by
  have hgen : ∀ p, PlanRows R p →
      PlanRows R (requests.foldl (InferStack.planRequest s resident now newId) p) := by
    induction requests with
    | nil => exact fun p hp => hp
    | cons r rs ih =>
        intro p hp
        refine ih (fun r' hr' => hnew r' (List.mem_cons_of_mem r hr')) _ ?_
        exact hp.planRequest hR hs resident now newId (hnew r List.mem_cons_self)
  exact (hgen {} ⟨by simp, by simp⟩).created

end Plans

/-! ## runs whose requests are of one kind -/

/-- Every request an operation plans for satisfies `Q`. -/
def Asks (Q : EndpointRequest → Prop) (_ : LedgerState π δ) (e : Int × LedgerOp π δ) : Prop :=
  ∀ requests newId, e.2.requests = some (requests, newId) → ∀ r ∈ requests, Q r

/-- Every row of the store and of the overlays satisfies `R`. -/
structure RowsInv (R : Deployment → Prop) (st : LedgerState π δ) : Prop where
  rows : AllRows R st.store
  overlays : ∀ o ∈ st.overlays, ∀ d ∈ o.created, R d

/-- Along a run of requests of one kind, every row is of the kind they create. -/
theorem RowsInv.run {R : Deployment → Prop} {Q : EndpointRequest → Prop} (hR : RowStable R)
    (hQ : ∀ r, Q r → ∀ id now, R (newDeployment id now r)) (start : Int)
    {es : List (Int × LedgerOp π δ)}
    (h : AllSteps ledgerStep (Asks Q) (LedgerState.init start) es) :
    RowsInv R (run ledgerStep (LedgerState.init start) es) := by
  refine AllSteps.run_inv ?_ ?_ h
  · intro st e hinv hask
    have hplan : ∀ requests newId, e.2.requests = some (requests, newId) → ∀ resident,
        ∀ d ∈ (planAcquire st.store requests resident e.1 newId).created, R d := by
      intro requests newId hreq resident
      exact planAcquire_rows hR hinv.rows resident e.1 newId
        fun r hr id => hQ r (hask requests newId hreq r hr) id e.1
    refine ⟨hinv.rows.step hR hinv.overlays e fun requests newId hreq => hplan _ _ hreq _, ?_⟩
    obtain ⟨now, op⟩ := e
    cases op with
    | plan requests resident newId =>
        intro o ho
        cases List.mem_append.mp ho with
        | inl hold => exact hinv.overlays o hold
        | inr hnew =>
            obtain rfl := List.mem_singleton.mp hnew
            exact hplan requests newId rfl resident
    | _ => exact hinv.overlays
  · refine ⟨fun g d hd => ?_, by simp [LedgerState.init]⟩
    simp [LedgerState.init, Store.empty, Store.getDeployment, Table.find?] at hd

end InferStack
