import InferStack.Ledger.Plan

/-!
# InferStack.Ledger.Spec

What each ledger transaction does to the store, one statement per transaction.
Later modules cite these and never unfold the transaction:

* `acquire_ok` — a committed acquire, as the record `Acquired`;
* `getDeployment_idleDeployments`, `getDeployment_evictIdle`,
  `getDeployment_renew` — how a deployment row moves;
* `getLease_release`, `getLease_sweep`, `getLease_renew` — how a lease row moves.
-/

namespace InferStack

open Kit

variable {π δ : Type}

/-! ## acquire -/

/-- The row of deployment `g` right after an acquire commits. -/
def acquiredRow (s : Store π δ) (o : AcquireOverlay) (allocations : Dict String (List Nat))
    (g : String) : Option Deployment :=
  let row := (s.getDeployment g).or ((o.created.find? g).map Deployment.stored)
  let row := if g ∈ o.revived then row.map (·.withState .live o.now) else row
  let row := (o.servedUpdates.get? g).elim row (fun m => row.map (·.withServed m o.now))
  (allocations.get? g).elim row (fun gpus => row.map (·.withAllocation (some gpus)))

/-- The lease row an acquire inserts. -/
def acquiredLease (leaseId owner : String) (ttlSeconds : Option Int) (o : AcquireOverlay) :
    Lease :=
  ⟨leaseId, owner, .active, o.now, ttlSeconds, ttlSeconds.map (o.now + ·), o.now⟩

/-- A committed acquire. -/
structure Acquired (s s' : Store π δ) (leaseId owner : String) (ttlSeconds : Option Int)
    (o : AcquireOverlay) (allocations : Dict String (List Nat)) (approvedDigest : Option δ)
    (profile : Option π) : Prop where
  version : s.admissionStateVersion = o.stateVersion
  fresh : leaseId ∉ s.leases.keys
  created_fresh : ∀ d ∈ o.created, d.id ∉ s.deployments.keys
  leases : s'.leases.rows = s.leases.rows ++ [acquiredLease leaseId owner ttlSeconds o]
  getDeployment : ∀ g, s'.getDeployment g = acquiredRow s o allocations g
  claims : s'.claims =
    s.claims ++ o.claims.map fun rg => ⟨leaseId, rg.1.endpoint, rg.2⟩
  pending : s'.publicationPending =
    (publishCandidate s profile approvedDigest).publicationPending
  profile : s'.profile = profile.or s.profile
  version' : s'.admissionStateVersion = s.admissionStateVersion + 1
  desiredGen : s'.desiredGen = s.desiredGen + 1
  addresses : s'.serviceAddresses = s.serviceAddresses
  network : s'.networkConfig = s.networkConfig

theorem getDeployment_acquireDeployments {s s' : Store π δ} {o : AcquireOverlay}
    {allocations : Dict String (List Nat)} (h : acquireDeployments s o allocations = some s') :
    (∀ d ∈ o.created, d.id ∉ s.deployments.keys) ∧
      (∀ g, s'.getDeployment g = acquiredRow s o allocations g) ∧
      ∃ t ht, s' = s.withDeployments t ht := by
  obtain ⟨s₁, hs₁, hrest⟩ := Option.bind_eq_some_iff.mp h
  obtain ⟨t, ht, hins, rfl⟩ := Store.insertDeployments_eq_some hs₁
  obtain rfl := Option.some.inj hrest
  refine ⟨?_, ?_, ⟨_, ?_, rfl⟩⟩
  · intro d hd
    have hstored : d.stored ∈ o.created.rows.map Deployment.stored := List.mem_map_of_mem hd
    have hnew := Table.not_mem_keys_of_insertAll? hins hstored
    exact hnew
  · intro g
    have hrow : (s.withDeployments t ht).getDeployment g =
        (s.getDeployment g).or ((o.created.find? g).map Deployment.stored) := by
      change t.find? g = _
      rw [Table.find?_insertAll? hins, List.find?_map]
      rfl
    rw [Store.getDeployment_setDeploymentAllocations, Store.getDeployment_updateDeploymentsServed,
      Store.getDeployment_setDeploymentStates, hrow]
    rfl
  · intro k hk
    rw [Table.keys_modifyEach]
    change k ∈ (Table.modifyEach _ o.servedUpdates _ _).keys
    rw [Table.keys_modifyEach]
    change k ∈ (Table.modifyKeys t o.revived _ _).keys
    rw [Table.keys_modifyKeys]
    exact ht k hk

/-- What a committed acquire has done. -/
theorem acquire_ok {s s' : Store π δ} {leaseId owner : String} {ttlSeconds : Option Int}
    {o : AcquireOverlay} {allocations : Dict String (List Nat)} {approvedDigest : Option δ}
    {profile : Option π}
    (h : acquire s leaseId owner ttlSeconds o allocations approvedDigest profile = .ok s') :
    Acquired s s' leaseId owner ttlSeconds o allocations approvedDigest profile := by
  unfold acquire at h
  split at h
  · contradiction
  · rename_i hversion
    cases hcommit : commitAcquire s leaseId owner ttlSeconds o allocations approvedDigest profile with
    | none => rw [hcommit] at h; contradiction
    | some s₄ =>
        rw [hcommit] at h
        obtain rfl := Except.ok.inj h
        obtain ⟨s₁, hs₁, hrest⟩ := Option.bind_eq_some_iff.mp hcommit
        obtain ⟨s₂, hs₂, hrest⟩ := Option.bind_eq_some_iff.mp hrest
        obtain ⟨s₃, hs₃, hrest⟩ := Option.bind_eq_some_iff.mp hrest
        obtain rfl := Option.some.inj hrest
        obtain ⟨hfresh, rfl⟩ := Store.insertLease_eq_some hs₁
        obtain ⟨hnew, hget, t, ht, rfl⟩ := getDeployment_acquireDeployments hs₂
        obtain ⟨hl, hd, rfl⟩ := Store.foldlM_insertClaim hs₃
        cases approvedDigest <;>
          exact ⟨by simpa using hversion, hfresh, hnew, rfl, hget, rfl, rfl, rfl, rfl, rfl, rfl, rfl⟩

/-- An acquire conflicts only with a ledger that has moved on. -/
theorem acquire_conflict {s : Store π δ} {leaseId owner : String} {ttlSeconds : Option Int}
    {o : AcquireOverlay} {allocations : Dict String (List Nat)} {approvedDigest : Option δ}
    {profile : Option π}
    (h : acquire s leaseId owner ttlSeconds o allocations approvedDigest profile =
      .error .admissionConflict) : s.admissionStateVersion ≠ o.stateVersion := by
  intro hversion
  unfold acquire at h
  rw [if_neg (not_not.mpr hversion)] at h
  cases hcommit : commitAcquire s leaseId owner ttlSeconds o allocations approvedDigest profile with
  | none => simp [hcommit] at h
  | some s' => simp [hcommit] at h

/-- The row an acquire leaves: in demand if it revives it, serving what the plan
added, on the GPUs it was given. -/
theorem acquiredRow_eq (s : Store π δ) (o : AcquireOverlay)
    (allocations : Dict String (List Nat)) {g : String} {d : Deployment}
    (h : (s.getDeployment g).or ((o.created.find? g).map Deployment.stored) = some d) :
    ∃ updatedAt, acquiredRow s o allocations g = some
      { d with
        state := if g ∈ o.revived then .live else d.state
        served := (o.servedUpdates.get? g).getD d.served
        updatedAt := updatedAt
        assignedGpus := (allocations.get? g).or d.assignedGpus } := by
  refine ⟨if g ∈ o.revived ∨ (o.servedUpdates.get? g).isSome then o.now else d.updatedAt, ?_⟩
  unfold acquiredRow
  rw [h]
  by_cases hg : g ∈ o.revived <;> cases o.servedUpdates.get? g <;>
    cases allocations.get? g <;> simp [hg, Deployment.withState, Deployment.withServed,
      Deployment.withAllocation]

theorem acquiredRow_none (s : Store π δ) (o : AcquireOverlay)
    (allocations : Dict String (List Nat)) {g : String}
    (h : (s.getDeployment g).or ((o.created.find? g).map Deployment.stored) = none) :
    acquiredRow s o allocations g = none := by
  unfold acquiredRow
  rw [h]
  by_cases hg : g ∈ o.revived <;> cases o.servedUpdates.get? g <;>
    cases allocations.get? g <;> simp [hg]

/-- The state of a row an acquire leaves. -/
theorem acquiredRow_state (s : Store π δ) (o : AcquireOverlay)
    (allocations : Dict String (List Nat)) {g : String} {d : Deployment}
    (h : (s.getDeployment g).or ((o.created.find? g).map Deployment.stored) = some d) :
    ∃ d', acquiredRow s o allocations g = some d' ∧
      d'.state = if g ∈ o.revived then .live else d.state := by
  obtain ⟨t, ht⟩ := acquiredRow_eq s o allocations h
  exact ⟨_, ht, rfl⟩

/-- Only the new lease gains claims. -/
theorem Acquired.mem_deploymentIds {s s' : Store π δ} {leaseId owner : String}
    {ttlSeconds : Option Int} {o : AcquireOverlay} {allocations : Dict String (List Nat)}
    {approvedDigest : Option δ} {profile : Option π}
    (h : Acquired s s' leaseId owner ttlSeconds o allocations approvedDigest profile)
    {l g : String} : g ∈ s'.deploymentIds l ↔
      g ∈ s.deploymentIds l ∨ (l = leaseId ∧ ∃ rg ∈ o.claims, rg.2 = g) := by
  simp only [Store.mem_deploymentIds, h.claims, List.mem_append, List.mem_map]
  constructor
  · rintro ⟨c, hc | ⟨rg, hrg, rfl⟩, hl, hg⟩
    · exact .inl ⟨c, hc, hl, hg⟩
    · exact .inr ⟨hl.symm, rg, hrg, hg⟩
  · rintro (⟨c, hc, hl, hg⟩ | ⟨rfl, rg, hrg, hg⟩)
    · exact ⟨c, .inl hc, hl, hg⟩
    · exact ⟨_, .inr ⟨rg, hrg, rfl⟩, rfl, hg⟩

/-! ## shrinking: release, sweep, evict -/

theorem mem_idled {s : Store π δ} {ids : List String} {now : Int} {g : String} :
    g ∈ (idleDeployments s ids now).1 ↔
      g ∈ ids ∧ (∃ d, s.getDeployment g = some d ∧ d.state = .live) ∧ s.demand g now = 0 := by
  simp only [idleDeployments, List.mem_filter, List.mem_eraseDups, Bool.and_eq_true,
    Option.any_eq_true, decide_eq_true_eq]

theorem getDeployment_idleDeployments {s : Store π δ} {ids : List String} {now : Int}
    (g : String) : (idleDeployments s ids now).2.getDeployment g =
      if g ∈ (idleDeployments s ids now).1 then (s.getDeployment g).map (·.withState .idle now)
      else s.getDeployment g :=
  Store.getDeployment_setDeploymentStates g

theorem mem_evicted {s : Store π δ} {ids : Option (List String)} {now : Int} {g : String} :
    g ∈ (evictIdle s ids now).1 ↔ (∃ d, s.getDeployment g = some d ∧ d.state = .idle) ∧
      ids.all (g ∈ ·) ∧ s.demand g now = 0 := by
  simp only [evictIdle, List.mem_map, List.mem_filter, Store.mem_listDeployments,
    decide_eq_true_eq]
  constructor
  · rintro ⟨d, ⟨hmem, hidle, hids, hdemand⟩, rfl⟩
    exact ⟨⟨d, Table.mem_iff_find?.mp hmem, hidle⟩, hids, hdemand⟩
  · rintro ⟨⟨d, hd, hidle⟩, hids, hdemand⟩
    obtain ⟨hmem, rfl⟩ := Table.find?_eq_some.mp hd
    exact ⟨d, ⟨hmem, hidle, hids, hdemand⟩, rfl⟩

theorem getDeployment_evictIdle {s : Store π δ} {ids : Option (List String)} {now : Int}
    (g : String) : (evictIdle s ids now).2.getDeployment g =
      if g ∈ (evictIdle s ids now).1 then (s.getDeployment g).map (·.withState .stopped now)
      else s.getDeployment g := by
  rw [← Store.getDeployment_setDeploymentStates]
  exact Store.getDeployment_bumpWhen _ _ g

/-- A release either finds nothing to do or marks the lease and idles what it
no longer protects. -/
theorem release_cases (s : Store π δ) (leaseId : String) (now : Int) :
    ((∀ l, s.getLease leaseId = some l → l.state = .released) ∧
        (release s leaseId now).2 = s ∧ (release s leaseId now).1.idledDeploymentIds = []) ∨
      ∃ l idled, s.getLease leaseId = some l ∧ l.state ≠ .released ∧
        idled = (idleDeployments (s.setLeaseStates [leaseId] .released)
          (s.deploymentIds leaseId) now).1 ∧
        (release s leaseId now).1 = { idledDeploymentIds := idled } ∧
        (release s leaseId now).2 = ((s.setLeaseStates [leaseId] .released).setDeploymentStates
          idled .idle now).bumpWhen (idled ≠ []) := by
  unfold release
  cases h : s.getLease leaseId with
  | none => exact .inl ⟨by simp, rfl, rfl⟩
  | some l =>
      by_cases hrel : l.state = .released
      · exact .inl ⟨by simpa using hrel, by simp [hrel]⟩
      · refine .inr ⟨l, _, rfl, hrel, rfl, ?_, ?_⟩
        · simp only [if_neg hrel]
        · simp only [if_neg hrel]; rfl

/-- The rows after a release: what it idled is IDLE. -/
theorem getDeployment_release {s : Store π δ} {leaseId : String} {now : Int} (g : String) :
    (release s leaseId now).2.getDeployment g =
      if g ∈ (release s leaseId now).1.idledDeploymentIds
      then (s.getDeployment g).map (·.withState .idle now) else s.getDeployment g := by
  rcases release_cases s leaseId now with ⟨-, hsame, hnone⟩ | ⟨l, idled, -, -, -, hres, hstore⟩
  · rw [hsame, hnone]; simp
  · rw [hstore, hres, Store.getDeployment_bumpWhen, Store.getDeployment_setDeploymentStates]
    rfl

theorem version_release {s : Store π δ} {leaseId : String} {now : Int} :
    (release s leaseId now).2.admissionStateVersion = s.admissionStateVersion +
      (decide ((release s leaseId now).1.idledDeploymentIds ≠ [])).toNat := by
  rcases release_cases s leaseId now with ⟨-, hsame, hnone⟩ | ⟨l, idled, -, -, -, hres, hstore⟩
  · rw [hsame, hnone]; rfl
  · rw [hstore, hres, Store.version_bumpWhen]; rfl

/-- The rows after a sweep: what it idled is IDLE. -/
theorem getDeployment_sweep {s : Store π δ} {now : Int} (g : String) :
    (sweep s now).2.getDeployment g =
      if g ∈ (sweep s now).1.idledDeploymentIds
      then (s.getDeployment g).map (·.withState .idle now) else s.getDeployment g := by
  refine (Store.getDeployment_bumpWhen _ _ g).trans ?_
  exact Store.getDeployment_setDeploymentStates g

theorem version_sweep {s : Store π δ} {now : Int} :
    (sweep s now).2.admissionStateVersion = s.admissionStateVersion +
      (decide ((sweep s now).1.expiredLeaseIds ≠ [] ∨
        (sweep s now).1.idledDeploymentIds ≠ [])).toNat :=
  Store.version_bumpWhen _ _

theorem version_evictIdle {s : Store π δ} {ids : Option (List String)} {now : Int} :
    (evictIdle s ids now).2.admissionStateVersion = s.admissionStateVersion +
      (decide ((evictIdle s ids now).1 ≠ [])).toNat :=
  Store.version_bumpWhen _ _

/-! ## renewing -/

theorem mem_idleAmong {s : Store π δ} {ids : List String} {g : String} :
    g ∈ idleAmong s ids ↔ g ∈ ids ∧ ∃ d, s.getDeployment g = some d ∧ d.state = .idle := by
  simp only [idleAmong, List.mem_filter, Option.any_eq_true, decide_eq_true_eq]

/-- The store after renewing an ACTIVE lease. -/
def renewedStore (s : Store π δ) (leaseId : String) (ttlSeconds : Option Int)
    (allocations : Dict String (List Nat)) (now : Int) : Store π δ :=
  let revived := idleAmong s (s.deploymentIds leaseId)
  (((s.renewLease leaseId ttlSeconds (ttlSeconds.map (now + ·)) now).setDeploymentStates
    revived .live now).setDeploymentAllocations
      (allocations.filter (fun kv => kv.1 ∈ revived))).bumpWhen (revived ≠ [])

theorem leases_renewedStore {s : Store π δ} {leaseId : String} {ttlSeconds : Option Int}
    {allocations : Dict String (List Nat)} {now : Int} :
    (renewedStore s leaseId ttlSeconds allocations now).leases =
      (s.renewLease leaseId ttlSeconds (ttlSeconds.map (now + ·)) now).leases :=
  Store.leases_bumpWhen _ _

theorem version_renewedStore {s : Store π δ} {leaseId : String} {ttlSeconds : Option Int}
    {allocations : Dict String (List Nat)} {now : Int} :
    (renewedStore s leaseId ttlSeconds allocations now).admissionStateVersion =
      s.admissionStateVersion + (decide (idleAmong s (s.deploymentIds leaseId) ≠ [])).toNat :=
  Store.version_bumpWhen _ _

theorem deploymentIds_renewedStore {s : Store π δ} {leaseId : String}
    {ttlSeconds : Option Int} {allocations : Dict String (List Nat)} {now : Int} (l : String) :
    (renewedStore s leaseId ttlSeconds allocations now).deploymentIds l = s.deploymentIds l :=
  Store.deploymentIds_bumpWhen _ _ l

/-- A renew leaves any lease but an ACTIVE one alone. -/
theorem renew_cases (s : Store π δ) (leaseId : String) (ttlSeconds : Option Int)
    (allocations : Dict String (List Nat)) (now : Int) :
    ((∀ l, s.getLease leaseId = some l → l.state ≠ .active) ∧
        renew s leaseId ttlSeconds allocations now = (none, s)) ∨
      ∃ l, s.getLease leaseId = some l ∧ l.state = .active ∧
        renew s leaseId ttlSeconds allocations now =
          (some (l.renewed ttlSeconds (ttlSeconds.map (now + ·)) now),
            renewedStore s leaseId ttlSeconds allocations now) := by
  unfold renew
  cases h : s.getLease leaseId with
  | none => exact .inl ⟨by simp, rfl⟩
  | some l =>
      by_cases hact : l.state = .active
      · refine .inr ⟨l, rfl, hact, ?_⟩
        simp only [hact, ne_eq, not_true_eq_false, if_false]
        refine Prod.ext ?_ rfl
        rw [Store.getLease_bumpWhen]
        change (s.renewLease leaseId ttlSeconds _ now).getLease leaseId = _
        rw [Store.getLease_renewLease, if_pos rfl, h]; rfl
      · exact .inl ⟨by simpa using hact, by simp [hact]⟩

/-- The rows after renewing: IDLE claims are LIVE, the others as they were, up
to their allocations. -/
theorem getDeployment_renewedStore {s : Store π δ} {leaseId : String} {ttlSeconds : Option Int}
    {allocations : Dict String (List Nat)} {now : Int} (g : String) :
    (renewedStore s leaseId ttlSeconds allocations now).getDeployment g =
      if g ∈ idleAmong s (s.deploymentIds leaseId) then
        ((s.getDeployment g).map (·.withState .live now)).map fun d =>
          (allocations.get? g).elim d (fun gpus => d.withAllocation (some gpus))
      else s.getDeployment g := by
  unfold renewedStore
  rw [Store.getDeployment_bumpWhen, Store.getDeployment_setDeploymentAllocations,
    Store.getDeployment_setDeploymentStates]
  rw [Dict.get?_filter allocations (fun k => k ∈ idleAmong s (s.deploymentIds leaseId))]
  change Option.elim _ (if _ then (s.getDeployment g).map _ else s.getDeployment g) _ = _
  by_cases hg : g ∈ idleAmong s (s.deploymentIds leaseId)
  · cases allocations.get? g <;>
      simp only [hg, decide_true, if_true, Option.elim, Option.map_map] <;> rfl
  · simp [hg]

/-- A renew that revives nothing changes no deployment row. -/
theorem deployments_renewLive {s : Store π δ} {leaseId : String} {ttl : Option Int} {now : Int}
    (h : idleAmong s (s.deploymentIds leaseId) = []) :
    (renew s leaseId ttl ∅ now).2.deployments = s.deployments := by
  cases renew_cases s leaseId ttl ∅ now with
  | inl hsame => rw [hsame.2]
  | inr hrenewed =>
      obtain ⟨l, -, -, hstore⟩ := hrenewed
      rw [hstore]
      change (renewedStore s leaseId ttl ∅ now).deployments = _
      unfold renewedStore
      rw [h, Store.deployments_bumpWhen]
      rfl

/-- The lock-free renew writes only when every claim is LIVE already, and then
only the lease row. -/
theorem renewIfLive_cases (s : Store π δ) (leaseId : String) (ttlSeconds : Option Int)
    (now : Int) :
    ((renewIfLive s leaseId ttlSeconds now).2 = s ∧
        ∀ l, (renewIfLive s leaseId ttlSeconds now).1 ≠ .renewed l) ∨
      ∃ l, s.getLease leaseId = some l ∧ l.state = .active ∧
        (∀ g ∈ s.deploymentIds leaseId, ∃ d, s.getDeployment g = some d ∧ d.state = .live) ∧
        (renewIfLive s leaseId ttlSeconds now).2 =
          s.renewLease leaseId ttlSeconds (ttlSeconds.map (now + ·)) now := by
  unfold renewIfLive
  cases h : s.getLease leaseId with
  | none => exact .inl ⟨rfl, by simp⟩
  | some l =>
      by_cases hact : l.state = .active
      · simp only [hact, ne_eq, not_true_eq_false, if_false]
        split
        · rename_i hall
          refine .inr ⟨l, rfl, hact, fun g hg => ?_, rfl⟩
          simpa [Option.any_eq_true] using List.all_eq_true.mp hall g hg
        · exact .inl ⟨rfl, by simp⟩
      · exact .inl ⟨by simp [hact], by simp [hact]⟩

/-! ## what the row operations leave alone -/

/-- Only rows have changed, and no lease is new. -/
structure RowsOnly (s s' : Store π δ) : Prop where
  leases : s'.leases.keys ⊆ s.leases.keys
  profile : s'.profile = s.profile
  pending : s'.publicationPending = s.publicationPending
  addresses : s'.serviceAddresses = s.serviceAddresses
  network : s'.networkConfig = s.networkConfig

theorem RowsOnly.refl (s : Store π δ) : RowsOnly s s :=
  ⟨List.Subset.refl _, rfl, rfl, rfl, rfl⟩

theorem RowsOnly.bumpWhen {s s' : Store π δ} (h : RowsOnly s s') (b : Bool) :
    RowsOnly s (s'.bumpWhen b) := by
  cases b with
  | false => exact h
  | true => exact ⟨h.leases, h.profile, h.pending, h.addresses, h.network⟩

theorem RowsOnly.withDeployments {s s' : Store π δ} (h : RowsOnly s s')
    {t : Table Deployment Deployment.id} (ht) : RowsOnly s (s'.withDeployments t ht) :=
  ⟨h.leases, h.profile, h.pending, h.addresses, h.network⟩

theorem rowsOnly_setLeaseStates (s : Store π δ) (ids : List String) (state : LeaseState) :
    RowsOnly s (s.setLeaseStates ids state) := by
  refine ⟨?_, rfl, rfl, rfl, rfl⟩
  change (s.leases.modifyKeys ids _ (·.withState_id state)).keys ⊆ _
  rw [Table.keys_modifyKeys]
  exact List.Subset.refl _

theorem rowsOnly_renewLease (s : Store π δ) (id : String) (ttl exp : Option Int) (t : Int) :
    RowsOnly s (s.renewLease id ttl exp t) := by
  refine ⟨?_, rfl, rfl, rfl, rfl⟩
  change (s.leases.modify id _ (·.renewed_id ttl exp t)).keys ⊆ _
  rw [Table.keys_modify]
  exact List.Subset.refl _

theorem rowsOnly_sweep (s : Store π δ) (now : Int) : RowsOnly s (sweep s now).2 :=
  ((rowsOnly_setLeaseStates s _ _).withDeployments _).bumpWhen _

theorem rowsOnly_evictIdle (s : Store π δ) (ids : Option (List String)) (now : Int) :
    RowsOnly s (evictIdle s ids now).2 :=
  ((RowsOnly.refl s).withDeployments _).bumpWhen _

theorem rowsOnly_release (s : Store π δ) (leaseId : String) (now : Int) :
    RowsOnly s (release s leaseId now).2 := by
  cases release_cases s leaseId now with
  | inl hsame =>
      rw [hsame.2.1]
      exact .refl s
  | inr hreleased =>
      obtain ⟨l, idled, -, -, -, -, hstore⟩ := hreleased
      rw [hstore]
      exact ((rowsOnly_setLeaseStates s _ _).withDeployments _).bumpWhen _

theorem rowsOnly_renew (s : Store π δ) (leaseId : String) (ttlSeconds : Option Int)
    (allocations : Dict String (List Nat)) (now : Int) :
    RowsOnly s (renew s leaseId ttlSeconds allocations now).2 := by
  cases renew_cases s leaseId ttlSeconds allocations now with
  | inl hsame =>
      rw [hsame.2]
      exact .refl s
  | inr hrenewed =>
      obtain ⟨l, -, -, hstore⟩ := hrenewed
      rw [hstore]
      exact (((rowsOnly_renewLease s _ _ _ _).withDeployments _).withDeployments _).bumpWhen _

theorem rowsOnly_prune (s : Store π δ) : RowsOnly s (pruneTerminal s) := by
  refine ⟨fun k hk => ?_, rfl, rfl, rfl, rfl⟩
  obtain ⟨l, hl, hkey⟩ := Table.mem_keys.mp hk
  exact Table.mem_keys.mpr ⟨l, (Table.mem_filter.mp hl).1, hkey⟩

end InferStack
