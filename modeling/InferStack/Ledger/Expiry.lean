import InferStack.Ledger.Overlay
import InferStack.Ledger.Protection

/-!
# InferStack.Ledger.Expiry

Reading the ledger with virtual expiry against sweeping it.

`status` recomputes the demand of every deployment in memory, while `sweep`
writes the lapsed leases and only visits the deployments those claim.  The two
agree because of `LiveWanted`: a LIVE deployment is claimed by some ACTIVE
lease, so one that has lost its demand is claimed by a lapsed one.

* `LiveWanted.step` — every operation of the ledger keeps it;
* `status_eq_sweep` — a store of that kind shows what a sweep would record.
-/

namespace InferStack

open Kit

variable {π δ : Type}

/-- Some ACTIVE lease claims the deployment, lapsed or not. -/
def Store.Wanted (s : Store π δ) (g : String) : Prop :=
  ∃ l ∈ s.leases, l.state = .active ∧ g ∈ s.deploymentIds l.id

/-- Every LIVE deployment is claimed by an ACTIVE lease. -/
def LiveWanted (s : Store π δ) : Prop := ∀ g, s.IsLive g → s.Wanted g

/-! ## what one operation keeps -/

section Steps

variable {s s' : Store π δ}

/-- It reads lease rows, deployment rows and claims. -/
theorem LiveWanted.congr (h : LiveWanted s) (hleases : s'.leases = s.leases)
    (hget : ∀ g, s'.getDeployment g = s.getDeployment g)
    (hclaims : ∀ l, s'.deploymentIds l = s.deploymentIds l) : LiveWanted s' := by
  intro g hlive
  have hold : s.IsLive g := by simpa only [Store.IsLive, hget] using hlive
  obtain ⟨l, hl, hact, hg⟩ := h g hold
  exact ⟨l, hleases ▸ hl, hact, (hclaims l.id).symm ▸ hg⟩

theorem LiveWanted.bumpWhen (h : LiveWanted s) (b : Bool) : LiveWanted (s.bumpWhen b) :=
  h.congr (Store.leases_bumpWhen s b) (Store.getDeployment_bumpWhen s b)
    (Store.deploymentIds_bumpWhen s b)

/-- Idling: a lease that is not ACTIVE any more has its deployments visited. -/
theorem LiveWanted.idle (h : LiveWanted s) {ids : List String} {now : Int}
    (hget : ∀ g, s'.getDeployment g = s.getDeployment g)
    (hclaims : ∀ l, s'.deploymentIds l = s.deploymentIds l)
    (hleases : ∀ l ∈ s.leases, l.state = .active →
      l ∈ s'.leases ∨ ∀ g ∈ s.deploymentIds l.id, g ∈ ids) :
    LiveWanted (idleDeployments s' ids now).2 := by
  intro g hlive
  obtain ⟨d, hd, hdlive⟩ := hlive
  rw [getDeployment_idleDeployments] at hd
  by_cases hidled : g ∈ (idleDeployments s' ids now).1
  · -- an idled row is not LIVE
    rw [if_pos hidled] at hd
    obtain ⟨e, -, rfl⟩ := Option.map_eq_some_iff.mp hd
    contradiction
  · rw [if_neg hidled] at hd
    obtain ⟨l, hl, hact, hg⟩ := h g ⟨d, hget g ▸ hd, hdlive⟩
    cases hleases l hl hact with
    | inl hkept => exact ⟨l, hkept, hact, (hclaims l.id).symm ▸ hg⟩
    | inr hvisited =>
        -- visited and still LIVE, so some lease protects it
        have hdemand : s'.demand g now ≠ 0 := fun hzero =>
          hidled (mem_idled.mpr ⟨hvisited g hg, ⟨d, hd, hdlive⟩, hzero⟩)
        rw [Ne, Store.demand_eq_zero] at hdemand
        push Not at hdemand
        obtain ⟨l', hl', hg', hp⟩ := hdemand
        have hact' : l'.state = .active := by
          simp only [Lease.isProtecting, Bool.and_eq_true, decide_eq_true_eq] at hp
          exact hp.1
        exact ⟨l', hl', hact', hg'⟩

/-- Marking some leases keeps the ACTIVE rows of the others. -/
theorem mem_setLeaseStates_or (ids : List String) (st : LeaseState) {l : Lease}
    (hl : l ∈ s.leases) : l ∈ (s.setLeaseStates ids st).leases ∨ l.id ∈ ids := by
  by_cases hid : l.id ∈ ids
  · exact .inr hid
  · exact .inl (Store.mem_leases_setLeaseStates.mpr ⟨l, hl, if_neg hid⟩)

theorem LiveWanted.release (h : LiveWanted s) (leaseId : String) (now : Int) :
    LiveWanted (release s leaseId now).2 := by
  cases release_cases s leaseId now with
  | inl hsame => rw [hsame.2.1]; exact h
  | inr hreleased =>
      obtain ⟨l, idled, -, -, rfl, -, hstore⟩ := hreleased
      rw [hstore]
      have hidle : LiveWanted (idleDeployments (s.setLeaseStates [leaseId] .released)
          (s.deploymentIds leaseId) now).2 := by
        refine h.idle (fun _ => rfl) (fun _ => rfl) fun l hl _ => ?_
        cases mem_setLeaseStates_or [leaseId] .released hl with
        | inl hkept => exact .inl hkept
        | inr hid =>
            have heq : l.id = leaseId := List.mem_singleton.mp hid
            exact .inr fun g hg => heq ▸ hg
      exact hidle.bumpWhen _

theorem LiveWanted.sweep (h : LiveWanted s) (now : Int) : LiveWanted (sweep s now).2 := by
  have hidle : LiveWanted (idleDeployments
      (s.setLeaseStates ((s.activeLeasesPast now).map Lease.id) .expired)
      (((s.activeLeasesPast now).map Lease.id).flatMap s.deploymentIds) now).2 := by
    refine h.idle (fun _ => rfl) (fun _ => rfl) fun l hl _ => ?_
    cases mem_setLeaseStates_or _ .expired hl with
    | inl hkept => exact .inl hkept
    | inr hid => exact .inr fun g hg => List.mem_flatMap.mpr ⟨l.id, hid, hg⟩
  exact hidle.bumpWhen _

theorem LiveWanted.evictIdle (h : LiveWanted s) (ids : Option (List String)) (now : Int) :
    LiveWanted (evictIdle s ids now).2 := by
  have hstop : LiveWanted (s.setDeploymentStates (InferStack.evictIdle s ids now).1 .stopped now) := by
    intro g hlive
    obtain ⟨d, hd, hdlive⟩ := hlive
    rw [Store.getDeployment_setDeploymentStates] at hd
    by_cases hg : g ∈ (InferStack.evictIdle s ids now).1
    · rw [if_pos hg] at hd
      obtain ⟨e, -, rfl⟩ := Option.map_eq_some_iff.mp hd
      contradiction
    · rw [if_neg hg] at hd
      exact h g ⟨d, hd, hdlive⟩
  exact hstop.bumpWhen _

/-- A new TTL window leaves an ACTIVE lease ACTIVE. -/
theorem wanted_renewLease (leaseId : String) (ttl exp : Option Int) (t : Int) {g : String}
    (h : s.Wanted g) : (s.renewLease leaseId ttl exp t).Wanted g := by
  obtain ⟨l, hl, hact, hg⟩ := h
  by_cases hid : l.id = leaseId
  · have hrow := Store.mem_leases_renewLease.mpr
      (.inl ⟨l, hl, hid, rfl⟩ : (∃ l₀ ∈ s.leases, l₀.id = leaseId ∧
        l₀.renewed ttl exp t = l.renewed ttl exp t) ∨ _)
    exact ⟨_, hrow, rfl, hg⟩
  · exact ⟨l, Store.mem_leases_renewLease.mpr (.inr ⟨hl, hid⟩), hact, hg⟩

theorem LiveWanted.renewLease (h : LiveWanted s) (leaseId : String) (ttl exp : Option Int)
    (t : Int) : LiveWanted (s.renewLease leaseId ttl exp t) :=
  fun g hlive => wanted_renewLease leaseId ttl exp t (h g hlive)

theorem LiveWanted.renew (h : LiveWanted s) (leaseId : String) (ttl : Option Int)
    (allocations : Dict String (List Nat)) (now : Int) :
    LiveWanted (renew s leaseId ttl allocations now).2 := by
  cases renew_cases s leaseId ttl allocations now with
  | inl hnone => rw [hnone.2]; exact h
  | inr hsome =>
      obtain ⟨l, hl, hact, heq⟩ := hsome
      rw [heq]
      intro g hlive
      have hwanted : s.Wanted g := by
        obtain ⟨d', hd', hdlive⟩ := hlive
        rw [getDeployment_renewedStore] at hd'
        by_cases hg : g ∈ idleAmong s (s.deploymentIds leaseId)
        · obtain ⟨hmem, hid⟩ := Table.find?_eq_some.mp hl
          exact ⟨l, hmem, hact, hid.symm ▸ (mem_idleAmong.mp hg).1⟩
        · rw [if_neg hg] at hd'
          exact h g ⟨d', hd', hdlive⟩
      obtain ⟨l', hl', hact', hg'⟩ :=
        wanted_renewLease leaseId ttl (ttl.map (now + ·)) now hwanted
      exact ⟨l', leases_renewedStore ▸ hl', hact', (deploymentIds_renewedStore l'.id).symm ▸ hg'⟩

theorem LiveWanted.renewIfLive (h : LiveWanted s) (leaseId : String) (ttl : Option Int)
    (now : Int) : LiveWanted (renewIfLive s leaseId ttl now).2 := by
  cases renewIfLive_cases s leaseId ttl now with
  | inl hsame => rw [hsame.1]; exact h
  | inr hrenewed =>
      obtain ⟨l, -, -, -, hstore⟩ := hrenewed
      rw [hstore]
      exact h.renewLease leaseId ttl _ now

theorem LiveWanted.prune (h : LiveWanted s) : LiveWanted (pruneTerminal s) := by
  intro g hlive
  obtain ⟨d, hd, hdlive⟩ := hlive
  have hget : (pruneTerminal s).getDeployment g =
      (s.getDeployment g).filter (fun d => d.state ∉ [DeploymentState.stopped]) :=
    Table.find?_filter g
  rw [hget, Option.filter_eq_some_iff] at hd
  obtain ⟨l, hl, hact, hg⟩ := h g ⟨d, hd.1, hdlive⟩
  have hlease : s.leases.find? l.id = some l := Table.mem_iff_find?.mp hl
  refine ⟨l, Table.mem_filter.mpr ⟨hl, by simp [hact]⟩, hact, ?_⟩
  obtain ⟨c, hc, hcl, hcg⟩ := Store.mem_deploymentIds.mp hg
  refine Store.mem_deploymentIds.mpr ⟨c, List.mem_filter.mpr ⟨hc, ?_⟩, hcl, hcg⟩
  have hrow : s.deployments.find? g = some d := hd.1
  simp [hcl, hcg, hlease, hrow, hact, hdlive]

theorem LiveWanted.setAllocation (h : LiveWanted s) (g : String) (gpus : Option (List Nat)) :
    LiveWanted (setAllocation s g gpus) := by
  intro g' hlive
  obtain ⟨d', hd', hdlive⟩ := hlive
  change (s.setDeploymentAllocation g gpus).getDeployment g' = some d' at hd'
  rw [Store.getDeployment_setDeploymentAllocation] at hd'
  by_cases hg : g' = g
  · rw [if_pos hg] at hd'
    obtain ⟨d, hd, rfl⟩ := Option.map_eq_some_iff.mp hd'
    exact h g' ⟨d, hd, hdlive⟩
  · rw [if_neg hg] at hd'
    exact h g' ⟨d', hd', hdlive⟩

/-- A plan claims whatever it creates or revives. -/
def FreshClaimed (o : AcquireOverlay) : Prop :=
  ∀ g ∈ o.created.keys ++ o.revived, ∃ rg ∈ o.claims, rg.2 = g

theorem planAcquire_freshClaimed (s : Store π δ) (requests : List EndpointRequest)
    (resident : String → Bool) (now : Int) (newId : Nat → String) :
    FreshClaimed (planAcquire s requests resident now newId) := by
  intro g hg
  have hkey := (planAcquire_overlayOn s requests resident now newId).mem_keys_of_fresh hg
  rw [Table.mem_keys_iff, find?_planAcquire, ← Table.mem_keys_iff] at hkey
  have hclaimed := (planLoop_claimInv s resident now newId requests).claimed g hkey
  obtain ⟨rg, hrg, rfl⟩ := List.mem_map.mp hclaimed
  exact ⟨rg, hrg, rfl⟩

/-- What an acquire makes LIVE is claimed by its lease. -/
theorem LiveWanted.acquireOrKeep (h : LiveWanted s) {leaseId owner : String} {ttl : Option Int}
    {o : AcquireOverlay} {allocations : Dict String (List Nat)} {digest : Option δ}
    {profile : Option π} (ho : FreshClaimed o) :
    LiveWanted (acquireOrKeep s leaseId owner ttl o allocations digest profile) := by
  unfold InferStack.acquireOrKeep
  cases hres : acquire s leaseId owner ttl o allocations digest profile with
  | error _ => exact h
  | ok s' =>
      have hacq := acquire_ok hres
      intro g hlive
      obtain ⟨d', hd', hdlive⟩ := hlive
      rw [hacq.getDeployment] at hd'
      by_cases hfresh : g ∈ o.created.keys ++ o.revived
      · have hrow : acquiredLease leaseId owner ttl o ∈ s'.leases := by
          rw [Table.mem_def, hacq.leases]
          simp
        exact ⟨_, hrow, rfl, hacq.mem_deploymentIds.mpr (.inr ⟨rfl, ho g hfresh⟩)⟩
      · rw [List.mem_append, not_or] at hfresh
        have hnew : o.created.find? g = none := Table.find?_of_not_mem_keys hfresh.1
        have hbase : (s.getDeployment g).or ((o.created.find? g).map Deployment.stored) =
            s.getDeployment g := by simp [hnew]
        cases hrow : s.getDeployment g with
        | none =>
            rw [acquiredRow_none s o allocations (hbase.trans hrow)] at hd'
            contradiction
        | some d =>
            obtain ⟨e, he, hstate⟩ := acquiredRow_state s o allocations (hbase.trans hrow)
            rw [if_neg hfresh.2] at hstate
            obtain rfl := Option.some.inj (he.symm.trans hd')
            obtain ⟨l, hl, hact, hg⟩ := h g ⟨d, hrow, hstate ▸ hdlive⟩
            have hkept : l ∈ s'.leases := by
              rw [Table.mem_def, hacq.leases]
              exact List.mem_append_left _ hl
            exact ⟨l, hkept, hact, hacq.mem_deploymentIds.mpr (.inl hg)⟩

/-- One operation, if the overlays planned so far claim what they create. -/
theorem LiveWanted.step {st : LedgerState π δ} (h : LiveWanted st.store)
    (hoverlays : ∀ o ∈ st.overlays, FreshClaimed o) (e : Int × LedgerOp π δ) :
    LiveWanted (ledgerStep st e).store := by
  obtain ⟨now, op⟩ := e
  cases op with
  | plan _ _ _ => exact h
  | acquire leaseId owner ttl overlay requests newId allocations digest profile =>
      cases overlay with
      | none => exact h.acquireOrKeep (planAcquire_freshClaimed _ _ _ _ _)
      | some i =>
          dsimp only [ledgerStep, applyOp]
          cases ho : st.overlays[i]? with
          | none => exact h
          | some o => exact h.acquireOrKeep (hoverlays o (List.mem_of_getElem? ho))
  | release leaseId => exact h.release leaseId now
  | renew leaseId ttl allocations => exact h.renew leaseId ttl allocations now
  | renewIfLive leaseId ttl => exact h.renewIfLive leaseId ttl now
  | sweep => exact h.sweep now
  | evictIdle ids => exact h.evictIdle ids now
  | prune => exact h.prune
  | setAllocation g gpus => exact h.setAllocation g gpus

end Steps

/-- The store and the overlays planned so far. -/
structure WantedInv (st : LedgerState π δ) : Prop where
  store : LiveWanted st.store
  overlays : ∀ o ∈ st.overlays, FreshClaimed o

theorem WantedInv.step {st : LedgerState π δ} (h : WantedInv st) (e : Int × LedgerOp π δ) :
    WantedInv (ledgerStep st e) := by
  have hstore := h.store.step h.overlays e
  obtain ⟨now, op⟩ := e
  cases op with
  | plan requests resident newId =>
      refine ⟨hstore, fun o ho => ?_⟩
      cases List.mem_append.mp ho with
      | inl hold => exact h.overlays o hold
      | inr hnew =>
          obtain rfl := List.mem_singleton.mp hnew
          exact planAcquire_freshClaimed _ _ _ _ _
  | _ => exact ⟨hstore, h.overlays⟩

/-- Every reachable store wants what is LIVE in it. -/
theorem liveWanted_run (start : Int) (es : List (Int × LedgerOp π δ)) :
    LiveWanted (run ledgerStep (LedgerState.init start) es).store := by
  have hrun : ∀ st : LedgerState π δ, WantedInv st → WantedInv (run ledgerStep st es) := by
    induction es with
    | nil => exact fun st h => h
    | cons e es ih => exact fun st h => ih (ledgerStep st e) (h.step e)
  have hinit : WantedInv (LedgerState.init start : LedgerState π δ) := by
    refine ⟨fun g hlive => ?_, by simp [LedgerState.init]⟩
    obtain ⟨d, hd, -⟩ := hlive
    simp [LedgerState.init, Store.empty, Store.getDeployment, Table.find?] at hd
  exact (hrun _ hinit).store

/-! ## what a sweep would record -/

section Sweep

variable {s : Store π δ}

/-- The leases a sweep expires are the ACTIVE ones that protect nothing. -/
theorem mem_expired {now : Int} {l : Lease} (hl : l ∈ s.leases) :
    l.id ∈ (s.activeLeasesPast now).map Lease.id ↔ l.state = .active ∧ ¬ l.isProtecting now := by
  have hpast : l ∈ s.activeLeasesPast now ↔ l.state = .active ∧ ¬ l.isProtecting now := by
    simp only [Store.activeLeasesPast, List.mem_filter, decide_eq_true_eq, Lease.isProtecting]
    have hrow : l ∈ s.leases.rows := hl
    by_cases hact : l.state = .active <;> simp [hact, hrow]
  constructor
  · intro hid
    obtain ⟨l', hl', heq⟩ := List.mem_map.mp hid
    have hrow : l' ∈ s.leases := (List.mem_filter.mp hl').1
    have hsame : l' = l := Table.eq_of_key_eq hrow hl heq
    exact hpast.mp (hsame ▸ hl')
  · exact fun h => List.mem_map_of_mem (hpast.mpr h)

/-- Expiring what has lapsed takes no demand away. -/
theorem demand_expired (s : Store π δ) (g : String) (now : Int) :
    (s.setLeaseStates ((s.activeLeasesPast now).map Lease.id) .expired).demand g now = 0 ↔
      s.demand g now = 0 := by
  rw [Store.demand_eq_zero, Store.demand_eq_zero]
  constructor
  · intro h l hl hg hp
    have hrow : l ∈ (s.setLeaseStates ((s.activeLeasesPast now).map Lease.id) .expired).leases := by
      refine Store.mem_leases_setLeaseStates.mpr ⟨l, hl, if_neg fun hid => ?_⟩
      exact ((mem_expired hl).mp hid).2 hp
    exact h l hrow hg hp
  · intro h l hl hg hp
    obtain ⟨l₀, hl₀, rfl⟩ := Store.mem_leases_setLeaseStates.mp hl
    by_cases hid : l₀.id ∈ (s.activeLeasesPast now).map Lease.id
    · rw [if_pos hid] at hp
      simp [Lease.isProtecting, Lease.withState] at hp
    · rw [if_neg hid] at hp hg
      exact h l₀ hl₀ hg hp

/-- The deployments a sweep idles are the LIVE ones without demand. -/
theorem mem_idledBySweep (h : LiveWanted s) {now : Int} {d : Deployment} (hd : d ∈ s.deployments) :
    d.id ∈ (sweep s now).1.idledDeploymentIds ↔ d.state = .live ∧ s.demand d.id now = 0 := by
  have hrow : s.getDeployment d.id = some d := Table.mem_iff_find?.mp hd
  change d.id ∈ (idleDeployments (s.setLeaseStates ((s.activeLeasesPast now).map Lease.id) .expired)
    (((s.activeLeasesPast now).map Lease.id).flatMap s.deploymentIds) now).1 ↔ _
  rw [mem_idled, demand_expired]
  constructor
  · rintro ⟨-, ⟨e, he, hlive⟩, hzero⟩
    have hsame : e = d := Option.some.inj (he.symm.trans hrow)
    exact ⟨hsame ▸ hlive, hzero⟩
  · rintro ⟨hlive, hzero⟩
    -- the ACTIVE lease that claims it protects nothing, so it has lapsed
    obtain ⟨l, hl, hact, hg⟩ := h d.id ⟨d, hrow, hlive⟩
    have hlapsed := Store.demand_eq_zero.mp hzero l hl hg
    have hid : l.id ∈ (s.activeLeasesPast now).map Lease.id :=
      (mem_expired hl).mpr ⟨hact, hlapsed⟩
    exact ⟨List.mem_flatMap.mpr ⟨l.id, hid, hg⟩, ⟨d, hrow, hlive⟩, hzero⟩

/-- Virtual expiry shows the leases as a sweep records them. -/
theorem status_leases (s : Store π δ) (now later : Int) :
    (status s true now).1 = (status (sweep s now).2 false later).1 := by
  have hrows : (sweep s now).2.leases.rows = s.leases.rows.map (fun l =>
      if l.state = .active ∧ ¬ l.isProtecting now then l.withState .expired else l) := by
    have hswept : (sweep s now).2.leases =
        (s.setLeaseStates ((s.activeLeasesPast now).map Lease.id) .expired).leases :=
      Store.leases_bumpWhen _ _
    have hset : (s.setLeaseStates ((s.activeLeasesPast now).map Lease.id) .expired).leases.rows =
        s.leases.rows.map (fun l => if l.id ∈ (s.activeLeasesPast now).map Lease.id
          then l.withState .expired else l) :=
      Table.rows_modifyKeys s.leases _ _ (·.withState_id .expired) (fun _ => rfl)
    rw [hswept, hset]
    apply List.map_congr_left
    intro l hl
    simp only [mem_expired (Table.mem_def.mpr hl)]
  have hsort := List.map_insertionSort (fun a b : Lease => a.createdAt ≤ b.createdAt)
    (fun a b : Lease => a.createdAt ≤ b.createdAt)
    (fun l => if l.state = .active ∧ ¬ l.isProtecting now then l.withState .expired else l)
    s.leases.rows (by
      intro a _ b _
      have hcreated : ∀ l : Lease, (if l.state = .active ∧ ¬ l.isProtecting now
          then l.withState .expired else l).createdAt = l.createdAt := by
        intro l; split <;> rfl
      simp only [hcreated])
  have hlist : (sweep s now).2.listLeases = s.listLeases.map (fun l =>
      if l.state = .active ∧ ¬ l.isProtecting now then l.withState .expired else l) := by
    rw [Store.listLeases, hrows, ← hsort]
    rfl
  exact hlist.symm

/-- Virtual expiry shows the states of the deployments as a sweep records them. -/
theorem status_deployments (h : LiveWanted s) (now later : Int) :
    (status s true now).2.map (fun d => (d.id, d.state)) =
      (status (sweep s now).2 false later).2.map (fun d => (d.id, d.state)) := by
  have hrows : (sweep s now).2.deployments.rows = s.deployments.rows.map (fun d =>
      if d.state = .live ∧ s.demand d.id now = 0 then d.withState .idle now else d) := by
    have hswept : (sweep s now).2.deployments =
        (s.setDeploymentStates (sweep s now).1.idledDeploymentIds .idle now).deployments :=
      Store.deployments_bumpWhen _ _
    have hset : (s.setDeploymentStates (sweep s now).1.idledDeploymentIds .idle
        now).deployments.rows = s.deployments.rows.map (fun d =>
          if d.id ∈ (sweep s now).1.idledDeploymentIds then d.withState .idle now else d) :=
      Table.rows_modifyKeys s.deployments _ _ (·.withState_id .idle now)
        (·.withState_withState .idle now)
    rw [hswept, hset]
    apply List.map_congr_left
    intro d hd
    simp only [mem_idledBySweep h (Table.mem_def.mpr hd)]
  have hsort := List.map_insertionSort (fun a b : Deployment => a.createdAt ≤ b.createdAt)
    (fun a b : Deployment => a.createdAt ≤ b.createdAt)
    (fun d => if d.state = .live ∧ s.demand d.id now = 0 then d.withState .idle now else d)
    s.deployments.rows (by
      intro a _ b _
      have hcreated : ∀ d : Deployment, (if d.state = .live ∧ s.demand d.id now = 0
          then d.withState .idle now else d).createdAt = d.createdAt := by
        intro d; split <;> rfl
      simp only [hcreated])
  have hlist : (sweep s now).2.listDeployments = s.listDeployments.map (fun d =>
      if d.state = .live ∧ s.demand d.id now = 0 then d.withState .idle now else d) := by
    rw [Store.listDeployments, Store.byCreation, hrows, ← hsort]
    rfl
  change (s.listDeployments.map _).map _ = (sweep s now).2.listDeployments.map _
  rw [hlist, List.map_map, List.map_map]
  apply List.map_congr_left
  intro d _
  by_cases hidle : d.state = .live ∧ s.demand d.id now = 0 <;>
    simp [hidle, Deployment.withState]

end Sweep

/-- In every reachable ledger and at every time, virtual expiry shows the
leases and the deployment states that a sweep at that time leaves behind. -/
theorem status_eq_sweep (start : Int) (es : List (Int × LedgerOp π δ)) (now later : Int) :
    let s := (run ledgerStep (LedgerState.init start) es).store
    (status s true now).1 = (status (sweep s now).2 false later).1 ∧
      (status s true now).2.map (fun d => (d.id, d.state)) =
        (status (sweep s now).2 false later).2.map (fun d => (d.id, d.state)) := by
  intro s
  have hwanted : LiveWanted s := liveWanted_run start es
  exact ⟨status_leases s now later, status_deployments hwanted now later⟩

end InferStack
