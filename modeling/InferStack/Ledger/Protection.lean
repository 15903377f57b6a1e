import InferStack.Ledger.Run

/-!
# InferStack.Ledger.Protection

A protecting lease and the deployments it claims, over runs of the ledger.

A lease lapses lazily: past its TTL it stops protecting at once, but stays
ACTIVE until a sweep.  Between the two, the deployment it claims may be idled,
evicted and revived on behalf of other leases.  `Protected` is what must
survive all of it: whatever a protecting lease claims is LIVE.

Every transaction keeps it but one.  `renew` makes the IDLE deployments of an
ACTIVE lease LIVE again and leaves STOPPED ones alone, so renewing a lapsed but
unswept lease whose model was evicted protects a stopped deployment.
`protected_iff_renewable` shows that this is the only way to lose protection.
-/

namespace InferStack

open Kit

variable {π δ : Type}

/-- Deployment `g` exists and is LIVE. -/
def Store.IsLive (s : Store π δ) (g : String) : Prop :=
  ∃ d, s.getDeployment g = some d ∧ d.state = .live

instance (s : Store π δ) (g : String) : Decidable (s.IsLive g) :=
  decidable_of_iff ((s.getDeployment g).any (fun d => d.state = .live)) (by
    simp [Store.IsLive, Option.any_eq_true])

/-- Everything a protecting lease claims is LIVE. -/
def Protected (s : Store π δ) (now : Int) : Prop :=
  ∀ l ∈ s.leases, l.isProtecting now → ∀ g ∈ s.deploymentIds l.id, s.IsLive g

instance (s : Store π δ) (now : Int) : Decidable (Protected s now) :=
  inferInstanceAs (Decidable (∀ l ∈ s.leases.rows, l.isProtecting now →
    ∀ g ∈ s.deploymentIds l.id, s.IsLive g))

/-! ## what a step must keep -/

/-- A `renew` or `renew_if_live` that reports the renewed lease leaves every
deployment the lease claims LIVE. -/
def RenewsLive (st : LedgerState π δ) (e : Int × LedgerOp π δ) : Prop :=
  match e.2 with
  | .renew l ttl allocations => (renew st.store l ttl allocations e.1).1.isSome →
      ∀ g ∈ (ledgerStep st e).store.deploymentIds l, (ledgerStep st e).store.IsLive g
  | .renewIfLive l ttl => (∃ lease, (renewIfLive st.store l ttl e.1).1 = .renewed lease) →
      ∀ g ∈ (ledgerStep st e).store.deploymentIds l, (ledgerStep st e).store.IsLive g
  | _ => True

/-- Protection at a step: what the step leaves is protected from then on, and a
successful renew leaves its claims LIVE. -/
def KeepsProtection (st : LedgerState π δ) (e : Int × LedgerOp π δ) : Prop :=
  (∀ now, e.1 ≤ now → Protected (ledgerStep st e).store now) ∧ RenewsLive st e

/-- The step is not a `renew` of an ACTIVE lease that claims a STOPPED deployment. -/
def Renewable (st : LedgerState π δ) (e : Int × LedgerOp π δ) : Prop :=
  match e.2 with
  | .renew l _ _ => (∃ lease, st.store.getLease l = some lease ∧ lease.state = .active) →
      ∀ g ∈ st.store.deploymentIds l, ∀ d, st.store.getDeployment g = some d → d.state ≠ .stopped
  | _ => True

/-! ## what one operation keeps -/

/-- Protection survives when protecting leases and claims only shrink, and a
deployment that still has demand stays LIVE. -/
theorem Protected.shrink {s s' : Store π δ} {now now' : Int} (h : Protected s now)
    (hleases : ∀ l ∈ s'.leases, l.isProtecting now' →
      ∃ l₀ ∈ s.leases, l₀.id = l.id ∧ l₀.isProtecting now)
    (hclaims : ∀ l g, g ∈ s'.deploymentIds l → g ∈ s.deploymentIds l)
    (hlive : ∀ g, s.IsLive g →
      (∃ l ∈ s'.leases, l.isProtecting now' ∧ g ∈ s'.deploymentIds l.id) → s'.IsLive g) :
    Protected s' now' := by
  intro l hl hp g hg
  obtain ⟨l₀, hl₀, hid, hp₀⟩ := hleases l hl hp
  have hg₀ : g ∈ s.deploymentIds l₀.id := hid ▸ hclaims l.id g hg
  exact hlive g (h l₀ hl₀ hp₀ g hg₀) ⟨l, hl, hp, hg⟩

/-- Time only takes protection away. -/
theorem Protected.later {s : Store π δ} {now now' : Int} (h : Protected s now)
    (hle : now ≤ now') : Protected s now' :=
  fun l hl hp g hg => h l hl (Lease.isProtecting_anti hle hp) g hg

/-- Protection only reads leases, claims and which deployments are LIVE. -/
theorem Protected.congr {s s' : Store π δ} {now : Int} (h : Protected s now)
    (hleases : s'.leases = s.leases) (hclaims : s'.claims = s.claims)
    (hlive : ∀ g, s.IsLive g → s'.IsLive g) : Protected s' now := by
  intro l hl hp g hg
  have hg' : g ∈ s.deploymentIds l.id := by
    rw [Store.mem_deploymentIds, hclaims, ← Store.mem_deploymentIds] at hg; exact hg
  exact hlive g (h l (hleases ▸ hl) hp g hg')

/-- Idling what no lease protects keeps a LIVE deployment with demand LIVE. -/
theorem isLive_idleDeployments {s : Store π δ} {ids : List String} {now : Int} {g : String}
    (h : s.IsLive g) (hdemand : ∃ l ∈ s.leases, l.isProtecting now ∧ g ∈ s.deploymentIds l.id) :
    (idleDeployments s ids now).2.IsLive g := by
  obtain ⟨d, hd, hlive⟩ := h
  obtain ⟨l, hl, hp, hg⟩ := hdemand
  have hnot : g ∉ (idleDeployments s ids now).1 := by
    rw [mem_idled]
    rintro ⟨-, -, hzero⟩
    exact Store.demand_eq_zero.mp hzero l hl hg hp
  exact ⟨d, by rw [getDeployment_idleDeployments, if_neg hnot, hd], hlive⟩

/-- Marking leases EXPIRED or RELEASED takes protection away. -/
theorem Protected.setLeaseStates {s : Store π δ} {now : Int} (h : Protected s now)
    (ids : List String) {st : LeaseState} (hst : st ≠ .active) :
    Protected (s.setLeaseStates ids st) now := by
  refine h.shrink ?_ (fun _ _ hg => hg) (fun _ hg _ => hg)
  intro l hl hp
  obtain ⟨l₀, hl₀, heq⟩ := Store.mem_leases_setLeaseStates.mp hl
  split at heq
  · subst heq
    simp [Lease.isProtecting, Lease.withState, hst] at hp
  · subst heq
    exact ⟨l₀, hl₀, rfl, hp⟩

theorem Protected.idleDeployments {s : Store π δ} {now : Int} (h : Protected s now)
    (ids : List String) : Protected (idleDeployments s ids now).2 now :=
  h.shrink (fun l hl hp => ⟨l, hl, rfl, hp⟩) (fun _ _ hg => hg)
    (fun _ hg hdemand => isLive_idleDeployments hg hdemand)

theorem Protected.bumpWhen {s : Store π δ} {now : Int} (h : Protected s now) (b : Bool) :
    Protected (s.bumpWhen b) now :=
  h.congr (s.leases_bumpWhen b) (s.claims_bumpWhen b)
    (fun g hg => by unfold Store.IsLive; rw [Store.getDeployment_bumpWhen]; exact hg)

/-- A release keeps protection. -/
theorem Protected.release {s : Store π δ} {now : Int} (h : Protected s now) (leaseId : String) :
    Protected (release s leaseId now).2 now := by
  rcases release_cases s leaseId now with ⟨-, hsame, -⟩ | ⟨l, idled, -, -, rfl, -, hstore⟩
  · rw [hsame]; exact h
  · rw [hstore]
    exact ((h.setLeaseStates [leaseId] (by decide)).idleDeployments _).bumpWhen _

/-- A sweep keeps protection. -/
theorem Protected.sweep {s : Store π δ} {now : Int} (h : Protected s now) :
    Protected (sweep s now).2 now :=
  ((h.setLeaseStates _ (by decide)).idleDeployments _).bumpWhen _

/-- An eviction stops IDLE deployments only. -/
theorem isLive_evictIdle {s : Store π δ} {ids : Option (List String)} {now : Int} {g : String}
    (h : s.IsLive g) : (evictIdle s ids now).2.IsLive g := by
  obtain ⟨d, hd, hlive⟩ := h
  refine ⟨d, ?_, hlive⟩
  rw [getDeployment_evictIdle, if_neg, hd]
  intro hg
  obtain ⟨⟨e, he, hidle⟩, -⟩ := mem_evicted.mp hg
  rw [hd] at he
  obtain rfl := Option.some.inj he
  rw [hlive] at hidle
  contradiction

theorem Protected.evictIdle {s : Store π δ} {now : Int} (h : Protected s now)
    (ids : Option (List String)) : Protected (evictIdle s ids now).2 now := by
  exact h.congr (Store.leases_bumpWhen _ _) (Store.claims_bumpWhen _ _) fun _ => isLive_evictIdle

theorem isLive_prune {s : Store π δ} {g : String} (h : s.IsLive g) :
    (pruneTerminal s).IsLive g := by
  obtain ⟨d, hd, hlive⟩ := h
  refine ⟨d, ?_, hlive⟩
  change (s.deployments.filter _).find? g = some d
  rw [Table.find?_filter]
  change (s.getDeployment g).filter _ = some d
  rw [hd, Option.filter_some_pos (by simp [hlive])]

/-- A prune forgets no protecting lease and no LIVE deployment. -/
theorem Protected.prune {s : Store π δ} {now : Int} (h : Protected s now) :
    Protected (pruneTerminal s) now := by
  refine h.shrink ?_ ?_ ?_
  · intro l hl hp
    exact ⟨l, (Table.mem_filter.mp hl).1, rfl, hp⟩
  · intro l g hg
    rw [Store.mem_deploymentIds] at hg ⊢
    obtain ⟨c, hc, hid⟩ := hg
    exact ⟨c, (List.mem_filter.mp hc).1, hid⟩
  · exact fun g hlive _ => isLive_prune hlive

/-- An allocation moves no state. -/
theorem isLive_setAllocation {s : Store π δ} {g : String} {gpus : Option (List Nat)} {g' : String}
    (h : s.IsLive g') : (setAllocation s g gpus).IsLive g' := by
  obtain ⟨d, hd, hlive⟩ := h
  by_cases hg : g' = g
  · exact ⟨d.withAllocation gpus, by
      change (s.setDeploymentAllocation g gpus).getDeployment g' = _
      rw [Store.getDeployment_setDeploymentAllocation, if_pos hg, hd]; rfl, hlive⟩
  · exact ⟨d, by
      change (s.setDeploymentAllocation g gpus).getDeployment g' = _
      rw [Store.getDeployment_setDeploymentAllocation, if_neg hg, hd], hlive⟩

theorem Protected.setAllocation {s : Store π δ} {now : Int} (h : Protected s now) (g : String)
    (gpus : Option (List Nat)) : Protected (setAllocation s g gpus) now :=
  h.congr rfl rfl fun _ => isLive_setAllocation

/-- Renewing one lease row: the others protect what they did. -/
theorem Protected.renewLease {s : Store π δ} {now : Int} (h : Protected s now) {id : String}
    {ttl exp : Option Int} {t : Int} (hlive : ∀ g ∈ s.deploymentIds id, s.IsLive g) :
    Protected (s.renewLease id ttl exp t) now := by
  intro l hl hp g hg
  rcases Store.mem_leases_renewLease.mp hl with ⟨l₀, -, hid, rfl⟩ | ⟨hl, -⟩
  · have hg' : g ∈ s.deploymentIds id := hid ▸ hg
    exact hlive g hg'
  · exact h l hl hp g hg

/-- A LIVE deployment stays LIVE through a renew, and an IDLE claim becomes LIVE. -/
theorem isLive_renewedStore {s : Store π δ} {l : String} {ttl : Option Int}
    {allocations : Dict String (List Nat)} {now : Int} {g : String}
    (h : s.IsLive g ∨ g ∈ idleAmong s (s.deploymentIds l)) :
    (renewedStore s l ttl allocations now).IsLive g := by
  unfold Store.IsLive
  rw [getDeployment_renewedStore]
  by_cases hg : g ∈ idleAmong s (s.deploymentIds l)
  · obtain ⟨-, d, hd, -⟩ := mem_idleAmong.mp hg
    rw [if_pos hg, hd]
    refine ⟨_, rfl, ?_⟩
    cases allocations.get? g <;> rfl
  · rw [if_neg hg]
    exact h.resolve_right hg

/-- Renewing a lease whose claims are LIVE or IDLE keeps protection. -/
theorem Protected.renewedStore {s : Store π δ} {now : Int} (h : Protected s now) {id : String}
    {ttl : Option Int} {allocations : Dict String (List Nat)}
    (hclaims : ∀ g ∈ s.deploymentIds id, s.IsLive g ∨ g ∈ idleAmong s (s.deploymentIds id)) :
    Protected (renewedStore s id ttl allocations now) now := by
  intro l hl hp g hg
  rw [leases_renewedStore] at hl
  rw [deploymentIds_renewedStore] at hg
  apply isLive_renewedStore
  rcases Store.mem_leases_renewLease.mp hl with ⟨l₀, -, hid, rfl⟩ | ⟨hl, -⟩
  · exact hclaims g (hid ▸ hg)
  · exact .inl (h l hl hp g hg)

/-! ## overlays and admission state versions -/

/-- From `s` to `s'` the admission state version moved on, or no LIVE
deployment was lost. -/
def Advances (s s' : Store π δ) : Prop :=
  s.admissionStateVersion < s'.admissionStateVersion ∨
    s.admissionStateVersion = s'.admissionStateVersion ∧ ∀ g, s.IsLive g → s'.IsLive g

theorem Advances.refl (s : Store π δ) : Advances s s := .inr ⟨rfl, fun _ h => h⟩

/-- A step that bumps the version whenever it takes a deployment from LIVE advances. -/
theorem advances_of {s s' : Store π δ} {changed : Bool}
    (hversion : s'.admissionStateVersion = s.admissionStateVersion + changed.toNat)
    (h : changed = false → ∀ g, s.IsLive g → s'.IsLive g) : Advances s s' := by
  cases changed with
  | true => exact .inl (by rw [hversion]; exact Nat.lt_succ_self _)
  | false => exact .inr ⟨by rw [hversion]; rfl, h rfl⟩

/-- What a plan claims: its own deployments, LIVE ones, and ones it revives. -/
structure Fits (s : Store π δ) (o : AcquireOverlay) : Prop where
  created : ∀ d ∈ o.created, d.state = .live
  version : o.stateVersion ≤ s.admissionStateVersion
  claims : o.stateVersion = s.admissionStateVersion →
    ∀ rg ∈ o.claims, rg.2 ∈ o.created.keys ∨ s.IsLive rg.2 ∨ rg.2 ∈ o.revived

theorem Fits.advance {s s' : Store π δ} {o : AcquireOverlay} (h : Fits s o)
    (hadv : Advances s s') : Fits s' o := by
  have hle := h.version
  rcases hadv with hlt | ⟨heq, hlive⟩
  · exact ⟨h.created, by omega, fun hv => absurd hv (by omega)⟩
  · refine ⟨h.created, by omega, fun hv rg hrg => ?_⟩
    exact (h.claims (by omega) rg hrg).imp_right (.imp_left (hlive rg.2))

/-- A plan fits the store it was computed against. -/
theorem planAcquire_fits (s : Store π δ) (requests : List EndpointRequest)
    (resident : String → Bool) (now : Int) (newId : Nat → String) :
    Fits s (planAcquire s requests resident now newId) := by
  have hp := planLoop_inv s resident now newId requests
  refine ⟨fun d hd => (hp.created d hd).2, le_rfl, fun _ rg hrg => ?_⟩
  obtain ⟨v, hv, hid⟩ := Table.mem_keys.mp (hp.claims rg hrg)
  rw [← hid]
  by_cases hc : v.id ∈ (planLoop s resident now newId requests).created.keys
  · exact .inl hc
  · obtain ⟨d, hd, hcl⟩ := hp.stored v hv hc
    have hdid : d.id = v.id := (Table.find?_eq_some.mp hd).2
    rcases hcl.state with hlive | hidle
    · exact .inr (.inl ⟨d, hd, hlive⟩)
    · exact .inr (.inr (hdid ▸ hcl.revived.mp hidle))

/-! ## acquiring -/

section Acquire

variable {s s' : Store π δ} {leaseId owner : String} {ttl : Option Int} {o : AcquireOverlay}
  {allocations : Dict String (List Nat)} {digest : Option δ} {profile : Option π} {now : Int}

/-- A row an acquire finds LIVE or creates is LIVE afterwards, and so is any
row it revives. -/
theorem Acquired.isLive (h : Acquired s s' leaseId owner ttl o allocations digest profile)
    (hcreated : ∀ d ∈ o.created, d.state = .live) {g : String} (hrow : g ∈ s'.deployments.keys)
    (hg : g ∈ o.created.keys ∨ s.IsLive g ∨ g ∈ o.revived) : s'.IsLive g := by
  have hget := h.getDeployment g
  cases hbase : (s.getDeployment g).or ((o.created.find? g).map Deployment.stored) with
  | none =>
      have hnone : s'.getDeployment g = none := by
        rw [hget, acquiredRow, hbase]
        cases o.servedUpdates.get? g <;> cases allocations.get? g <;> simp
      rw [Table.mem_keys_iff] at hrow
      change (s'.getDeployment g).isSome at hrow
      simp [hnone] at hrow
  | some d =>
      obtain ⟨d', hd', hst⟩ := acquiredRow_state s o allocations hbase
      refine ⟨d', by rw [hget, hd'], ?_⟩
      rw [hst]
      by_cases hrev : g ∈ o.revived
      · rw [if_pos hrev]
      · rw [if_neg hrev]
        rcases hg with hc | ⟨e, he, hlive⟩ | hg
        · -- a created row: nothing was stored under its id
          obtain ⟨e, he, rfl⟩ := Table.mem_keys.mp hc
          have hnew : s.getDeployment e.id = none := by
            have hnot := h.created_fresh e he
            rw [Table.mem_keys_iff] at hnot
            exact Option.not_isSome_iff_eq_none.mp hnot
          rw [hnew, Table.mem_iff_find?.mp he] at hbase
          obtain rfl := Option.some.inj hbase
          exact hcreated e he
        · rw [he] at hbase
          obtain rfl := Option.some.inj hbase
          exact hlive
        · exact absurd hg hrev

/-- A claim of the store names a row. -/
theorem mem_keys_of_mem_deploymentIds {g l : String} (h : g ∈ s.deploymentIds l) :
    g ∈ s.deployments.keys ∧ l ∈ s.leases.keys := by
  obtain ⟨c, hc, rfl, rfl⟩ := Store.mem_deploymentIds.mp h
  exact ⟨s.claim_deployment c hc, s.claim_lease c hc⟩

/-- An acquire keeps protection, and protects what it claims. -/
theorem Protected.acquired (hp : Protected s now) (hfit : Fits s o)
    (h : Acquired s s' leaseId owner ttl o allocations digest profile) : Protected s' now := by
  intro l hl hprot g hg
  refine h.isLive hfit.created (mem_keys_of_mem_deploymentIds hg).1 ?_
  rcases h.mem_deploymentIds.mp hg with hg | ⟨-, rg, hrg, rfl⟩
  · -- an old claim: its lease is an old lease
    have hold : l ∈ s.leases := by
      rw [Table.mem_def, h.leases, List.mem_append, List.mem_singleton] at hl
      rcases hl with hl | rfl
      · exact hl
      · exact absurd (mem_keys_of_mem_deploymentIds hg).2 h.fresh
    exact .inr (.inl (hp l hold hprot g hg))
  · exact hfit.claims h.version.symm rg hrg

/-- An acquire always bumps the version. -/
theorem Acquired.advances (h : Acquired s s' leaseId owner ttl o allocations digest profile) :
    Advances s s' := .inl (by rw [h.version']; exact Nat.lt_succ_self _)

end Acquire

/-! ## no deployment is ever RECLAIMING -/

/-- The row is not in the reserved state. -/
def NotReclaiming (d : Deployment) : Prop := d.state ≠ .reclaiming

theorem NotReclaiming.stable : RowStable NotReclaiming where
  withState _ _ _ hst _ := hst
  withAllocation _ _ h := h
  withServed _ _ _ h := h
  stored _ h := h

/-! ## the invariant of a run -/

/-- The invariant of ledger runs. -/
structure LedgerInv (st : LedgerState π δ) : Prop where
  protected_ : Protected st.store st.now
  noReclaiming : AllRows NotReclaiming st.store
  fits : ∀ o ∈ st.overlays, Fits st.store o

/-- What an operation does to protection. -/
structure KeepsModels (s s' : Store π δ) (now : Int) : Prop where
  protected_ : Protected s' now
  advances : Advances s s'

theorem KeepsModels.same {s : Store π δ} {now : Int} (hp : Protected s now) : KeepsModels s s now :=
  ⟨hp, .refl s⟩

theorem keepsModels_acquireOrKeep {s : Store π δ} {now : Int} (hp : Protected s now)
    {o : AcquireOverlay} (hfit : Fits s o) (leaseId owner : String) (ttl : Option Int)
    (allocations : Dict String (List Nat)) (digest : Option δ) (profile : Option π) :
    KeepsModels s (acquireOrKeep s leaseId owner ttl o allocations digest profile) now := by
  unfold acquireOrKeep
  cases h : acquire s leaseId owner ttl o allocations digest profile with
  | error _ => exact .same hp
  | ok s' =>
      have hacq := acquire_ok h
      exact ⟨hp.acquired hfit hacq, hacq.advances⟩

/-- Moving no row keeps every LIVE one. -/
theorem isLive_of_move_nil {s s' : Store π δ} {ids : List String} {st : DeploymentState}
    {now : Int} (hget : ∀ g, s'.getDeployment g =
      if g ∈ ids then (s.getDeployment g).map (·.withState st now) else s.getDeployment g)
    (hnil : ids = []) : ∀ g, s.IsLive g → s'.IsLive g := by
  intro g hg
  unfold Store.IsLive
  rw [hget, hnil, if_neg List.not_mem_nil]
  exact hg

theorem keepsModels_release {s : Store π δ} {now : Int} (hp : Protected s now) (leaseId : String) :
    KeepsModels s (release s leaseId now).2 now := by
  refine ⟨hp.release leaseId, advances_of version_release fun h => ?_⟩
  exact isLive_of_move_nil getDeployment_release (by simpa using h)

theorem keepsModels_sweep {s : Store π δ} {now : Int} (hp : Protected s now) :
    KeepsModels s (sweep s now).2 now := by
  refine ⟨hp.sweep, advances_of version_sweep fun h => ?_⟩
  simp only [ne_eq, decide_eq_false_iff_not, not_or, not_not] at h
  exact isLive_of_move_nil getDeployment_sweep h.2

theorem keepsModels_evictIdle {s : Store π δ} {now : Int} (hp : Protected s now)
    (ids : Option (List String)) : KeepsModels s (evictIdle s ids now).2 now := by
  refine ⟨hp.evictIdle ids, advances_of version_evictIdle fun h => ?_⟩
  exact isLive_of_move_nil getDeployment_evictIdle (by simpa using h)

theorem keepsModels_prune {s : Store π δ} {now : Int} (hp : Protected s now) :
    KeepsModels s (pruneTerminal s) now := by
  have hget : ∀ g, (pruneTerminal s).getDeployment g =
      (s.getDeployment g).filter (fun d => d.state ∉ [DeploymentState.stopped]) :=
    fun g => Table.find?_filter g
  refine ⟨hp.prune, .inr ⟨rfl, fun g hg => ?_⟩⟩
  obtain ⟨d, hd, hlive⟩ := hg
  exact ⟨d, by rw [hget, hd, Option.filter_some_pos (by simp [hlive])], hlive⟩

theorem keepsModels_renewIfLive {s : Store π δ} {now : Int} (hp : Protected s now)
    (leaseId : String) (ttl : Option Int) :
    KeepsModels s (renewIfLive s leaseId ttl now).2 now := by
  cases renewIfLive_cases s leaseId ttl now with
  | inl hsame => rw [hsame.1]; exact .same hp
  | inr hrenewed =>
      obtain ⟨l, -, -, hlive, hstore⟩ := hrenewed
      rw [hstore]
      exact ⟨hp.renewLease hlive, .inr ⟨rfl, fun g hg => hg⟩⟩

/-- An ACTIVE lease that claims nothing STOPPED claims only LIVE and IDLE rows. -/
theorem live_or_idle {s : Store π δ} (hr : AllRows NotReclaiming s) {l : String}
    (h : ∀ g ∈ s.deploymentIds l, ∀ d, s.getDeployment g = some d → d.state ≠ .stopped) :
    ∀ g ∈ s.deploymentIds l, s.IsLive g ∨ g ∈ idleAmong s (s.deploymentIds l) := by
  intro g hg
  have hrow := (mem_keys_of_mem_deploymentIds hg).1
  rw [Table.mem_keys_iff] at hrow
  obtain ⟨d, hd⟩ := Option.isSome_iff_exists.mp hrow
  have hstop := h g hg d hd
  have hrec := hr g d hd
  cases hst : d.state with
  | live => exact .inl ⟨d, hd, hst⟩
  | idle => exact .inr (mem_idleAmong.mpr ⟨hg, d, hd, hst⟩)
  | reclaiming => exact absurd hst hrec
  | stopped => exact absurd hst hstop

theorem keepsModels_renew {s : Store π δ} {now : Int} (hp : Protected s now)
    (hr : AllRows NotReclaiming s) (leaseId : String) (ttl : Option Int)
    (allocations : Dict String (List Nat))
    (hok : (∃ l, s.getLease leaseId = some l ∧ l.state = .active) →
      ∀ g ∈ s.deploymentIds leaseId, ∀ d, s.getDeployment g = some d → d.state ≠ .stopped) :
    KeepsModels s (renew s leaseId ttl allocations now).2 now := by
  cases renew_cases s leaseId ttl allocations now with
  | inl hnone => rw [hnone.2]; exact .same hp
  | inr hsome =>
      obtain ⟨l, hl, hact, heq⟩ := hsome
      rw [heq]
      have hclaims := live_or_idle hr (hok ⟨l, hl, hact⟩)
      exact ⟨hp.renewedStore hclaims,
        advances_of version_renewedStore fun _ g hg => isLive_renewedStore (.inl hg)⟩

/-- One operation: what it does to protection, if it is renewable. -/
theorem keepsModels_applyOp {st : LedgerState π δ} {e : Int × LedgerOp π δ} (hinv : LedgerInv st)
    (htime : Timely st e) (hok : Renewable st e) : KeepsModels st.store (applyOp st e.1 e.2) e.1 := by
  obtain ⟨now, op⟩ := e
  have hp : Protected st.store now := hinv.protected_.later htime
  cases op with
  | plan _ _ _ => exact .same hp
  | acquire leaseId owner ttl overlay requests newId allocations digest profile =>
      cases overlay with
      | none => exact keepsModels_acquireOrKeep hp (planAcquire_fits ..) ..
      | some i =>
          dsimp only [applyOp]
          cases ho : st.overlays[i]? with
          | none => exact .same hp
          | some o => exact keepsModels_acquireOrKeep hp (hinv.fits o (List.mem_of_getElem? ho)) ..
  | release leaseId => exact keepsModels_release hp leaseId
  | renew leaseId ttl allocations =>
      exact keepsModels_renew hp hinv.noReclaiming leaseId ttl allocations hok
  | renewIfLive leaseId ttl => exact keepsModels_renewIfLive hp leaseId ttl
  | sweep => exact keepsModels_sweep hp
  | evictIdle ids => exact keepsModels_evictIdle hp ids
  | prune => exact keepsModels_prune hp
  | setAllocation g gpus => exact ⟨hp.setAllocation g gpus, .inl (Nat.lt_succ_self _)⟩

/-- The invariant survives every renewable operation. -/
theorem LedgerInv.step {st : LedgerState π δ} {e : Int × LedgerOp π δ} (hinv : LedgerInv st)
    (htime : Timely st e) (hok : Renewable st e) : LedgerInv (ledgerStep st e) := by
  have hkeeps := keepsModels_applyOp hinv htime hok
  have hold : ∀ o ∈ st.overlays, Fits (ledgerStep st e).store o :=
    fun o ho => (hinv.fits o ho).advance hkeeps.advances
  have hlive : ∀ o, Fits st.store o → ∀ d ∈ o.created, NotReclaiming d := by
    intro o hfit d hd
    simp [NotReclaiming, hfit.created d hd]
  refine ⟨hkeeps.protected_, ?_, ?_⟩
  · refine hinv.noReclaiming.step NotReclaiming.stable ?_ e ?_
    · exact fun o ho => hlive o (hinv.fits o ho)
    · exact fun requests newId _ => hlive _ (planAcquire_fits ..)
  · obtain ⟨now, op⟩ := e
    cases op with
    | plan requests resident newId =>
        intro o ho
        cases List.mem_append.mp ho with
        | inl ho => exact hold o ho
        | inr ho =>
            obtain rfl := List.mem_singleton.mp ho
            exact planAcquire_fits ..
    | _ => exact hold

/-- The empty store protects nothing and plans nothing. -/
theorem LedgerInv.init (now : Int) : LedgerInv (LedgerState.init now : LedgerState π δ) where
  protected_ := by simp [Protected, LedgerState.init, Store.empty, Table.mem_def]
  noReclaiming := by
    intro g d hd
    simp [LedgerState.init, Store.empty, Store.getDeployment, Table.find?] at hd
  fits := by simp [LedgerState.init]

/-! ## renewing under a lapsed lease -/

/-- A renewable operation leaves its claims LIVE. -/
theorem renewsLive_of_renewable {st : LedgerState π δ} {e : Int × LedgerOp π δ}
    (hinv : LedgerInv st) (hok : Renewable st e) : RenewsLive st e := by
  obtain ⟨now, op⟩ := e
  cases op with
  | renew l ttl allocations =>
      intro hsome g hg
      rcases renew_cases st.store l ttl allocations now with ⟨-, heq⟩ | ⟨lease, hl, hact, heq⟩
      · rw [heq] at hsome; contradiction
      · have hstore : (ledgerStep st (now, .renew l ttl allocations)).store =
            renewedStore st.store l ttl allocations now := by
          change (renew st.store l ttl allocations now).2 = _; rw [heq]
        rw [hstore] at hg ⊢
        rw [deploymentIds_renewedStore] at hg
        exact isLive_renewedStore (live_or_idle hinv.noReclaiming (hok ⟨lease, hl, hact⟩) g hg)
  | renewIfLive l ttl =>
      rintro ⟨lease, hren⟩ g hg
      rcases renewIfLive_cases st.store l ttl now with ⟨-, hno⟩ | ⟨_, -, -, hlive, hstore⟩
      · exact absurd hren (hno _)
      · change g ∈ (renewIfLive st.store l ttl now).2.deploymentIds l at hg
        change (renewIfLive st.store l ttl now).2.IsLive g
        rw [hstore] at hg ⊢
        exact hlive g hg
  | _ => trivial

/-- A renew that leaves its claims LIVE was renewable: it never starts a
STOPPED deployment. -/
theorem renewable_of_renewsLive {st : LedgerState π δ} {e : Int × LedgerOp π δ}
    (h : RenewsLive st e) : Renewable st e := by
  obtain ⟨now, op⟩ := e
  cases op with
  | renew l ttl allocations =>
      rintro ⟨lease, hl, hact⟩ g hg d hd hstop
      rcases renew_cases st.store l ttl allocations now with ⟨hno, -⟩ | ⟨_, -, -, heq⟩
      · exact hno lease hl hact
      · have hnot : g ∉ idleAmong st.store (st.store.deploymentIds l) := by
          rw [mem_idleAmong]
          rintro ⟨-, d', hd', hidle⟩
          rw [hd] at hd'
          obtain rfl := Option.some.inj hd'
          rw [hstop] at hidle
          contradiction
        have hlive := h (by change (renew st.store l ttl allocations now).1.isSome; rw [heq]; rfl)
        change ∀ g ∈ (renew st.store l ttl allocations now).2.deploymentIds l,
          (renew st.store l ttl allocations now).2.IsLive g at hlive
        rw [heq] at hlive
        obtain ⟨d', hd', hst⟩ := hlive g (by rw [deploymentIds_renewedStore]; exact hg)
        rw [getDeployment_renewedStore, if_neg hnot, hd] at hd'
        obtain rfl := Option.some.inj hd'
        rw [hstop] at hst
        contradiction
  | _ => trivial

/-- Along any run of the ledger from an empty store, every protecting lease
claims LIVE deployments only, and every successful renew leaves its claims LIVE,
exactly when no `renew` reaches an ACTIVE lease that claims a STOPPED
deployment. -/
theorem protected_iff_renewable (start : Int) (es : List (Int × LedgerOp π δ))
    (htime : AllSteps ledgerStep Timely (LedgerState.init start) es) :
    AllSteps ledgerStep KeepsProtection (LedgerState.init start) es ↔
      AllSteps ledgerStep Renewable (LedgerState.init start) es := by
  constructor
  · exact AllSteps.mono fun _ _ h => renewable_of_renewsLive h.2
  · intro hok
    refine AllSteps.of_inv ?_ ?_ (LedgerInv.init start) (htime.and hok)
    · exact fun st e hinv h => hinv.step h.1 h.2
    · refine fun st e hinv h => ⟨fun now hle => ?_, renewsLive_of_renewable hinv h.2⟩
      exact (keepsModels_applyOp hinv h.1 h.2).protected_.later hle

/-- A shared endpoint of a small model. -/
def chatRequest : EndpointRequest where
  endpoint := "chat"
  engine := .vllm
  structural := .vllm "org/model" none none none 1 1 1 none none false [] none "model" [] {}

/-- Two leases share a model, and the standing one goes; the other has lapsed,
so the model idles and is evicted.  The lapsed lease is then renewed. -/
def renewAfterEviction : List (Int × LedgerOp Unit Unit) :=
  [(0, .acquire "l1" "a" (some 100) none [chatRequest] (fun _ => "g1") ∅ none none),
    (0, .acquire "l2" "b" none none [chatRequest] (fun _ => "g2") ∅ none none),
    (200, .release "l2"),
    (200, .evictIdle none),
    (200, .renew "l1" (some 100) ∅)]

/-- The renewed lease protects a STOPPED model. -/
theorem renewAfterEviction_unprotected :
    AllSteps ledgerStep Timely (LedgerState.init 0) renewAfterEviction ∧
      ¬ AllSteps ledgerStep KeepsProtection (LedgerState.init 0) renewAfterEviction := by
  refine ⟨by decide, fun h => ?_⟩
  have hlast := allSteps_iff.mp h (renewAfterEviction.take 4) (200, .renew "l1" (some 100) ∅)
    ⟨[], rfl⟩
  exact absurd (hlast.1 200 le_rfl) (by decide)

/-- Without the eviction the model is IDLE when it is renewed, and comes back. -/
theorem protected_without_eviction :
    AllSteps ledgerStep KeepsProtection (LedgerState.init 0)
      ((renewAfterEviction.take 3).concat (200, .renew "l1" (some 100) ∅)) :=
  (protected_iff_renewable 0 _ (by decide)).mpr
    ⟨trivial, trivial, trivial, fun _ g hg d hd => by
      have hidle : ∀ g ∈ ["g1"], ∀ d ∈ (run ledgerStep (LedgerState.init 0)
        (renewAfterEviction.take 3)).store.getDeployment g, d.state ≠ .stopped := by decide
      exact hidle g hg d hd, trivial⟩

end InferStack
