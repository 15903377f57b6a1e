import InferStack.Ledger.Binding
import InferStack.Ledger.Protection

/-!
# InferStack.Ledger.Claims

The claim relation over runs of the ledger.

A claim row names a lease, an alias and a deployment, and is deleted with
either.  The run is traced: `TracedState.history` keeps a record of every claim
ever committed on a deployment that still exists, with the request it was made
for.  `ledger_claims` says of every reachable state that

* a dedicated deployment was claimed once in its life;
* a shared request's claim names a shared deployment of its key, with its
  capacity;
* a deployment serves every alias claimed of it;

and of every acquire that it creates a shared deployment only where no stored
one would do, and that a refused one writes nothing.
-/

namespace InferStack

open Kit

variable {π δ : Type}

/-! ## the traced ledger -/

/-- A claim as it was committed, with the request it was made for. -/
structure ClaimRecord where
  leaseId : String
  request : EndpointRequest
  deploymentId : String

/-- The acquire an operation attempts: its lease, the overlay it commits, and
how its transaction ends. -/
def attempt (st : LedgerState π δ) (e : Int × LedgerOp π δ) :
    Option (String × AcquireOverlay × Except AcquireError (Store π δ)) :=
  match e.2 with
  | .acquire leaseId owner ttl none requests newId allocations digest profile =>
      let o := planAcquire st.store requests (fun _ => false) e.1 newId
      some (leaseId, o, acquire st.store leaseId owner ttl o allocations digest profile)
  | .acquire leaseId owner ttl (some i) _ _ allocations digest profile =>
      (st.overlays[i]?).map fun o =>
        (leaseId, o, acquire st.store leaseId owner ttl o allocations digest profile)
  | _ => none

/-- The store after the transaction of an acquire. -/
def storeAfter (s : Store π δ) : Except AcquireError (Store π δ) → Store π δ
  | .ok s' => s'
  | .error _ => s

/-- The claims an operation commits. -/
def committed (st : LedgerState π δ) (e : Int × LedgerOp π δ) : List ClaimRecord :=
  match attempt st e with
  | some (leaseId, o, .ok _) => o.claims.map fun rg => ⟨leaseId, rg.1, rg.2⟩
  | _ => []

/-- A write of the ledger's other records: the marker, the profile, the network
and the service addresses. -/
inductive RecordOp (π δ : Type) where
  | markPublicationPending (applyRequested interrupted : Bool) (approvedDigest : Option δ)
      (profile : Option π)
  | setApprovedDigest (digest : Option δ)
  | publishProfile (profile : π) (approvedDigest : Option δ)
  | setProfile (profile : π)
  | migrateNetwork (subnet : String) (resetAddresses : Bool) (approvedDigest : Option δ)
      (profile : Option π)
  | setNetworkConfig (subnet : String)
  | addServiceAddresses (table : Dict String String)
  | clearPublicationPending (version : Nat)

def RecordOp.apply (s : Store π δ) : RecordOp π δ → Store π δ
  | .markPublicationPending applyRequested interrupted digest profile =>
      s.markPublicationPending applyRequested interrupted digest profile
  | .setApprovedDigest digest => s.setApprovedDigest digest
  | .publishProfile profile digest => s.publishProfile profile digest
  | .setProfile profile => s.writeProfile profile
  | .migrateNetwork subnet reset digest profile => s.migrateNetwork subnet reset digest profile
  | .setNetworkConfig subnet => { s with networkConfig := some subnet }
  | .addServiceAddresses table => (s.addServiceAddresses table).getD s
  | .clearPublicationPending version => s.clearPublicationPending version

/-- A call of the ledger. -/
inductive LedgerCall (π δ : Type) where
  | op (now : Int) (op : LedgerOp π δ)
  | record (op : RecordOp π δ)

/-- The ledger, and every claim committed on a deployment it still holds. -/
structure TracedState (π δ : Type) where
  ledger : LedgerState π δ
  history : List ClaimRecord

def TracedState.init (start : Int) : TracedState π δ := ⟨LedgerState.init start, []⟩

/-- The trace goes on with a ledger and the claims it has committed. -/
def TracedState.next (t : TracedState π δ) (st : LedgerState π δ) (new : List ClaimRecord) :
    TracedState π δ :=
  ⟨st, (t.history ++ new).filter (·.deploymentId ∈ st.store.deployments.keys)⟩

/-- One call, traced. -/
def tracedStep (t : TracedState π δ) : LedgerCall π δ → TracedState π δ
  | .op now op => t.next (ledgerStep t.ledger (now, op)) (committed t.ledger (now, op))
  | .record op => t.next { t.ledger with store := op.apply t.ledger.store } []

/-- The claims of a reachable ledger. -/
structure ClaimStructure (t : TracedState π δ) : Prop where
  /-- Every claim row is on record. -/
  recorded : ∀ c ∈ t.ledger.store.claims, ∃ rec ∈ t.history,
    rec.leaseId = c.leaseId ∧ rec.deploymentId = c.deploymentId ∧ rec.request.endpoint = c.endpoint
  /-- A dedicated deployment is claimed once in its life. -/
  dedicated : ∀ d ∈ t.ledger.store.deployments, d.sharing = .dedicated →
    (t.history.filter (·.deploymentId = d.id)).length ≤ 1
  /-- A shared request's claim is on a shared deployment of its key that covers it. -/
  shared : ∀ rec ∈ t.history, rec.request.sharing = .shared →
    ∃ d, t.ledger.store.getDeployment rec.deploymentId = some d ∧ d.sharing = .shared ∧
      d.compatKey = rec.request.compatKey ∧ capacitySatisfies d.capacity rec.request.capacity
  /-- A deployment serves every alias that is claimed of it. -/
  served : ∀ c ∈ t.ledger.store.claims, ∃ d,
    t.ledger.store.getDeployment c.deploymentId = some d ∧ (d.served.get? c.endpoint).isSome

/-- An acquire that commits creates a shared deployment only where it is needed;
one that is refused writes nothing. -/
def AcquiresNeeded (t : TracedState π δ) : LedgerCall π δ → Prop
  | .op now op => ∀ leaseId o result, attempt t.ledger (now, op) = some (leaseId, o, result) →
      match result with
      | .ok s' => (tracedStep t (.op now op)).ledger.store = s' ∧ Needed t.ledger.store o
      | .error _ => (tracedStep t (.op now op)).ledger.store = t.ledger.store
  | .record _ => True

/-- The ids a call makes for its plan are new. -/
def FreshPlans (t : TracedState π δ) : LedgerCall π δ → Prop
  | .op _ op => ∀ requests newId, op.requests = some (requests, newId) →
      FreshIds t.ledger.store newId
  | .record _ => True

/-! ## what a step does to the claims -/

/-- An acquire ends as its transaction does. -/
theorem applyOp_attempt {st : LedgerState π δ} {e : Int × LedgerOp π δ} {leaseId : String}
    {o : AcquireOverlay} {result : Except AcquireError (Store π δ)}
    (h : attempt st e = some (leaseId, o, result)) :
    (∃ owner ttl allocations digest profile,
        result = acquire st.store leaseId owner ttl o allocations digest profile) ∧
      (ledgerStep st e).store = storeAfter st.store result := by
  obtain ⟨now, op⟩ := e
  cases op with
  | acquire l owner ttl overlay requests newId allocations digest profile =>
      cases overlay with
      | none =>
          obtain ⟨rfl, rfl, rfl⟩ : l = leaseId ∧ _ = o ∧ _ = result := by
            simpa [attempt] using h
          exact ⟨⟨owner, ttl, allocations, digest, profile, rfl⟩, rfl⟩
      | some i =>
          obtain ⟨o', ho, heq⟩ := Option.map_eq_some_iff.mp h
          obtain ⟨rfl, rfl, rfl⟩ : l = leaseId ∧ o' = o ∧ _ = result := by simpa using heq
          refine ⟨⟨owner, ttl, allocations, digest, profile, rfl⟩, ?_⟩
          dsimp only [ledgerStep, applyOp]
          rw [ho]
          rfl
  | _ => contradiction

/-- What is not an acquire that commits only moves rows, and bumps the version
if it moves one a plan can choose. -/
theorem moves_of_not_committed {st : LedgerState π δ} {e : Int × LedgerOp π δ}
    (h : ∀ leaseId o s', attempt st e ≠ some (leaseId, o, .ok s')) :
    OnlyMoves st.store (ledgerStep st e).store ∧
      VersionGuards st.store (ledgerStep st e).store := by
  have hsame : OnlyMoves st.store st.store ∧ VersionGuards st.store st.store :=
    ⟨.refl _, .of_rows rfl fun _ => rfl⟩
  cases hattempt : attempt st e with
  | some tried =>
      obtain ⟨leaseId, o, result⟩ := tried
      obtain ⟨-, hstore⟩ := applyOp_attempt hattempt
      cases result with
      | ok s' => exact absurd hattempt (h leaseId o s')
      | error err =>
          rw [hstore]
          exact hsame
  | none =>
      obtain ⟨now, op⟩ := e
      cases op with
      | plan requests resident newId => exact hsame
      | acquire l owner ttl overlay requests newId allocations digest profile =>
          cases overlay with
          | none => contradiction
          | some i =>
              have hnone : st.overlays[i]? = none := by simpa [attempt] using hattempt
              dsimp only [ledgerStep, applyOp]
              rw [hnone]
              exact hsame
      | release leaseId =>
          refine ⟨.of_state getDeployment_release (claims_release ..), ?_⟩
          refine .of_bump version_release fun hnone g => ?_
          have hnil : (release st.store leaseId now).1.idledDeploymentIds = [] := by
            simpa using hnone
          refine (getDeployment_release g).trans ?_
          rw [hnil, if_neg List.not_mem_nil]
      | renew leaseId ttl allocations => exact ⟨onlyMoves_renew .., guards_renew ..⟩
      | renewIfLive leaseId ttl =>
          show OnlyMoves _ (renewIfLive st.store leaseId ttl now).2 ∧
            VersionGuards _ (renewIfLive st.store leaseId ttl now).2
          cases renewIfLive_cases st.store leaseId ttl now with
          | inl hkept =>
              rw [hkept.1]
              exact hsame
          | inr hrenewed =>
              obtain ⟨l, -, -, -, hstore⟩ := hrenewed
              rw [hstore]
              exact ⟨⟨fun _ d hd => ⟨d, hd, .refl d, rfl⟩, List.Subset.refl _⟩,
                .of_rows rfl fun _ => rfl⟩
      | sweep =>
          refine ⟨.of_state getDeployment_sweep (Store.claims_bumpWhen _ _), ?_⟩
          refine .of_bump version_sweep fun hnone g => ?_
          have hnil : (sweep st.store now).1.idledDeploymentIds = [] := by
            simp only [ne_eq, decide_eq_false_iff_not, not_or, not_not] at hnone
            exact hnone.2
          refine (getDeployment_sweep g).trans ?_
          rw [hnil, if_neg List.not_mem_nil]
      | evictIdle ids =>
          refine ⟨.of_state getDeployment_evictIdle (Store.claims_bumpWhen _ _), ?_⟩
          refine .of_bump version_evictIdle fun hnone g => ?_
          have hnil : (evictIdle st.store ids now).1 = [] := by simpa using hnone
          refine (getDeployment_evictIdle g).trans ?_
          rw [hnil, if_neg List.not_mem_nil]
      | prune => exact ⟨onlyMoves_prune _, guards_prune _⟩
      | setAllocation g gpus =>
          refine ⟨⟨fun g' d' hd' => ?_, List.Subset.refl _⟩, .inl (Nat.lt_succ_self _)⟩
          change (st.store.setDeploymentAllocation g gpus).getDeployment g' = some d' at hd'
          rw [Store.getDeployment_setDeploymentAllocation] at hd'
          split at hd'
          · obtain ⟨d, hd, rfl⟩ := Option.map_eq_some_iff.mp hd'
            exact ⟨d, hd, ⟨rfl, rfl, rfl⟩, rfl⟩
          · exact ⟨d', hd', .refl d', rfl⟩

/-! ## what every run keeps -/

/-- The invariant of traced runs. -/
structure ClaimsInv (t : TracedState π δ) : Prop where
  recorded : ∀ c ∈ t.ledger.store.claims, ∃ rec ∈ t.history,
    rec.leaseId = c.leaseId ∧ rec.deploymentId = c.deploymentId ∧ rec.request.endpoint = c.endpoint
  fits : ∀ rec ∈ t.history, ∃ d, t.ledger.store.getDeployment rec.deploymentId = some d ∧
    FitsClaim rec.request d ∧ (d.served.get? rec.request.endpoint).isSome
  dedicated : ∀ d ∈ t.ledger.store.deployments, d.sharing = .dedicated →
    (t.history.filter (·.deploymentId = d.id)).length ≤ 1
  waiting : ∀ o ∈ t.ledger.overlays, Waits t.ledger.store o

theorem TracedState.mem_history_next {t : TracedState π δ} {st : LedgerState π δ}
    {new : List ClaimRecord} {rec : ClaimRecord} : rec ∈ (t.next st new).history ↔
      (rec ∈ t.history ∨ rec ∈ new) ∧ rec.deploymentId ∈ st.store.deployments.keys := by
  show rec ∈ List.filter _ _ ↔ _
  rw [List.mem_filter, List.mem_append, decide_eq_true_eq]

/-- How often a deployment is on record after a step. -/
theorem TracedState.length_history_next (t : TracedState π δ) (st : LedgerState π δ)
    (new : List ClaimRecord) (g : String) :
    ((t.next st new).history.filter (·.deploymentId = g)).length ≤
      (t.history.filter (·.deploymentId = g)).length +
        (new.filter (·.deploymentId = g)).length := by
  rw [← List.length_append, ← List.filter_append]
  have hsub : (t.next st new).history.Sublist (t.history ++ new) := List.filter_sublist
  exact (hsub.filter _).length_le

/-- A step that commits no acquire keeps the claims that are left. -/
theorem ClaimsInv.moves {t : TracedState π δ} {st : LedgerState π δ} (h : ClaimsInv t)
    (hmoves : OnlyMoves t.ledger.store st.store)
    (hwaiting : ∀ o ∈ st.overlays, Waits st.store o) : ClaimsInv (t.next st []) where
  recorded := by
    intro c hc
    obtain ⟨rec, hrec, hlease, hid, hendpoint⟩ := h.recorded c (hmoves.claims hc)
    have hkey : rec.deploymentId ∈ st.store.deployments.keys :=
      hid ▸ st.store.claim_deployment c hc
    exact ⟨rec, TracedState.mem_history_next.mpr ⟨.inl hrec, hkey⟩, hlease, hid, hendpoint⟩
  fits := by
    intro rec hrec
    obtain ⟨hmem, hkey⟩ := TracedState.mem_history_next.mp hrec
    have hold : rec ∈ t.history := by simpa using hmem
    rw [Table.mem_keys_iff] at hkey
    obtain ⟨d', hd'⟩ := Option.isSome_iff_exists.mp hkey
    obtain ⟨d, hd, hkind, hserved⟩ := hmoves.row _ d' hd'
    obtain ⟨d₀, hd₀, hfits, halias⟩ := h.fits rec hold
    obtain rfl : d₀ = d := Option.some.inj (hd₀.symm.trans hd)
    exact ⟨d', hd', hfits.of_sameKind hkind, by rw [hserved]; exact halias⟩
  dedicated := by
    intro d' hd' hded
    have hget : st.store.getDeployment d'.id = some d' :=
      Table.mem_iff_find?.mp hd'
    obtain ⟨d, hd, hkind, -⟩ := hmoves.row _ d' hget
    obtain ⟨hmem, hid⟩ := Table.find?_eq_some.mp hd
    have hle := t.length_history_next st [] d'.id
    have hold := h.dedicated d hmem (hkind.sharing ▸ hded)
    rw [hid] at hold
    exact le_trans hle (by simpa using hold)
  waiting := hwaiting

/-- An acquire that commits keeps the claims, and adds its own. -/
theorem ClaimsInv.commits {t : TracedState π δ} {st : LedgerState π δ} (h : ClaimsInv t)
    {leaseId owner : String} {ttl : Option Int} {o : AcquireOverlay}
    {allocations : Dict String (List Nat)} {digest : Option δ} {profile : Option π}
    (hacq : Acquired t.ledger.store st.store leaseId owner ttl o allocations
      digest profile) (hbinds : Binds t.ledger.store o)
    (hwaiting : ∀ o ∈ st.overlays, Waits st.store o) :
    ClaimsInv (t.next st (o.claims.map fun rg => ⟨leaseId, rg.1, rg.2⟩)) where
  recorded := by
    intro c hc
    have hkey := st.store.claim_deployment c hc
    have hmem : c ∈ t.ledger.store.claims ++ o.claims.map fun rg => ⟨leaseId, rg.1.endpoint, rg.2⟩ :=
      hacq.claims ▸ hc
    cases List.mem_append.mp hmem with
    | inl hold =>
        obtain ⟨rec, hrec, hlease, hid, hendpoint⟩ := h.recorded c hold
        exact ⟨rec, TracedState.mem_history_next.mpr ⟨.inl hrec, hid ▸ hkey⟩, hlease, hid, hendpoint⟩
    | inr hnew =>
        obtain ⟨rg, hrg, rfl⟩ := List.mem_map.mp hnew
        refine ⟨⟨leaseId, rg.1, rg.2⟩, TracedState.mem_history_next.mpr ⟨.inr ?_, hkey⟩, rfl, rfl, rfl⟩
        exact List.mem_map.mpr ⟨rg, hrg, rfl⟩
  fits := by
    intro rec hrec
    obtain ⟨hmem, hkey⟩ := TracedState.mem_history_next.mp hrec
    cases hmem with
    | inl hold =>
        rw [Table.mem_keys_iff] at hkey
        obtain ⟨d', hd'⟩ := Option.isSome_iff_exists.mp hkey
        obtain ⟨d₀, hd₀, hfits, halias⟩ := h.fits rec hold
        cases hacq.row hbinds hd' with
        | inl hstored =>
            obtain ⟨d, hd, hkind, hserved⟩ := hstored
            obtain rfl : d₀ = d := Option.some.inj (hd₀.symm.trans hd)
            refine ⟨d', hd', hfits.of_sameKind hkind, ?_⟩
            rw [hserved]
            exact isSome_servedBy halias
        | inr hcreated =>
            obtain ⟨d, hd, hid, -, -⟩ := hcreated
            have hnone := hacq.getDeployment_created (Table.mem_keys.mpr ⟨d, hd, rfl⟩)
            rw [hid, hd₀] at hnone
            contradiction
    | inr hnew =>
        obtain ⟨rg, hrg, rfl⟩ := List.mem_map.mp hnew
        exact hacq.claim hbinds hrg
  dedicated := by
    intro d' hd' hded
    have hget : st.store.getDeployment d'.id = some d' :=
      Table.mem_iff_find?.mp hd'
    have hle := t.length_history_next st (o.claims.map fun rg => ⟨leaseId, rg.1, rg.2⟩) d'.id
    -- only a dedicated request's claim fits a dedicated deployment
    have hclaims : ∀ rg ∈ o.claims, rg.2 = d'.id → rg.1.sharing = .dedicated := by
      intro rg hrg hid
      obtain ⟨e', he', hfits, -⟩ := hacq.claim hbinds hrg
      obtain rfl : e' = d' := Option.some.inj (he'.symm.trans (hid ▸ hget))
      cases hfits.sharing with
      | inl hsame => exact hsame ▸ hded
      | inr hother =>
          rw [hded] at hother
          exact absurd hother.2 (by decide)
    rw [List.filter_map, List.length_map] at hle
    change _ ≤ _ + (o.claims.filter (·.2 = d'.id)).length at hle
    cases hacq.row hbinds hget with
    | inl hstored =>
        obtain ⟨d, hd, hkind, -⟩ := hstored
        obtain ⟨hmem, hid⟩ := Table.find?_eq_some.mp hd
        have hold := h.dedicated d hmem (hkind.sharing ▸ hded)
        rw [hid] at hold
        -- a dedicated request claims what its own plan creates
        have hnone : o.claims.filter (·.2 = d'.id) = [] := by
          refine List.filter_eq_nil_iff.mpr fun rg hrg heq => ?_
          have hrgid : rg.2 = d'.id := by simpa using heq
          obtain ⟨i, hi⟩ := List.mem_iff_getElem?.mp hrg
          have hcreated := (hbinds.dedicated i rg.1 rg.2 hi (hclaims rg hrg hrgid)).1
          have hfresh := hacq.getDeployment_created hcreated
          rw [hrgid, hd] at hfresh
          contradiction
        rw [hnone] at hle
        exact le_trans hle (by simpa using hold)
    | inr hcreated =>
        obtain ⟨d, hd, hid, -, -⟩ := hcreated
        have hfresh := hacq.getDeployment_created (Table.mem_keys.mpr ⟨d, hd, rfl⟩)
        have hnone : t.history.filter (·.deploymentId = d'.id) = [] := by
          refine List.filter_eq_nil_iff.mpr fun rec hrec heq => ?_
          have hrecid : rec.deploymentId = d'.id := by simpa using heq
          obtain ⟨d₀, hd₀, -⟩ := h.fits rec hrec
          rw [hrecid, ← hid, hfresh] at hd₀
          contradiction
        rw [hnone] at hle
        exact le_trans hle (by simpa using hbinds.dedicated_length hclaims)
  waiting := hwaiting

section Step

variable {t : TracedState π δ} {e : Int × LedgerOp π δ}

/-- An overlay that commits binds itself to the ledger it commits to. -/
theorem ClaimsInv.binds (h : ClaimsInv t)
    (hfresh : ∀ requests newId, e.2.requests = some (requests, newId) →
      FreshIds t.ledger.store newId) {leaseId : String}
    {o : AcquireOverlay} {result : Except AcquireError (Store π δ)}
    (hattempt : attempt t.ledger e = some (leaseId, o, result))
    (hversion : t.ledger.store.admissionStateVersion = o.stateVersion) :
    Binds t.ledger.store o := by
  obtain ⟨now, op⟩ := e
  cases op with
  | acquire l owner ttl overlay requests newId allocations digest profile =>
      cases overlay with
      | none =>
          obtain ⟨rfl, rfl, rfl⟩ : l = leaseId ∧ _ = o ∧ _ = result := by
            simpa [attempt] using hattempt
          exact planAcquire_binds (hfresh requests newId rfl) requests (fun _ => false) now
      | some i =>
          obtain ⟨o', ho, heq⟩ := Option.map_eq_some_iff.mp hattempt
          obtain ⟨rfl, rfl, rfl⟩ : l = leaseId ∧ o' = o ∧ _ = result := by simpa using heq
          exact (h.waiting o' (List.mem_of_getElem? ho)).binds hversion.symm
  | _ => contradiction

/-- The overlays after an operation wait for their commit. -/
theorem ClaimsInv.waits (h : ClaimsInv t)
    (hfresh : ∀ requests newId, e.2.requests = some (requests, newId) →
      FreshIds t.ledger.store newId)
    (hguard : VersionGuards t.ledger.store (ledgerStep t.ledger e).store) :
    ∀ o ∈ (ledgerStep t.ledger e).overlays, Waits (ledgerStep t.ledger e).store o := by
  have hold : ∀ o ∈ t.ledger.overlays, Waits (ledgerStep t.ledger e).store o :=
    fun o ho => (h.waiting o ho).step hguard
  obtain ⟨now, op⟩ := e
  cases op with
  | plan requests resident newId =>
      intro o ho
      cases List.mem_append.mp ho with
      | inl hmem => exact hold o hmem
      | inr hnew =>
          obtain rfl := List.mem_singleton.mp hnew
          exact ⟨le_rfl, fun _ => planAcquire_binds (hfresh requests newId rfl) requests resident now⟩
  | _ => exact hold

/-- An operation keeps the invariant, and an acquire commits what is needed. -/
theorem ClaimsInv.op (h : ClaimsInv t) {now : Int} {op : LedgerOp π δ}
    (hfresh : FreshPlans t (.op now op)) :
    ClaimsInv (tracedStep t (.op now op)) ∧ AcquiresNeeded t (.op now op) := by
  have hids : ∀ requests newId, (now, op).2.requests = some (requests, newId) →
      FreshIds t.ledger.store newId := hfresh
  by_cases hcommits : ∃ leaseId o s', attempt t.ledger (now, op) = some (leaseId, o, .ok s')
  · obtain ⟨leaseId, o, s', hattempt⟩ := hcommits
    obtain ⟨⟨owner, ttl, allocations, digest, profile, hresult⟩, hafter⟩ :=
      applyOp_attempt hattempt
    have hacq := acquire_ok hresult.symm
    have hstore : (ledgerStep t.ledger (now, op)).store = s' := hafter
    have hbinds := h.binds hids hattempt hacq.version
    rw [← hstore] at hacq
    have hguard : VersionGuards t.ledger.store (ledgerStep t.ledger (now, op)).store :=
      .inl (by rw [hacq.version']; exact Nat.lt_succ_self _)
    have hcommitted : committed t.ledger (now, op) =
        o.claims.map fun rg => ⟨leaseId, rg.1, rg.2⟩ := by
      unfold committed
      rw [hattempt]
    have hnext := h.commits hacq hbinds (h.waits hids hguard)
    rw [← hcommitted] at hnext
    refine ⟨hnext, fun leaseId' o' result htried => ?_⟩
    obtain ⟨rfl, rfl, rfl⟩ : leaseId = leaseId' ∧ o = o' ∧ Except.ok s' = result := by
      simpa using hattempt.symm.trans htried
    exact ⟨hstore, hbinds.needed⟩
  · have hnot : ∀ leaseId o s', attempt t.ledger (now, op) ≠ some (leaseId, o, .ok s') :=
      fun leaseId o s' heq => hcommits ⟨leaseId, o, s', heq⟩
    obtain ⟨hmoves, hguard⟩ := moves_of_not_committed hnot
    have hnone : committed t.ledger (now, op) = [] := by
      unfold committed
      split
      · rename_i leaseId o s' heq
        exact absurd heq (hnot leaseId o s')
      · rfl
    have hnext := h.moves hmoves (h.waits hids hguard)
    rw [← hnone] at hnext
    refine ⟨hnext, fun leaseId o result htried => ?_⟩
    cases result with
    | ok s' => exact absurd htried (hnot leaseId o s')
    | error err => exact (applyOp_attempt htried).2

/-- The other records say nothing of rows and claims. -/
theorem RecordOp.rows (s : Store π δ) (op : RecordOp π δ) :
    (op.apply s).deployments = s.deployments ∧ (op.apply s).claims = s.claims ∧
      (op.apply s).admissionStateVersion = s.admissionStateVersion := by
  cases op with
  | addServiceAddresses table =>
      dsimp only [RecordOp.apply]
      cases hadd : s.addServiceAddresses table with
      | none => exact ⟨rfl, rfl, rfl⟩
      | some s' =>
          obtain ⟨addresses, -, rfl⟩ := Option.map_eq_some_iff.mp hadd
          exact ⟨rfl, rfl, rfl⟩
  | _ => exact ⟨rfl, rfl, rfl⟩

theorem ClaimsInv.record (h : ClaimsInv t) (op : RecordOp π δ) :
    ClaimsInv (tracedStep t (.record op)) := by
  obtain ⟨hrows, hclaims, hversion⟩ := op.rows t.ledger.store
  have hget : ∀ g, (op.apply t.ledger.store).getDeployment g = t.ledger.store.getDeployment g := by
    intro g
    unfold Store.getDeployment
    rw [hrows]
  refine h.moves ⟨fun g d hd => ⟨d, (hget g).symm.trans hd, .refl d, rfl⟩, ?_⟩ ?_
  · show (op.apply t.ledger.store).claims ⊆ _
    rw [hclaims]
    exact List.Subset.refl _
  · exact fun o ho => (h.waiting o ho).step (.of_rows hversion hget)

/-- A call keeps the invariant, and an acquire commits what is needed. -/
theorem ClaimsInv.step (h : ClaimsInv t) {c : LedgerCall π δ} (hfresh : FreshPlans t c) :
    ClaimsInv (tracedStep t c) ∧ AcquiresNeeded t c := by
  cases c with
  | op now op => exact h.op hfresh
  | record op => exact ⟨h.record op, trivial⟩

/-- The invariant says what the claims of a reachable ledger are. -/
theorem ClaimsInv.claimStructure (h : ClaimsInv t) : ClaimStructure t where
  recorded := h.recorded
  dedicated := h.dedicated
  shared := by
    intro rec hrec hshared
    obtain ⟨d, hd, hfits, -⟩ := h.fits rec hrec
    have hsharing : d.sharing = .shared := by
      cases hfits.sharing with
      | inl hsame => exact hsame.trans hshared
      | inr hother => exact hother.2
    exact ⟨d, hd, hsharing, hfits.compatKey, hfits.capacity⟩
  served := by
    intro c hc
    obtain ⟨rec, hrec, -, hid, hendpoint⟩ := h.recorded c hc
    obtain ⟨d, hd, -, halias⟩ := h.fits rec hrec
    exact ⟨d, hid ▸ hd, hendpoint ▸ halias⟩

theorem ClaimsInv.init (start : Int) : ClaimsInv (TracedState.init start : TracedState π δ) where
  recorded := by
    intro c hc
    contradiction
  fits := by
    intro rec hrec
    contradiction
  dedicated := by
    intro d hd
    contradiction
  waiting := by
    intro o ho
    contradiction

end Step

/-- From an empty store, whatever the calls and whenever an overlay commits: a
dedicated deployment is claimed once in its life, a shared request's claim is on
a shared deployment of its key that covers it, every claimed alias is served, an
acquire creates a shared deployment only where no stored one would do, and a
refused acquire writes nothing. -/
theorem ledger_claims (start : Int) (calls : List (LedgerCall π δ))
    (hids : AllSteps tracedStep FreshPlans (TracedState.init start) calls) :
    ClaimStructure (run tracedStep (TracedState.init start) calls) ∧
      AllSteps tracedStep AcquiresNeeded (TracedState.init start) calls := by
  constructor
  · have hinv : ClaimsInv (run tracedStep (TracedState.init start) calls) :=
      AllSteps.run_inv (fun t e h hfresh => (h.step hfresh).1) (.init start) hids
    exact hinv.claimStructure
  · exact AllSteps.of_inv (I := ClaimsInv) (fun t e h hfresh => (h.step hfresh).1)
      (fun t e h hfresh => (h.step hfresh).2) (.init start) hids

/-! ## a run with a stale plan -/

/-- Ids with a tag of their own. -/
def tagId (c : Char) (i : Nat) : String := String.ofList (c :: List.replicate i 'x')

theorem freshIds_tagId {s : Store π δ} {c : Char}
    (h : s.deployments.keys.all fun k => k.toList.head? != some c) : FreshIds s (tagId c) := by
  constructor
  · intro i j heq
    have hlist := congrArg String.toList heq
    simpa [tagId] using congrArg List.length hlist
  · intro i hi
    have hhead := List.all_eq_true.mp h _ hi
    simp [tagId] at hhead

/-- A plan goes stale when another lease takes a deployment and a dedicated copy
of it; planned again it joins that deployment. -/
def stalePlan : List (LedgerCall Unit Unit) :=
  [.op 0 (.plan [chatRequest] (fun _ => false) (tagId 'p')),
   .op 1 (.acquire "l1" "ann" none none
      [chatRequest, { chatRequest with sharing := .dedicated }] (tagId 'q') ∅ none none),
   .op 2 (.acquire "l2" "bob" none (some 0) [] (tagId 'r') ∅ none none),
   .op 3 (.plan [chatRequest] (fun _ => false) (tagId 'r')),
   .record (.publishProfile () none),
   .op 4 (.acquire "l2" "bob" none (some 1) [] (tagId 's') ∅ none none),
   .op 5 (.release "l1"),
   .op 6 .prune]

/-- The stale plan is refused, and the two leases end up on one deployment. -/
theorem ledger_claims_stalePlan :
    (ClaimStructure (run tracedStep (TracedState.init 0) stalePlan) ∧
      AllSteps tracedStep AcquiresNeeded (TracedState.init 0) stalePlan) ∧
      (run tracedStep (TracedState.init 0) stalePlan).history.map
        (fun rec => (rec.leaseId, rec.deploymentId)) = [("l1", "q"), ("l1", "qx"), ("l2", "q")] := by
  have hids : AllSteps tracedStep FreshPlans (TracedState.init 0) stalePlan := by
    refine ⟨?_, ?_, ?_, ?_, trivial, ?_, ?_, ?_, trivial⟩
    · intro requests newId heq
      obtain ⟨rfl, rfl⟩ := Prod.mk.inj (Option.some.inj heq)
      exact freshIds_tagId (by decide)
    · intro requests newId heq
      obtain ⟨rfl, rfl⟩ := Prod.mk.inj (Option.some.inj heq)
      exact freshIds_tagId (by decide)
    · intro requests newId heq
      contradiction
    · intro requests newId heq
      obtain ⟨rfl, rfl⟩ := Prod.mk.inj (Option.some.inj heq)
      exact freshIds_tagId (by decide)
    · intro requests newId heq
      contradiction
    · intro requests newId heq
      contradiction
    · intro requests newId heq
      contradiction
  exact ⟨ledger_claims 0 stalePlan hids, by decide⟩

end InferStack
