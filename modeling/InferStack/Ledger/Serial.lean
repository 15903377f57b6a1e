import InferStack.Ledger.Forgetting

/-!
# InferStack.Ledger.Serial

Preview and commit are two transactions, with any others between them.  The
admission version ties them together: an overlay commits only at the version it
was planned at.

The version guards exactly what a plan reads.  A step that does not raise it
leaves the rows of `deployments_by_compat` as they are, in their order, so the
overlay that commits is the one `plan_acquire` would compute at that moment:
`committed_plan_is_current`.
-/

namespace InferStack

open Kit

variable {π δ : Type}

/-! ## what a plan was computed from -/

/-- The arguments of a plan. -/
structure Planning where
  now : Int
  requests : List EndpointRequest
  resident : String → Bool
  newId : Nat → String

def planningOf (e : Int × LedgerOp π δ) : Option Planning :=
  match e.2 with
  | .plan requests resident newId => some ⟨e.1, requests, resident, newId⟩
  | _ => none

/-- The plan of the same arguments, now. -/
def Planning.plan (p : Planning) (s : Store π δ) : AcquireOverlay :=
  planAcquire s p.requests p.resident p.now p.newId

/-! ## what the version guards -/

/-- The version moved on, or a plan reads the same rows in the same order. -/
def ReadsAlike (s s' : Store π δ) : Prop :=
  s.admissionStateVersion < s'.admissionStateVersion ∨
    (s'.admissionStateVersion = s.admissionStateVersion ∧
      ∀ key, s'.deploymentsByCompat key .shared [.live, .idle] =
        s.deploymentsByCompat key .shared [.live, .idle])

variable {s s' : Store π δ}

theorem ReadsAlike.refl (s : Store π δ) : ReadsAlike s s := .inr ⟨rfl, fun _ => rfl⟩

/-- A step that raises the version whenever it touches a row. -/
theorem ReadsAlike.of_bump {changed : Bool}
    (hversion : s'.admissionStateVersion = s.admissionStateVersion + changed.toNat)
    (hrows : changed = false → s'.deployments = s.deployments) : ReadsAlike s s' := by
  cases changed with
  | true => exact .inl (by rw [hversion]; exact Nat.lt_succ_self _)
  | false =>
      refine .inr ⟨by rw [hversion]; rfl, fun key => ?_⟩
      unfold Store.deploymentsByCompat
      rw [hrows rfl]

theorem readsAlike_release (s : Store π δ) (leaseId : String) (now : Int) :
    ReadsAlike s (release s leaseId now).2 := by
  cases release_cases s leaseId now with
  | inl hsame =>
      rw [hsame.2.1]
      exact .refl s
  | inr hreleased =>
      obtain ⟨l, idled, -, -, -, hres, hstore⟩ := hreleased
      refine .of_bump version_release fun hnone => ?_
      have hnil : idled = [] := by simpa [hres] using hnone
      rw [hstore, hnil, Store.deployments_bumpWhen]
      rfl

theorem readsAlike_sweep (s : Store π δ) (now : Int) : ReadsAlike s (sweep s now).2 := by
  refine .of_bump version_sweep fun hnone => ?_
  have hnil : (sweep s now).1.idledDeploymentIds = [] := by
    simp only [ne_eq, decide_eq_false_iff_not, not_or, not_not] at hnone
    exact hnone.2
  refine (Store.deployments_bumpWhen _ _).trans ?_
  show (Store.setDeploymentStates _ (sweep s now).1.idledDeploymentIds .idle now).deployments = _
  rw [hnil]
  rfl

theorem readsAlike_evictIdle (s : Store π δ) (ids : Option (List String)) (now : Int) :
    ReadsAlike s (evictIdle s ids now).2 := by
  refine .of_bump version_evictIdle fun hnone => ?_
  have hnil : (evictIdle s ids now).1 = [] := by simpa using hnone
  refine (Store.deployments_bumpWhen _ _).trans ?_
  show (s.setDeploymentStates (evictIdle s ids now).1 .stopped now).deployments = _
  rw [hnil]
  rfl

theorem readsAlike_renew (s : Store π δ) (leaseId : String) (ttl : Option Int)
    (allocations : Dict String (List Nat)) (now : Int) :
    ReadsAlike s (renew s leaseId ttl allocations now).2 := by
  cases renew_cases s leaseId ttl allocations now with
  | inl hsame =>
      rw [hsame.2]
      exact .refl s
  | inr hrenewed =>
      obtain ⟨l, -, -, hstore⟩ := hrenewed
      rw [hstore]
      refine .of_bump version_renewedStore fun hnone => ?_
      have hnil : idleAmong s (s.deploymentIds leaseId) = [] := by simpa using hnone
      show (renewedStore s leaseId ttl allocations now).deployments = _
      unfold renewedStore
      rw [hnil, Store.deployments_bumpWhen]
      have hnone : allocations.filter (fun kv => kv.1 ∈ ([] : List String)) = ∅ :=
        Table.ext (by simp [Table.filter])
      rw [hnone]
      rfl

theorem readsAlike_renewIfLive (s : Store π δ) (leaseId : String) (ttl : Option Int) (now : Int) :
    ReadsAlike s (renewIfLive s leaseId ttl now).2 := by
  cases renewIfLive_cases s leaseId ttl now with
  | inl hkept =>
      rw [hkept.1]
      exact .refl s
  | inr hrenewed =>
      obtain ⟨l, -, -, -, hstore⟩ := hrenewed
      rw [hstore]
      exact .inr ⟨rfl, fun _ => rfl⟩

/-- A step leaves what a plan reads, or raises the version. -/
theorem readsAlike_step (st : LedgerState π δ) (e : Int × LedgerOp π δ) :
    ReadsAlike st.store (ledgerStep st e).store := by
  cases htried : attempt st e with
  | some tried =>
      obtain ⟨leaseId, o, result⟩ := tried
      obtain ⟨⟨owner, ttl, allocations, digest, profile, hresult⟩, hstore⟩ := applyOp_attempt htried
      rw [hstore]
      cases result with
      | error e => exact .refl _
      | ok s' =>
          refine .inl ?_
          show st.store.admissionStateVersion < s'.admissionStateVersion
          rw [(acquire_ok hresult.symm).version']
          omega
  | none =>
      obtain ⟨now, op⟩ := e
      cases op with
      | plan requests resident newId => exact .refl _
      | acquire l owner ttl overlay requests newId allocations digest profile =>
          cases overlay with
          | none => contradiction
          | some i =>
              have hnone : st.overlays[i]? = none := by simpa [attempt] using htried
              dsimp only [ledgerStep, applyOp]
              rw [hnone]
              exact .refl _
      | release leaseId => exact readsAlike_release ..
      | renew leaseId ttl allocations => exact readsAlike_renew ..
      | renewIfLive leaseId ttl => exact readsAlike_renewIfLive ..
      | sweep => exact readsAlike_sweep ..
      | evictIdle ids => exact readsAlike_evictIdle ..
      | prune =>
          have hpruned := (Forgets.refl st.store).prune
          exact .inr ⟨hpruned.version, hpruned.deploymentsByCompat⟩
      | setAllocation g gpus => exact .inl (Nat.lt_succ_self _)

/-! ## runs -/

/-- An overlay that may still commit is the plan its arguments give now. -/
structure Current (s : Store π δ) (p : Planning) (o : AcquireOverlay) : Prop where
  version : o.stateVersion ≤ s.admissionStateVersion
  plan : o.stateVersion = s.admissionStateVersion → p.plan s = o

theorem Current.step {p : Planning} {o : AcquireOverlay} (h : Current s p o)
    (hreads : ReadsAlike s s') : Current s' p o := by
  have hle := h.version
  cases hreads with
  | inl hlt => exact ⟨by omega, fun heq => absurd heq (by omega)⟩
  | inr hsame =>
      obtain ⟨hversion, hrows⟩ := hsame
      refine ⟨by omega, fun heq => ?_⟩
      rw [← h.plan (by omega)]
      exact planAcquire_congr hversion hrows ..

/-- Every overlay of a run is the plan of its own planning step. -/
theorem run_current (start : Int) (es : List (Int × LedgerOp π δ)) :
    let st := run ledgerStep (LedgerState.init start) es
    List.Forall₂ (Current st.store) (es.filterMap planningOf) st.overlays := by
  induction es using List.reverseRecOn with
  | nil => exact .nil
  | append_singleton es e ih =>
      rw [run_append, List.filterMap_append]
      set st := run ledgerStep (LedgerState.init start : LedgerState π δ) es
      have hold : List.Forall₂ (Current (ledgerStep st e).store) (es.filterMap planningOf)
          st.overlays := ih.imp fun p o h => h.step (readsAlike_step st e)
      obtain ⟨now, op⟩ := e
      cases op with
      | plan requests resident newId =>
          exact List.rel_append hold (.cons ⟨le_rfl, fun _ => rfl⟩ .nil)
      | _ =>
          rw [show List.filterMap planningOf [(now, _)] = [] from rfl, List.append_nil]
          exact hold

/-- A preview that commits is the plan of the moment it commits.  After any run
of the ledger, an acquire that commits an overlay planned earlier does exactly
what planning the same requests inside its own transaction would do. -/
theorem committed_plan_is_current (start : Int) (es : List (Int × LedgerOp π δ)) (now : Int)
    (leaseId owner : String) (ttl : Option Int) (i : Nat) (requests : List EndpointRequest)
    (newId : Nat → String) (allocations : Dict String (List Nat)) (digest : Option δ)
    (profile : Option π) (o : AcquireOverlay) (s' : Store π δ)
    (h : attempt (run ledgerStep (LedgerState.init start) es)
      (now, .acquire leaseId owner ttl (some i) requests newId allocations digest profile) =
        some (leaseId, o, .ok s')) :
    ∃ p, (es.filterMap planningOf)[i]? = some p ∧
      p.plan (run ledgerStep (LedgerState.init start) es).store = o ∧
      acquire (run ledgerStep (LedgerState.init start) es).store leaseId owner ttl
        (p.plan (run ledgerStep (LedgerState.init start) es).store) allocations digest profile =
          .ok s' := by
  have hcurrent := run_current (π := π) (δ := δ) start es
  obtain ⟨o', ho, heq⟩ := Option.map_eq_some_iff.mp h
  obtain ⟨-, rfl, hok⟩ : leaseId = leaseId ∧ o' = o ∧ _ = Except.ok s' := by simpa using heq
  have hlen := hcurrent.length_eq
  obtain ⟨hi, hget⟩ := List.getElem?_eq_some_iff.mp ho
  have hi' : i < (es.filterMap planningOf).length := hlen ▸ hi
  have hone := hcurrent.get hi' hi
  have hsame : (run ledgerStep (LedgerState.init start) es).overlays.get ⟨i, hi⟩ = o' := hget
  rw [hsame] at hone
  have hplan := hone.plan (acquire_ok hok).version.symm
  refine ⟨_, List.getElem?_eq_getElem hi', hplan, ?_⟩
  rw [← hok]
  exact congrArg (fun o => acquire _ leaseId owner ttl o allocations digest profile) hplan

/-- A preview, a renewal and a prune, then its commit. -/
def previewedLease : List (Int × LedgerOp Unit Unit) :=
  [(0, .acquire "l1" "a" none none [chatRequest] (fun _ => "g1") ∅ none none),
    (1, .plan [chatRequest] (fun _ => true) (fun _ => "g2")),
    (2, .renewIfLive "l1" (some 50)),
    (3, .prune)]

theorem previewedLease_current :
    ∃ p s', (previewedLease.filterMap planningOf)[0]? = some p ∧
      acquire (run ledgerStep (LedgerState.init 0) previewedLease).store "l2" "b" none
        (p.plan (run ledgerStep (LedgerState.init 0) previewedLease).store) ∅ none none = .ok s' := by
  obtain ⟨p, hp, -, hok⟩ := committed_plan_is_current (π := Unit) (δ := Unit) 0 previewedLease 4
    "l2" "b" none 0 [] (fun _ => "") ∅ none none _ _ rfl
  exact ⟨p, _, hp, hok⟩

end InferStack
