import InferStack.Ledger.Spec
import InferStack.Transition

/-!
# InferStack.Transition.Renewals

What lock-free renews do to a ledger, whatever their number: a lease is left
with the window of the last renew it got, and it gets one exactly if it is
ACTIVE and all it claims is LIVE.  No other row moves.
-/

namespace InferStack

open Kit

variable {π δ : Type}

/-- A lock-free renew of the lease takes effect. -/
def RenewsNow (s : Store π δ) (id : String) : Prop :=
  (∃ l, s.getLease id = some l ∧ l.state = .active) ∧
    ∀ g ∈ s.deploymentIds id, ∃ d, s.getDeployment g = some d ∧ d.state = .live

/-- The lease row a renew leaves. -/
def Renewal.row (r : Renewal) (l : Lease) : Lease :=
  l.renewed r.ttlSeconds (r.ttlSeconds.map (r.now + ·)) r.now

/-- The last of some renews that is for the lease. -/
def lastRenewal (id : String) (rs : List Renewal) : Option Renewal :=
  (rs.filter (·.leaseId = id)).getLast?

theorem lastRenewal_snoc (id : String) (rs : List Renewal) (r : Renewal) :
    lastRenewal id (rs ++ [r]) = if r.leaseId = id then some r else lastRenewal id rs := by
  unfold lastRenewal
  rw [List.filter_append]
  by_cases h : r.leaseId = id
  · simp [h]
  · simp [h]

namespace Store

theorem renewing_append (s : Store π δ) (rs rs' : List Renewal) :
    s.renewing (rs ++ rs') = (s.renewing rs).renewing rs' := List.foldl_append

theorem renewing_snoc (s : Store π δ) (rs : List Renewal) (r : Renewal) :
    s.renewing (rs ++ [r]) =
      (renewIfLive (s.renewing rs) r.leaseId r.ttlSeconds r.now).2 := List.foldl_concat _ _ _ _

end Store

/-- Renews write lease rows only. -/
structure LeasesOnly (s s' : Store π δ) : Prop where
  deployments : s'.deployments = s.deployments
  claims : s'.claims = s.claims
  profile : s'.profile = s.profile
  pending : s'.publicationPending = s.publicationPending
  version : s'.admissionStateVersion = s.admissionStateVersion
  addresses : s'.serviceAddresses = s.serviceAddresses

theorem LeasesOnly.refl (s : Store π δ) : LeasesOnly s s := ⟨rfl, rfl, rfl, rfl, rfl, rfl⟩

theorem LeasesOnly.trans {s₁ s₂ s₃ : Store π δ} (h : LeasesOnly s₁ s₂) (h' : LeasesOnly s₂ s₃) :
    LeasesOnly s₁ s₃ :=
  ⟨h'.deployments.trans h.deployments, h'.claims.trans h.claims, h'.profile.trans h.profile,
    h'.pending.trans h.pending, h'.version.trans h.version, h'.addresses.trans h.addresses⟩

/-- One renew: nothing happens, or it takes effect on the lease row. -/
theorem renewIfLive_row (s : Store π δ) (r : Renewal) :
    LeasesOnly s (renewIfLive s r.leaseId r.ttlSeconds r.now).2 ∧
      ∀ id, (RenewsNow s id → (renewIfLive s r.leaseId r.ttlSeconds r.now).2.getLease id =
          if r.leaseId = id then (s.getLease id).map r.row else s.getLease id) ∧
        (¬ RenewsNow s id →
          (renewIfLive s r.leaseId r.ttlSeconds r.now).2.getLease id = s.getLease id) := by
  by_cases hnow : RenewsNow s r.leaseId
  · have hstore : (renewIfLive s r.leaseId r.ttlSeconds r.now).2 =
        s.renewLease r.leaseId r.ttlSeconds (r.ttlSeconds.map (r.now + ·)) r.now := by
      obtain ⟨⟨l, hl, hact⟩, hlive⟩ := hnow
      have hall : (s.deploymentIds r.leaseId).all
          (fun gid => (s.getDeployment gid).any (fun d => d.state = .live)) = true := by
        refine List.all_eq_true.mpr fun g hg => ?_
        obtain ⟨d, hd, hst⟩ := hlive g hg
        simp [hd, hst]
      unfold renewIfLive
      rw [hl]
      simp [hact, hall]
    rw [hstore]
    refine ⟨⟨rfl, rfl, rfl, rfl, rfl, rfl⟩, fun id => ?_⟩
    rw [Store.getLease_renewLease]
    constructor
    · intro _
      by_cases hid : r.leaseId = id
      · rw [if_pos hid, if_pos hid.symm]
        rfl
      · rw [if_neg hid, if_neg (Ne.symm hid)]
    · intro hnot
      rw [if_neg]
      rintro rfl
      exact hnot hnow
  · have hstore : (renewIfLive s r.leaseId r.ttlSeconds r.now).2 = s := by
      cases renewIfLive_cases s r.leaseId r.ttlSeconds r.now with
      | inl hsame => exact hsame.1
      | inr hrenewed =>
          obtain ⟨l, hl, hact, hlive, -⟩ := hrenewed
          exact absurd ⟨⟨l, hl, hact⟩, hlive⟩ hnow
    rw [hstore]
    refine ⟨.refl s, fun id => ⟨fun hid => ?_, fun _ => rfl⟩⟩
    rw [if_neg]
    rintro rfl
    exact hnow hid

/-- Whether a renew takes effect depends on rows that renews leave alone. -/
theorem renewsNow_congr {s s' : Store π δ} (h : LeasesOnly s s') {id : String}
    (hlease : (∃ l, s'.getLease id = some l ∧ l.state = .active) ↔
      ∃ l, s.getLease id = some l ∧ l.state = .active) :
    RenewsNow s' id ↔ RenewsNow s id := by
  have hids : s'.deploymentIds id = s.deploymentIds id := by
    unfold Store.deploymentIds Store.claimsOf
    rw [h.claims]
  have hget : ∀ g, s'.getDeployment g = s.getDeployment g := by
    intro g
    unfold Store.getDeployment
    rw [h.deployments]
  unfold RenewsNow
  rw [hlease, hids]
  simp only [hget]

/-- The ledger after some renews, row by row. -/
theorem renewing_row (s : Store π δ) (rs : List Renewal) :
    LeasesOnly s (s.renewing rs) ∧ ∀ id,
      (RenewsNow (s.renewing rs) id ↔ RenewsNow s id) ∧
      (RenewsNow s id → (s.renewing rs).getLease id =
        (lastRenewal id rs).elim (s.getLease id) (fun r => (s.getLease id).map r.row)) ∧
      (¬ RenewsNow s id → (s.renewing rs).getLease id = s.getLease id) := by
  induction rs using List.reverseRecOn with
  | nil => exact ⟨.refl s, fun id => ⟨Iff.rfl, fun _ => rfl, fun _ => rfl⟩⟩
  | append_singleton rs r ih =>
      obtain ⟨honly, hrows⟩ := ih
      obtain ⟨hstep, hrow⟩ := renewIfLive_row (s.renewing rs) r
      rw [Store.renewing_snoc]
      have honly' := honly.trans hstep
      have hget : ∀ id,
          (RenewsNow s id → (renewIfLive (s.renewing rs) r.leaseId r.ttlSeconds r.now).2.getLease
            id = (lastRenewal id (rs ++ [r])).elim (s.getLease id)
              (fun r => (s.getLease id).map r.row)) ∧
          (¬ RenewsNow s id → (renewIfLive (s.renewing rs) r.leaseId r.ttlSeconds r.now).2.getLease
            id = s.getLease id) := by
        intro id
        obtain ⟨hsame, hnow, hnot⟩ := hrows id
        constructor
        · intro h
          rw [(hrow id).1 (hsame.mpr h), lastRenewal_snoc, hnow h]
          by_cases hid : r.leaseId = id
          · rw [if_pos hid, if_pos hid]
            cases lastRenewal id rs with
            | none => rfl
            | some r' =>
                show ((s.getLease id).map r'.row).map r.row = (s.getLease id).map r.row
                rw [Option.map_map]
                rfl
          · rw [if_neg hid, if_neg hid]
        · intro h
          rw [(hrow id).2 (fun hn => h (hsame.mp hn)), hnot h]
      refine ⟨honly', fun id => ⟨?_, (hget id).1, (hget id).2⟩⟩
      -- a renewed lease was ACTIVE and stays so
      refine renewsNow_congr honly' ?_
      by_cases h : RenewsNow s id
      · rw [(hget id).1 h]
        obtain ⟨⟨l, hl, hact⟩, -⟩ := h
        rw [hl]
        cases lastRenewal id (rs ++ [r]) with
        | none => simp [hact]
        | some r' => simp [hact, Renewal.row, Lease.renewed]
      · rw [(hget id).2 h]

end InferStack
