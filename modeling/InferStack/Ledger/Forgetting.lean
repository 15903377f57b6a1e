import InferStack.Kit.Kept
import InferStack.Kit.Ranked
import InferStack.Kit.Stutter
import InferStack.Ledger.Claims

/-!
# InferStack.Ledger.Forgetting

`prune` deletes the terminal tail of the ledger: released and expired leases,
stopped deployments, and the claims on either.  It may run at any point of a
ledger's life, so nothing the ledger does later may depend on that tail.

`Forgets s t` says that `t` is `s` less some of its tail.  Every write of the
store keeps it, as long as it names no entry that a prune may have deleted
(`Remembers`), and every decision of the ledger reads the same in both.  A run
with prunes anywhere in it and the run without any report the same, operation by
operation, and end in the same ledger once both are pruned:
`prune_is_invisible`.
-/

namespace InferStack

open Kit

variable {π δ : Type}

/-! ## what a prune keeps -/

/-- A lease a prune keeps. -/
def Lease.lasting (l : Lease) : Bool := l.state ∉ [LeaseState.released, .expired]

/-- A deployment a prune keeps. -/
def Deployment.lasting (d : Deployment) : Bool := d.state ∉ [DeploymentState.stopped]

@[simp] theorem Deployment.lasting_stored (d : Deployment) : d.stored.lasting = d.lasting := rfl

@[simp] theorem Deployment.lasting_withAllocation (d : Deployment) (gpus : Option (List Nat)) :
    (d.withAllocation gpus).lasting = d.lasting := rfl

@[simp] theorem Deployment.lasting_withServed (d : Deployment) (m : Dict String Served) (now : Int) :
    (d.withServed m now).lasting = d.lasting := rfl

@[simp] theorem Deployment.lasting_withState (d : Deployment) (state : DeploymentState) (now : Int) :
    (d.withState state now).lasting = decide (state ≠ .stopped) := by
  simp [lasting, withState]

@[simp] theorem Lease.lasting_renewed (l : Lease) (ttl exp : Option Int) (now : Int) :
    (l.renewed ttl exp now).lasting = true := rfl

/-- A claim of a kept lease on a kept deployment. -/
def Store.lasting (s : Store π δ) (c : Claim) : Bool :=
  (s.leases.find? c.leaseId).any Lease.lasting &&
    (s.deployments.find? c.deploymentId).any Deployment.lasting

/-- `t` is `s` less some of its terminal entries. -/
structure Forgets (s t : Store π δ) : Prop where
  leases : Table.KeptAlike Lease.lasting s.leases t.leases
  deployments : Table.KeptAlike Deployment.lasting s.deployments t.deployments
  claims : s.claims.filter s.lasting = t.claims.filter t.lasting
  fewer : t.claims ⊆ s.claims
  profile : t.profile = s.profile
  pending : t.publicationPending = s.publicationPending
  desiredGen : t.desiredGen = s.desiredGen
  version : t.admissionStateVersion = s.admissionStateVersion
  addresses : t.serviceAddresses = s.serviceAddresses
  network : t.networkConfig = s.networkConfig

theorem Forgets.refl (s : Store π δ) : Forgets s s :=
  ⟨.refl _ _, .refl _ _, rfl, fun _ h => h, rfl, rfl, rfl, rfl, rfl, rfl⟩

variable {s t s' t' : Store π δ}

/-- Both call the same claims kept. -/
theorem Forgets.lasting_eq (h : Forgets s t) : s.lasting = t.lasting := by
  funext c
  unfold Store.lasting
  rw [h.leases.any_find?, h.deployments.any_find?]

/-- Pruned, they are one ledger. -/
theorem Forgets.pruneTerminal (h : Forgets s t) : pruneTerminal s = pruneTerminal t := by
  unfold InferStack.pruneTerminal Store.prune
  simp only [Store.mk.injEq]
  exact ⟨Table.ext h.leases.rows, Table.ext h.deployments.rows, h.claims, h.profile.symm,
    h.pending.symm, h.desiredGen.symm, h.version.symm, h.addresses.symm, h.network.symm⟩

/-- A prune forgets. -/
theorem Forgets.prune (h : Forgets s t) : Forgets s (InferStack.pruneTerminal t) := by
  refine ⟨h.leases.filter, h.deployments.filter, ?_, ?_, h.profile, h.pending, h.desiredGen, h.version,
    h.addresses, h.network⟩
  · have hlasting : (InferStack.pruneTerminal t).lasting = t.lasting := by
      funext c
      have hl := (h.leases.filter.any_find? c.leaseId).symm.trans (h.leases.any_find? c.leaseId)
      have hd := (h.deployments.filter.any_find? c.deploymentId).symm.trans
        (h.deployments.any_find? c.deploymentId)
      exact congrArg₂ (· && ·) hl hd
    rw [hlasting, h.claims]
    show t.claims.filter t.lasting = (t.claims.filter t.lasting).filter t.lasting
    rw [List.filter_filter]
    simp
  · exact fun c hc => h.fewer (List.mem_of_mem_filter hc)

/-- The kept claims after a write that brings no claim back. -/
theorem filter_claims (h : Forgets s t) {p q : Claim → Bool} (hpq : ∀ c, p c = q c)
    (hback : ∀ c, c.leaseId ∈ s.leases.keys → c.deploymentId ∈ s.deployments.keys →
      p c → s.lasting c) : s.claims.filter p = t.claims.filter q := by
  have hboth : ∀ l : List Claim, (∀ c ∈ l, p c → s.lasting c) →
      l.filter p = (l.filter s.lasting).filter p := by
    intro l hl
    rw [List.filter_filter]
    refine List.filter_congr fun c hc => ?_
    cases hp : p c with
    | false => rfl
    | true => simp [hl c hc hp]
  rw [← funext hpq, hboth s.claims, hboth t.claims, h.claims, ← h.lasting_eq]
  · exact fun c hc => hback c (h.leases.keys _ (t.claim_lease c hc))
      (h.deployments.keys _ (t.claim_deployment c hc))
  · exact fun c hc => hback c (s.claim_lease c hc) (s.claim_deployment c hc)

/-- What a kept row satisfies, read both ways. -/
theorem all_of_any {α : Type} {p : α → Bool} {x : Option α} (h : x.any p = true) : x.all p = true := by
  cases x with
  | none => rfl
  | some a => exact h

/-! ## reading -/

/-- A lease a prune cannot have deleted is read alike. -/
theorem Forgets.getLease (h : Forgets s t) {l : String} (hl : (s.getLease l).all Lease.lasting) :
    t.getLease l = s.getLease l := h.leases.find?_eq hl

theorem Forgets.getDeployment (h : Forgets s t) {g : String}
    (hg : (s.getDeployment g).all Deployment.lasting) : t.getDeployment g = s.getDeployment g :=
  h.deployments.find?_eq hg

/-- What only a lasting row can satisfy is read alike of any id. -/
theorem Forgets.any_getDeployment (h : Forgets s t) (g : String) {q : Deployment → Bool}
    (hq : ∀ d, q d → d.lasting) : (t.getDeployment g).any q = (s.getDeployment g).any q := by
  have hsame : ∀ u : Store π δ, (u.getDeployment g).any q =
      ((u.getDeployment g).filter Deployment.lasting).any q := by
    intro u
    cases hrow : u.getDeployment g with
    | none => rfl
    | some d =>
        cases hlasts : d.lasting with
        | true => rw [Option.filter_some_pos hlasts]
        | false =>
            have hqd : q d = false := by
              cases hd : q d with
              | false => rfl
              | true => simp [hq d hd] at hlasts
            simp [Option.filter_some_neg hlasts, hqd]
  rw [hsame t, hsame s, Store.getDeployment, Store.getDeployment, h.deployments.find?_filter]

/-- The claims of a lasting lease on a lasting deployment. -/
theorem Forgets.claimsOf (h : Forgets s t) (l : String) :
    (s.claimsOf l).filter s.lasting = (t.claimsOf l).filter s.lasting := by
  have hswap : ∀ u : Store π δ, (u.claimsOf l).filter s.lasting =
      (u.claims.filter s.lasting).filter (fun c => c.leaseId = l) := by
    intro u
    rw [Store.claimsOf, List.filter_filter, List.filter_filter]
    simp only [Bool.and_comm]
  rw [hswap, hswap, h.claims, ← h.lasting_eq]

/-- A lasting lease claims a lasting deployment in both, or in neither. -/
theorem Forgets.mem_deploymentIds (h : Forgets s t) {l g : String}
    (hl : (s.getLease l).any Lease.lasting) (hg : (s.getDeployment g).any Deployment.lasting) :
    g ∈ t.deploymentIds l ↔ g ∈ s.deploymentIds l := by
  have hlasts : ∀ c : Claim, c.leaseId = l → c.deploymentId = g → s.lasting c = true := by
    rintro c rfl rfl
    exact Bool.and_eq_true_iff.mpr ⟨hl, hg⟩
  have hmem : ∀ c : Claim, c.leaseId = l → c.deploymentId = g → (c ∈ t.claims ↔ c ∈ s.claims) := by
    intro c hcl hcg
    have hkept := hlasts c hcl hcg
    have hfilter : c ∈ s.claims.filter s.lasting ↔ c ∈ t.claims.filter t.lasting := by
      rw [h.claims]
    rw [← h.lasting_eq] at hfilter
    simpa [hkept] using hfilter.symm
  rw [Store.mem_deploymentIds, Store.mem_deploymentIds]
  constructor
  · rintro ⟨c, hc, hcl, hcg⟩
    exact ⟨c, (hmem c hcl hcg).mp hc, hcl, hcg⟩
  · rintro ⟨c, hc, hcl, hcg⟩
    exact ⟨c, (hmem c hcl hcg).mpr hc, hcl, hcg⟩

/-- A protecting lease is a lasting one. -/
theorem Lease.lasting_of_isProtecting {l : Lease} {now : Int} (h : l.isProtecting now) :
    l.lasting := by
  have hactive : l.state = .active := by simpa using (Bool.and_eq_true_iff.mp h).1
  simp [lasting, hactive]

/-- What a predicate on lasting rows selects is the same. -/
theorem filter_of_lasting {α κ : Type} {key : α → κ} {p q : α → Bool} {u v : Table α key}
    (h : Table.KeptAlike p u v) (hq : ∀ a, q a → p a) : u.rows.filter q = v.rows.filter q := by
  have hsame : ∀ w : Table α key, w.rows.filter q = (w.rows.filter p).filter q := by
    intro w
    rw [List.filter_filter]
    refine List.filter_congr fun a _ => ?_
    cases hqa : q a with
    | false => rfl
    | true => simp [hq a hqa]
  rw [hsame u, hsame v, h.rows]

theorem Forgets.activeLeasesPast (h : Forgets s t) (now : Int) :
    t.activeLeasesPast now = s.activeLeasesPast now := by
  refine (filter_of_lasting h.leases fun l hl => ?_).symm
  have hactive : l.state = .active := by
    simp only [decide_eq_true_eq] at hl
    exact hl.1
  simp [Lease.lasting, hactive]

/-- The candidates of a plan are the same. -/
theorem Forgets.deploymentsByCompat (h : Forgets s t) (key : CompatKey) :
    t.deploymentsByCompat key .shared [.live, .idle] =
      s.deploymentsByCompat key .shared [.live, .idle] := by
  unfold Store.deploymentsByCompat
  rw [filter_of_lasting h.deployments fun d hd => ?_]
  have hstate : d.state = .live ∨ d.state = .idle := by
    simpa using (show d.compatKey = key ∧ d.sharing = .shared ∧ d.state ∈
      [DeploymentState.live, .idle] by simpa using hd).2.2
  cases hstate with
  | inl hlive => simp [Deployment.lasting, hlive]
  | inr hidle => simp [Deployment.lasting, hidle]

/-- The demand for a lasting deployment is the same. -/
theorem Forgets.demand (h : Forgets s t) {g : String} (now : Int)
    (hg : (s.getDeployment g).any Deployment.lasting) : t.demand g now = s.demand g now := by
  have hone : ∀ l : Lease, (l ∈ t.leases ∧ g ∈ t.deploymentIds l.id ∧ l.isProtecting now) ↔
      (l ∈ s.leases ∧ g ∈ s.deploymentIds l.id ∧ l.isProtecting now) := by
    intro l
    constructor
    · rintro ⟨hl, hclaim, hprot⟩
      have hls := (h.leases.mem (Lease.lasting_of_isProtecting hprot)).mpr hl
      have hlast : (s.getLease l.id).any Lease.lasting := by
        rw [Store.getLease, Table.mem_iff_find?.mp hls]
        exact Lease.lasting_of_isProtecting hprot
      exact ⟨hls, (h.mem_deploymentIds hlast hg).mp hclaim, hprot⟩
    · rintro ⟨hl, hclaim, hprot⟩
      have hlast : (s.getLease l.id).any Lease.lasting := by
        rw [Store.getLease, Table.mem_iff_find?.mp hl]
        exact Lease.lasting_of_isProtecting hprot
      exact ⟨(h.leases.mem (Lease.lasting_of_isProtecting hprot)).mp hl,
        (h.mem_deploymentIds hlast hg).mpr hclaim, hprot⟩
  have hperm : (t.protectors g now).Perm (s.protectors g now) := by
    refine (List.perm_ext_iff_of_nodup ?_ ?_).mpr fun l => ?_
    · exact (t.leases.nodup.of_map _).filter _
    · exact (s.leases.nodup.of_map _).filter _
    · rw [Store.mem_protectors, Store.mem_protectors]
      exact hone l
  exact hperm.length_eq

/-! ## writing -/

/-- Another lease table, with no lease brought back. -/
theorem Forgets.withLeases (h : Forgets s t) {ls lt : Table Lease Lease.id} {hs ht}
    (htables : Table.KeptAlike Lease.lasting ls lt)
    (hback : ∀ k ∈ s.leases.keys, (ls.find? k).any Lease.lasting →
      (s.getLease k).any Lease.lasting) :
    Forgets (s.withLeases ls hs) (t.withLeases lt ht) := by
  refine ⟨htables, h.deployments, ?_, h.fewer, h.profile, h.pending, h.desiredGen, h.version, h.addresses,
    h.network⟩
  refine filter_claims h (fun c => ?_) fun c hl _ hkept => ?_
  · exact congrArg₂ (· && ·) (htables.any_find? _) (h.deployments.any_find? _)
  · obtain ⟨hlease, hdeployment⟩ := Bool.and_eq_true_iff.mp hkept
    exact Bool.and_eq_true_iff.mpr ⟨hback _ hl hlease, hdeployment⟩

/-- Another deployment table, with no deployment brought back. -/
theorem Forgets.withDeployments (h : Forgets s t) {ds dt : Table Deployment Deployment.id} {hs ht}
    (htables : Table.KeptAlike Deployment.lasting ds dt)
    (hback : ∀ k ∈ s.deployments.keys, (ds.find? k).any Deployment.lasting →
      (s.getDeployment k).any Deployment.lasting) :
    Forgets (s.withDeployments ds hs) (t.withDeployments dt ht) := by
  refine ⟨h.leases, htables, ?_, h.fewer, h.profile, h.pending, h.desiredGen, h.version, h.addresses,
    h.network⟩
  refine filter_claims h (fun c => ?_) fun c _ hd hkept => ?_
  · exact congrArg₂ (· && ·) (h.leases.any_find? _) (htables.any_find? _)
  · obtain ⟨hlease, hdeployment⟩ := Bool.and_eq_true_iff.mp hkept
    exact Bool.and_eq_true_iff.mpr ⟨hlease, hback _ hd hdeployment⟩

/-- Ending leases. -/
theorem Forgets.setLeaseStates (h : Forgets s t) (ids : List String) (state : LeaseState)
    (hstate : state ≠ .active) : Forgets (s.setLeaseStates ids state) (t.setLeaseStates ids state) := by
  have hends : ∀ l : Lease, (l.withState state).lasting = false := by
    intro l
    cases state with
    | active => contradiction
    | expired => rfl
    | released => rfl
  refine h.withLeases (h.leases.modifyKeys (.inl fun l _ => hends l)) fun k _ hkept => ?_
  change ((s.setLeaseStates ids state).getLease k).any _ = true at hkept
  rw [Store.getLease_setLeaseStates] at hkept
  split at hkept
  · cases hrow : s.getLease k with
    | none => simp [hrow] at hkept
    | some l => simp [hrow, hends l] at hkept
  · exact hkept

/-- Renewing a lease that no prune deleted. -/
theorem Forgets.renewLease (h : Forgets s t) {id : String} (hid : (s.getLease id).all Lease.lasting)
    (ttl exp : Option Int) (now : Int) :
    Forgets (s.renewLease id ttl exp now) (t.renewLease id ttl exp now) := by
  refine h.withLeases (h.leases.modify (.inr hid)) fun k _ hkept => ?_
  change ((s.renewLease id ttl exp now).getLease k).any _ = true at hkept
  rw [Store.getLease_renewLease] at hkept
  split at hkept
  · rename_i hk
    subst hk
    cases hrow : s.getLease k with
    | none => simp [hrow] at hkept
    | some l => simpa [hrow] using hid
  · exact hkept

/-- Moving deployments that no prune deleted, or stopping any. -/
theorem Forgets.setDeploymentStates (h : Forgets s t) {ids : List String} {state : DeploymentState}
    (hids : state = .stopped ∨ ∀ g ∈ ids, (s.getDeployment g).all Deployment.lasting) (now : Int) :
    Forgets (s.setDeploymentStates ids state now) (t.setDeploymentStates ids state now) := by
  refine h.withDeployments (h.deployments.modifyKeys ?_) fun k _ hkept => ?_
  · by_cases hstopped : state = .stopped
    · exact .inl fun d _ => by simp [hstopped]
    · exact .inr ⟨fun d => by simp [hstopped], hids.resolve_left hstopped⟩
  · change ((s.setDeploymentStates ids state now).getDeployment k).any _ = true at hkept
    rw [Store.getDeployment_setDeploymentStates] at hkept
    split at hkept
    · rename_i hk
      cases hrow : s.getDeployment k with
      | none => simp [hrow] at hkept
      | some d =>
          cases hids with
          | inl hstopped => simp [hrow, hstopped] at hkept
          | inr hall => simpa [hrow] using hall k hk
    · exact hkept

/-- Committing an allocation. -/
theorem Forgets.setDeploymentAllocation (h : Forgets s t) (id : String) (gpus : Option (List Nat)) :
    Forgets (s.setDeploymentAllocation id gpus) (t.setDeploymentAllocation id gpus) := by
  refine h.withDeployments (h.deployments.modify (.inl fun d hd => hd)) fun k _ hkept => ?_
  change ((s.setDeploymentAllocation id gpus).getDeployment k).any _ = true at hkept
  rw [Store.getDeployment_setDeploymentAllocation] at hkept
  split at hkept
  · cases hrow : s.getDeployment k with
    | none => simp [hrow] at hkept
    | some d => simpa [hrow] using hkept
  · exact hkept

theorem Forgets.setDeploymentAllocations (h : Forgets s t) (allocations : Dict String (List Nat)) :
    Forgets (s.setDeploymentAllocations allocations) (t.setDeploymentAllocations allocations) := by
  refine h.withDeployments (h.deployments.modifyEach fun _ d hd => hd) fun k _ hkept => ?_
  change ((s.setDeploymentAllocations allocations).getDeployment k).any _ = true at hkept
  rw [Store.getDeployment_setDeploymentAllocations] at hkept
  cases hrow : s.getDeployment k with
  | none => cases hall : allocations.get? k <;> simp [hrow, hall] at hkept
  | some d => cases hall : allocations.get? k <;> simpa [hrow, hall] using hkept

theorem Forgets.updateDeploymentsServed (h : Forgets s t) (served : Dict String (Dict String Served))
    (now : Int) :
    Forgets (s.updateDeploymentsServed served now) (t.updateDeploymentsServed served now) := by
  refine h.withDeployments (h.deployments.modifyEach fun _ d hd => hd) fun k _ hkept => ?_
  change ((s.updateDeploymentsServed served now).getDeployment k).any _ = true at hkept
  rw [Store.getDeployment_updateDeploymentsServed] at hkept
  cases hrow : s.getDeployment k with
  | none => cases hall : served.get? k <;> simp [hrow, hall] at hkept
  | some d => cases hall : served.get? k <;> simpa [hrow, hall] using hkept

theorem Forgets.bumpDesiredGeneration (h : Forgets s t) :
    Forgets s.bumpDesiredGeneration t.bumpDesiredGeneration :=
  ⟨h.leases, h.deployments, h.claims, h.fewer, h.profile, h.pending, congrArg (· + 1) h.desiredGen,
    congrArg (· + 1) h.version, h.addresses, h.network⟩

theorem Forgets.bumpWhen (h : Forgets s t) (changed : Bool) :
    Forgets (s.bumpWhen changed) (t.bumpWhen changed) := by
  cases changed with
  | true => exact h.bumpDesiredGeneration
  | false => exact h

theorem Forgets.bumpAdmissionStateVersion (h : Forgets s t) :
    Forgets s.bumpAdmissionStateVersion t.bumpAdmissionStateVersion :=
  ⟨h.leases, h.deployments, h.claims, h.fewer, h.profile, h.pending, h.desiredGen,
    congrArg (· + 1) h.version, h.addresses, h.network⟩

/-! ## committing an acquire -/

/-- No entry that a prune may have deleted has one of these ids. -/
structure Names (s : Store π δ) (leaseId : String) (o : AcquireOverlay) : Prop where
  lease : (s.getLease leaseId).all Lease.lasting
  created : ∀ d ∈ o.created, d.lasting ∧ (s.getDeployment d.id).all Deployment.lasting
  revived : ∀ g ∈ o.revived, (s.getDeployment g).all Deployment.lasting
  claims : ∀ rg ∈ o.claims, (s.getDeployment rg.2).all Deployment.lasting

theorem Forgets.insertLease (h : Forgets s t) {id : String}
    (hid : (s.getLease id).all Lease.lasting) (owner : String) (createdAt : Int)
    (ttl exp : Option Int) (now : Int) :
    Option.Rel Forgets (s.insertLease id owner createdAt ttl exp now)
      (t.insertLease id owner createdAt ttl exp now) := by
  have hiff := h.leases.mem_keys_iff hid
  unfold Store.insertLease
  by_cases hs : id ∈ s.leases.keys
  · rw [dif_neg (not_not.mpr hs), dif_neg (not_not.mpr (hiff.mpr hs))]
    exact .none
  · have ht : id ∉ t.leases.keys := fun hmem => hs (hiff.mp hmem)
    rw [dif_pos hs, dif_pos ht]
    refine .some (h.withLeases (h.leases.insert hs ht) fun k hk hkept => ?_)
    have hne : id ≠ k := by
      rintro rfl
      exact hs hk
    rwa [Table.find?_insert, if_neg hne] at hkept

theorem Forgets.insertDeployments (h : Forgets s t) {ds : List Deployment}
    (hds : ∀ d ∈ ds, d.lasting ∧ (s.getDeployment d.id).all Deployment.lasting) :
    Option.Rel Forgets (s.insertDeployments ds) (t.insertDeployments ds) := by
  have hstored : ∀ d ∈ ds.map Deployment.stored,
      d.lasting ∧ (s.deployments.find? d.id).all Deployment.lasting := by
    intro d hd
    obtain ⟨d₀, hd₀, rfl⟩ := List.mem_map.mp hd
    exact hds d₀ hd₀
  have hrel := h.deployments.insertAll? (fun d hd => (hstored d hd).1) fun d hd => (hstored d hd).2
  unfold Store.insertDeployments
  by_cases hsort : ds.all (fun d => EnvKey.sortable d.spec.runtime.env.keys)
  · rw [if_pos hsort, if_pos hsort]
    split
    · rename_i hs
      rw [hs] at hrel
      split
      · exact .none
      · rename_i ht
        rw [ht] at hrel
        cases hrel
    · rename_i ts hs
      rw [hs] at hrel
      split
      · rename_i ht
        rw [ht] at hrel
        cases hrel
      · rename_i tt ht
        rw [ht] at hrel
        cases hrel with
        | some hkept =>
            refine .some (h.withDeployments hkept fun k hk hany => ?_)
            rw [Table.find?_insertAll? hs] at hany
            have hsome := Table.mem_keys_iff.mp hk
            cases hrow : s.deployments.find? k with
            | none =>
                rw [hrow] at hsome
                contradiction
            | some d =>
                rw [hrow] at hany
                show (s.deployments.find? k).any _ = true
                rw [hrow]
                exact hany
  · rw [if_neg hsort, if_neg hsort]
    exact .none

/-- A claim both stores accept, or neither. -/
theorem Forgets.insertClaim (h : Forgets s t) {c : Claim}
    (hl : (s.getLease c.leaseId).all Lease.lasting)
    (hd : (s.getDeployment c.deploymentId).all Deployment.lasting) :
    Option.Rel Forgets (s.insertClaim c) (t.insertClaim c) := by
  have hiff : (c.leaseId ∈ t.leases.keys ∧ c.deploymentId ∈ t.deployments.keys) ↔
      (c.leaseId ∈ s.leases.keys ∧ c.deploymentId ∈ s.deployments.keys) :=
    and_congr (h.leases.mem_keys_iff hl) (h.deployments.mem_keys_iff hd)
  unfold Store.insertClaim
  by_cases hs : c.leaseId ∈ s.leases.keys ∧ c.deploymentId ∈ s.deployments.keys
  · rw [dif_pos hs, dif_pos (hiff.mpr hs)]
    refine .some ⟨h.leases, h.deployments, ?_, ?_, h.profile, h.pending, h.desiredGen, h.version,
      h.addresses, h.network⟩
    · show (s.claims ++ [c]).filter s.lasting = (t.claims ++ [c]).filter t.lasting
      rw [List.filter_append, List.filter_append, h.claims, h.lasting_eq]
    · intro c' hc'
      exact List.mem_append.mpr ((List.mem_append.mp hc').imp_left (@h.fewer c'))
  · rw [dif_neg hs, dif_neg (mt hiff.mp hs)]
    exact .none

/-- Claims of one lease, one after another. -/
theorem Forgets.insertClaims (h : Forgets s t) {leaseId : String}
    {claims : List (EndpointRequest × String)} (hl : (s.getLease leaseId).all Lease.lasting)
    (hd : ∀ rg ∈ claims, (s.getDeployment rg.2).all Deployment.lasting) :
    Option.Rel Forgets (insertClaims s leaseId claims) (insertClaims t leaseId claims) := by
  unfold InferStack.insertClaims
  induction claims generalizing s t with
  | nil => exact .some h
  | cons rg claims ih =>
      rw [List.map_cons, List.foldlM_cons, List.foldlM_cons]
      refine rel_bind (h.insertClaim hl (hd rg List.mem_cons_self)) fun s₁ t₁ hs₁ h₁ => ?_
      obtain ⟨_, _, rfl⟩ := Store.foldlM_insertClaim
        (show [_].foldlM Store.insertClaim s = some s₁ by simpa using hs₁)
      exact ih h₁ hl fun rg' hrg' => hd rg' (List.mem_cons_of_mem _ hrg')

theorem Forgets.publishCandidate (h : Forgets s t) (profile : Option π) (digest : Option δ) :
    Forgets (publishCandidate s profile digest) (publishCandidate t profile digest) := by
  have hprofile : profile.or t.profile = profile.or s.profile := by rw [h.profile]
  unfold InferStack.publishCandidate
  cases digest with
  | none =>
      exact ⟨h.leases, h.deployments, h.claims, h.fewer, hprofile, h.pending, h.desiredGen, h.version,
        h.addresses, h.network⟩
  | some d =>
      refine ⟨h.leases, h.deployments, h.claims, h.fewer, hprofile, ?_, h.desiredGen, h.version,
        h.addresses, h.network⟩
      simp only [Store.writeMarker, Option.isSome_some, if_true, h.pending]

/-- The row of an id no prune has freed still stands after an acquire. -/
theorem acquiredRow_lasting {o : AcquireOverlay} {allocations : Dict String (List Nat)} {g : String}
    (hcreated : ∀ d ∈ o.created, d.lasting)
    (hg : (s.getDeployment g).all Deployment.lasting) :
    (acquiredRow s o allocations g).all Deployment.lasting := by
  cases hrow : (s.getDeployment g).or ((o.created.find? g).map Deployment.stored) with
  | none =>
      rw [acquiredRow_none s o allocations hrow]
      rfl
  | some d =>
      obtain ⟨d', hd', hstate⟩ := acquiredRow_state s o allocations hrow
      have hd : d.lasting := by
        cases hold : s.getDeployment g with
        | some d₀ =>
            rw [hold] at hrow hg
            obtain rfl := Option.some.inj hrow
            simpa using hg
        | none =>
            rw [hold, Option.none_or] at hrow
            obtain ⟨d₀, hd₀, rfl⟩ := Option.map_eq_some_iff.mp hrow
            exact hcreated d₀ (Table.find?_eq_some.mp hd₀).1
      rw [hd', Option.all_some]
      by_cases hrev : g ∈ o.revived
      · rw [if_pos hrev] at hstate
        simp [Deployment.lasting, hstate]
      · rw [if_neg hrev] at hstate
        simpa [Deployment.lasting, hstate] using hd

/-- The deployment rows an acquire writes. -/
theorem Forgets.acquireDeployments (h : Forgets s t) {o : AcquireOverlay}
    (allocations : Dict String (List Nat))
    (hcreated : ∀ d ∈ o.created, d.lasting ∧ (s.getDeployment d.id).all Deployment.lasting)
    (hrevived : ∀ g ∈ o.revived, (s.getDeployment g).all Deployment.lasting) :
    Option.Rel Forgets (acquireDeployments s o allocations)
      (acquireDeployments t o allocations) := by
  unfold InferStack.acquireDeployments
  refine rel_bind (h.insertDeployments hcreated) fun s₁ t₁ hs₁ h₁ => ?_
  obtain ⟨td, htd, hall, rfl⟩ := Store.insertDeployments_eq_some hs₁
  have hkept : ∀ g ∈ o.revived,
      ((s.withDeployments td htd).getDeployment g).all Deployment.lasting := by
    intro g hg
    show (td.find? g).all _ = true
    rw [Table.find?_insertAll? hall]
    have hold : (s.deployments.find? g).all _ = true := hrevived g hg
    cases hrow : s.deployments.find? g with
    | some d => rwa [hrow] at hold
    | none =>
        rw [Option.none_or]
        cases hnew : (o.created.rows.map Deployment.stored).find? (fun d => d.id = g) with
        | none => rfl
        | some d =>
            obtain ⟨d₀, hd₀, rfl⟩ := List.mem_map.mp (List.mem_of_find?_eq_some hnew)
            exact (hcreated d₀ hd₀).1
  exact .some (((h₁.setDeploymentStates (.inr hkept) o.now).updateDeploymentsServed
    o.servedUpdates o.now).setDeploymentAllocations allocations)

/-- Committing a plan whose ids no prune has freed: both refuse, or neither. -/
theorem Forgets.commitAcquire (h : Forgets s t) {leaseId : String} {o : AcquireOverlay} (owner : String)
    (ttl : Option Int) (allocations : Dict String (List Nat)) (digest : Option δ)
    (profile : Option π) (hnames : Names s leaseId o) :
    Option.Rel Forgets (commitAcquire s leaseId owner ttl o allocations digest profile)
      (commitAcquire t leaseId owner ttl o allocations digest profile) := by
  unfold InferStack.commitAcquire
  refine rel_bind (h.insertLease hnames.lease owner o.now ttl (ttl.map (o.now + ·)) o.now)
    fun s₁ t₁ hs₁ h₁ => ?_
  have hrows₁ : ∀ g, s₁.getDeployment g = s.getDeployment g := by
    obtain ⟨_, rfl⟩ := Store.insertLease_eq_some hs₁
    exact fun g => rfl
  have hlease₁ : (s₁.getLease leaseId).all Lease.lasting := by
    obtain ⟨hfresh, rfl⟩ := Store.insertLease_eq_some hs₁
    have hfind := Table.find?_insert (h := hfresh) leaseId
    rw [if_pos rfl] at hfind
    exact (congrArg (Option.all Lease.lasting) hfind).trans rfl
  have hcreated : ∀ d ∈ o.created,
      d.lasting ∧ (s₁.getDeployment d.id).all Deployment.lasting := by
    intro d hd
    rw [hrows₁]
    exact hnames.created d hd
  refine rel_bind (h₁.acquireDeployments allocations hcreated fun g hg => ?_)
    fun s₂ t₂ hs₂ h₂ => ?_
  · rw [hrows₁]
    exact hnames.revived g hg
  obtain ⟨-, hrows₂, td, htd, hs₂'⟩ := getDeployment_acquireDeployments hs₂
  have hlease₂ : ((InferStack.publishCandidate s₂ profile digest).getLease leaseId).all Lease.lasting := by
    subst hs₂'
    cases digest <;> exact hlease₁
  have hclaims : ∀ rg ∈ o.claims,
      ((InferStack.publishCandidate s₂ profile digest).getDeployment rg.2).all Deployment.lasting := by
    intro rg hrg
    have hrow : (InferStack.publishCandidate s₂ profile digest).getDeployment rg.2 =
        acquiredRow s₁ o allocations rg.2 := by
      rw [← hrows₂]
      cases digest <;> rfl
    rw [hrow]
    refine acquiredRow_lasting (fun d hd => (hcreated d hd).1) ?_
    rw [hrows₁]
    exact hnames.claims rg hrg
  refine rel_bind ((h₂.publishCandidate profile digest).insertClaims hlease₂ hclaims)
    fun s₃ t₃ _ h₃ => ?_
  exact .some h₃.bumpDesiredGeneration

/-- An acquire ends alike, and what it leaves is the same less the tail. -/
theorem Forgets.acquire (h : Forgets s t) {leaseId : String} {o : AcquireOverlay} (owner : String)
    (ttl : Option Int) (allocations : Dict String (List Nat)) (digest : Option δ)
    (profile : Option π) (hnames : s.admissionStateVersion = o.stateVersion → Names s leaseId o) :
    (∃ e, acquire s leaseId owner ttl o allocations digest profile = .error e ∧
        acquire t leaseId owner ttl o allocations digest profile = .error e) ∨
      ∃ s' t', acquire s leaseId owner ttl o allocations digest profile = .ok s' ∧
        acquire t leaseId owner ttl o allocations digest profile = .ok t' ∧ Forgets s' t' := by
  unfold InferStack.acquire
  rw [h.version]
  by_cases hversion : s.admissionStateVersion = o.stateVersion
  · rw [if_neg (not_not.mpr hversion), if_neg (not_not.mpr hversion)]
    have hrel := h.commitAcquire owner ttl allocations digest profile (hnames hversion)
    cases hs : InferStack.commitAcquire s leaseId owner ttl o allocations digest profile with
    | none =>
        rw [hs] at hrel
        cases ht : InferStack.commitAcquire t leaseId owner ttl o allocations digest profile with
        | none => exact .inl ⟨_, rfl, rfl⟩
        | some t' =>
            rw [ht] at hrel
            cases hrel
    | some s' =>
        rw [hs] at hrel
        cases ht : InferStack.commitAcquire t leaseId owner ttl o allocations digest profile with
        | none =>
            rw [ht] at hrel
            cases hrel
        | some t' =>
            rw [ht] at hrel
            cases hrel with
            | some hforgets => exact .inr ⟨s', t', rfl, rfl, hforgets⟩
  · rw [if_pos hversion, if_pos hversion]
    exact .inl ⟨_, rfl, rfl⟩

/-! ## the other transactions -/

/-- Whether a deployment id has a row that a prune keeps. -/
def Store.stands (s : Store π δ) (g : String) : Bool := (s.getDeployment g).any Deployment.lasting

theorem Forgets.stands_eq (h : Forgets s t) : t.stands = s.stands := by
  funext g
  exact (h.deployments.any_find? g).symm

/-- The standing deployments of a lasting lease, in claim order. -/
theorem Forgets.deploymentIds (h : Forgets s t) {l : String}
    (hl : (s.getLease l).any Lease.lasting) :
    (t.deploymentIds l).filter s.stands = (s.deploymentIds l).filter s.stands := by
  have hclaims : ∀ u : Store π δ, (u.claimsOf l).filter (fun c => s.stands c.deploymentId) =
      (u.claimsOf l).filter s.lasting := by
    intro u
    refine List.filter_congr fun c hc => ?_
    have hcl : c.leaseId = l := by simpa using (List.mem_filter.mp hc).2
    unfold Store.lasting
    rw [hcl, show (s.leases.find? l).any Lease.lasting = true from hl, Bool.true_and]
    rfl
  have hids : ∀ u : Store π δ, (u.deploymentIds l).filter s.stands =
      (((u.claimsOf l).filter s.lasting).map Claim.deploymentId).eraseDups := by
    intro u
    rw [Store.deploymentIds, ← eraseDups_filter, List.filter_map, ← hclaims u]
    rfl
  rw [hids, hids, h.claimsOf]

/-- What is idled is the same: only standing rows are looked at. -/
theorem Forgets.idled (h : Forgets s t) {ids ids' : List String} (now : Int)
    (hids : ids'.filter s.stands = ids.filter s.stands) :
    (idleDeployments t ids' now).1 = (idleDeployments s ids now).1 := by
  have hstand : ∀ (u : Store π δ) (g : String),
      ((u.getDeployment g).any (fun d => d.state = .live) && u.demand g now = 0) = true →
        u.stands g = true := by
    intro u g hg
    have hlive := (Bool.and_eq_true_iff.mp hg).1
    unfold Store.stands
    cases hrow : u.getDeployment g with
    | none => simp [hrow] at hlive
    | some d =>
        have hstate : d.state = .live := by simpa [hrow] using hlive
        simp [Deployment.lasting, hstate]
  have hstanding : ∀ (u : Store π δ) (l : List String), (idleDeployments u l now).1 =
      (l.filter u.stands).eraseDups.filter fun g =>
        (u.getDeployment g).any (fun d => d.state = .live) && u.demand g now = 0 := by
    intro u l
    rw [eraseDups_filter, List.filter_filter]
    refine List.filter_congr fun g _ => ?_
    cases hg : ((u.getDeployment g).any (fun d => d.state = .live) && u.demand g now = 0) with
    | false => rfl
    | true => simp [hstand u g hg]
  rw [hstanding, hstanding, h.stands_eq, hids]
  refine List.filter_congr fun g hg => ?_
  have hg' : s.stands g = true := (List.mem_filter.mp (List.mem_eraseDups.mp hg)).2
  rw [h.demand now hg', h.getDeployment (all_of_any hg')]

/-- Idling the same deployments. -/
theorem Forgets.idleDeployments (h : Forgets s t) {ids ids' : List String} (now : Int)
    (hids : ids'.filter s.stands = ids.filter s.stands) :
    Forgets (idleDeployments s ids now).2 (idleDeployments t ids' now).2 := by
  have hsame := h.idled now hids
  show Forgets (s.setDeploymentStates (InferStack.idleDeployments s ids now).1 .idle now)
    (t.setDeploymentStates (InferStack.idleDeployments t ids' now).1 .idle now)
  rw [hsame]
  refine h.setDeploymentStates (.inr fun g hg => ?_) now
  obtain ⟨-, ⟨d, hd, hlive⟩, -⟩ := mem_idled.mp hg
  rw [hd]
  simp [Deployment.lasting, hlive]

/-- The IDLE deployments among standing ones. -/
theorem Forgets.idleAmong (h : Forgets s t) {ids ids' : List String}
    (hids : ids'.filter s.stands = ids.filter s.stands) :
    idleAmong t ids' = idleAmong s ids := by
  have hstanding : ∀ (u : Store π δ) (l : List String), InferStack.idleAmong u l =
      InferStack.idleAmong u (l.filter u.stands) := by
    intro u l
    unfold InferStack.idleAmong
    rw [List.filter_filter]
    refine List.filter_congr fun g _ => ?_
    cases hrow : u.getDeployment g with
    | none => rfl
    | some d =>
        by_cases hidle : d.state = .idle
        · simp [Store.stands, hrow, hidle, Deployment.lasting]
        · simp [hidle]
  rw [hstanding t, hstanding s, h.stands_eq, hids]
  refine List.filter_congr fun g hg => ?_
  rw [h.getDeployment (all_of_any (List.mem_filter.mp hg).2)]

/-- Releasing a lease that no prune deleted. -/
theorem Forgets.release (h : Forgets s t) {leaseId : String}
    (hl : (s.getLease leaseId).all Lease.lasting) (now : Int) :
    (release t leaseId now).1 = (release s leaseId now).1 ∧
      Forgets (release s leaseId now).2 (release t leaseId now).2 := by
  unfold InferStack.release
  rw [h.getLease hl]
  cases hrow : s.getLease leaseId with
  | none => exact ⟨rfl, h⟩
  | some l =>
      have hlasts : l.lasting := by simpa [hrow] using hl
      have hnot : l.state ≠ .released := by
        intro hrel
        simp [Lease.lasting, hrel] at hlasts
      dsimp only
      rw [if_neg hnot, if_neg hnot]
      have hended := h.setLeaseStates [leaseId] .released (by simp)
      have hids : (t.deploymentIds leaseId).filter s.stands =
          (s.deploymentIds leaseId).filter s.stands := by
        refine h.deploymentIds ?_
        rw [hrow]
        exact hlasts
      have hsame := hended.idled now hids
      have hforgets := hended.idleDeployments now hids
      refine ⟨?_, ?_⟩
      · show ({ idledDeploymentIds := _ } : ReleaseResult) = { idledDeploymentIds := _ }
        rw [hsame]
      · show Forgets ((InferStack.idleDeployments _ _ now).2.bumpWhen _)
          ((InferStack.idleDeployments _ _ now).2.bumpWhen _)
        rw [hsame]
        exact hforgets.bumpWhen _

/-- The ACTIVE leases are the same. -/
theorem Forgets.active_iff (h : Forgets s t) {id : String} {l : Lease} (hl : l.state = .active) :
    t.getLease id = some l ↔ s.getLease id = some l := by
  have hlasts : l.lasting := by simp [Lease.lasting, hl]
  rw [Store.getLease, Store.getLease, Table.find?_eq_some, Table.find?_eq_some, h.leases.mem hlasts]

theorem Forgets.renewedStore (h : Forgets s t) {leaseId : String} {l : Lease}
    (hrow : s.getLease leaseId = some l) (hactive : l.state = .active) (ttl : Option Int)
    (allocations : Dict String (List Nat)) (now : Int) :
    Forgets (renewedStore s leaseId ttl allocations now)
      (renewedStore t leaseId ttl allocations now) := by
  have hany : (s.getLease leaseId).any Lease.lasting := by simp [hrow, Lease.lasting, hactive]
  have hidle := h.idleAmong (h.deploymentIds hany)
  unfold InferStack.renewedStore
  rw [hidle]
  refine (((h.renewLease (all_of_any hany) ttl (ttl.map (now + ·)) now).setDeploymentStates
    (.inr fun g hg => ?_) now).setDeploymentAllocations _).bumpWhen _
  obtain ⟨-, d, hd, hstate⟩ := mem_idleAmong.mp hg
  show (s.getDeployment g).all Deployment.lasting = true
  simp [hd, Deployment.lasting, hstate]

/-- Renewing any lease. -/
theorem Forgets.renew (h : Forgets s t) (leaseId : String) (ttl : Option Int)
    (allocations : Dict String (List Nat)) (now : Int) :
    (renew t leaseId ttl allocations now).1 = (renew s leaseId ttl allocations now).1 ∧
      Forgets (renew s leaseId ttl allocations now).2 (renew t leaseId ttl allocations now).2 := by
  cases renew_cases s leaseId ttl allocations now with
  | inl hgone =>
      obtain ⟨hnot, hs⟩ := hgone
      cases renew_cases t leaseId ttl allocations now with
      | inl hgone' =>
          rw [hs, hgone'.2]
          exact ⟨rfl, h⟩
      | inr hrenewed =>
          obtain ⟨l, hrow, hactive, -⟩ := hrenewed
          exact absurd hactive (hnot l ((h.active_iff hactive).mp hrow))
  | inr hrenewed =>
      obtain ⟨l, hrow, hactive, hs⟩ := hrenewed
      have hrow' := (h.active_iff hactive).mpr hrow
      cases renew_cases t leaseId ttl allocations now with
      | inl hgone => exact absurd hactive (hgone.1 l hrow')
      | inr hrenewed' =>
          obtain ⟨l', hl', -, ht⟩ := hrenewed'
          obtain rfl := Option.some.inj (hrow'.symm.trans hl')
          rw [hs, ht]
          exact ⟨rfl, h.renewedStore hrow hactive ttl allocations now⟩

/-- The lock-free renew of a lease that claims no stopped deployment. -/
theorem Forgets.renewIfLive (h : Forgets s t) {leaseId : String} (ttl : Option Int) (now : Int)
    (hstands : ∀ l, s.getLease leaseId = some l → l.state = .active →
      ∀ g ∈ s.deploymentIds leaseId, s.stands g) :
    (renewIfLive t leaseId ttl now).1 = (renewIfLive s leaseId ttl now).1 ∧
      Forgets (renewIfLive s leaseId ttl now).2 (renewIfLive t leaseId ttl now).2 := by
  have hgone : ∀ u : Store π δ, (∀ l, u.getLease leaseId = some l → l.state ≠ .active) →
      InferStack.renewIfLive u leaseId ttl now = (.gone, u) := by
    intro u hu
    unfold InferStack.renewIfLive
    cases hrow : u.getLease leaseId with
    | none => rfl
    | some l =>
        dsimp only
        rw [if_pos (hu l hrow)]
  by_cases hactive : ∃ l, s.getLease leaseId = some l ∧ l.state = .active
  · obtain ⟨l, hrow, hl⟩ := hactive
    have hany : (s.getLease leaseId).any Lease.lasting := by simp [hrow, Lease.lasting, hl]
    have hall : (s.deploymentIds leaseId).filter s.stands = s.deploymentIds leaseId :=
      List.filter_eq_self.mpr (hstands l hrow hl)
    -- the pruned store has lost none of the lease's claims
    have hids : t.deploymentIds leaseId = s.deploymentIds leaseId := by
      rw [← hall, ← h.deploymentIds hany, List.filter_eq_self.mpr]
      intro g hg
      obtain ⟨c, hc, hcl, hcg⟩ := Store.mem_deploymentIds.mp hg
      exact hstands l hrow hl g (Store.mem_deploymentIds.mpr ⟨c, h.fewer hc, hcl, hcg⟩)
    have hlive : (t.deploymentIds leaseId).all
        (fun gid => (t.getDeployment gid).any (fun d => d.state = .live)) =
          (s.deploymentIds leaseId).all
            (fun gid => (s.getDeployment gid).any (fun d => d.state = .live)) := by
      rw [hids]
      exact List.all_congr rfl fun g => h.any_getDeployment g fun d hd => by
        simp_all [Deployment.lasting]
    have hrenewed := h.renewLease (all_of_any hany) ttl (ttl.map (now + ·)) now
    unfold InferStack.renewIfLive
    rw [(h.active_iff hl).mpr hrow, hrow]
    dsimp only
    rw [if_neg (not_not.mpr hl), if_neg (not_not.mpr hl), hlive]
    split
    · refine ⟨congrArg FastRenew.renewed (hrenewed.getLease ?_), hrenewed⟩
      rw [Store.getLease_renewLease, if_pos rfl, hrow]
      rfl
    · exact ⟨rfl, h⟩
  · have hs : ∀ l, s.getLease leaseId = some l → l.state ≠ .active :=
      fun l hrow hl => hactive ⟨l, hrow, hl⟩
    have ht : ∀ l, t.getLease leaseId = some l → l.state ≠ .active :=
      fun l hrow hl => hactive ⟨l, (h.active_iff hl).mp hrow, hl⟩
    rw [hgone s hs, hgone t ht]
    exact ⟨rfl, h⟩

/-- A sweep expires and idles the same. -/
theorem Forgets.sweep (h : Forgets s t) (now : Int) :
    (sweep t now).1 = (sweep s now).1 ∧ Forgets (sweep s now).2 (sweep t now).2 := by
  have hdue := h.activeLeasesPast now
  have hended := h.setLeaseStates ((s.activeLeasesPast now).map Lease.id) .expired (by simp)
  have hids : (((s.activeLeasesPast now).map Lease.id).flatMap t.deploymentIds).filter s.stands =
      (((s.activeLeasesPast now).map Lease.id).flatMap s.deploymentIds).filter s.stands := by
    rw [List.filter_flatMap, List.filter_flatMap]
    refine List.flatMap_congr fun id hid => h.deploymentIds ?_
    obtain ⟨l, hl, rfl⟩ := List.mem_map.mp hid
    obtain ⟨hmem, hpast⟩ := List.mem_filter.mp hl
    have hactive : l.state = .active := by
      simp only [decide_eq_true_eq] at hpast
      exact hpast.1
    rw [Store.getLease, Table.mem_iff_find?.mp hmem]
    simp [Lease.lasting, hactive]
  have hsame := hended.idled now hids
  have hforgets := hended.idleDeployments now hids
  unfold InferStack.sweep
  rw [hdue]
  refine ⟨?_, ?_⟩
  · show (⟨_, _⟩ : SweepResult) = ⟨_, _⟩
    rw [hsame]
  · show Forgets ((InferStack.idleDeployments _ _ now).2.bumpWhen _)
      ((InferStack.idleDeployments _ _ now).2.bumpWhen _)
    rw [hsame]
    exact hforgets.bumpWhen _

/-- Evicting stops the same. -/
theorem Forgets.evictIdle (h : Forgets s t) (ids : Option (List String)) (now : Int) :
    (evictIdle t ids now).1 = (evictIdle s ids now).1 ∧
      Forgets (evictIdle s ids now).2 (evictIdle t ids now).2 := by
  have hrows : t.listDeployments.filter (fun g =>
      g.state = .idle ∧ ids.all (g.id ∈ ·) ∧ t.demand g.id now = 0) =
        s.listDeployments.filter (fun g =>
          g.state = .idle ∧ ids.all (g.id ∈ ·) ∧ s.demand g.id now = 0) := by
    have hsort : ∀ (u : Store π δ) (q : Deployment → Bool), u.listDeployments.filter q =
        Store.byCreation (u.deployments.rows.filter q) := by
      intro u q
      have : IsTrans Deployment fun a b => a.createdAt ≤ b.createdAt := ⟨fun _ _ _ => le_trans⟩
      have : Std.Total fun a b : Deployment => a.createdAt ≤ b.createdAt := ⟨fun _ _ => le_total _ _⟩
      exact filter_insertionSort q _
    rw [hsort, hsort]
    congr 1
    rw [filter_of_lasting h.deployments fun d hd => ?_]
    · refine List.filter_congr fun d hd => ?_
      by_cases hidle : d.state = .idle
      · have hlasts : d.lasting := by simp [Deployment.lasting, hidle]
        have hrow : s.getDeployment d.id = some d :=
          Table.mem_iff_find?.mp ((h.deployments.mem hlasts).mpr hd)
        rw [h.demand now (by rw [hrow]; exact hlasts)]
      · simp [hidle]
    · have hidle : d.state = .idle := by
        simp only [decide_eq_true_eq] at hd
        exact hd.1
      simp [Deployment.lasting, hidle]
  have hsame : (InferStack.evictIdle t ids now).1 = (InferStack.evictIdle s ids now).1 :=
    congrArg (List.map Deployment.id) hrows
  refine ⟨hsame, ?_⟩
  show Forgets ((s.setDeploymentStates (InferStack.evictIdle s ids now).1 .stopped now).bumpWhen
      ((InferStack.evictIdle s ids now).1 ≠ []))
    ((t.setDeploymentStates (InferStack.evictIdle t ids now).1 .stopped now).bumpWhen
      ((InferStack.evictIdle t ids now).1 ≠ []))
  rw [hsame]
  exact (h.setDeploymentStates (.inl rfl) now).bumpWhen _

/-- A plan reads the admission version and the shared LIVE and IDLE rows. -/
theorem planAcquire_congr (hversion : t.admissionStateVersion = s.admissionStateVersion)
    (hrows : ∀ key, t.deploymentsByCompat key .shared [.live, .idle] =
      s.deploymentsByCompat key .shared [.live, .idle]) (requests : List EndpointRequest)
    (resident : String → Bool) (now : Int) (newId : Nat → String) :
    planAcquire t requests resident now newId = planAcquire s requests resident now newId := by
  have hcandidates : planCandidates t = planCandidates s := by
    funext p r
    unfold planCandidates
    rw [hrows]
  have hloop : planLoop t resident now newId requests = planLoop s resident now newId requests := by
    have hrequest : planRequest t resident now newId = planRequest s resident now newId := by
      funext p r
      unfold planRequest chooseDeployment rankedCandidates
      rw [hcandidates]
    unfold planLoop
    rw [hrequest]
  unfold planAcquire
  rw [hloop, hversion]

/-! ## plans waiting for their commit -/

/-- What an overlay names stands, while it may still commit. -/
structure Grounded (s : Store π δ) (o : AcquireOverlay) : Prop where
  version : o.stateVersion ≤ s.admissionStateVersion
  created : ∀ d ∈ o.created, d.state = .live
  revived : o.stateVersion = s.admissionStateVersion →
    ∀ g ∈ o.revived, ∃ d, Standing s d ∧ d.id = g
  claims : o.stateVersion = s.admissionStateVersion →
    ∀ rg ∈ o.claims, rg.2 ∈ o.created.keys ∨ ∃ d, Standing s d ∧ d.id = rg.2

theorem Grounded.step {o : AcquireOverlay} (h : Grounded s o) (hguard : VersionGuards s s') :
    Grounded s' o := by
  have hle := h.version
  cases hguard with
  | inl hlt =>
      exact ⟨by omega, h.created, fun heq => absurd heq (by omega), fun heq => absurd heq (by omega)⟩
  | inr hsame =>
      obtain ⟨heq, hstands⟩ := hsame
      refine ⟨by omega, h.created, fun hv g hg => ?_, fun hv rg hrg => ?_⟩
      · obtain ⟨d, hd, hid⟩ := h.revived (by omega) g hg
        exact ⟨d, (hstands d).mp hd, hid⟩
      · refine (h.claims (by omega) rg hrg).imp_right fun hrow => ?_
        obtain ⟨d, hd, hid⟩ := hrow
        exact ⟨d, (hstands d).mp hd, hid⟩

/-- A plan is grounded in the store it was computed against. -/
theorem planAcquire_grounded (s : Store π δ) (requests : List EndpointRequest)
    (resident : String → Bool) (now : Int) (newId : Nat → String) :
    Grounded s (planAcquire s requests resident now newId) := by
  have hp := planLoop_inv s resident now newId requests
  refine ⟨le_rfl, fun d hd => (hp.created d hd).2, fun _ g hg => ?_, fun _ rg hrg => ?_⟩
  · obtain ⟨-, d, hrow, hidle⟩ := hp.revived g hg
    have hid : d.id = g := (Table.find?_eq_some.mp hrow).2
    subst hid
    exact ⟨d, ⟨hrow, .inr hidle⟩, rfl⟩
  · obtain ⟨v, hv, hid⟩ := Table.mem_keys.mp (hp.claims rg hrg)
    by_cases hc : v.id ∈ (planLoop s resident now newId requests).created.keys
    · exact .inl (hid ▸ hc)
    · obtain ⟨d, hrow, hclaimed⟩ := hp.stored v hv hc
      have hdid : d.id = v.id := (Table.find?_eq_some.mp hrow).2
      exact .inr ⟨d, ⟨hdid ▸ hrow, hclaimed.state⟩, hdid.trans hid⟩

/-- An overlay that may commit names no entry a prune has freed, if its new ids
and its lease do not. -/
theorem Grounded.names {o : AcquireOverlay} (h : Grounded s o) {leaseId : String}
    (hlease : (s.getLease leaseId).all Lease.lasting)
    (hnew : ∀ d ∈ o.created, (s.getDeployment d.id).all Deployment.lasting)
    (hversion : s.admissionStateVersion = o.stateVersion) : Names s leaseId o := by
  have hstanding : ∀ d, Standing s d → (s.getDeployment d.id).all Deployment.lasting := by
    intro d hd
    rw [hd.row]
    cases hd.state with
    | inl hlive => simp [Deployment.lasting, hlive]
    | inr hidle => simp [Deployment.lasting, hidle]
  refine ⟨hlease, fun d hd => ⟨?_, hnew d hd⟩, fun g hg => ?_, fun rg hrg => ?_⟩
  · simp [Deployment.lasting, h.created d hd]
  · obtain ⟨d, hd, rfl⟩ := h.revived hversion.symm g hg
    exact hstanding d hd
  · cases h.claims hversion.symm rg hrg with
    | inl hcreated =>
        obtain ⟨d, hd, hid⟩ := Table.mem_keys.mp hcreated
        exact hid ▸ hnew d hd
    | inr hrow =>
        obtain ⟨d, hd, hid⟩ := hrow
        exact hid ▸ hstanding d hd

/-! ## runs -/

/-- What an operation reports to its caller. -/
inductive LedgerReport where
  | planned (overlay : AcquireOverlay)
  | acquired (error : Option AcquireError)
  | released (result : ReleaseResult)
  | renewed (lease : Option Lease)
  | renewedIfLive (result : FastRenew)
  | swept (result : SweepResult)
  | evicted (ids : List String)

/-- How the transaction of an acquire ended. -/
def acquireFault : Except AcquireError (Store π δ) → Option AcquireError
  | .ok _ => none
  | .error e => some e

/-- The report of an operation.  A prune reports counts of what it deletes, and
is left out. -/
def report (st : LedgerState π δ) (e : Int × LedgerOp π δ) : Option LedgerReport :=
  match e.2 with
  | .plan requests resident newId =>
      some (.planned (planAcquire st.store requests resident e.1 newId))
  | .release leaseId => some (.released (release st.store leaseId e.1).1)
  | .renew leaseId ttl allocations =>
      some (.renewed (renew st.store leaseId ttl allocations e.1).1)
  | .renewIfLive leaseId ttl => some (.renewedIfLive (renewIfLive st.store leaseId ttl e.1).1)
  | .sweep => some (.swept (sweep st.store e.1).1)
  | .evictIdle ids => some (.evicted (evictIdle st.store ids e.1).1)
  | _ => (attempt st e).map fun tried => .acquired (acquireFault tried.2.2)

/-- Whether an operation is a prune. -/
def LedgerOp.isPrune : LedgerOp π δ → Bool
  | .prune => true
  | _ => false

/-- An operation names nothing that a prune may have deleted: no lease that has
ended, no stopped deployment's id for a new one, and the lock-free renew no
ACTIVE lease with a stopped deployment. -/
def remembers (st : LedgerState π δ) (e : Int × LedgerOp π δ) : Bool :=
  match e.2 with
  | .release leaseId => (st.store.getLease leaseId).all Lease.lasting
  | .renewIfLive leaseId _ => (st.store.getLease leaseId).all fun l =>
      l.state ≠ .active || (st.store.deploymentIds leaseId).all st.store.stands
  | _ => (attempt st e).all fun tried =>
      (st.store.getLease tried.1).all Lease.lasting &&
        tried.2.1.created.rows.all fun d => (st.store.getDeployment d.id).all Deployment.lasting

/-- Two ledgers, the second pruned more often, with the same plans waiting. -/
structure Pruned (st st' : LedgerState π δ) : Prop where
  forgets : Forgets st.store st'.store
  overlays : st'.overlays = st.overlays
  grounded : ∀ o ∈ st.overlays, Grounded st.store o

/-- An acquire commits alike, or rolls back alike. -/
theorem Forgets.acquireOrKeep (h : Forgets s t) {leaseId : String} {o : AcquireOverlay} (owner : String)
    (ttl : Option Int) (allocations : Dict String (List Nat)) (digest : Option δ)
    (profile : Option π) (hnames : s.admissionStateVersion = o.stateVersion → Names s leaseId o) :
    Forgets (acquireOrKeep s leaseId owner ttl o allocations digest profile)
        (acquireOrKeep t leaseId owner ttl o allocations digest profile) ∧
      acquireFault (InferStack.acquire t leaseId owner ttl o allocations digest profile) =
        acquireFault (InferStack.acquire s leaseId owner ttl o allocations digest profile) := by
  unfold InferStack.acquireOrKeep
  cases h.acquire owner ttl allocations digest profile hnames with
  | inl hfail =>
      obtain ⟨e, hs, ht⟩ := hfail
      rw [hs, ht]
      exact ⟨h, rfl⟩
  | inr hok =>
      obtain ⟨s', t', hs, ht, hforgets⟩ := hok
      rw [hs, ht]
      exact ⟨hforgets, rfl⟩

/-- Plans stay grounded over a step. -/
theorem grounded_step {st : LedgerState π δ} {e : Int × LedgerOp π δ}
    (h : ∀ o ∈ st.overlays, Grounded st.store o) :
    ∀ o ∈ (ledgerStep st e).overlays, Grounded (ledgerStep st e).store o := by
  have hguard : VersionGuards st.store (ledgerStep st e).store := by
    by_cases hcommits : ∃ leaseId o s', attempt st e = some (leaseId, o, .ok s')
    · obtain ⟨leaseId, o, s', htried⟩ := hcommits
      obtain ⟨⟨owner, ttl, allocations, digest, profile, hresult⟩, hstore⟩ := applyOp_attempt htried
      rw [hstore]
      refine .inl ?_
      show st.store.admissionStateVersion < s'.admissionStateVersion
      rw [(acquire_ok hresult.symm).version']
      omega
    · refine (moves_of_not_committed fun leaseId o s' htried => ?_).2
      exact hcommits ⟨leaseId, o, s', htried⟩
  obtain ⟨now, op⟩ := e
  cases op with
  | plan requests resident newId =>
      intro o ho
      cases List.mem_append.mp ho with
      | inl hold => exact (h o hold).step hguard
      | inr hnew =>
          obtain rfl := List.mem_singleton.mp hnew
          exact planAcquire_grounded ..
  | _ => exact fun o ho => (h o ho).step hguard

variable {st st' : LedgerState π δ}

/-- One operation on both ledgers: the same report, and the second still only
lacks terminal entries of the first. -/
theorem Pruned.step (h : Pruned st st') {e : Int × LedgerOp π δ} (hop : e.2.isPrune = false)
    (hrem : remembers st e = true) :
    Pruned (ledgerStep st e) (ledgerStep st' e) ∧ report st' e = report st e := by
  obtain ⟨now, op⟩ := e
  have hplans : ∀ requests resident newId, planAcquire st'.store requests resident now newId =
      planAcquire st.store requests resident now newId :=
    fun requests resident newId => planAcquire_congr h.forgets.version
      h.forgets.deploymentsByCompat requests resident now newId
  have hgrounded := grounded_step (e := (now, op)) h.grounded
  -- what each operation does to the stores; the overlays follow
  have hstores : Forgets (applyOp st now op) (applyOp st' now op) ∧
      report st' (now, op) = report st (now, op) := by
    cases op with
    | plan requests resident newId =>
        exact ⟨h.forgets, congrArg (fun o => some (LedgerReport.planned o)) (hplans ..)⟩
    | acquire leaseId owner ttl overlay requests newId allocations digest profile =>
        cases overlay with
        | none =>
            have hnames : (st.store.getLease leaseId).all Lease.lasting = true ∧
                ∀ d ∈ (planAcquire st.store requests (fun _ => false) now newId).created,
                  (st.store.getDeployment d.id).all Deployment.lasting = true := by
              simpa [remembers, attempt, Table.mem_def] using hrem
            have hboth := h.forgets.acquireOrKeep owner ttl allocations digest profile
              ((planAcquire_grounded ..).names hnames.1 hnames.2)
            refine ⟨?_, ?_⟩
            · dsimp only [applyOp]
              rw [hplans]
              exact hboth.1
            · dsimp only [report, attempt]
              rw [hplans]
              exact congrArg (fun fault => some (LedgerReport.acquired fault)) hboth.2
        | some i =>
            dsimp only [applyOp, report, attempt]
            rw [h.overlays]
            cases ho : st.overlays[i]? with
            | none => exact ⟨h.forgets, rfl⟩
            | some o =>
                have hnames : (st.store.getLease leaseId).all Lease.lasting = true ∧
                    ∀ d ∈ o.created,
                      (st.store.getDeployment d.id).all Deployment.lasting = true := by
                  simpa [remembers, attempt, ho, Table.mem_def] using hrem
                have hmem : o ∈ st.overlays := List.mem_of_getElem? ho
                have hboth := h.forgets.acquireOrKeep owner ttl allocations digest profile
                  ((h.grounded o hmem).names hnames.1 hnames.2)
                exact ⟨hboth.1,
                  congrArg (fun fault => some (LedgerReport.acquired fault)) hboth.2⟩
    | release leaseId =>
        obtain ⟨hreport, hforgets⟩ := h.forgets.release hrem now
        exact ⟨hforgets, congrArg (fun r => some (LedgerReport.released r)) hreport⟩
    | renew leaseId ttl allocations =>
        obtain ⟨hreport, hforgets⟩ := h.forgets.renew leaseId ttl allocations now
        exact ⟨hforgets, congrArg (fun r => some (LedgerReport.renewed r)) hreport⟩
    | renewIfLive leaseId ttl =>
        have hstands : ∀ l, st.store.getLease leaseId = some l → l.state = .active →
            ∀ g ∈ st.store.deploymentIds leaseId, st.store.stands g = true := by
          intro l hrow hactive
          simpa [remembers, hrow, hactive] using hrem
        obtain ⟨hreport, hforgets⟩ := h.forgets.renewIfLive ttl now hstands
        exact ⟨hforgets, congrArg (fun r => some (LedgerReport.renewedIfLive r)) hreport⟩
    | sweep =>
        obtain ⟨hreport, hforgets⟩ := h.forgets.sweep now
        exact ⟨hforgets, congrArg (fun r => some (LedgerReport.swept r)) hreport⟩
    | evictIdle ids =>
        obtain ⟨hreport, hforgets⟩ := h.forgets.evictIdle ids now
        exact ⟨hforgets, congrArg (fun r => some (LedgerReport.evicted r)) hreport⟩
    | prune => contradiction
    | setAllocation g gpus =>
        exact ⟨(h.forgets.setDeploymentAllocation g gpus).bumpAdmissionStateVersion, rfl⟩
  refine ⟨⟨hstores.1, ?_, hgrounded⟩, hstores.2⟩
  cases op with
  | plan requests resident newId =>
      exact congrArg₂ (fun os o => os ++ [o]) h.overlays (hplans ..)
  | _ => exact h.overlays

/-- A prune of the second ledger. -/
theorem Pruned.prune (h : Pruned st st') {e : Int × LedgerOp π δ} (hop : e.2.isPrune = true) :
    Pruned st (ledgerStep st' e) ∧ report st' e = none := by
  obtain ⟨now, op⟩ := e
  cases op with
  | prune => exact ⟨⟨h.forgets.prune, h.overlays, h.grounded⟩, rfl⟩
  | _ => contradiction

/-- Prunes are invisible.  Take any run of the ledger, with prunes anywhere in
it, and the same run without them.  If no operation of the latter names an entry
a prune may have deleted, both report the same, operation by operation, hold the
same plans, and are the same ledger once pruned. -/
theorem prune_is_invisible (start : Int) (es : List (Int × LedgerOp π δ))
    (h : AllSteps ledgerStep (fun st e => remembers st e = true)
      (LedgerState.init start : LedgerState π δ) (es.filter fun e => !e.2.isPrune)) :
    let kept := run ledgerStep (LedgerState.init start) (es.filter fun e => !e.2.isPrune)
    let pruned := run ledgerStep (LedgerState.init start) es
    pruneTerminal pruned.store = pruneTerminal kept.store ∧ pruned.overlays = kept.overlays ∧
      outputs ledgerStep report (LedgerState.init start) es =
        outputs ledgerStep report (LedgerState.init start) (es.filter fun e => !e.2.isPrune) := by
  have hstart : Pruned (LedgerState.init start : LedgerState π δ) (LedgerState.init start) :=
    ⟨.refl _, rfl, by simp [LedgerState.init]⟩
  have hmatch : ∀ (st st' : LedgerState π δ) (e : Int × LedgerOp π δ), e.2.isPrune = false →
      remembers st e = true → Pruned st st' →
      Pruned (ledgerStep st e) (ledgerStep st' e) ∧ report st' e = report st e :=
    fun _ _ _ hop hrem hpruned => hpruned.step hop hrem
  have hprune : ∀ (st st' : LedgerState π δ) (e : Int × LedgerOp π δ), e.2.isPrune = true →
      Pruned st st' → Pruned st (ledgerStep st' e) ∧ report st' e = none :=
    fun _ _ _ hop hpruned => hpruned.prune hop
  obtain ⟨hend, hreports⟩ := run_stutter hmatch hprune hstart h
  exact ⟨hend.forgets.pruneTerminal.symm, hend.overlays, hreports⟩

/-- A model is leased, released, evicted and leased again, pruned in between. -/
def prunedLease : List (Int × LedgerOp Unit Unit) :=
  [(0, .acquire "l1" "a" (some 100) none [chatRequest] (fun _ => "g1") ∅ none none),
    (5, .release "l1"),
    (6, .evictIdle none),
    (7, .prune),
    (8, .acquire "l2" "b" none none [chatRequest] (fun _ => "g2") ∅ none none),
    (9, .prune),
    (9, .renewIfLive "l2" (some 50)),
    (80, .sweep)]

theorem prunedLease_invisible :
    pruneTerminal (run ledgerStep (LedgerState.init 0) prunedLease).store =
      pruneTerminal (run ledgerStep (LedgerState.init 0)
        (prunedLease.filter fun e => !e.2.isPrune)).store :=
  (prune_is_invisible 0 prunedLease (by decide +kernel)).1

/- The lock-free renew is the one reader of a stopped deployment's claim: an
ACTIVE lease on one is sent to the slow path until a prune drops the claim. -/
example :
    let stopped := run ledgerStep (LedgerState.init 0) (renewAfterEviction.take 4)
    (renewIfLive stopped.store "l1" none 201).1 = .slow ∧
      (renewIfLive (pruneTerminal stopped.store) "l1" none 201).1 ≠ .slow := by
  decide +kernel

end InferStack
