import InferStack.Models

/-!
# InferStack.Store

The SQLite store of the ledger: leases, deployments, claims, and the rows of
`meta` that drive publication.  Each operation below is one statement of the
source; `InferStack.Ledger` groups them into transactions.

The constraints SQLite enforces are fields of `Store`: primary keys are part
of the tables, and the two foreign keys of `claims` are `claim_lease` and
`claim_deployment`.  A write that would break one raises in SQLite and rolls
its transaction back; here it returns `none`.

The store is generic over the published profile `π` and the digest `δ` of a
rendered project, which it only keeps.
-/

namespace InferStack

open Kit

/-- The publication marker: desired state changed and is not yet applied. -/
structure Marker (δ : Type) where
  version : Nat
  applyRequested : Bool
  interrupted : Bool
  approvedDigest : Option δ
  deriving DecidableEq

/-- The tables and `meta` rows of the ledger. -/
structure Store (π δ : Type) where
  leases : Table Lease Lease.id
  deployments : Table Deployment Deployment.id
  claims : List Claim
  profile : Option π
  publicationPending : Option (Marker δ)
  desiredGen : Nat
  admissionStateVersion : Nat
  serviceAddresses : Dict String String
  networkConfig : Option String
  claim_lease : ∀ c ∈ claims, c.leaseId ∈ leases.keys
  claim_deployment : ∀ c ∈ claims, c.deploymentId ∈ deployments.keys

namespace Store

variable {π δ : Type}

/-- A fresh database. -/
def empty : Store π δ where
  leases := ∅
  deployments := ∅
  claims := []
  profile := none
  publicationPending := none
  desiredGen := 0
  admissionStateVersion := 0
  serviceAddresses := ∅
  networkConfig := none
  claim_lease := by simp
  claim_deployment := by simp

/-! ## reading -/

def getLease (s : Store π δ) (id : String) : Option Lease := s.leases.find? id

def getDeployment (s : Store π δ) (id : String) : Option Deployment := s.deployments.find? id

/-- The claims of one lease, in insertion order. -/
def claimsOf (s : Store π δ) (leaseId : String) : List Claim :=
  s.claims.filter (fun c => c.leaseId = leaseId)

/-- The deployments a lease claims, each once, in claim order. -/
def deploymentIds (s : Store π δ) (leaseId : String) : List String :=
  ((s.claimsOf leaseId).map Claim.deploymentId).eraseDups

theorem mem_deploymentIds {s : Store π δ} {l g : String} :
    g ∈ s.deploymentIds l ↔ ∃ c ∈ s.claims, c.leaseId = l ∧ c.deploymentId = g := by
  simp [deploymentIds, claimsOf, List.mem_eraseDups, and_assoc]

/-- `ORDER BY created_at`; SQLite keeps the row order of equal keys. -/
def byCreation (ds : List Deployment) : List Deployment :=
  ds.insertionSort (fun a b => a.createdAt ≤ b.createdAt)

/-- All leases, oldest first. -/
def listLeases (s : Store π δ) : List Lease :=
  s.leases.rows.insertionSort (fun a b => a.createdAt ≤ b.createdAt)

/-- All deployments, oldest first. -/
def listDeployments (s : Store π δ) : List Deployment := byCreation s.deployments.rows

@[simp] theorem mem_listLeases {s : Store π δ} {l : Lease} :
    l ∈ s.listLeases ↔ l ∈ s.leases := by
  simp [listLeases, Table.mem_def]

@[simp] theorem mem_listDeployments {s : Store π δ} {d : Deployment} :
    d ∈ s.listDeployments ↔ d ∈ s.deployments := by
  simp [listDeployments, byCreation, Table.mem_def]

/-- Deployments of one compatibility key, in the given states, oldest first. -/
def deploymentsByCompat (s : Store π δ) (key : CompatKey) (sharing : Sharing)
    (states : List DeploymentState) : List Deployment :=
  byCreation (s.deployments.rows.filter fun d =>
    d.compatKey = key ∧ d.sharing = sharing ∧ d.state ∈ states)

theorem mem_deploymentsByCompat {s : Store π δ} {key : CompatKey} {sharing : Sharing}
    {states : List DeploymentState} {d : Deployment} :
    d ∈ s.deploymentsByCompat key sharing states ↔
      d ∈ s.deployments ∧ d.compatKey = key ∧ d.sharing = sharing ∧ d.state ∈ states := by
  simp [deploymentsByCompat, byCreation, Table.mem_def]

/-- Active leases whose TTL has elapsed. -/
def activeLeasesPast (s : Store π δ) (now : Int) : List Lease :=
  s.leases.rows.filter fun l => l.state = .active ∧ pastExpiry l.expiresAt now

/-- The leases that protect a deployment at `now`: the rows `demand` counts. -/
def protectors (s : Store π δ) (g : String) (now : Int) : List Lease :=
  s.leases.rows.filter fun l => g ∈ s.deploymentIds l.id ∧ l.isProtecting now

/-- Number of protecting leases that claim a deployment. -/
def demand (s : Store π δ) (g : String) (now : Int) : Nat := (s.protectors g now).length

theorem mem_protectors {s : Store π δ} {g : String} {now : Int} {l : Lease} :
    l ∈ s.protectors g now ↔ l ∈ s.leases ∧ g ∈ s.deploymentIds l.id ∧ l.isProtecting now := by
  simp [protectors, Table.mem_def]

theorem demand_eq_zero {s : Store π δ} {g : String} {now : Int} :
    s.demand g now = 0 ↔ ∀ l ∈ s.leases, g ∈ s.deploymentIds l.id → ¬ l.isProtecting now := by
  rw [demand, List.length_eq_zero_iff, List.eq_nil_iff_forall_not_mem]
  simp only [mem_protectors, not_and]

/-! ## replacing a table -/

/-- The store with another lease table, which keeps every lease id. -/
def withLeases (s : Store π δ) (t : Table Lease Lease.id)
    (h : ∀ k ∈ s.leases.keys, k ∈ t.keys) : Store π δ :=
  { s with leases := t, claim_lease := fun c hc => h _ (s.claim_lease c hc) }

/-- The store with another deployment table, which keeps every deployment id. -/
def withDeployments (s : Store π δ) (t : Table Deployment Deployment.id)
    (h : ∀ k ∈ s.deployments.keys, k ∈ t.keys) : Store π δ :=
  { s with deployments := t, claim_deployment := fun c hc => h _ (s.claim_deployment c hc) }

/- Neither replacement touches the other tables, so what only reads those is
unchanged; these equations hold by definition. -/

@[simp] theorem getDeployment_withLeases {s : Store π δ} {t h} (g : String) :
    (s.withLeases t h).getDeployment g = s.getDeployment g := rfl

@[simp] theorem deploymentIds_withLeases {s : Store π δ} {t h} (l : String) :
    (s.withLeases t h).deploymentIds l = s.deploymentIds l := rfl

@[simp] theorem deploymentIds_withDeployments {s : Store π δ} {t h} (l : String) :
    (s.withDeployments t h).deploymentIds l = s.deploymentIds l := rfl

@[simp] theorem demand_withDeployments {s : Store π δ} {t h} (g : String) (now : Int) :
    (s.withDeployments t h).demand g now = s.demand g now := rfl

/-! ## lease rows -/

/-- Insert an ACTIVE lease. -/
def insertLease (s : Store π δ) (id owner : String) (createdAt : Int)
    (ttlSeconds expiresAt : Option Int) (heartbeatAt : Int) : Option (Store π δ) :=
  if h : id ∉ s.leases.keys then
    some (s.withLeases
      (s.leases.insert ⟨id, owner, .active, createdAt, ttlSeconds, expiresAt, heartbeatAt⟩ h)
      (fun k hk => by simpa [Table.insert, Table.keys] using Or.inl hk))
  else none

theorem insertLease_eq_some {s s' : Store π δ} {id owner : String} {createdAt : Int}
    {ttl exp : Option Int} {t : Int} (h : s.insertLease id owner createdAt ttl exp t = some s') :
    ∃ hnew, s' = s.withLeases
      (s.leases.insert ⟨id, owner, .active, createdAt, ttl, exp, t⟩ hnew)
      (fun k hk => by simpa [Table.insert, Table.keys] using Or.inl hk) := by
  unfold insertLease at h
  split at h
  · rename_i hnew; exact ⟨hnew, (Option.some.inj h).symm⟩
  · contradiction

/-- Set the state of leases, one statement each. -/
def setLeaseStates (s : Store π δ) (ids : List String) (state : LeaseState) : Store π δ :=
  s.withLeases (s.leases.modifyKeys ids (·.withState state) (·.withState_id state))
    (fun k hk => by rw [Table.keys_modifyKeys]; exact hk)

/-- Write a new TTL window; the row is ACTIVE afterwards. -/
def renewLease (s : Store π δ) (id : String) (ttlSeconds expiresAt : Option Int)
    (heartbeatAt : Int) : Store π δ :=
  s.withLeases
    (s.leases.modify id (·.renewed ttlSeconds expiresAt heartbeatAt)
      (·.renewed_id ttlSeconds expiresAt heartbeatAt))
    (fun k hk => by rw [Table.keys_modify]; exact hk)

theorem getLease_setLeaseStates {s : Store π δ} {ids : List String} {st : LeaseState}
    (l : String) : (s.setLeaseStates ids st).getLease l =
      if l ∈ ids then (s.getLease l).map (·.withState st) else s.getLease l :=
  Table.find?_modifyKeys s.leases ids _ (·.withState_id st) (fun _ => rfl) l

theorem mem_leases_setLeaseStates {s : Store π δ} {ids : List String} {st : LeaseState}
    {l : Lease} : l ∈ (s.setLeaseStates ids st).leases ↔
      ∃ l₀ ∈ s.leases, (if l₀.id ∈ ids then l₀.withState st else l₀) = l :=
  Table.mem_modifyKeys s.leases ids _ (·.withState_id st) (fun _ => rfl)

theorem getLease_renewLease {s : Store π δ} {id : String} {ttl exp : Option Int} {t : Int}
    (l : String) : (s.renewLease id ttl exp t).getLease l =
      if l = id then (s.getLease l).map (·.renewed ttl exp t) else s.getLease l :=
  Table.find?_modify s.leases id _ (·.renewed_id ttl exp t) l

theorem mem_leases_renewLease {s : Store π δ} {id : String} {ttl exp : Option Int} {t : Int}
    {l : Lease} : l ∈ (s.renewLease id ttl exp t).leases ↔
      (∃ l₀ ∈ s.leases, l₀.id = id ∧ l₀.renewed ttl exp t = l) ∨ (l ∈ s.leases ∧ l.id ≠ id) :=
  Table.mem_modify s.leases id _ (·.renewed_id ttl exp t)

/-! ## claims -/

/-- The store with another claims table. -/
def withClaims (s : Store π δ) (cs : List Claim) (hl : ∀ c ∈ cs, c.leaseId ∈ s.leases.keys)
    (hd : ∀ c ∈ cs, c.deploymentId ∈ s.deployments.keys) : Store π δ :=
  { s with claims := cs, claim_lease := hl, claim_deployment := hd }

/-- Insert a claim; both foreign keys must hold. -/
def insertClaim (s : Store π δ) (c : Claim) : Option (Store π δ) :=
  if h : c.leaseId ∈ s.leases.keys ∧ c.deploymentId ∈ s.deployments.keys then
    some (s.withClaims (s.claims ++ [c])
      (List.forall_mem_append.mpr ⟨s.claim_lease, by simpa using h.1⟩)
      (List.forall_mem_append.mpr ⟨s.claim_deployment, by simpa using h.2⟩))
  else none

/-- Inserting claims one after another appends them all. -/
theorem foldlM_insertClaim {s s' : Store π δ} {cs : List Claim}
    (h : cs.foldlM insertClaim s = some s') :
    ∃ hl hd, s' = s.withClaims (s.claims ++ cs) hl hd := by
  induction cs generalizing s with
  | nil =>
      simp only [List.foldlM_nil, pure, Option.some.injEq] at h
      subst h
      exact ⟨by simpa using s.claim_lease, by simpa using s.claim_deployment, by
        simp [withClaims]⟩
  | cons c cs ih =>
      rw [List.foldlM_cons] at h
      obtain ⟨s₁, hs₁, hrest⟩ := Option.bind_eq_some_iff.mp h
      obtain ⟨hl, hd, rfl⟩ := ih hrest
      unfold insertClaim at hs₁
      split at hs₁
      · obtain rfl := Option.some.inj hs₁
        have happ : s.claims ++ [c] ++ cs = s.claims ++ c :: cs := by simp
        exact ⟨fun c' hc => hl c' (happ ▸ hc), fun c' hc => hd c' (happ ▸ hc), by
          simp [withClaims]⟩
      · contradiction

/-! ## deployment rows -/

/-- Insert deployment rows, their specs through JSON. -/
def insertDeployments (s : Store π δ) (ds : List Deployment) : Option (Store π δ) :=
  if ds.all (fun d => EnvKey.sortable d.spec.runtime.env.keys) then
    match h : s.deployments.insertAll? (ds.map Deployment.stored) with
    | none => none
    | some t => some (s.withDeployments t (Table.keys_subset_insertAll? h))
  else none

/-- Set the state of deployments, one statement each. -/
def setDeploymentStates (s : Store π δ) (ids : List String) (state : DeploymentState)
    (updatedAt : Int) : Store π δ :=
  s.withDeployments
    (s.deployments.modifyKeys ids (·.withState state updatedAt) (·.withState_id _ _))
    (fun k hk => by rw [Table.keys_modifyKeys]; exact hk)

/-- Commit (or clear) a deployment's GPU allocation. -/
def setDeploymentAllocation (s : Store π δ) (id : String) (gpus : Option (List Nat)) :
    Store π δ :=
  s.withDeployments
    (s.deployments.modify id (·.withAllocation gpus) (·.withAllocation_id gpus))
    (fun k hk => by rw [Table.keys_modify]; exact hk)

/-- Commit the GPU allocations of several deployments. -/
def setDeploymentAllocations (s : Store π δ) (allocations : Dict String (List Nat)) :
    Store π δ :=
  s.withDeployments
    (s.deployments.modifyEach allocations (fun gpus d => d.withAllocation (some gpus))
      (fun gpus d => d.withAllocation_id (some gpus)))
    (fun k hk => by rw [Table.keys_modifyEach]; exact hk)

/-- Replace the served maps of deployments. -/
def updateDeploymentsServed (s : Store π δ) (served : Dict String (Dict String Served))
    (updatedAt : Int) : Store π δ :=
  s.withDeployments
    (s.deployments.modifyEach served (fun m d => d.withServed m updatedAt)
      (fun m d => d.withServed_id m updatedAt))
    (fun k hk => by rw [Table.keys_modifyEach]; exact hk)

theorem getDeployment_setDeploymentStates {s : Store π δ} {ids : List String}
    {st : DeploymentState} {t : Int} (g : String) :
    (s.setDeploymentStates ids st t).getDeployment g =
      if g ∈ ids then (s.getDeployment g).map (·.withState st t) else s.getDeployment g :=
  Table.find?_modifyKeys s.deployments ids _ (·.withState_id st t)
    (·.withState_withState st t) g

theorem getDeployment_setDeploymentAllocation {s : Store π δ} {id : String}
    {gpus : Option (List Nat)} (g : String) :
    (s.setDeploymentAllocation id gpus).getDeployment g =
      if g = id then (s.getDeployment g).map (·.withAllocation gpus) else s.getDeployment g :=
  Table.find?_modify s.deployments id _ (·.withAllocation_id gpus) g

theorem getDeployment_setDeploymentAllocations {s : Store π δ}
    {allocations : Dict String (List Nat)} (g : String) :
    (s.setDeploymentAllocations allocations).getDeployment g =
      (allocations.get? g).elim (s.getDeployment g)
        (fun gpus => (s.getDeployment g).map (·.withAllocation (some gpus))) :=
  Table.find?_modifyEach s.deployments allocations _
    (fun gpus d => d.withAllocation_id (some gpus)) g

theorem getDeployment_updateDeploymentsServed {s : Store π δ}
    {served : Dict String (Dict String Served)} {t : Int} (g : String) :
    (s.updateDeploymentsServed served t).getDeployment g =
      (served.get? g).elim (s.getDeployment g)
        (fun m => (s.getDeployment g).map (·.withServed m t)) :=
  Table.find?_modifyEach s.deployments served _ (fun m d => d.withServed_id m t) g

/-- What inserting deployments leaves: the rows through JSON, behind the old ones. -/
theorem insertDeployments_eq_some {s s' : Store π δ} {ds : List Deployment}
    (h : s.insertDeployments ds = some s') :
    ∃ t ht, s.deployments.insertAll? (ds.map Deployment.stored) = some t ∧
      s' = s.withDeployments t ht := by
  unfold insertDeployments at h
  split at h
  · split at h
    · contradiction
    · rename_i t ht
      exact ⟨t, Table.keys_subset_insertAll? ht, ht, by simpa using h.symm⟩
  · contradiction

/-- Delete terminal leases and deployments, and the claims on either. -/
def prune (s : Store π δ) (leaseStates : List LeaseState)
    (deploymentStates : List DeploymentState) : Store π δ :=
  { s with
    leases := s.leases.filter (fun l => l.state ∉ leaseStates)
    deployments := s.deployments.filter (fun d => d.state ∉ deploymentStates)
    claims := s.claims.filter fun c =>
      (s.leases.find? c.leaseId).any (fun l => l.state ∉ leaseStates) &&
      (s.deployments.find? c.deploymentId).any (fun d => d.state ∉ deploymentStates)
    claim_lease := fun c hc => by
      have hkeep := (Bool.and_eq_true_iff.mp (List.mem_filter.mp hc).2).1
      obtain ⟨l, hmem, hk, hst⟩ := Table.any_find?.mp hkeep
      exact Table.mem_keys.mpr ⟨l, Table.mem_filter.mpr ⟨hmem, hst⟩, hk⟩
    claim_deployment := fun c hc => by
      have hkeep := (Bool.and_eq_true_iff.mp (List.mem_filter.mp hc).2).2
      obtain ⟨d, hmem, hk, hst⟩ := Table.any_find?.mp hkeep
      exact Table.mem_keys.mpr ⟨d, Table.mem_filter.mpr ⟨hmem, hst⟩, hk⟩ }

/-! ## the rows of `meta` -/

/-- Increment `admission_state_version`. -/
def bumpAdmissionStateVersion (s : Store π δ) : Store π δ :=
  { s with admissionStateVersion := s.admissionStateVersion + 1 }

/-- Increment `desired_gen`; every demand-changing mutation is also an
admission-state change. -/
def bumpDesiredGeneration (s : Store π δ) : Store π δ :=
  { s with desiredGen := s.desiredGen + 1
           admissionStateVersion := s.admissionStateVersion + 1 }

/-- `bump_desired_generation`, only when something changed. -/
def bumpWhen (s : Store π δ) (changed : Bool) : Store π δ :=
  if changed then s.bumpDesiredGeneration else s

/- A bump moves counters only. -/

@[simp] theorem leases_bumpWhen (s : Store π δ) (b : Bool) : (s.bumpWhen b).leases = s.leases := by
  cases b <;> rfl

@[simp] theorem deployments_bumpWhen (s : Store π δ) (b : Bool) :
    (s.bumpWhen b).deployments = s.deployments := by
  cases b <;> rfl

@[simp] theorem claims_bumpWhen (s : Store π δ) (b : Bool) : (s.bumpWhen b).claims = s.claims := by
  cases b <;> rfl

@[simp] theorem getLease_bumpWhen (s : Store π δ) (b : Bool) (l : String) :
    (s.bumpWhen b).getLease l = s.getLease l := by
  cases b <;> rfl

@[simp] theorem getDeployment_bumpWhen (s : Store π δ) (b : Bool) (g : String) :
    (s.bumpWhen b).getDeployment g = s.getDeployment g := by
  cases b <;> rfl

@[simp] theorem deploymentIds_bumpWhen (s : Store π δ) (b : Bool) (l : String) :
    (s.bumpWhen b).deploymentIds l = s.deploymentIds l := by
  cases b <;> rfl

theorem version_bumpWhen (s : Store π δ) (b : Bool) :
    (s.bumpWhen b).admissionStateVersion = s.admissionStateVersion + b.toNat := by
  cases b <;> rfl

def writeProfile (s : Store π δ) (profile : π) : Store π δ := { s with profile := some profile }

/-- The marker upsert: a new version, both flags only ever turned on, and a
given digest replacing the stored one. -/
def writeMarker (s : Store π δ) (applyRequested interrupted : Bool)
    (approvedDigest : Option δ) : Store π δ :=
  { s with publicationPending := some <|
      match s.publicationPending with
      | none => ⟨1, applyRequested, interrupted, approvedDigest⟩
      | some m => ⟨m.version + 1, applyRequested || m.applyRequested,
          interrupted || m.interrupted, approvedDigest.or m.approvedDigest⟩ }

/-- Record that desired state is changing, with a first profile if there is one. -/
def markPublicationPending (s : Store π δ) (applyRequested interrupted : Bool)
    (approvedDigest : Option δ) (profile : Option π) : Store π δ :=
  { s with profile := profile.or s.profile }.writeMarker applyRequested interrupted approvedDigest

/-- Replace the pending marker's approved digest in place, at the same version. -/
def setApprovedDigest (s : Store π δ) (digest : Option δ) : Store π δ :=
  { s with publicationPending := s.publicationPending.map fun m =>
      { m with approvedDigest := digest } }

/-- Write the profile and its pending marker in one transaction. -/
def publishProfile (s : Store π δ) (profile : π) (approvedDigest : Option δ) : Store π δ :=
  (s.writeProfile profile).writeMarker true false approvedDigest

/-- Switch subnet, reset addresses and mark the change pending, atomically. -/
def migrateNetwork (s : Store π δ) (subnet : String) (resetAddresses : Bool)
    (approvedDigest : Option δ) (profile : Option π) : Store π δ :=
  { s with
    profile := profile.or s.profile
    networkConfig := some subnet
    serviceAddresses := if resetAddresses then ∅ else s.serviceAddresses }.writeMarker
      true false approvedDigest

/-- Clear the marker if it is not newer than `version`. -/
def clearPublicationPending (s : Store π δ) (version : Nat) : Store π δ :=
  { s with publicationPending := s.publicationPending.filter fun m => version < m.version }

/-- Insert new service addresses; an existing row is never changed, and no two
services hold one address. -/
def addServiceAddresses (s : Store π δ) (table : Dict String String) : Option (Store π δ) :=
  (table.rows.foldlM (fun (current : Dict String String) (service, ip) =>
    match current.get? service with
    | some known => if known = ip then some current else none
    | none => if ip ∈ current.rows.map Prod.snd then none else some (current.set service ip))
    s.serviceAddresses).map fun addresses => { s with serviceAddresses := addresses }

end Store

end InferStack
