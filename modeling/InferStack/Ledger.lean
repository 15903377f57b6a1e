import InferStack.Store

/-!
# InferStack.Ledger

Lease bookkeeping over the store: the multi-step operations of the ledger,
each one SQLite transaction.

* `planAcquire` decides, without writing, which deployment each request of an
  acquire would use: the cheapest compatible one whose capacity covers it, or a
  new one.  `acquire` commits exactly that decision.
* `release`, `sweep` and `evictIdle` shrink what is desired, `renew` may bring
  an IDLE deployment back, `renewIfLive` is the lock-free TTL update.

The clock reading of an operation is its argument `now`, and the id factory is
a function of the request's position.
-/

namespace InferStack

open Kit

variable {π δ : Type}

/-! ## planning an acquire -/

/-- What an acquire would do, computed without writing. -/
structure AcquireOverlay where
  now : Int
  /-- Request and deployment id, in request order. -/
  claims : List (EndpointRequest × String)
  /-- New deployments, not yet in the store. -/
  created : Table Deployment Deployment.id
  /-- Existing IDLE deployments this acquire makes LIVE again. -/
  revived : List String
  /-- Existing deployments whose served map this acquire extends. -/
  servedUpdates : Dict String (Dict String Served)
  /-- Every deployment the lease claims, as it will be after the commit. -/
  deployments : Table Deployment Deployment.id
  /-- The admission state the plan was computed against. -/
  stateVersion : Nat

/-- The loop state of `planAcquire`: `view` holds the deployments chosen so
far, as this plan leaves them. -/
structure PlanState where
  view : Table Deployment Deployment.id := ∅
  created : Table Deployment Deployment.id := ∅
  revived : List String := []
  servedUpdates : Dict String (Dict String Served) := ∅
  claims : List (EndpointRequest × String) := []

/-- What a candidate costs to use: LIVE, then created by this plan, then
resident IDLE, then any other IDLE one. -/
def planCost (resident : String → Bool) (d : Deployment) (pending : Bool) : Nat :=
  if d.state = .live ∧ ¬ pending then 0
  else if pending then 1
  else if resident d.id then 2
  else 3

/-- The shared deployments of the request's key, stored ones first. -/
def planCandidates (s : Store π δ) (p : PlanState) (r : EndpointRequest) :
    List (Deployment × Bool) :=
  (s.deploymentsByCompat r.compatKey .shared [.live, .idle]).map
      (fun g => ((p.view.find? g.id).getD g, false)) ++
    (p.created.rows.filter (fun g => g.compatKey = r.compatKey ∧ g.sharing = .shared)).map
      (fun g => (g, true))

/-- The candidates by cost, in creation order within each. -/
def rankedCandidates (s : Store π δ) (resident : String → Bool) (p : PlanState)
    (r : EndpointRequest) : List (Deployment × Bool) :=
  (planCandidates s p r).insertionSort
    (fun a b => planCost resident a.1 a.2 ≤ planCost resident b.1 b.2)

/-- The deployment a request reuses, if any: the cheapest candidate whose
capacity covers it.  A dedicated request reuses none. -/
def chooseDeployment (s : Store π δ) (resident : String → Bool) (p : PlanState)
    (r : EndpointRequest) : Option Deployment :=
  if r.sharing = .dedicated then none
  else ((rankedCandidates s resident p r).find?
    (fun c => capacitySatisfies c.1.capacity r.capacity)).map Prod.fst

/-- The deployment a request creates. -/
def newDeployment (id : String) (now : Int) (r : EndpointRequest) : Deployment where
  id := id
  compatKey := r.compatKey
  engine := r.engine
  sharing := r.sharing
  capacity := r.capacity
  spec := r.spec
  served := Table.ofList [(r.endpoint, r.served)]
  state := .live
  createdAt := now
  updatedAt := now

/-- A chosen deployment in demand: LIVE, an IDLE one without its allocation. -/
def Deployment.revive (d : Deployment) : Deployment :=
  if d.state = .idle then { d with state := .live, assignedGpus := none } else d

/-- A chosen deployment serving the request's alias too. -/
def Deployment.serving (d : Deployment) (endpoint : String) (payload : Served) : Deployment :=
  if d.served.get? endpoint = some payload then d
  else { d with served := d.served.set endpoint payload }

/-- The plan with a new deployment for a request. -/
def PlanState.create (p : PlanState) (r : EndpointRequest) (d : Deployment) : PlanState :=
  { p with
    view := p.view.put d
    created := p.created.put d
    claims := p.claims ++ [(r, d.id)] }

/-- The plan with the candidate `c` chosen for a request. -/
def PlanState.reuse (p : PlanState) (r : EndpointRequest) (c : Deployment) : PlanState :=
  let d := c.revive.serving r.endpoint r.served
  { view := p.view.put d
    -- a deployment of this plan is updated in place
    created := if c.id ∈ p.created.keys then p.created.put d else p.created
    revived := if c.state = .idle then p.revived ++ [c.id] else p.revived
    servedUpdates :=
      if c.served.get? r.endpoint = some r.served ∨ c.id ∈ p.created.keys
      then p.servedUpdates else p.servedUpdates.set c.id d.served
    claims := p.claims ++ [(r, c.id)] }

/-- One iteration of the planning loop. -/
def planRequest (s : Store π δ) (resident : String → Bool) (now : Int)
    (newId : Nat → String) (p : PlanState) (r : EndpointRequest) : PlanState :=
  match chooseDeployment s resident p r with
  | none => p.create r (newDeployment (newId p.claims.length) now r)
  | some c => p.reuse r c

/-- The planning loop. -/
def planLoop (s : Store π δ) (resident : String → Bool) (now : Int) (newId : Nat → String)
    (requests : List EndpointRequest) : PlanState :=
  requests.foldl (planRequest s resident now newId) {}

/-- Decide how `requests` would coalesce, without writing anything. -/
def planAcquire (s : Store π δ) (requests : List EndpointRequest) (resident : String → Bool)
    (now : Int) (newId : Nat → String) : AcquireOverlay :=
  let p := planLoop s resident now newId requests
  { now := now
    claims := p.claims
    created := p.created
    revived := p.revived
    servedUpdates := p.servedUpdates
    deployments := Table.ofList ((p.claims.map Prod.snd).eraseDups.filterMap p.view.find?)
    stateVersion := s.admissionStateVersion }

/-! ## committing an acquire -/

/-- Why an acquire's transaction rolls back. -/
inductive AcquireError where
  /-- The ledger changed between preview and commit. -/
  | admissionConflict
  /-- A constraint of the store, or a spec JSON cannot write. -/
  | integrity
  deriving DecidableEq, Repr

/-- The rows an acquire writes for its deployments. -/
def acquireDeployments (s : Store π δ) (o : AcquireOverlay)
    (allocations : Dict String (List Nat)) : Option (Store π δ) := do
  let s ← s.insertDeployments o.created.rows
  let s := s.setDeploymentStates o.revived .live o.now
  let s := s.updateDeploymentsServed o.servedUpdates o.now
  pure (s.setDeploymentAllocations allocations)

/-- The claims an acquire writes for its lease. -/
def insertClaims (s : Store π δ) (leaseId : String) (claims : List (EndpointRequest × String)) :
    Option (Store π δ) :=
  (claims.map fun rg => ⟨leaseId, rg.1.endpoint, rg.2⟩).foldlM Store.insertClaim s

/-- Write the profile an acquire publishes and its approval.  The digest goes
with the lease: it never describes a candidate that was not committed. -/
def publishCandidate (s : Store π δ) (profile : Option π) (approvedDigest : Option δ) :
    Store π δ :=
  let s := { s with profile := profile.or s.profile }
  if approvedDigest.isSome then s.writeMarker true false approvedDigest else s

/-- The writes of an acquire: the lease, its deployments and allocations, the
profile it publishes with its approval, and the claims. -/
def commitAcquire (s : Store π δ) (leaseId owner : String) (ttlSeconds : Option Int)
    (o : AcquireOverlay) (allocations : Dict String (List Nat)) (approvedDigest : Option δ)
    (profile : Option π) : Option (Store π δ) := do
  let s ← s.insertLease leaseId owner o.now ttlSeconds (ttlSeconds.map (o.now + ·)) o.now
  let s ← acquireDeployments s o allocations
  let s ← insertClaims (publishCandidate s profile approvedDigest) leaseId o.claims
  -- every acquire bumps the generation, even one that only coalesces
  pure s.bumpDesiredGeneration

/-- The acquire transaction: it commits the previewed decisions as they are, or
nothing. -/
def acquire (s : Store π δ) (leaseId owner : String) (ttlSeconds : Option Int)
    (o : AcquireOverlay) (allocations : Dict String (List Nat)) (approvedDigest : Option δ)
    (profile : Option π) : Except AcquireError (Store π δ) :=
  if s.admissionStateVersion ≠ o.stateVersion then .error .admissionConflict
  else (commitAcquire s leaseId owner ttlSeconds o allocations approvedDigest profile).elim
    (.error .integrity) .ok

/-! ## the other transactions -/

/-- Idle every LIVE deployment of `ids` that no lease protects any more.  The
ids are distinct and `demand` reads no deployment row, so every test of the
loop sees the rows as they were. -/
def idleDeployments (s : Store π δ) (ids : List String) (now : Int) :
    List String × Store π δ :=
  let idled := ids.eraseDups.filter fun gid =>
    (s.getDeployment gid).any (fun d => d.state = .live) && s.demand gid now = 0
  (idled, s.setDeploymentStates idled .idle now)

/-- `found` tells an unknown lease, `alreadyReleased` an idempotent re-release. -/
structure ReleaseResult where
  idledDeploymentIds : List String := []
  found : Bool := true
  alreadyReleased : Bool := false
  deriving DecidableEq, Repr

/-- Mark a lease released and idle any deployment whose demand hits zero. -/
def release (s : Store π δ) (leaseId : String) (now : Int) : ReleaseResult × Store π δ :=
  match s.getLease leaseId with
  | none => ({ found := false }, s)
  | some lease =>
      if lease.state = .released then ({ alreadyReleased := true }, s)
      else
        let (idled, s') :=
          idleDeployments (s.setLeaseStates [leaseId] .released) (s.deploymentIds leaseId) now
        ({ idledDeploymentIds := idled },
          s'.bumpWhen (idled ≠ []))

/-- The IDLE deployments among `ids`: those a renew makes LIVE again. -/
def idleAmong (s : Store π δ) (ids : List String) : List String :=
  ids.filter fun gid => (s.getDeployment gid).any (fun d => d.state = .idle)

/-- Extend an ACTIVE lease's window; its IDLE deployments become LIVE again,
with the given allocations.  Any other lease is left alone. -/
def renew (s : Store π δ) (leaseId : String) (ttlSeconds : Option Int)
    (allocations : Dict String (List Nat)) (now : Int) : Option Lease × Store π δ :=
  match s.getLease leaseId with
  | none => (none, s)
  | some lease =>
      if lease.state ≠ .active then (none, s)
      else
        let s := s.renewLease leaseId ttlSeconds (ttlSeconds.map (now + ·)) now
        let revived := idleAmong s (s.deploymentIds leaseId)
        let s := s.setDeploymentStates revived .live now
        let s := s.setDeploymentAllocations (allocations.filter (fun kv => kv.1 ∈ revived))
        let s := s.bumpWhen (revived ≠ [])
        (s.getLease leaseId, s)

/-- The outcome of the lock-free renew: the lease is `gone`, something must be
admitted first (`slow`), or it was renewed. -/
inductive FastRenew where
  | gone
  | slow
  | renewed (lease : Option Lease)
  deriving DecidableEq

/-- The lock-free renew: TTL only, and only when every claimed deployment is
already LIVE. -/
def renewIfLive (s : Store π δ) (leaseId : String) (ttlSeconds : Option Int) (now : Int) :
    FastRenew × Store π δ :=
  match s.getLease leaseId with
  | none => (.gone, s)
  | some lease =>
      if lease.state ≠ .active then (.gone, s)
      else if (s.deploymentIds leaseId).all
          (fun gid => (s.getDeployment gid).any (fun d => d.state = .live)) then
        let s := s.renewLease leaseId ttlSeconds (ttlSeconds.map (now + ·)) now
        (.renewed (s.getLease leaseId), s)
      else (.slow, s)

structure SweepResult where
  expiredLeaseIds : List String := []
  idledDeploymentIds : List String := []
  deriving DecidableEq, Repr

/-- Materialize TTL expiry and idle what nothing protects any more. -/
def sweep (s : Store π δ) (now : Int) : SweepResult × Store π δ :=
  let expired := (s.activeLeasesPast now).map Lease.id
  let affected := expired.flatMap s.deploymentIds
  let s := s.setLeaseStates expired .expired
  let (idled, s) := idleDeployments s affected now
  (⟨expired, idled⟩, s.bumpWhen (expired ≠ [] ∨ idled ≠ []))

/-- Force IDLE deployments to STOPPED: all of them, or those of a list.  One
that a lease protects is never stopped. -/
def evictIdle (s : Store π δ) (deploymentIds : Option (List String)) (now : Int) :
    List String × Store π δ :=
  let evicted := (s.listDeployments.filter fun g =>
    g.state = .idle ∧ deploymentIds.all (g.id ∈ ·) ∧ s.demand g.id now = 0).map Deployment.id
  let s := s.setDeploymentStates evicted .stopped now
  (evicted, s.bumpWhen (evicted ≠ []))

/-- Forget terminal entries: released and expired leases, stopped deployments. -/
def pruneTerminal (s : Store π δ) : Store π δ :=
  s.prune [.released, .expired] [.stopped]

/-- Commit a LIVE deployment's GPU allocation. -/
def setAllocation (s : Store π δ) (deploymentId : String) (gpus : Option (List Nat)) :
    Store π δ :=
  (s.setDeploymentAllocation deploymentId gpus).bumpAdmissionStateVersion

/-- Leases and deployments as `status` shows them.  With `virtualExpiry`, what a
sweep would record: an ACTIVE lease past its TTL is EXPIRED, and a LIVE
deployment without demand is IDLE. -/
def status (s : Store π δ) (virtualExpiry : Bool) (now : Int) : List Lease × List Deployment :=
  if virtualExpiry then
    (s.listLeases.map fun l =>
        if l.state = .active ∧ ¬ l.isProtecting now then { l with state := .expired } else l,
      s.listDeployments.map fun g =>
        if g.state = .live ∧ s.demand g.id now = 0 then { g with state := .idle } else g)
  else (s.listLeases, s.listDeployments)

end InferStack
