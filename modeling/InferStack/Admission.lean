import InferStack.Backend

/-!
# InferStack.Admission

Deciding an acquire in memory.

* `admissionView` — what a render or a preview desires, and the planner's
  inputs for it: committed allocations are hard, a fresh candidate is required,
  an idle keep-warm resident is optional;
* `preview` — placement and render of a view;
* `admitView` — the decision: the allocations to commit, or the reasons not to.
-/

namespace InferStack

open Kit

variable {π δ φ : Type}

/-! ## what is desired -/

/-- Whether the reconciler keeps a deployment running: LIVE always, IDLE only
under the keep-warm policy. -/
def keepsUp (reclaimDefault : String) (d : Deployment) : Bool :=
  d.state = .live || (d.state = .idle && d.spec.reclaim.getD reclaimDefault = "keep-warm")

/-- The GPUs admission must account for. -/
def gpuUnits (d : Deployment) : Nat := requiredGpuCount d

/-- The rows a view is computed from: the ledger's, under an overlay's. -/
def viewRows (deployments : List Deployment) (overlay : Option AcquireOverlay) :
    Table Deployment Deployment.id :=
  (Table.ofList deployments).putAll (overlay.elim [] fun o => o.deployments.rows)

/-- The deployments an overlay makes LIVE. -/
def freshIds (overlay : Option AcquireOverlay) : List String :=
  overlay.elim [] fun o => o.created.keys ++ o.revived

/-- LIVE and placed, or a LIVE candidate.  A LIVE row without an allocation that
is no candidate is never freshly placed. -/
def isRequired (fresh : List String) (d : Deployment) : Bool :=
  d.state = .live && (d.assignedGpus.isSome || d.id ∈ fresh)

/-- The GPUs an idle keep-warm resident may keep. -/
def optionalHint (reclaimDefault : String) (residency : Option Residency) (d : Deployment) :
    Option (List Nat) :=
  if d.state = .idle ∧ keepsUp reclaimDefault d then residency.bind (·.residentGpus d.id) else none

/-- The desired deployments of a view, with the planner's inputs. -/
def admissionView (B : Backend π δ φ) (deployments : List Deployment)
    (residency : Option Residency) (overlay : Option AcquireOverlay) :
    List Deployment × PlacementInputs :=
  let rows := (viewRows deployments overlay).rows
  let required := rows.filter (isRequired (freshIds overlay))
  let optional := rows.filter fun d => (optionalHint B.reclaimDefault residency d).isSome
  (required ++ optional,
    { requiredIds := required.map Deployment.id
      hard := Table.ofList <| required.filterMap fun d => d.assignedGpus.map fun gpus => (d.id, gpus)
      optionalHints := Table.ofList <| optional.filterMap fun d =>
        (optionalHint B.reclaimDefault residency d).map fun gpus => (d.id, gpus) })

/-! ## placement and render of a view -/

/-- A placed and rendered view. -/
structure Documents (π δ φ : Type) where
  plan : GpuPlan
  rendered : Rendered δ
  input : RenderInput π φ

/-- What a process renders with, besides the ledger. -/
structure RenderSettings (π φ : Type) where
  profile : π
  allowedGpus : Option (List Nat)
  files : φ

/-- The address table a render works on, once a network is migrated. -/
def networkTable (s : Store π δ) : Option (String × Dict String String) :=
  s.networkConfig.map fun subnet => (subnet, s.serviceAddresses)

/-- Place and render a desired set with the given secrets. -/
def renderDocuments (B : Backend π δ φ) (settings : RenderSettings π φ)
    (network : Option (String × Dict String String)) (secrets : Dict String String)
    (managed : ManagedEnv) (desired : List Deployment) (inputs : PlacementInputs) :
    Except Failure (Documents π δ φ) := do
  let desired := desired.map B.enrich
  let plan := planPlacement B.host settings.allowedGpus ∅ (some inputs) desired
  let input : RenderInput π φ :=
    { desired := desired
      assignments := plan.assignments
      profile := settings.profile
      network := network
      secrets := secrets
      env := managed.visible
      files := settings.files }
  let rendered ← B.render input
  pure ⟨plan, rendered, input⟩

/-! ## the decision -/

/-- The warm container's GPUs a revived deployment keeps. -/
def adoptedGpus (residency : Option Residency) (overlay : AcquireOverlay) (d : Deployment) :
    Option (List Nat) :=
  if gpuUnits d = 0 ∨ d.id ∉ overlay.revived then none
  else (residency.bind (·.uniqueUnit d.id)).bind fun c =>
    if c.allGpus ∨ c.gpus = [] then none else some c.gpus

/-- The candidates that need a new allocation. -/
def needsAllocation (residency : Option Residency) (overlay : AcquireOverlay) (d : Deployment) :
    Bool :=
  d.id ∈ freshIds (some overlay) && gpuUnits d ≠ 0 && (adoptedGpus residency overlay d).isNone

/-- A candidate row in the preview: what it adopts counts as committed. -/
def adoptRow (residency : Option Residency) (o : AcquireOverlay) (d : Deployment) : Deployment :=
  (adoptedGpus residency o d).elim d fun gpus => d.withAllocation (some gpus)

@[simp] theorem adoptRow_id (residency : Option Residency) (o : AcquireOverlay)
    (d : Deployment) : (adoptRow residency o d).id = d.id := by
  unfold adoptRow
  cases adoptedGpus residency o d <;> rfl

/-- The overlay a preview is computed from. -/
def previewOverlay (residency : Option Residency) (o : AcquireOverlay) : AcquireOverlay :=
  { o with deployments := o.deployments.map (adoptRow residency o) (adoptRow_id residency o) }

/-- The overlay with the VRAM facts a preview attaches to its rows. -/
def enrichOverlay (B : Backend π δ φ) (o : AcquireOverlay) : AcquireOverlay :=
  { o with created := o.created.map B.enrich B.enrich_id
           deployments := o.deployments.map B.enrich B.enrich_id }

/-- LIVE deployments from before allocations: they have none committed. -/
def unresolvedAllocations (s : Store π δ) (exclude : List String) : List String :=
  (s.listDeployments.filter fun d =>
    d.state = .live && d.assignedGpus.isNone && d.id ∉ exclude && gpuUnits d ≠ 0).map Deployment.id

/-- Who holds the GPUs of a plan, by the leases that are ACTIVE. -/
def gpuHolders (s : Store π δ) (plan : GpuPlan) : List AdmissionReason :=
  let owners := fun gid => ((s.listLeases.filter fun l =>
    l.state = .active ∧ gid ∈ s.deploymentIds l.id).map Lease.owner).eraseDups.insertionSort (· ≤ ·)
  (plan.assignments.held.rows.filter fun (gid, gpus) => gpus ≠ [] ∧ owners gid ≠ []).map
    fun (gid, gpus) => .held gpus gid (owners gid)

/-- Why one claimed deployment cannot be admitted. -/
def refusals (s : Store π δ) (docs : Documents π δ φ) (gid : String) : List AdmissionReason :=
  if gid ∈ unresolvedAllocations s [] then [.preAllocation gid]
  else if gid ∈ docs.plan.degraded then [.gpusGone gid]
  else if docs.plan.assignments.get? gid = none then
    let why := (docs.plan.errors.filter (·.1 = gid)).map fun e => .placement gid e.2
    if why = [] then [.unplaced gid] else why
  else if gid ∈ docs.rendered.unrenderable then
    let why := (docs.rendered.excluded.filter fun e => gid = e.deployment ∨ gid = e.holder).map
      fun e => .nameTaken e.deployment e.service e.holder
    if why = [] then [.unrenderable gid] else why
  else []

/-- The outcome of deciding an acquire. -/
structure Admission (δ : Type) where
  /-- The GPUs to commit for the new and revived deployments. -/
  allocations : Dict String (List Nat) := ∅
  /-- Empty means admissible. -/
  reasons : List AdmissionReason := []
  digest : Option δ := none

/-- Decide an acquire in memory.  Nothing is written. -/
def admitView (B : Backend π δ φ) (s : Store π δ) (settings : RenderSettings π φ)
    (secrets : Dict String String) (managed : ManagedEnv) (o : AcquireOverlay)
    (residency : Option Residency) : Except Failure (Admission δ) :=
  if residency.isNone then pure { reasons := [.unreadable] }
  else
    let unresolved := unresolvedAllocations s o.deployments.keys
    if o.deployments.rows.any (needsAllocation residency o) ∧ unresolved ≠ [] then
      pure { reasons := [.unallocated (unresolved.take 3)] }
    else do
      let (desired, inputs) :=
        admissionView B s.listDeployments residency (some (previewOverlay residency o))
      let docs ← renderDocuments B settings (networkTable s) secrets managed desired inputs
      let reasons := o.deployments.keys.flatMap (refusals s docs)
      let allocations := Table.ofList <|
        (o.deployments.keys.filter (· ∈ freshIds (some o))).map fun gid =>
          (gid, (docs.plan.assignments.get? gid).getD [])
      pure
        { allocations := allocations
          reasons := if reasons = [] then [] else reasons ++ gpuHolders s docs.plan
          digest := if reasons = [] then some docs.rendered.digest else none }

end InferStack
