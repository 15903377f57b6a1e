import InferStack.Admission
import InferStack.EnvFile
import InferStack.Kit.Proc

/-!
# InferStack.Controller

The lease controller: every operation as a program of atomic steps.

A step is one SQLite transaction, one read under the lock, one write of files,
or one call of the backend.  All operations hold the host-wide lock, so one
program runs at a time; only the lock-free renew comes between its steps.  A
queued acquire sleeps outside the lock and tries again: each try is one run of
`acquireByAdmission`, and giving up on readiness is a run of `releaseLease`.

Every desired-state mutation follows one scheme: mark the publication pending,
mutate the ledger, render, apply if the marker requests it, and clear the marker
only after the whole apply succeeded.
-/

namespace InferStack

open Kit

/-! ## the world -/

/-- What the ledger desires of the runtime: the deployments kept running, with
their allocations, and the published profile. -/
structure Desired (π : Type) where
  deployments : List Deployment
  profile : Option π
  deriving DecidableEq

/-- The profile a process renders from, and where it comes from. -/
structure ProfileInUse (π : Type) where
  /-- This invocation's settings, with no published endpoints. -/
  settings : π
  /-- The profile the backend renders from. -/
  rendersFrom : π
  /-- The stored profile the backend was last switched to. -/
  applied : Option π := none
  /-- A first profile, rendered from but not yet written. -/
  fresh : Option π := none
  profileError : Bool := false

/-- What a process keeps in memory between its operations. -/
structure Process (π δ : Type) extends ProfileInUse π where
  /-- The profile this invocation resolves to: its settings and its catalogs. -/
  invocation : π
  staged : Dict String String := ∅
  allowedGpus : Option (List Nat) := none
  explicitApply : Bool := false
  applyBegan : Bool := false
  /-- The digest of the last render. -/
  lastDigest : Option δ := none

/-- What has happened; no operation reads it. -/
structure History (π : Type) where
  /-- What the files on disk were rendered from. -/
  rendered : Option (Desired π) := none
  /-- No desired-state change since the last render was taken. -/
  current : Bool := false
  /-- The last render has been applied, completely. -/
  complete : Bool := false
  /-- What the last complete apply brought up. -/
  applied : Option (Desired π) := none
  /-- Each profile that files were written or applied with, and the stored one
  at that time. -/
  served : List (Option π × Option π) := []
  /-- How often the gateway's container was removed or recreated. -/
  recreated : Nat := 0
  deriving DecidableEq

/-- The ledger, the files beside it, the process that holds the lock. -/
structure World (π δ φ : Type) where
  store : Store π δ
  env : Dict String String
  files : φ
  process : Process π δ
  history : History π := {}
  /-- The containers an admission last read; no operation reads this back. -/
  observed : Option Residency := none

/-- How far an apply got. -/
inductive ApplyOutcome where
  | complete
  /-- It did not fully take effect; `runtime` tells whether the runtime was
  reached at all. -/
  | incomplete (runtime : Bool)
  | raised (failure : Failure)
  deriving DecidableEq

theorem plainSecret_ne : "s" ≠ "" := by decide

/-- What a step may ask of its environment. -/
structure Input where
  now : Int := 0
  /-- The runtime's containers, `none` when it does not answer. -/
  residency : Option Residency := none
  leaseId : String := ""
  newId : Nat → String := fun _ => ""
  secret : String → Secret := fun _ => ⟨"s", plainSecret_ne⟩
  /-- Whether the operator approves the diff. -/
  approve : Bool := true
  /-- Whether the runtime settled after an interrupted apply. -/
  settled : Bool := true
  apply : ApplyOutcome := .complete
  /-- Whether the apply removed or recreated the gateway's container. -/
  recreates : Bool := false
  /-- An error the called code raises. -/
  fault : Option Failure := none
  /-- Whether the ledger refuses to write the marker of a desired-state change. -/
  markFails : Bool := false
  /-- Whether it refuses to store a profile while the stack is quiescent. -/
  profileFails : Bool := false
  /-- Whether it refuses the transaction of an acquire, or of an access. -/
  commitFails : Bool := false

/-- A controller program. -/
abbrev Ctl (π δ φ α : Type) := Proc (World π δ φ) Input Failure α

section Controller

variable {π δ φ : Type} (B : Backend π δ φ)

/-- The desired state a ledger records. -/
def desiredOf (s : Store π δ) : Desired π :=
  ⟨s.deployments.rows.filter (keepsUp B.reclaimDefault), s.profile⟩

variable [DecidableEq π] [DecidableEq δ]

namespace World

/-- The world with another ledger; a desired-state change outdates the render. -/
def withStore (w : World π δ φ) (s : Store π δ) : World π δ φ :=
  { w with
    store := s
    history := { w.history with
      current := w.history.current && desiredOf B s = desiredOf B w.store } }

/-- The managed `.env` as this process has it. -/
def managed (w : World π δ φ) : ManagedEnv := ⟨w.env, w.process.staged⟩

/-- What this process renders with. -/
def settings (w : World π δ φ) : RenderSettings π φ :=
  ⟨w.process.rendersFrom, w.process.allowedGpus, w.files⟩

end World

/-! ## steps -/

/-- A transaction: it commits with a result, or rolls back with an error. -/
def tx {α : Type} (f : Input → Store π δ → Except Failure (α × Store π δ)) : Ctl π δ φ α :=
  .act fun i w =>
    match f i w.store with
    | .ok (a, s) => (.ok a, w.withStore B s)
    | .error e => (.error e, w)

/-- A transaction the ledger may refuse to write. -/
def refusedIf {α : Type} (fails : Bool) (result : α) : Except Failure α :=
  if fails then .error .failed else .ok result

theorem refusedIf_ok {α : Type} {fails : Bool} {a b : α} (h : refusedIf fails a = .ok b) :
    a = b := by
  cases fails with
  | true => contradiction
  | false => exact Except.ok.inj h

theorem refusedIf_error {α : Type} {fails : Bool} {a : α} {e : Failure}
    (h : refusedIf fails a = .error e) : fails = true := by
  cases fails with
  | true => rfl
  | false => contradiction

/-- A read under the lock. -/
def read {α : Type} (f : Input → World π δ φ → Except Failure α) : Ctl π δ φ α :=
  .act fun i w => (f i w, w)

/-- A write to the process's own memory. -/
def remembering (f : Process π δ → Process π δ) : Ctl π δ φ Unit :=
  .act fun _ w => (.ok (), { w with process := f w.process })

/-- A part of a program that runs only under a condition. -/
def onlyIf (c : Prop) [Decidable c] (p : Ctl π δ φ Unit) : Ctl π δ φ Unit :=
  if c then p else pure ()

/-- Raise under a condition. -/
def raiseIf (c : Prop) [Decidable c] (e : Failure) : Ctl π δ φ Unit := onlyIf c (throw e)

/-- Undo something, and raise what made that necessary. -/
def undoing {α : Type} (undo : Ctl π δ φ Unit) (e : Failure) : Ctl π δ φ α := do
  undo
  throw e

/-! ## the profile in use -/

/-- The world once this process renders from the stored profile, or, before the
first one, from this invocation's settings. -/
def syncStep (w : World π δ φ) : Except Failure Unit × World π δ φ :=
  let stored := w.store.profile.getD w.process.settings
  let p := { w.process with
    fresh := if w.store.profile = none then some stored else w.process.fresh }
  if p.profileError then (.error .profileMismatch, w)
  else if p.applied = some stored then (.ok (), { w with process := p })
  else if B.compatible stored then
    (.ok (), { w with process := { p with rendersFrom := stored, applied := some stored } })
  else (.error .profileMismatch, { w with process := p })

def syncProfile : Ctl π δ φ Unit := .act fun _ w => syncStep B w

/-- The first snapshot to commit with the next marker, if the ledger has none. -/
def takeFreshProfile : Ctl π δ φ (Option π) :=
  .act fun _ w =>
    (.ok (if w.store.profile = none then w.process.fresh else none),
      { w with process := { w.process with fresh := none } })

/-- Render from `profile` from now on. -/
def useProfile (profile : π) : Ctl π δ φ Unit :=
  .act fun _ w =>
    if B.compatible profile then
      (.ok (), { w with process := { w.process with rendersFrom := profile } })
    else (.error .profileMismatch, w)

def useCandidate (candidate : Option π) : Ctl π δ φ Unit :=
  match candidate with
  | none => pure ()
  | some profile => useProfile B profile

/-- The candidate is the stored profile now. -/
def adoptedCandidate (profile : π) : Ctl π δ φ Unit :=
  remembering fun p => { p with profileError := false, applied := some profile }

/-- Back to the stored profile (or the fresh one) after a refused candidate. -/
def restoreStoredProfile (stored : Option π) : Ctl π δ φ Unit := do
  let fresh ← read fun _ w => .ok w.process.fresh
  match stored.or fresh with
  | none => pure ()
  | some profile => do
      useProfile B profile
      remembering fun p => { p with applied := some profile }

/-- Undo a candidate's use, if there was one. -/
def restoreAfter (candidate stored : Option π) : Ctl π δ φ Unit :=
  match candidate with
  | none => pure ()
  | some _ => restoreStoredProfile B stored

/-! ## the publication marker -/

/-- Record that desired state is about to change. -/
def markPending (apply : Bool) : Ctl π δ φ Unit := do
  syncProfile B
  let fresh ← takeFreshProfile
  tx B fun i s => refusedIf i.markFails ((), s.markPublicationPending apply false none fresh)

/-! ## rendering -/

/-- The runtime's containers, or the failure to read them. -/
def readResidency : Ctl π δ φ Residency :=
  read fun i _ =>
    match i.residency with
    | some r => .ok r
    | none => .error .residencyUnknown

/-- The runtime's containers, if they can be read. -/
def observe : Ctl π δ φ (Option Residency) :=
  .act fun i w => (.ok i.residency, { w with observed := i.residency })

def sweepLedger : Ctl π δ φ SweepResult := tx B fun i s => .ok (sweep s i.now)

/-- The allocation a LIVE deployment from before allocations adopts. -/
def backfillGpus (residency : Residency) (d : Deployment) : Option (List Nat) :=
  if d.state = .live ∧ d.assignedGpus = none then
    if gpuUnits d = 0 then some []
    else (residency.uniqueUnit d.id).bind fun c =>
      if c.allGpus ∨ c.gpus = [] then none else some c.gpus
  else none

/-- Adopt allocations for LIVE deployments that predate them. -/
def backfillAllocations (residency : Residency) : List Deployment → Ctl π δ φ Unit
  | [] => pure ()
  | d :: ds =>
      match backfillGpus residency d with
      | none => backfillAllocations residency ds
      | some gpus => do
          tx B fun _ s => .ok ((), setAllocation s d.id (some gpus))
          backfillAllocations residency ds

/-- The managed secrets of a render: written, or only staged by a preview. -/
def provideSecrets (staging : Bool) : Ctl π δ φ (Dict String String) :=
  .act fun i w =>
    let r := w.managed.secrets staging (B.secretNames w.process.rendersFrom) i.secret
    (.ok r.1, { w with env := r.2.env, process := { w.process with staged := r.2.staged } })

/-- Place and render what the ledger desires, and ask for approval. -/
def renderDesired (residency : Residency) (secrets : Dict String String) :
    Ctl π δ φ (Documents π δ φ × Desired π) :=
  .act fun i w =>
    let (desired, inputs) := admissionView B w.store.listDeployments (some residency) none
    match i.fault, renderDocuments B w.settings (networkTable w.store) secrets w.managed
        desired inputs with
    | some e, _ => (.error e, w)
    | none, .error e => (.error e, w)
    | none, .ok docs =>
        (if i.approve then .ok (docs, ⟨(desiredOf B w.store).deployments, some w.settings.profile⟩)
          else .error .convergeAborted,
          { w with
            process := { w.process with lastDigest := some docs.rendered.digest }
            history := { w.history with current := true, complete := false } })

/-- Persist new service addresses; an address given to a service stays. -/
def keepAddresses (docs : Documents π δ φ) : Ctl π δ φ Unit :=
  match docs.rendered.addresses with
  | none => pure ()
  | some table => tx B fun _ s =>
      match s.addServiceAddresses table with
      | none => .error .failed
      | some s' => .ok ((), s')

/-- Write the rendered files. -/
def writeFiles (docs : Documents π δ φ) (desired : Desired π) : Ctl π δ φ Unit :=
  .act fun _ w =>
    (.ok (), { w with
      files := B.remember docs.input
      history := { w.history with
        rendered := some desired
        served := w.history.served ++ [(desired.profile, w.store.profile)] } })

/-- What a render and its apply report. -/
structure Reconciled where
  plan : GpuPlan := {}
  unplaced : List String := []
  applied : Bool := false
  runtimeApplied : Bool := false
  publicationPending : Bool := false

/-- The record of a render. -/
def Documents.report (docs : Documents π δ φ) : Reconciled where
  plan := docs.plan
  unplaced := (docs.input.desired.map Deployment.id).filter
      (fun g => docs.plan.assignments.get? g = none ∧ g ∉ docs.plan.displaced) ++
    docs.rendered.unrenderable

/-- What a render reads of the runtime, and adopts from it. -/
def gatherRender : Ctl π δ φ Residency := do
  let _ ← sweepLedger B
  let residency ← readResidency
  let deployments ← read fun _ w => .ok w.store.listDeployments
  backfillAllocations B residency deployments
  pure residency

/-- What precedes placement in a render. -/
def prepareRender : Ctl π δ φ (Residency × Dict String String) := do
  let residency ← gatherRender B
  let secrets ← provideSecrets B false
  pure (residency, secrets)

/-- Render the desired state to disk, without applying it. -/
def render : Ctl π δ φ Reconciled := do
  let prepared ← prepareRender B
  let rendered ← renderDesired B prepared.1 prepared.2
  keepAddresses B rendered.1
  writeFiles B rendered.1 rendered.2
  pure rendered.1.report

/-! ## applying -/

/-- The digest to apply under: the approved one if this render has it.  An
explicit apply approves this render instead. -/
def approveRender (approved : Option δ) : Ctl π δ φ (Option δ) :=
  match approved with
  | none => pure none
  | some digest => do
      let p ← read fun _ w => .ok w.process
      if p.lastDigest = some digest then pure approved
      else if !p.explicitApply then throw .profileMismatch
      else
        match p.lastDigest with
        | none => pure none
        | some digest' => do
            tx B fun _ s => .ok ((), s.setApprovedDigest (some digest'))
            pure (some digest')

/-- Wait for an interrupted apply to stop moving the runtime. -/
def waitForSettledRuntime : Ctl π δ φ Unit :=
  read fun i _ => if i.settled then .ok () else .error .runtimeUnsettled

/-- List what the runtime realizes. -/
def observeRuntime : Ctl π δ φ Unit := read fun i _ => i.fault.elim (.ok ()) .error

/-- The world once an apply of the rendered files has begun. -/
def World.applying (w : World π δ φ) (i : Input) : World π δ φ :=
  { w with
    process := { w.process with applyBegan := true }
    history := { w.history with
      served := w.history.served ++ [(some w.process.rendersFrom, w.store.profile)]
      recreated := w.history.recreated + i.recreates.toNat } }

/-- Run the backend's apply on the rendered files; `none` is a complete one. -/
def runApply : Ctl π δ φ (Option Bool) :=
  .act fun i w =>
    let w' := w.applying i
    match i.apply with
    | .complete => (.ok none, { w' with
        history := { w'.history with applied := w.history.rendered, complete := true } })
    | .incomplete runtime => (.ok (some runtime), w')
    | .raised e => (.error e, w')

/-- A failed apply may go on in the daemon: the next one must first wait, unless
this one was refused before it started anything. -/
def applyRaised (e : Failure) : Ctl π δ φ (Option Bool) := do
  tx B fun _ s => .ok ((), s.markPublicationPending true (e ≠ .applyAborted) none none)
  throw e

/-- Withdraw the approval of a render that is not pending any more. -/
def clearApprovedDigest : Ctl π δ φ Unit := tx B fun _ s => .ok ((), s.setApprovedDigest none)

/-- Clear the marker an apply has served. -/
def clearMarker (approved : Option δ) (version : Nat) : Ctl π δ φ Unit := do
  onlyIf approved.isSome (clearApprovedDigest B)
  tx B fun _ s => .ok ((), s.clearPublicationPending version)

/-- What an apply leaves: an incomplete one stays pending. -/
def finishApply (rec : Reconciled) (approved : Option δ) (version : Nat)
    (outcome : Option Bool) : Ctl π δ φ Reconciled :=
  match outcome with
  | some runtime =>
      pure { rec with applied := true, runtimeApplied := runtime, publicationPending := true }
  | none => do
      clearMarker B approved version
      pure { rec with applied := true, runtimeApplied := true, publicationPending := false }

/-- Apply the last render under a marker that requests it. -/
def applyMarked (rec : Reconciled) (marker : Marker δ) : Ctl π δ φ Reconciled := do
  let approved ← approveRender B marker.approvedDigest
  onlyIf marker.interrupted waitForSettledRuntime
  observeRuntime
  let outcome ← runApply.handle (applyRaised B)
  observeRuntime
  finishApply B rec approved marker.version outcome

/-- Apply the last render if the marker requests it; clear on success. -/
def applyPending (rec : Reconciled) : Ctl π δ φ Reconciled := do
  let marker ← read fun _ w => .ok w.store.publicationPending
  match marker with
  | none => pure rec
  | some marker =>
      if marker.applyRequested then applyMarked B rec marker
      else pure { rec with publicationPending := true }

/-- Render, then apply per the marker. -/
def publish : Ctl π δ φ Reconciled := do applyPending B (← render B)

/-! ## operations without an admission -/

/-- Render the ledger's desired state, and bring it up if `apply`. -/
def reconcile (apply : Bool) : Ctl π δ φ Reconciled := do
  markPending B apply
  if apply then publish B
  else return { ← render B with publicationPending := true }

def releaseTx (leaseId : String) : Ctl π δ φ ReleaseResult :=
  tx B fun i s => .ok (release s leaseId i.now)

/-- Release a lease and converge. -/
def releaseLease (leaseId : String) : Ctl π δ φ Reconciled := do
  markPending B true
  let _ ← releaseTx B leaseId
  publish B

/-- Release leases one by one; the deployments they idled. -/
def releaseEach : List String → Ctl π δ φ (List String)
  | [] => pure []
  | l :: ls => do
      let r ← releaseTx B l
      return r.idledDeploymentIds ++ (← releaseEach ls)

/-- Evict idle deployments: all of them, or those of a list. -/
def evictIdleDeployments (ids : Option (List String)) : Ctl π δ φ Unit :=
  tx B fun i s => .ok ((), (evictIdle s ids i.now).2)

/-- Release several leases (`none`: every ACTIVE one) in one publication. -/
def releaseLeases (leaseIds : Option (List String)) (evictIdled : Bool) : Ctl π δ φ Unit := do
  match leaseIds with
  | none => do
      markPending B true
      let _ ← sweepLedger B
      let ids ← read fun _ w =>
        .ok ((w.store.listLeases.filter (·.state = .active)).map Lease.id)
      let _ ← releaseEach B ids
      onlyIf evictIdled (evictIdleDeployments B none)
      let _ ← publish B
  | some requested => do
      let ids ← read fun _ w =>
        .ok (requested.eraseDups.filter fun l => (w.store.getLease l).isSome)
      onlyIf (ids ≠ []) do
        markPending B true
        let idled ← releaseEach B ids
        onlyIf (evictIdled ∧ idled ≠ []) (evictIdleDeployments B (some idled.eraseDups))
        let _ ← publish B

/-- Force-evict idle deployments now. -/
def evict (ids : Option (List String)) : Ctl π δ φ Reconciled := do
  markPending B true
  let _ ← sweepLedger B
  evictIdleDeployments B ids
  publish B

/-- Reclaim expired leases and converge. -/
def gc (evictAll : Bool) : Ctl π δ φ Reconciled := do
  markPending B true
  let _ ← sweepLedger B
  onlyIf evictAll (evictIdleDeployments B none)
  publish B

/-- Forget terminal rows: none of them is desired. -/
def prune : Ctl π δ φ Unit := tx B fun _ s => .ok ((), pruneTerminal s)

/-! ## previews -/

/-- Place and render the ledger as a sweep would leave it, writing nothing. -/
def previewLedger (residency : Option Residency)
    (network : Store π δ → Option (String × Dict String String)) : Ctl π δ φ δ := do
  let secrets ← provideSecrets B true
  read fun i w =>
    let (desired, inputs) := admissionView B (status w.store true i.now).2 residency none
    match i.fault, renderDocuments B w.settings (network w.store) secrets w.managed
        desired inputs with
    | some e, _ => .error e
    | none, .error e => .error e
    | none, .ok docs => if i.approve then .ok docs.rendered.digest else .error .convergeAborted

/-- Refuse while any lease is ACTIVE. -/
def requireNoLease (force : Bool) : Ctl π δ φ Unit :=
  read fun i w =>
    if force ∨ ∀ l ∈ (status w.store true i.now).1, l.state ≠ .active then .ok ()
    else .error .profileMismatch

/-- Move the project to stable addresses on `subnet`. -/
def networkMigrate (subnet : String) (force : Bool) : Ctl π δ φ Reconciled := do
  requireNoLease force
  -- a subnet that overlaps another network is refused before any write
  read fun i _ => i.fault.elim (.ok ()) .error
  let reset := fun s : Store π δ => s.networkConfig.any (· ≠ subnet)
  syncProfile B
  let residency ← readResidency
  let digest ← previewLedger B (some residency) fun s =>
    some (subnet, if reset s then ∅ else s.serviceAddresses)
  let fresh ← takeFreshProfile
  tx B fun _ s => .ok ((), s.migrateNetwork subnet (reset s) (some digest) fresh)
  publish B

/-- Replace values of the managed `.env`. -/
def writeEnv (f : Dict String String → Dict String String) : Ctl π δ φ Unit :=
  .act fun _ w => (.ok (), { w with env := f w.env })

/-- The gateway's key, and the older one that its stored credentials stay
encrypted with. -/
def apiKeyEnv : String := "LITELLM_MASTER_KEY"
def saltKeyEnv : String := "LITELLM_SALT_KEY"

/-- The managed `.env` with another master key.  The first time it changes, the
old one is pinned as the salt. -/
def setMasterKey (env : Dict String String) (key : String) : Dict String String :=
  let old := strip ((env.get? apiKeyEnv).getD "")
  let env' := env.set apiKeyEnv key
  if old ≠ "" ∧ old ≠ key ∧ strip ((env.get? saltKeyEnv).getD "") = "" then
    env'.set saltKeyEnv old
  else env'

/-- A generated master key. -/
def Input.masterKey (i : Input) : String := "sk-" ++ (i.secret apiKeyEnv).val

/-- What a rotation replaces in the managed `.env`. -/
structure ReplacedKeys where
  apiKey : Option String
  saltKey : Option String

/-- Write a fresh master key; the values it replaced. -/
def rotateMasterKey : Ctl π δ φ ReplacedKeys :=
  .act fun i w =>
    (.ok ⟨w.env.get? apiKeyEnv, w.env.get? saltKeyEnv⟩,
      { w with env := setMasterKey w.env i.masterKey })

/-- A value put back, or removed again. -/
def putBack (env : Dict String String) (name : String) (value : Option String) :
    Dict String String :=
  match value with
  | some v => env.set name v
  | none => env.filter (·.1 ≠ name)

/-- Put back what a rotation replaced. -/
def restoreEnv (replaced : ReplacedKeys) : Ctl π δ φ Unit :=
  writeEnv fun env => putBack (putBack env apiKeyEnv replaced.apiKey) saltKeyEnv replaced.saltKey

/-- A failed rotation whose apply never began keeps the old key. -/
def undoRotation (replaced : ReplacedKeys) (e : Failure) : Ctl π δ φ Reconciled := do
  let began ← read fun _ w => .ok w.process.applyBegan
  onlyIf (!began) (restoreEnv replaced)
  throw e

/-- Replace the gateway's master key and publish. -/
def rotateGatewayKey (force : Bool) : Ctl π δ φ Reconciled := do
  requireNoLease force
  markPending B true
  let replaced ← rotateMasterKey
  remembering fun p => { p with applyBegan := false }
  let rec ← (publish B).handle (undoRotation replaced)
  -- an apply that did not reach the runtime recreated nothing either
  onlyIf (rec.applied ∧ ¬ rec.runtimeApplied) (undoing (restoreEnv replaced) .profileMismatch)
  pure rec

/-- Replace the published union, under the marker. -/
def storeCatalogs (profile : Option π) : Ctl π δ φ Unit :=
  match profile with
  | none => pure ()
  | some profile => do
      tx B fun _ s => .ok ((), s.writeProfile profile)
      adoptedCandidate profile
      useProfile B profile

/-- A change of the published catalogs and of the route registry, with the
profile to store if it is another one.  It leaves the other settings of a
profile alone, and with them the kind of its backend. -/
structure CatalogChange where
  run : Input → World π δ φ → Except Failure (Option π × φ)
  compatible : ∀ i w p files, run i w = .ok (some p, files) →
    (∀ q, w.store.profile = some q → B.compatible q) → B.compatible p

/-- Make a change: of the files beside the ledger, and of the stored profile. -/
def changeCatalogs (change : CatalogChange B) : Ctl π δ φ Unit := do
  let profile ← .act fun i w =>
    match change.run i w with
    | .ok (profile, files) => (.ok profile, { w with files := files })
    | .error e => (.error e, w)
  storeCatalogs B profile

/-- Check, set the marker, and change what a render reads outside the ledger
(the published catalogs and the route registry). -/
def recordChange (preflight : Input → World π δ φ → Except Failure Unit)
    (change : CatalogChange B) : Ctl π δ φ Unit := do
  read preflight
  markPending B true
  changeCatalogs B change

/-- Change what a render reads outside the ledger, and publish. -/
def publishChange (preflight : Input → World π δ φ → Except Failure Unit)
    (change : CatalogChange B) : Ctl π δ φ Reconciled := do
  recordChange B preflight change
  publish B

/-- Replace the published profile while the stack is quiescent. -/
def publishProfile (profile : π) : Ctl π δ φ Reconciled := do
  requireNoLease false
  let residency ← readResidency
  read fun _ _ =>
    if residency.containers.rows.all (·.deploymentId = "") then .ok () else .error .profileMismatch
  let previous ← read fun _ w => .ok w.process.applied
  useProfile B profile
  let digest ← (previewLedger B (some residency) networkTable).handle
    (undoing (useCandidate B previous))
  tx B fun i s => refusedIf i.profileFails ((), s.publishProfile profile (some digest))
  adoptedCandidate profile
  remembering fun p => { p with invocation := profile, settings := B.settingsOnly profile }
  publish B

/-- How this invocation would advance the published profile. -/
def acquireProfileCandidate (residency : Option Residency) : Ctl π δ φ (Option π) :=
  read fun i w => B.acquireProfile w.store residency w.process.invocation i.now

/-- Publish the invocation's endpoint definitions with no lease. -/
def publishEndpoints : Ctl π δ φ Reconciled := do
  syncProfile B
  let residency ← observe
  let candidate ← acquireProfileCandidate B residency
  match candidate with
  | none => do
      markPending B true
      publish B
  | some profile => do
      let stored ← read fun _ w => .ok w.store.profile
      useProfile B profile
      let digest ← (previewLedger B residency networkTable).handle
        (undoing (restoreStoredProfile B stored))
      (tx B fun i s => refusedIf i.commitFails ((), s.publishProfile profile (some digest))).handle
        (undoing (restoreStoredProfile B stored))
      remembering fun p => { p with fresh := none }
      adoptedCandidate profile
      publish B

/-- Render and apply unconditionally; the explicit approval of a render that
differs from an approved one. -/
def applyNow : Ctl π δ φ Reconciled := do
  remembering fun p => { p with explicitApply := true }
  let profile ← read fun _ w => .ok w.store.profile
  let implicitAgain : Ctl π δ φ Unit := remembering fun p => { p with explicitApply := false }
  let rec ← (if profile = none then publishEndpoints B else reconcile B true).handle
    (undoing implicitAgain)
  implicitAgain
  pure rec

/-! ## acquire -/

/-- Decide an overlay in memory, and take the operator's approval if it is
admissible. -/
def admitOverlay (overlay : AcquireOverlay) (residency : Option Residency) :
    Ctl π δ φ (Admission δ) := do
  let secrets ← provideSecrets B true
  let admission ← read fun _ w =>
    admitView B w.store w.settings secrets w.managed overlay residency
  onlyIf (admission.reasons = []) <|
    read fun i _ => if i.approve then .ok () else .error .convergeAborted
  pure admission

/-- Preview an acquire: validation, the plan, and its admission. -/
def previewAcquire (requests : List EndpointRequest) (residency : Option Residency) :
    Ctl π δ φ (AcquireOverlay × Admission δ) := do
  read fun _ w =>
    if B.validateRequests w.process.rendersFrom requests then .ok () else .error .profileMismatch
  let overlay ← read fun i w =>
    .ok (planAcquire w.store requests (fun g => residency.any (·.isResident g)) i.now i.newId)
  let admission ← admitOverlay B overlay residency
  pure (overlay, admission)

/-- Which of the deployments definitely have no container at all. -/
def neverRan (ids : List String) : Ctl π δ φ (List String) :=
  read fun i _ => .ok <|
    match i.residency with
    | none => []
    | some r => ids.filter fun g => (r.units g).isEmpty

/-- Whether `except Exception` catches a failure. -/
def Failure.isException (e : Failure) : Bool := e ≠ .interrupt

/-- Evict what a release idled and never came up. -/
def evictNeverRan (ids : List String) : Ctl π δ φ Unit :=
  onlyIf (ids ≠ []) do
    let never ← neverRan ids
    onlyIf (never ≠ []) (evictIdleDeployments B (some never))

/-- Render, and apply if asked to. -/
def renderAndApply (apply : Bool) : Ctl π δ φ Unit := do
  let rec ← render B
  onlyIf apply do let _ ← applyPending B rec

/-- A publication whose failure is only logged. -/
def publishBestEffort (apply : Bool) : Ctl π δ φ Unit :=
  (renderAndApply B apply).handle fun e => if e.isException then pure () else throw e

/-- Roll a failed acquire back and publish the result.  What follows the ledger
change is best-effort: the original failure must surface. -/
def rollbackAcquire (leaseId : String) (apply : Bool) : Ctl π δ φ Unit := do
  markPending B apply
  -- the approved admission is compensated away
  clearApprovedDigest B
  let rel ← releaseTx B leaseId
  evictNeverRan B rel.idledDeploymentIds
  publishBestEffort B apply

/-- Apply a placed acquire's render; if that raises, the lease is released. -/
def applyAdmitted (rec : Reconciled) (leaseId : String) (apply : Bool) : Ctl π δ φ Reconciled :=
  if apply then (applyPending B rec).handle (undoing (rollbackAcquire B leaseId false))
  else pure { rec with publicationPending := true }

/-- A committed acquire. -/
structure AcquireResult where
  leaseId : String
  deploymentIds : List String

/-- The acquire's transaction, with what its preview decided. -/
def commitTx (owner : String) (ttlSeconds : Option Int) (overlay : AcquireOverlay)
    (admission : Admission δ) (apply : Bool) (candidate : Option π) (i : Input) (s : Store π δ) :
    Except Failure (AcquireResult × Store π δ) :=
  if i.commitFails then .error .failed
  else
    -- nothing is applied for a staged acquire, so there is no approval to guard
    match acquire s i.leaseId owner ttlSeconds (enrichOverlay B overlay) admission.allocations
        (if apply then admission.digest else none) candidate with
    | .ok s' => .ok (⟨i.leaseId, overlay.deployments.keys⟩, s')
    | .error .admissionConflict => .error .admissionConflict
    | .error .integrity => .error .failed

omit [DecidableEq π] [DecidableEq δ] in
/-- What an acquire that committed has written. -/
theorem commitTx_ok {owner : String} {ttl : Option Int} {o : AcquireOverlay} {a : Admission δ}
    {apply : Bool} {candidate : Option π} {i : Input} {s s' : Store π δ} {r : AcquireResult}
    (h : commitTx B owner ttl o a apply candidate i s = .ok (r, s')) :
    r = ⟨i.leaseId, o.deployments.keys⟩ ∧
      acquire s i.leaseId owner ttl (enrichOverlay B o) a.allocations
        (if apply then a.digest else none) candidate = .ok s' := by
  unfold commitTx at h
  split at h
  · contradiction
  · split at h
    · rename_i s'' hacq
      obtain ⟨rfl, rfl⟩ := Prod.mk.inj (Except.ok.inj h)
      exact ⟨rfl, hacq⟩
    · contradiction
    · contradiction

def commitAdmitted (owner : String) (ttlSeconds : Option Int) (overlay : AcquireOverlay)
    (admission : Admission δ) (apply : Bool) (candidate : Option π) :
    Ctl π δ φ AcquireResult :=
  tx B (commitTx B owner ttlSeconds overlay admission apply candidate)

/-- A render that fails after the commit takes the lease back. -/
def renderRaised (leaseId : String) (apply : Bool) (e : Failure) : Ctl π δ φ Reconciled :=
  undoing (rollbackAcquire B leaseId (if e = .convergeAborted then apply else false)) e

/-- Publish a committed acquire, or roll it back. -/
def publishAdmitted (result : AcquireResult) (apply : Bool) : Ctl π δ φ Reconciled := do
  let rec ← (render B).handle (renderRaised B result.leaseId apply)
  let unplaced := result.deploymentIds.filter (· ∈ rec.unplaced)
  if unplaced = [] then applyAdmitted B rec result.leaseId apply
  else
    -- preview and render disagree, which must never be silent
    undoing (rollbackAcquire B result.leaseId apply) (.placement (unplaced.map .unplaced))

/-- TTL expiry is a desired-state change: sweep it and publish the sweep. -/
def maintain : Ctl π δ φ Unit := do
  let lapsed ← read fun i w => .ok <| w.store.listLeases.any fun l =>
    l.state = .active && !l.isProtecting i.now
  onlyIf lapsed do
    markPending B true
    let _ ← sweepLedger B
    let _ ← publish B

/-- The part of an acquire that decides: it writes nothing. -/
def decideAcquire (requests : List EndpointRequest) (stored : Option π) :
    Ctl π δ φ (Option π × AcquireOverlay × Admission δ) := do
  let residency ← observe
  let candidate ← acquireProfileCandidate B residency
  useCandidate B candidate
  let decided ← (previewAcquire B requests residency).handle
    (undoing (restoreAfter B candidate stored))
  onlyIf (decided.2.reasons ≠ []) <|
    undoing (restoreAfter B candidate stored) (.placement decided.2.reasons)
  pure (candidate, decided)

/-- A commit that fails writes nothing; after a conflict the caller tries again. -/
def commitRaised (candidate : Option π) (e : Failure) : Ctl π δ φ AcquireResult := do
  onlyIf (e ≠ .admissionConflict) do
    let profile ← read fun _ w => .ok w.store.profile
    restoreAfter B candidate profile
  throw e

/-- The candidate committed with the lease is the stored profile now. -/
def adoptCandidate (candidate : Option π) : Ctl π δ φ Unit :=
  match candidate with
  | none => pure ()
  | some profile => adoptedCandidate profile

/-- The part of an acquire that commits what was decided, and publishes it. -/
def commitAcquireProgram (owner : String) (ttlSeconds : Option Int) (apply : Bool)
    (candidate : Option π) (overlay : AcquireOverlay) (admission : Admission δ) :
    Ctl π δ φ Reconciled := do
  markPending B apply
  let result ← (commitAdmitted B owner ttlSeconds overlay admission apply candidate).handle
    (commitRaised B candidate)
  adoptCandidate candidate
  publishAdmitted B result apply

/-- One attempt of an acquire: preview in memory, commit only if admissible. -/
def acquireByAdmission (owner : String) (requests : List EndpointRequest)
    (ttlSeconds : Option Int) (apply : Bool) : Ctl π δ φ Reconciled := do
  syncProfile B
  let stored ← read fun _ w => .ok w.store.profile
  maintain B
  let decided ← decideAcquire B requests stored
  commitAcquireProgram B owner ttlSeconds apply decided.1 decided.2.1 decided.2.2

/-! ## renew -/

/-- The overlay of a renew that revives: its lease's IDLE deployments, LIVE. -/
def renewOverlay (s : Store π δ) (leaseId : String) (now : Int) : AcquireOverlay :=
  let revived := idleAmong s (s.deploymentIds leaseId)
  { planAcquire s [] (fun _ => false) now (fun _ => "") with
    revived := revived
    deployments := Table.ofList <| (revived.filterMap s.getDeployment).map fun d =>
      { d with state := .live } }

/-- Extend a lease's window, reviving its IDLE deployments. -/
def renewTx (leaseId : String) (ttlSeconds : Option Int) (allocations : Dict String (List Nat)) :
    Ctl π δ φ Unit :=
  tx B fun i s => .ok ((), (renew s leaseId ttlSeconds allocations i.now).2)

/-- Put an approved digest into the marker. -/
def approvePending (digest : Option δ) : Ctl π δ φ Unit :=
  match digest with
  | none => pure ()
  | some digest => tx B fun _ s => .ok ((), s.markPublicationPending true false (some digest) none)

/-- The renew under the lock, after the lock-free one found nothing to do: an
IDLE deployment of the lease is admitted again. -/
def renewSlow (leaseId : String) (ttlSeconds : Option Int) : Ctl π δ φ Unit := do
  let active ← read fun _ w => .ok ((w.store.getLease leaseId).any (·.state = .active))
  onlyIf active do
    let residency ← observe
    let overlay ← read fun i w => .ok (renewOverlay w.store leaseId i.now)
    if overlay.revived = [] then renewTx B leaseId ttlSeconds ∅
    else do
      let admission ← admitOverlay B overlay residency
      raiseIf (admission.reasons ≠ []) (.placement admission.reasons)
      markPending B true
      approvePending B admission.digest
      renewTx B leaseId ttlSeconds admission.allocations
      let _ ← publish B

/-! ## the system -/

/-- The operations of the controller. -/
inductive Op where
  | acquire (owner : String) (requests : List EndpointRequest) (ttlSeconds : Option Int)
      (apply : Bool)
  | release (leaseId : String)
  | releaseLeases (leaseIds : Option (List String)) (evictIdled : Bool)
  | evict (ids : Option (List String))
  | gc (evictAll : Bool)
  | reconcile (apply : Bool)
  | applyNow
  | renew (leaseId : String) (ttlSeconds : Option Int)
  | prune
  | publishEndpoints
  | publishProfile (profile : π)
  | publishChange (preflight : Input → World π δ φ → Except Failure Unit)
      (change : CatalogChange B)
  | networkMigrate (subnet : String) (force : Bool)
  | rotateGatewayKey (force : Bool)

/-- The program of an operation. -/
def Op.program : Op B → Ctl π δ φ Unit
  | .acquire owner requests ttl apply => do
      let _ ← acquireByAdmission B owner requests ttl apply
  | .release l => do let _ ← releaseLease B l
  | .releaseLeases ls evictIdled => InferStack.releaseLeases B ls evictIdled
  | .evict ids => do let _ ← InferStack.evict B ids
  | .gc evictAll => do let _ ← InferStack.gc B evictAll
  | .reconcile apply => do let _ ← InferStack.reconcile B apply
  | .applyNow => do let _ ← InferStack.applyNow B
  | .renew l ttl => renewSlow B l ttl
  | .prune => InferStack.prune B
  | .publishEndpoints => do let _ ← InferStack.publishEndpoints B
  | .publishProfile p => do let _ ← InferStack.publishProfile B p
  | .publishChange preflight change => do let _ ← InferStack.publishChange B preflight change
  | .networkMigrate subnet force => do let _ ← InferStack.networkMigrate B subnet force
  | .rotateGatewayKey force => do let _ ← InferStack.rotateGatewayKey B force

/-- What the process renders from is what it last switched to. -/
def ProfileInUse.Synced (p : ProfileInUse π) : Prop :=
  ∀ q, p.applied = some q → p.rendersFrom = q ∧ B.compatible q

/-- A new process: it renders from the stored profile if its backend can. -/
def Process.opened (s : Store π δ) (invocation : π) (allowedGpus : Option (List Nat)) :
    Process π δ :=
  let p : Process π δ :=
    { invocation := invocation, settings := B.settingsOnly invocation
      rendersFrom := invocation, allowedGpus := allowedGpus }
  match s.profile with
  | none => p
  | some stored =>
      if B.compatible stored then { p with rendersFrom := stored, applied := some stored }
      else { p with profileError := true }

omit [DecidableEq π] [DecidableEq δ] in
theorem Process.opened_synced (s : Store π δ) (invocation : π)
    (allowedGpus : Option (List Nat)) :
    (Process.opened B s invocation allowedGpus).Synced B := by
  intro q hq
  unfold opened at hq ⊢
  cases hs : s.profile with
  | none => simp [hs] at hq
  | some stored =>
      by_cases hc : B.compatible stored = true
      · simp only [hs, if_pos hc, Option.some.injEq] at hq ⊢
        exact ⟨hq, hq ▸ hc⟩
      · simp [hs, hc] at hq

/-- An operation, in the process that runs it: a new one, or one whose earlier
operations have ended. -/
structure Invocation where
  process : Process π δ
  synced : process.Synced B
  op : Op B

/-- A lock-free renew. -/
structure LockFreeRenew where
  leaseId : String
  ttlSeconds : Option Int
  now : Int

/-- The controller's system: the ledger and the program that holds the lock. -/
abbrev CtlSys (π δ φ : Type) := Sys (World π δ φ) Input Failure Unit

/-- What happens to it. -/
abbrev CtlEvent := SysEvent (Invocation B) Input LockFreeRenew

/-- One event of the system. -/
def ctlStep (sys : CtlSys π δ φ) (e : CtlEvent B) : CtlSys π δ φ :=
  sys.next (fun v w => { w with process := v.process }) (fun v => v.op.program B)
    (fun r w => w.withStore B (renewIfLive w.store r.leaseId r.ttlSeconds r.now).2) e

/-- A fresh ledger beside the given files. -/
def CtlSys.init (env : Dict String String) (files : φ) (process : Process π δ) :
    CtlSys π δ φ :=
  { state := { store := .empty, env := env, files := files, process := process } }

/-- The world after a run from a fresh ledger. -/
def worldAfter (env : Dict String String) (files : φ) (process : Process π δ)
    (es : List (CtlEvent B)) : World π δ φ :=
  (run (ctlStep B) (CtlSys.init env files process) es).state

end Controller

end InferStack
