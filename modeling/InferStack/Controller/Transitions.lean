import InferStack.Controller

/-!
# InferStack.Controller.Transitions

What one step of the controller does to the ledger.

Every step of every operation is one ledger transaction at the step's clock
reading, or leaves leases, claims and deployments alone (`ctlStep_transition`).
What holds of the transactions therefore holds of every run, however operations
fail, are killed, and interleave with lock-free renewals.
-/

namespace InferStack

open Kit

variable {π δ φ : Type}

/-- What a step does to the rows of the ledger. -/
inductive Transition (i : Input) (s : Store π δ) : Store π δ → Prop where
  | rows (s' : Store π δ) (hleases : s'.leases = s.leases) (hclaims : s'.claims = s.claims)
      (hdeployments : s'.deployments = s.deployments) : Transition i s s'
  | sweep : Transition i s (sweep s i.now).2
  | release (leaseId : String) : Transition i s (release s leaseId i.now).2
  | evict (ids : Option (List String)) : Transition i s (evictIdle s ids i.now).2
  | allocate (g : String) (gpus : Option (List Nat)) : Transition i s (setAllocation s g gpus)
  | acquire (s' : Store π δ) (owner : String) (ttl : Option Int) (o : AcquireOverlay)
      (allocations : Dict String (List Nat)) (digest : Option δ) (profile : Option π)
      (h : acquire s i.leaseId owner ttl o allocations digest profile = .ok s') :
      Transition i s s'
  | renew (leaseId : String) (ttl : Option Int) (allocations : Dict String (List Nat)) :
      Transition i s (renew s leaseId ttl allocations i.now).2
  | prune : Transition i s (pruneTerminal s)

theorem Transition.refl (i : Input) (s : Store π δ) : Transition i s s := .rows s rfl rfl rfl

/-- Every step of the program is one transition. -/
abbrev Transits {α : Type} (p : Ctl π δ φ α) : Prop :=
  p.Each fun i w w' => Transition i w.store w'.store

variable [DecidableEq π] {B : Backend π δ φ}

namespace Transits

variable {α β : Type}

/-! ## single steps -/

theorem tx {f : Input → Store π δ → Except Failure (α × Store π δ)}
    (hf : ∀ i s a s', f i s = .ok (a, s') → Transition i s s') :
    Transits (φ := φ) (InferStack.tx B f) := by
  refine Proc.Each.act fun i w => ?_
  cases hres : f i w.store with
  | ok r => exact hf i w.store r.1 r.2 hres
  | error e => exact .refl i w.store

/-- A transaction that leaves the rows alone. -/
theorem txRows {f : Input → Store π δ → Except Failure (α × Store π δ)}
    (hf : ∀ i s a s', f i s = .ok (a, s') →
      s'.leases = s.leases ∧ s'.claims = s.claims ∧ s'.deployments = s.deployments) :
    Transits (φ := φ) (InferStack.tx B f) :=
  tx fun i s a s' hres => .rows s' (hf i s a s' hres).1 (hf i s a s' hres).2.1 (hf i s a s' hres).2.2

omit [DecidableEq π] in
/-- A step outside the ledger. -/
theorem aside {f : Input → World π δ φ → Except Failure α × World π δ φ}
    (hf : ∀ i w, (f i w).2.store = w.store) : Transits (Proc.act f) := by
  refine Proc.Each.act fun i w => ?_
  rw [hf]
  exact .refl i w.store

omit [DecidableEq π] in
theorem read (f : Input → World π δ φ → Except Failure α) : Transits (InferStack.read f) :=
  aside fun _ _ => rfl

omit [DecidableEq π] in
theorem remembering (f : Process π δ → Process π δ) :
    Transits (φ := φ) (InferStack.remembering f) := aside fun _ _ => rfl

omit [DecidableEq π] in
theorem onlyIf {c : Prop} [Decidable c] {p : Ctl π δ φ Unit} (hp : Transits p) :
    Transits (InferStack.onlyIf c p) := by
  unfold InferStack.onlyIf
  split
  · exact hp
  · exact .pure ()

omit [DecidableEq π] in
theorem raiseIf {c : Prop} [Decidable c] (e : Failure) :
    Transits (InferStack.raiseIf c e : Ctl π δ φ Unit) := onlyIf (.throw e)

omit [DecidableEq π] in
theorem undoing {undo : Ctl π δ φ Unit} (hundo : Transits undo) (e : Failure) :
    Transits (InferStack.undoing undo e : Ctl π δ φ α) := .bind hundo fun _ => .throw e

/-! ## the profile in use and the marker -/

theorem syncProfile : Transits (φ := φ) (δ := δ) (InferStack.syncProfile B) := by
  refine aside fun i w => ?_
  unfold syncStep
  dsimp only
  split
  · rfl
  · split
    · rfl
    · split <;> rfl

omit [DecidableEq π] in
theorem useProfile (profile : π) : Transits (δ := δ) (InferStack.useProfile B profile) := by
  refine aside fun i w => ?_
  dsimp only
  split <;> rfl

omit [DecidableEq π] in
theorem useCandidate (candidate : Option π) :
    Transits (δ := δ) (InferStack.useCandidate B candidate) := by
  cases candidate with
  | none => exact .pure ()
  | some profile => exact useProfile profile

omit [DecidableEq π] in
theorem restoreStoredProfile (stored : Option π) :
    Transits (δ := δ) (InferStack.restoreStoredProfile B stored) := by
  refine .bind (read _) fun fresh => ?_
  split
  · exact .pure ()
  · exact .bind (useProfile _) fun _ => remembering _

omit [DecidableEq π] in
theorem restoreAfter (candidate stored : Option π) :
    Transits (δ := δ) (InferStack.restoreAfter B candidate stored) := by
  cases candidate with
  | none => exact .pure ()
  | some _ => exact restoreStoredProfile stored

/-- A transaction on the marker alone. -/
theorem txMarker {f : Store π δ → Store π δ} (hf : ∀ s, (f s).leases = s.leases ∧
    (f s).claims = s.claims ∧ (f s).deployments = s.deployments) :
    Transits (φ := φ) (InferStack.tx B fun _ s => .ok ((), f s)) := by
  refine txRows fun i s a s' hres => ?_
  obtain ⟨-, rfl⟩ := Prod.mk.inj (Except.ok.inj hres)
  exact hf s

/-- The same, of one that may be refused. -/
theorem txRefusable {fails : Input → Bool} {f : Store π δ → Store π δ}
    (hf : ∀ s, (f s).leases = s.leases ∧ (f s).claims = s.claims ∧
      (f s).deployments = s.deployments) :
    Transits (φ := φ) (InferStack.tx B fun i s => refusedIf (fails i) ((), f s)) := by
  refine txRows fun i s a s' hres => ?_
  obtain ⟨-, rfl⟩ := Prod.mk.inj (refusedIf_ok hres)
  exact hf s

theorem markPending (apply : Bool) : Transits (φ := φ) (δ := δ) (InferStack.markPending B apply) := by
  refine .bind syncProfile fun _ => .bind (aside fun _ _ => rfl) fun fresh => ?_
  exact txRefusable fun _ => ⟨rfl, rfl, rfl⟩

/-! ## rendering and applying -/

theorem sweepLedger : Transits (φ := φ) (δ := δ) (InferStack.sweepLedger B) := by
  refine tx fun i s a s' hres => ?_
  obtain ⟨-, rfl⟩ := Prod.mk.inj (Except.ok.inj hres)
  exact .sweep

theorem backfillAllocations (residency : Residency) (ds : List Deployment) :
    Transits (φ := φ) (δ := δ) (InferStack.backfillAllocations B residency ds) := by
  induction ds with
  | nil => exact .pure ()
  | cons d ds ih =>
      unfold InferStack.backfillAllocations
      split
      · exact ih
      · rename_i gpus _
        refine .bind (tx fun i s a s' hres => ?_) fun _ => ih
        obtain ⟨-, rfl⟩ := Prod.mk.inj (Except.ok.inj hres)
        exact .allocate d.id (some gpus)

omit [DecidableEq π] in
theorem provideSecrets (staging : Bool) : Transits (δ := δ) (InferStack.provideSecrets B staging) :=
  aside fun _ _ => rfl

theorem keepAddresses (docs : Documents π δ φ) : Transits (InferStack.keepAddresses B docs) := by
  unfold InferStack.keepAddresses
  split
  · exact .pure ()
  · rename_i table _
    refine txRows fun i s a s' hres => ?_
    cases hadd : s.addServiceAddresses table with
    | none => rw [hadd] at hres; contradiction
    | some s'' =>
        rw [hadd] at hres
        obtain ⟨-, rfl⟩ := Prod.mk.inj (Except.ok.inj hres)
        obtain ⟨t, -, rfl⟩ := Option.map_eq_some_iff.mp hadd
        exact ⟨rfl, rfl, rfl⟩

theorem render : Transits (δ := δ) (InferStack.render B) := by
  have hgather : Transits (π := π) (φ := φ) (δ := δ) (InferStack.gatherRender B) :=
    .bind sweepLedger fun _ => .bind (read _) fun residency => .bind (read _) fun ds =>
      .bind (backfillAllocations residency ds) fun _ => .pure _
  have hprepare : Transits (δ := δ) (InferStack.prepareRender B) :=
    .bind hgather fun _ => .bind (provideSecrets false) fun _ => .pure _
  refine .bind hprepare fun prepared => ?_
  refine .bind (aside fun i w => ?_) fun rendered => ?_
  · dsimp only
    split <;> rfl
  · exact .bind (keepAddresses _) fun _ => .bind (aside fun _ _ => rfl) fun _ => .pure _

theorem clearApprovedDigest : Transits (φ := φ) (δ := δ) (InferStack.clearApprovedDigest B) :=
  txMarker fun _ => ⟨rfl, rfl, rfl⟩

variable [DecidableEq δ]

theorem approveRender (approved : Option δ) : Transits (InferStack.approveRender B approved) := by
  unfold InferStack.approveRender
  split
  · exact .pure none
  · refine .bind (read _) fun p => ?_
    split
    · exact .pure _
    · split
      · exact .throw _
      · split
        · exact .pure none
        · exact .bind (txMarker fun _ => ⟨rfl, rfl, rfl⟩) fun _ => .pure _

theorem applyPending (rec : Reconciled) : Transits (InferStack.applyPending B rec) := by
  refine .bind (read _) fun marker => ?_
  split
  · exact .pure rec
  · split
    · refine .bind (approveRender _) fun approved => .bind (onlyIf (read _)) fun _ => ?_
      refine .bind (read _) fun _ => ?_
      refine .bind (.handle (aside fun i w => ?_) fun e => ?_) fun outcome => .bind (read _) fun _ => ?_
      · dsimp only
        split <;> rfl
      · exact .bind (txMarker fun _ => ⟨rfl, rfl, rfl⟩) fun _ => .throw e
      · cases outcome with
        | some runtime => exact .pure _
        | none =>
            refine .bind ?_ fun _ => .pure _
            exact .bind (onlyIf clearApprovedDigest) fun _ => txMarker fun _ => ⟨rfl, rfl, rfl⟩
    · exact .pure _

theorem publish : Transits (InferStack.publish B) := .bind render fun rec => applyPending rec

theorem publishUnit : Transits (do let _ ← InferStack.publish B : Ctl π δ φ Unit) :=
  .bind publish fun _ => .pure ()

/-! ## operations without an admission -/

omit [DecidableEq δ] in
theorem releaseTx (leaseId : String) : Transits (φ := φ) (δ := δ) (InferStack.releaseTx B leaseId) := by
  refine tx fun i s a s' hres => ?_
  have hs' : (release s leaseId i.now).2 = s' := congrArg Prod.snd (Except.ok.inj hres)
  rw [← hs']
  exact .release leaseId

omit [DecidableEq δ] in
theorem releaseEach (ls : List String) :
    Transits (φ := φ) (δ := δ) (InferStack.releaseEach B ls) := by
  induction ls with
  | nil => exact .pure []
  | cons l ls ih => exact .bind (releaseTx l) fun _ => .bind ih fun _ => .pure _

omit [DecidableEq δ] in
theorem evictIdleDeployments (ids : Option (List String)) :
    Transits (φ := φ) (δ := δ) (InferStack.evictIdleDeployments B ids) := by
  refine tx fun i s a s' hres => ?_
  obtain ⟨-, rfl⟩ := Prod.mk.inj (Except.ok.inj hres)
  exact .evict ids

theorem reconcile (apply : Bool) : Transits (InferStack.reconcile B apply) := by
  refine .bind (markPending apply) fun _ => ?_
  split
  · exact publish
  · exact .bind render fun _ => .pure _

theorem releaseLease (leaseId : String) : Transits (InferStack.releaseLease B leaseId) :=
  .bind (markPending true) fun _ => .bind (releaseTx leaseId) fun _ => publish

theorem releaseLeases (leaseIds : Option (List String)) (evictIdled : Bool) :
    Transits (InferStack.releaseLeases B leaseIds evictIdled) := by
  cases leaseIds with
  | none =>
      exact .bind (markPending true) fun _ => .bind sweepLedger fun _ => .bind (read _) fun ids =>
        .bind (releaseEach ids) fun _ => .bind (onlyIf (evictIdleDeployments none)) fun _ =>
        publishUnit
  | some requested =>
      refine .bind (read _) fun ids => onlyIf ?_
      exact .bind (markPending true) fun _ => .bind (releaseEach ids) fun idled =>
        .bind (onlyIf (evictIdleDeployments _)) fun _ => publishUnit

theorem evict (ids : Option (List String)) : Transits (InferStack.evict B ids) :=
  .bind (markPending true) fun _ => .bind sweepLedger fun _ =>
    .bind (evictIdleDeployments ids) fun _ => publish

theorem gc (evictAll : Bool) : Transits (InferStack.gc B evictAll) :=
  .bind (markPending true) fun _ => .bind sweepLedger fun _ =>
    .bind (onlyIf (evictIdleDeployments none)) fun _ => publish

omit [DecidableEq δ] in
theorem prune : Transits (φ := φ) (δ := δ) (InferStack.prune B) := by
  refine tx fun i s a s' hres => ?_
  obtain ⟨-, rfl⟩ := Prod.mk.inj (Except.ok.inj hres)
  exact .prune

/-! ## changes of the profile and of the settings -/

omit [DecidableEq π] [DecidableEq δ] in
theorem previewLedger (residency : Option Residency)
    (network : Store π δ → Option (String × Dict String String)) :
    Transits (InferStack.previewLedger B residency network) :=
  .bind (provideSecrets true) fun _ => read _

theorem networkMigrate (subnet : String) (force : Bool) :
    Transits (InferStack.networkMigrate B subnet force) :=
  .bind (read _) fun _ => .bind (read _) fun _ => .bind syncProfile fun _ =>
    .bind (read _) fun _ => .bind (previewLedger _ _) fun _ => .bind (aside fun _ _ => rfl) fun _ =>
    .bind (txRows fun i s a s' hres => by
      obtain ⟨-, rfl⟩ := Prod.mk.inj (Except.ok.inj hres)
      exact ⟨rfl, rfl, rfl⟩) fun _ => publish

theorem rotateGatewayKey (force : Bool) : Transits (InferStack.rotateGatewayKey B force) := by
  have hrestore : ∀ replaced, Transits (π := π) (δ := δ) (φ := φ) (restoreEnv replaced) :=
    fun _ => aside fun _ _ => rfl
  refine .bind (read _) fun _ => .bind (markPending true) fun _ => ?_
  refine .bind (aside fun _ _ => rfl) fun replaced => .bind (remembering _) fun _ => ?_
  refine .bind (.handle publish fun e => ?_) fun rec => ?_
  · exact .bind (read _) fun _ => .bind (onlyIf (hrestore replaced)) fun _ => .throw e
  · exact .bind (onlyIf (undoing (hrestore replaced) _)) fun _ => .pure rec

omit [DecidableEq δ] in
theorem changeCatalogs (change : CatalogChange B) :
    Transits (InferStack.changeCatalogs B change) := by
  refine .bind (aside fun i w => ?_) fun profile => ?_
  · cases change.run i w <;> rfl
  · cases profile with
    | none => exact .pure ()
    | some profile =>
        exact .bind (txMarker fun _ => ⟨rfl, rfl, rfl⟩) fun _ => .bind (remembering _) fun _ =>
          useProfile profile

theorem publishChange (preflight : Input → World π δ φ → Except Failure Unit)
    (change : CatalogChange B) : Transits (InferStack.publishChange B preflight change) :=
  .bind (.bind (read _) fun _ => .bind (markPending true) fun _ => changeCatalogs change)
    fun _ => publish

theorem publishProfile (profile : π) : Transits (InferStack.publishProfile B profile) :=
  .bind (read _) fun _ => .bind (read _) fun _ => .bind (read _) fun _ => .bind (read _) fun _ =>
    .bind (useProfile profile) fun _ =>
    .bind (.handle (previewLedger _ _) fun e => undoing (useCandidate _) e) fun _ =>
    .bind (txRefusable fun _ => ⟨rfl, rfl, rfl⟩) fun _ => .bind (remembering _) fun _ =>
    .bind (remembering _) fun _ => publish

theorem publishEndpoints : Transits (InferStack.publishEndpoints B) := by
  refine .bind syncProfile fun _ => .bind (aside fun _ _ => rfl) fun residency => ?_
  refine .bind (read _) fun candidate => ?_
  cases candidate with
  | none => exact .bind (markPending true) fun _ => publish
  | some profile =>
      exact .bind (read _) fun stored => .bind (useProfile profile) fun _ =>
        .bind (.handle (previewLedger _ _) fun e => undoing (restoreStoredProfile _) e) fun _ =>
        .bind (.handle (txRefusable fun _ => ⟨rfl, rfl, rfl⟩) fun e =>
          undoing (restoreStoredProfile _) e) fun _ => .bind (remembering _) fun _ =>
        .bind (remembering _) fun _ => publish

theorem applyNow : Transits (InferStack.applyNow B) := by
  refine .bind (remembering _) fun _ => .bind (read _) fun profile => ?_
  refine .bind (.handle ?_ fun e => undoing (remembering _) e) fun _ =>
    .bind (remembering _) fun _ => .pure _
  split
  · exact publishEndpoints
  · exact reconcile true

/-! ## acquire and renew -/

omit [DecidableEq π] [DecidableEq δ] in
theorem admitOverlay (o : AcquireOverlay) (residency : Option Residency) :
    Transits (δ := δ) (InferStack.admitOverlay B o residency) :=
  .bind (provideSecrets true) fun _ => .bind (read _) fun _ => .bind (onlyIf (read _)) fun _ => .pure _

theorem renderAndApply (apply : Bool) : Transits (InferStack.renderAndApply B apply) :=
  .bind render fun rec => onlyIf (.bind (applyPending rec) fun _ => .pure ())

theorem rollbackAcquire (leaseId : String) (apply : Bool) :
    Transits (InferStack.rollbackAcquire B leaseId apply) := by
  refine .bind (markPending apply) fun _ => .bind clearApprovedDigest fun _ => ?_
  refine .bind (releaseTx leaseId) fun rel => .bind (onlyIf ?_) fun _ => ?_
  · exact .bind (read _) fun _ => onlyIf (evictIdleDeployments _)
  · refine .handle (renderAndApply apply) fun e => ?_
    split
    · exact .pure ()
    · exact .throw e

theorem publishAdmitted (result : AcquireResult) (apply : Bool) :
    Transits (InferStack.publishAdmitted B result apply) := by
  refine .bind (.handle render fun e => undoing (rollbackAcquire _ _) e) fun rec => ?_
  dsimp only
  split
  · unfold applyAdmitted
    split
    · exact .handle (applyPending rec) fun e => undoing (rollbackAcquire _ _) e
    · exact .pure _
  · exact undoing (rollbackAcquire _ _) _

omit [DecidableEq δ] in
theorem commitAdmitted (owner : String) (ttl : Option Int) (o : AcquireOverlay) (a : Admission δ)
    (apply : Bool) (candidate : Option π) :
    Transits (φ := φ) (InferStack.commitAdmitted B owner ttl o a apply candidate) := by
  refine tx fun i s r s' hres => ?_
  obtain ⟨-, hacq⟩ := commitTx_ok B hres
  exact .acquire s' owner ttl _ _ _ _ hacq

theorem acquireByAdmission (owner : String) (requests : List EndpointRequest) (ttl : Option Int)
    (apply : Bool) : Transits (InferStack.acquireByAdmission B owner requests ttl apply) := by
  refine .bind syncProfile fun _ => .bind (read _) fun stored => .bind ?_ fun _ => ?_
  · refine .bind (read _) fun lapsed => onlyIf ?_
    exact .bind (markPending true) fun _ => .bind sweepLedger fun _ => publishUnit
  refine .bind ?_ fun decided => ?_
  · refine .bind (aside fun _ _ => rfl) fun residency => .bind (read _) fun candidate => ?_
    refine .bind (useCandidate candidate) fun _ => ?_
    refine .bind (.handle ?_ fun e => undoing (restoreAfter _ _) e) fun decided => ?_
    · exact .bind (read _) fun _ => .bind (read _) fun o => .bind (admitOverlay o residency) fun _ =>
        .pure _
    · exact .bind (onlyIf (undoing (restoreAfter _ _) _)) fun _ => .pure _
  · refine .bind (markPending apply) fun _ => .bind (.handle (commitAdmitted _ _ _ _ _ _) fun e => ?_)
      fun result => .bind ?_ fun _ => publishAdmitted result apply
    · exact .bind (onlyIf (.bind (read _) fun _ => restoreAfter _ _)) fun _ => .throw e
    · unfold adoptCandidate
      split
      · exact .pure ()
      · exact remembering _

omit [DecidableEq δ] in
theorem renewTx (leaseId : String) (ttl : Option Int) (allocations : Dict String (List Nat)) :
    Transits (φ := φ) (δ := δ) (InferStack.renewTx B leaseId ttl allocations) := by
  refine tx fun i s a s' hres => ?_
  obtain ⟨-, rfl⟩ := Prod.mk.inj (Except.ok.inj hres)
  exact .renew leaseId ttl allocations

theorem renewSlow (leaseId : String) (ttl : Option Int) :
    Transits (InferStack.renewSlow B leaseId ttl) := by
  refine .bind (read _) fun active => onlyIf ?_
  refine .bind (aside fun _ _ => rfl) fun residency => .bind (read _) fun o => ?_
  split
  · exact renewTx leaseId ttl ∅
  · refine .bind (admitOverlay o residency) fun a => .bind (raiseIf _) fun _ => ?_
    refine .bind (markPending true) fun _ => .bind ?_ fun _ => ?_
    · unfold approvePending
      split
      · exact .pure ()
      · exact txMarker fun _ => ⟨rfl, rfl, rfl⟩
    · exact .bind (renewTx leaseId ttl _) fun _ => publishUnit

/-- Every operation is a program of transitions. -/
theorem program (op : Op B) : Transits (op.program B) := by
  cases op with
  | acquire owner requests ttl apply =>
      exact .bind (acquireByAdmission owner requests ttl apply) fun _ => .pure ()
  | release l => exact .bind (releaseLease l) fun _ => .pure ()
  | releaseLeases ls evictIdled => exact releaseLeases ls evictIdled
  | evict ids => exact .bind (evict ids) fun _ => .pure ()
  | gc evictAll => exact .bind (gc evictAll) fun _ => .pure ()
  | reconcile apply => exact .bind (reconcile apply) fun _ => .pure ()
  | applyNow => exact .bind applyNow fun _ => .pure ()
  | renew l ttl => exact renewSlow l ttl
  | prune => exact prune
  | publishEndpoints => exact .bind publishEndpoints fun _ => .pure ()
  | publishProfile p => exact .bind (publishProfile p) fun _ => .pure ()
  | publishChange preflight change => exact .bind (publishChange preflight change) fun _ => .pure ()
  | networkMigrate subnet force => exact .bind (networkMigrate subnet force) fun _ => .pure ()
  | rotateGatewayKey force => exact .bind (rotateGatewayKey force) fun _ => .pure ()

end Transits

variable [DecidableEq δ]

/-! ## runs -/

/-- What an event does to the rows of the ledger. -/
def RowEvent (B : Backend π δ φ) (s s' : Store π δ) : CtlEvent B → Prop
  | .step i => Transition i s s'
  | .disturb r => s' = (renewIfLive s r.leaseId r.ttlSeconds r.now).2
  | _ => s' = s

/-- Every event of a run is one ledger transaction, or none. -/
theorem ctlStep_transition (B : Backend π δ φ) (env : Dict String String) (files : φ)
    (process : Process π δ) (es : List (CtlEvent B)) :
    AllSteps (ctlStep B) (fun sys e => RowEvent B sys.state.store (ctlStep B sys e).state.store e)
      (CtlSys.init env files process) es := by
  have hrun : ∀ p, (CtlSys.init env files process : CtlSys π δ φ).running = some p → Transits p :=
    by simp [CtlSys.init]
  have hprog : ∀ v : Invocation B, Transits (v.op.program B) := fun v => Transits.program v.op
  have hall := Sys.allSteps_moves (fun (v : Invocation B) w => { w with process := v.process })
    (fun (r : LockFreeRenew) w =>
      w.withStore B (renewIfLive w.store r.leaseId r.ttlSeconds r.now).2) hprog hrun es
  refine hall.mono fun sys' e hmoves => ?_
  cases e with
  | start v =>
      cases hmoves with
      | inl hsame => exact congrArg World.store hsame
      | inr hentered =>
          have hstore := congrArg World.store hentered
          exact hstore
  | step i =>
      cases hmoves with
      | inl hsame =>
          have hstore : (ctlStep B sys' (.step i)).state.store = sys'.state.store :=
            congrArg World.store hsame
          show Transition i sys'.state.store _
          rw [hstore]
          exact .refl i _
      | inr hstep => exact hstep
  | crash => exact congrArg World.store hmoves
  | disturb r => exact congrArg World.store hmoves

end InferStack
