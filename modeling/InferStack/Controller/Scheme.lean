import InferStack.Controller.Decision

/-!
# InferStack.Controller.Scheme

The mutation scheme of the controller, once for every property of its runs.

A property picks three assertions: `idle` between publications, `marked` once
the publication is pending, `rendered` after a render.  `Scheme` lists what the
single transactions owe it.  Every operation then keeps `idle`, starting and
ending in a synced process (`Scheme.program`), and so does every run
(`Scheme.kept_system`).
-/

namespace InferStack

open Kit

variable {π δ φ : Type} [DecidableEq π] [DecidableEq δ] {B : Backend π δ φ}
  {ok : World π δ φ → Input → World π δ φ → Prop} {inv : World π δ φ → Prop}
  {guar : World π δ φ → World π δ φ → Prop} {hguar : ∀ w, guar w w} {careful : Prop}

/-- `P`, in a process that renders from the stored profile. -/
def held (B : Backend π δ φ) (P : Proc.Assertion (ctlRely ok inv guar hguar)) :
    Proc.Assertion (ctlRely ok inv guar hguar) := inUse P (Held B none)

/-- What the transactions of the controller owe a property of its runs; `careful`
tells whether it assumes that every step is guarded. -/
structure Scheme (B : Backend π δ φ) (careful : Prop)
    (idle marked rendered : Proc.Assertion (ctlRely ok inv guar hguar)) : Prop where
  free : Free idle
  freeMarked : Free marked
  observes : Observes idle
  leased : ∀ w, idle.holds w → w.store.Leased
  guarded : careful → ∀ w i w', ok w i w' → Guarded i w.process.toProfileInUse
  marks : Marks B idle marked
  kept : Kept B marked
  forget : ∀ w, marked.holds w → idle.holds w
  unapplied : ∀ w, rendered.holds w → idle.holds w
  render : ∀ X : ProfileInUse π → Option π → Prop, (∀ u stored, X u stored → Held B none u stored) →
    Proc.Triple (inUse marked X) (render B) (fun _ => inUse rendered X) (fun _ => inUse marked X)
  apply : ∀ X : ProfileInUse π → Option π → Prop, (∀ u stored, X u stored → Held B none u stored) →
    ∀ rec, Proc.Triple (inUse rendered X) (applyPending B rec) (fun _ => inUse idle X)
      (fun _ => inUse idle X)
  /-- The transaction of an acquire that was decided on these rows. -/
  commit : ∀ w i requests o (a : Admission δ) leaseId owner ttl digest candidate s,
    marked.holds w → w.store.profile.isSome → Planned requests o w → Admitted B o a w →
    acquire w.store leaseId owner ttl (enrichOverlay B o) a.allocations digest candidate = .ok s →
    ok w i (w.withStore B s) → guar w (w.withStore B s) ∧ marked.holds (w.withStore B s)
  /-- The transaction of a renew that revives what was decided. -/
  renew : ∀ w i leaseId ttl o (a : Admission δ) now,
    marked.holds w → PlannedRenew leaseId o w → AdmittedOnce B o a w →
    let w' := w.withStore B (renew w.store leaseId ttl a.allocations now).2
    ok w i w' → guar w w' ∧ marked.holds w'
  /-- A renew that revives nothing. -/
  renewLive : ∀ w leaseId ttl now, idle.holds w →
    idleAmong w.store (w.store.deploymentIds leaseId) = [] →
    let w' := w.withStore B (InferStack.renew w.store leaseId ttl ∅ now).2
    guar w w' ∧ idle.holds w'
  approve : ∀ w digest, marked.holds w →
    let w' := w.withStore B (w.store.markPublicationPending true false (some digest) none)
    guar w w' ∧ marked.holds w'
  prune : ∀ w, idle.holds w →
    guar w (w.withStore B (pruneTerminal w.store)) ∧
      idle.holds (w.withStore B (pruneTerminal w.store))
  publishProfile : ∀ w profile digest, idle.holds w →
    let w' := w.withStore B (w.store.publishProfile profile (some digest))
    guar w w' ∧ marked.holds w'
  migrate : ∀ w subnet reset digest fresh, idle.holds w → freshFor fresh w →
    let w' := w.withStore B (w.store.migrateNetwork subnet reset (some digest) fresh)
    guar w w' ∧ marked.holds w'
  writeProfile : ∀ w profile, marked.holds w →
    guar w (w.withStore B (w.store.writeProfile profile)) ∧
      marked.holds (w.withStore B (w.store.writeProfile profile))

namespace Scheme

variable {idle marked rendered : Proc.Assertion (ctlRely ok inv guar hguar)}
  (h : Scheme B careful idle marked rendered)

include h

/-! ### marking and publishing -/

theorem markPending (apply : Bool) :
    Proc.Triple (synced B idle) (InferStack.markPending B apply) (fun _ => held B marked)
      (fun _ => synced B idle) := markPending_synced h.free h.marks apply

/-- What is held under the marker ends an operation synced. -/
theorem done (w : World π δ φ) (hw : (held B marked).holds w) : (synced B idle).holds w :=
  ⟨h.forget w hw.1, hw.2.synced⟩

theorem heldKept : Kept B (held B marked) := h.kept.held

/-- A mutation of the scheme: marked first, then published. -/
theorem under {α : Type} {p : Ctl π δ φ α} (apply : Bool)
    (hp : Proc.Triple (held B marked) p (fun _ => synced B idle) (fun _ => synced B idle)) :
    Keeps (synced B idle) (InferStack.markPending B apply >>= fun _ => p) :=
  Proc.Triple.bind (h.markPending apply) fun _ => hp

/-- What follows a part that keeps the marker pending. -/
theorem andThen {α β : Type} {p : Ctl π δ φ α} {k : α → Ctl π δ φ β}
    (hp : Keeps (held B marked) p)
    (hk : ∀ a, Proc.Triple (held B marked) (k a) (fun _ => synced B idle)
      (fun _ => synced B idle)) :
    Proc.Triple (held B marked) (p >>= k) (fun _ => synced B idle) (fun _ => synced B idle) :=
  Proc.Triple.bind (hp.conseq (fun _ hw => hw) (fun _ _ hw => hw) (fun _ => h.done)) hk

theorem renderHeld : Proc.Triple (held B marked) (InferStack.render B)
    (fun _ => held B rendered) (fun _ => synced B idle) :=
  (h.render _ fun _ _ hX => hX).conseq (fun _ hw => hw) (fun _ _ hw => hw) (fun _ => h.done)

theorem applyHeld (rec : Reconciled) : Proc.Triple (held B rendered)
    (InferStack.applyPending B rec) (fun _ => synced B idle) (fun _ => synced B idle) :=
  (h.apply _ (fun _ _ hX => hX) rec).conseq (fun _ hw => hw) (fun _ => held_synced)
    (fun _ => held_synced)

/-- A render that is not applied. -/
theorem staged (w : World π δ φ) (hw : (held B rendered).holds w) : (synced B idle).holds w :=
  ⟨h.unapplied w hw.1, hw.2.synced⟩

theorem publish : Proc.Triple (held B marked) (InferStack.publish B) (fun _ => synced B idle)
    (fun _ => synced B idle) := Proc.Triple.bind h.renderHeld h.applyHeld

theorem publishUnit : Proc.Triple (held B marked)
    (do let _ ← InferStack.publish B : Ctl π δ φ Unit) (fun _ => synced B idle)
    (fun _ => synced B idle) := Proc.Triple.bind h.publish fun _ => Keeps.pure ()

/-! ### operations without an admission -/

theorem reconcile (apply : Bool) : Keeps (synced B idle) (InferStack.reconcile B apply) := by
  refine h.under apply ?_
  cases apply with
  | true => exact h.publish
  | false =>
      refine Proc.Triple.bind h.renderHeld fun rec => ?_
      exact Proc.Triple.pure h.staged

theorem releaseLease (leaseId : String) :
    Keeps (synced B idle) (InferStack.releaseLease B leaseId) :=
  h.under true <| h.andThen (h.heldKept.releaseTx leaseId) fun _ => h.publish

theorem releaseLeases (leaseIds : Option (List String)) (evictIdled : Bool) :
    Keeps (synced B idle) (InferStack.releaseLeases B leaseIds evictIdled) := by
  cases leaseIds with
  | none =>
      refine h.under true ?_
      refine h.andThen h.heldKept.sweepLedger fun _ => ?_
      refine h.andThen (Keeps.read _) fun ids => ?_
      refine h.andThen (h.heldKept.releaseEach ids) fun _ => ?_
      exact h.andThen (Keeps.onlyIf (h.heldKept.evictIdleDeployments none)) fun _ => h.publishUnit
  | some requested =>
      refine (Keeps.read _).bind fun ids => ?_
      refine Keeps.onlyIf (h.under true ?_)
      refine h.andThen (h.heldKept.releaseEach ids) fun idled => ?_
      exact h.andThen (Keeps.onlyIf (h.heldKept.evictIdleDeployments _)) fun _ => h.publishUnit

theorem evict (ids : Option (List String)) :
    Keeps (synced B idle) (InferStack.evict B ids) :=
  h.under true <| h.andThen h.heldKept.sweepLedger fun _ =>
    h.andThen (h.heldKept.evictIdleDeployments ids) fun _ => h.publish

theorem gc (evictAll : Bool) : Keeps (synced B idle) (InferStack.gc B evictAll) :=
  h.under true <| h.andThen h.heldKept.sweepLedger fun _ =>
    h.andThen (Keeps.onlyIf (h.heldKept.evictIdleDeployments none)) fun _ => h.publish

theorem pruneTx : Keeps (synced B idle) (InferStack.prune B) := by
  refine tx_triple (fun w i a s hw _ hres => ?_) (fun _ _ _ hw _ => hw)
  obtain ⟨-, rfl⟩ := Prod.mk.inj (Except.ok.inj hres)
  have hstep := h.prune w hw.1
  exact ⟨hstep.1, hstep.2, hw.2⟩

/-! ### changes of the profile and of the settings -/

theorem quiet {X : ProfileInUse π → Option π → Prop} : Quiet (inUse idle X) := h.free.quiet.inUse

theorem networkMigrate (subnet : String) (force : Bool) :
    Keeps (synced B idle) (InferStack.networkMigrate B subnet force) := by
  refine (Keeps.read _).bind fun _ => (Keeps.read _).bind fun _ => ?_
  refine Proc.Triple.bind (syncProfile_triple h.free) fun _ => ?_
  have hend : ∀ w, (inUse idle (Using B none)).holds w → (synced B idle).holds w :=
    fun w hw => ⟨hw.1, hw.2.synced⟩
  refine Proc.Triple.bind ((Keeps.read _).conseq (fun _ hw => hw) (fun _ _ hw => hw)
    (fun _ => hend)) fun residency => ?_
  refine Proc.Triple.bind ((h.quiet.previewLedger _ _).conseq (fun _ hw => hw) (fun _ _ hw => hw)
    (fun _ => hend)) fun digest => ?_
  refine Proc.Triple.bind (takeFreshProfile_triple h.free.drops) fun fresh => ?_
  refine Proc.Triple.bind (tx_triple (Q := fun _ => held B marked) (fun w i a s hw _ hres => ?_)
    (fun _ _ _ _ he => by contradiction)) fun _ => h.publish
  obtain ⟨-, rfl⟩ := Prod.mk.inj (Except.ok.inj hres)
  have hfresh : freshFor fresh w := fun hsome => by rw [hw.2.profile, if_neg hsome]
  have hmarked := h.migrate w subnet (w.store.networkConfig.any (· ≠ subnet)) digest fresh hw.1 hfresh
  exact ⟨hmarked.1, hmarked.2, hw.2.held⟩

theorem undoRotation (replaced : ReplacedKeys) (e : Failure) :
    Keeps (synced B idle) (InferStack.undoRotation replaced e) :=
  (Keeps.read _).bind fun _ =>
    (Keeps.onlyIf (h.quiet.writeEnv _)).bind fun _ => Keeps.throw e

theorem rotateGatewayKey (force : Bool) :
    Keeps (synced B idle) (InferStack.rotateGatewayKey B force) := by
  refine (Keeps.read _).bind fun _ => h.under true ?_
  refine h.andThen (h.heldKept.quiet.act fun _ _ => ⟨⟨rfl, rfl, rfl⟩, rfl⟩) fun replaced => ?_
  refine h.andThen (h.heldKept.quiet.remembering fun _ => rfl) fun _ => ?_
  refine Proc.Triple.bind (h.publish.handle (h.undoRotation replaced)) fun rec => ?_
  exact (Keeps.onlyIf (undoing_triple (h.quiet.writeEnv _) _)).bind fun _ => Keeps.pure rec

theorem changeCatalogs (change : CatalogChange B) :
    Keeps (held B marked) (InferStack.changeCatalogs B change) := by
  refine Proc.Triple.bind (Q := fun profile => also (held B marked)
    (fun _ => ∀ p, profile = some p → B.compatible p = true) (fun _ _ hX _ => hX)) ?_
    fun profile => ?_
  · refine Proc.Triple.act fun w i hw _ => ?_
    cases hrun : change.run i w with
    | error e => exact ⟨hguar w, fun _ hres => by contradiction, fun _ _ => hw⟩
    | ok res =>
        obtain ⟨profile, files⟩ := res
        have hin := h.heldKept.write w { w with files := files } ⟨⟨rfl, rfl, rfl⟩, rfl⟩ hw
        refine ⟨hin.1, fun profile' hres => ⟨hin.2, fun p hp => ?_⟩, fun _ he => by contradiction⟩
        obtain rfl := Except.ok.inj hres
        refine change.compatible i w p files (hp ▸ hrun) fun q hq => ?_
        rw [hw.2.stored] at hq
        obtain rfl := Option.some.inj hq
        exact hw.2.compatible
  · by_cases hcompat : ∀ p, profile = some p → B.compatible p = true
    · exact (storeCatalogs_triple h.freeMarked profile hcompat h.writeProfile).conseq
        (fun _ hw => hw.1) (fun _ _ hw => hw) (fun _ _ hw => hw)
    · exact fun w hw => absurd hw.2 hcompat

theorem publishChange (preflight : Input → World π δ φ → Except Failure Unit)
    (change : CatalogChange B) :
    Keeps (synced B idle) (InferStack.publishChange B preflight change) := by
  unfold InferStack.publishChange recordChange
  simp only [bind_assoc]
  exact (Keeps.read _).bind fun _ =>
    h.under true (h.andThen (h.changeCatalogs change) fun _ => h.publish)

/-- The transaction that publishes a profile on its own. -/
theorem publishedProfile (profile : π) (digest : δ) {w : World π δ φ} (hw : idle.holds w)
    (hrenders : w.process.rendersFrom = profile)
    (hcompat : B.compatible w.process.rendersFrom = true) :
    guar w (w.withStore B (w.store.publishProfile profile (some digest))) ∧
      (inUse marked (Written B (some profile))).holds
        (w.withStore B (w.store.publishProfile profile (some digest))) := by
  have hmarked := h.publishProfile w profile digest hw
  exact ⟨hmarked.1, hmarked.2, fun hc => by contradiction, congrArg some hrenders.symm, hcompat,
    fun hc => by contradiction, fun p hp => hrenders.trans (Option.some.inj hp)⟩

/-- A switch that an incomplete publication can take back. -/
def switched (B : Backend π δ φ) (previous : Option π) (profile : π) (u : ProfileInUse π)
    (_ : Option π) : Prop :=
  u.applied = previous ∧ u.rendersFrom = profile ∧ B.compatible profile = true ∧
    ∀ q, previous = some q → B.compatible q = true

/-- Taking a switch back. -/
theorem switchBack (previous : Option π) (profile : π)
    {E : Failure → Proc.Assertion (ctlRely ok inv guar hguar)} :
    Proc.Triple (inUse idle (switched B previous profile)) (useCandidate B previous)
      (fun _ => synced B idle) E := by
  cases previous with
  | none =>
      refine Proc.Triple.pure fun w hw => ⟨hw.1, fun q hq => ?_⟩
      have happlied : w.process.applied = none := hw.2.1
      rw [happlied] at hq
      contradiction
  | some previous =>
      refine Proc.Triple.act fun w i hw _ => ?_
      have hc : B.compatible previous = true := hw.2.2.2.2 previous rfl
      have hin := h.free.process hw.1 { w.process with rendersFrom := previous }
      rw [if_pos hc]
      refine ⟨hin.1, fun _ _ => ⟨hin.2, fun q hq => ?_⟩, fun _ he => by contradiction⟩
      obtain rfl := Option.some.inj (hw.2.1.symm.trans hq)
      exact ⟨rfl, hc⟩

/-- The process takes a published profile for its own. -/
theorem ownProfile (profile : π) : Keeps (held B marked) (remembering fun p : Process π δ =>
    { p with invocation := profile, settings := B.settingsOnly profile }) := by
  refine Proc.Triple.act fun w i hw _ => ?_
  have hin := h.freeMarked.process hw.1
    { w.process with invocation := profile, settings := B.settingsOnly profile }
  obtain ⟨q, hq⟩ := Option.isSome_iff_exists.mp hw.2.isSome
  have hheld : Held B none { w.process.toProfileInUse with settings := B.settingsOnly profile }
      w.store.profile := by
    have hprev : Held B none w.process.toProfileInUse w.store.profile := hw.2
    rw [hq] at hprev ⊢
    exact ⟨⟨hprev.error, hprev.applied, hprev.renders, hprev.base_compatible, hprev.compatible,
      fun hnone => by contradiction⟩, rfl⟩
  exact ⟨hin.1, fun _ _ => ⟨hin.2, hheld⟩, fun _ he => by contradiction⟩

theorem publishProfileProgram (profile : π) : Proc.Triple (synced B idle)
    (InferStack.publishProfile B profile) (fun _ => ended B careful idle)
    (fun _ => ended B careful idle) := by
  have hfirst : ∀ {α : Type} (f : Input → World π δ φ → Except Failure α), Proc.Triple (synced B idle)
      (InferStack.read f) (fun _ => synced B idle) (fun _ => ended B careful idle) := fun f =>
    (Keeps.read f).conseq (fun _ hw => hw) (fun _ _ hw => hw) (fun _ => synced_ended)
  refine Proc.Triple.bind (hfirst _) fun _ => Proc.Triple.bind (hfirst _) fun residency => ?_
  refine Proc.Triple.bind (hfirst _) fun _ => ?_
  refine Proc.Triple.bind (read_triple (Q := fun previous => inUse idle fun u _ =>
    u.Synced B ∧ u.applied = previous) (fun w i previous hw hres => ⟨hw.1, hw.2, Except.ok.inj hres⟩)
    (fun _ _ _ hw _ => synced_ended _ hw)) fun previous => ?_
  refine Proc.Triple.bind (Q := fun _ => inUse idle (switched B previous profile)) ?_ fun _ => ?_
  · refine Proc.Triple.act fun w i hw _ => ?_
    split
    · rename_i hc
      have hin := h.free.process hw.1 { w.process with rendersFrom := profile }
      refine ⟨hin.1, fun _ _ => ⟨hin.2, hw.2.2, rfl, hc, fun q hq => ?_⟩, fun _ he => by contradiction⟩
      exact (hw.2.1 q (hw.2.2.trans hq)).2
    · exact ⟨hguar w, fun _ ha => by contradiction, fun _ _ => synced_ended _ ⟨hw.1, hw.2.1⟩⟩
  · have hback : Proc.Triple (inUse idle (switched B previous profile)) (useCandidate B previous)
        (fun _ => ended B careful idle) (fun _ => ended B careful idle) :=
      (h.switchBack previous profile (E := fun _ => synced B idle)).conseq
        (fun _ hw => hw) (fun _ => synced_ended) (fun _ => synced_ended)
    refine Proc.Triple.bind (Proc.Triple.handle (h.quiet.previewLedger _ _) fun e =>
      undoing_triple hback e) fun digest => ?_
    refine Proc.Triple.bind (tx_rule (Q := fun _ => inUse marked (Written B (some profile)))
      (fun w i a s hw _ hres => ?_) (fun w i e hw hok hres => ⟨hw.1, fun hcareful q hq => ?_⟩))
      fun _ => ?_
    · obtain ⟨-, rfl⟩ := Prod.mk.inj (refusedIf_ok hres)
      exact h.publishedProfile profile digest hw.1 hw.2.2.1 (hw.2.2.1 ▸ hw.2.2.2.1)
    · -- the profile is left in use only if it is the stored one
      have hsame := (h.guarded hcareful w i w hok).same (.inr (refusedIf_error hres)) hq
      exact ⟨hsame, hsame ▸ hw.2.2.1 ▸ hw.2.2.2.1⟩
    · refine Proc.Triple.bind (adoptCandidate_triple h.freeMarked (some profile)) fun _ => ?_
      have hpublish := Proc.Triple.bind ((h.ownProfile profile).conseq (fun _ hw => hw)
        (fun _ _ hw => hw) (fun _ => h.done)) fun _ => h.publish
      exact hpublish.conseq (fun _ hw => hw) (fun _ => synced_ended) (fun _ => synced_ended)

theorem observeOnly {X : ProfileInUse π → Option π → Prop} : Keeps (inUse idle X) observe :=
  (observe_triple h.observes).conseq (fun _ hw => hw) (fun _ _ hw => ⟨hw.1.1, hw.2⟩)
    (fun _ _ hw => hw)

theorem publishEndpoints : Keeps (synced B idle) (InferStack.publishEndpoints B) := by
  have hend : ∀ w, (inUse idle (Using B none)).holds w → (synced B idle).holds w :=
    fun w hw => ⟨hw.1, hw.2.synced⟩
  refine Proc.Triple.bind (syncProfile_triple h.free) fun _ => ?_
  refine Proc.Triple.bind (h.observeOnly.conseq (fun _ hw => hw) (fun _ _ hw => hw)
    (fun _ => hend)) fun residency => ?_
  refine Proc.Triple.bind ((Keeps.read _).conseq (fun _ hw => hw) (fun _ _ hw => hw)
    (fun _ => hend)) fun candidate => ?_
  cases candidate with
  | none => exact (h.under true h.publish).conseq hend (fun _ _ hw => hw) (fun _ _ hw => hw)
  | some profile =>
      refine Proc.Triple.bind (read_triple (Q := fun stored =>
        inUse (storedIs idle stored) (Using B none))
        (fun w i stored hw hres => ⟨⟨hw.1, Except.ok.inj hres⟩, hw.2⟩)
        (fun _ _ _ _ he => by contradiction)) fun stored => ?_
      have hfree : Free (storedIs idle stored) := h.free.storedIs stored
      refine Proc.Triple.bind ((useProfile_triple hfree profile).conseq (fun _ hw => hw)
        (fun _ _ hw => hw) (fun _ w hw => hend w ⟨hw.1.1, hw.2⟩)) fun _ => ?_
      refine Proc.Triple.bind (Proc.Triple.handle (hfree.quiet.inUse.previewLedger _ _) fun e =>
        undoing_triple (restoreStoredProfile_triple h.free (some profile) stored) e)
        fun digest => ?_
      refine Proc.Triple.bind (Q := fun _ => inUse marked (Written B (some profile)))
        (Proc.Triple.handle ?_ fun e => undoing_triple (restoreStoredProfile_triple h.free (some profile) stored) e)
        fun _ => ?_
      · refine tx_triple (fun w i a s hw _ hres => ?_) (fun _ _ _ hw _ => hw)
        obtain ⟨-, rfl⟩ := Prod.mk.inj (refusedIf_ok hres)
        exact h.publishedProfile profile digest hw.1.1 hw.2.renders hw.2.compatible
      · refine Proc.Triple.bind (Q := fun _ => inUse marked (Written B (some profile))) ?_ fun _ => ?_
        · refine Proc.Triple.act fun w i hw _ => ?_
          have hin := h.freeMarked.process hw.1 { w.process with fresh := none }
          have hwritten := hw.2
          refine ⟨hin.1, fun _ _ => ⟨hin.2, ?_⟩, fun _ he => by contradiction⟩
          exact ⟨hwritten.error, hwritten.stored, hwritten.compatible, hwritten.applied,
            hwritten.candidate⟩
        · exact Proc.Triple.bind (adoptCandidate_triple h.freeMarked (some profile)) fun _ =>
            h.publish

theorem applyNow : Keeps (synced B idle) (InferStack.applyNow B) := by
  have hagain : Keeps (synced B idle)
      (remembering fun p : Process π δ => { p with explicitApply := false }) :=
    h.quiet.remembering fun _ => rfl
  have hexplicit : Keeps (synced B idle)
      (remembering fun p : Process π δ => { p with explicitApply := true }) :=
    h.quiet.remembering fun _ => rfl
  refine hexplicit.bind fun _ => (Keeps.read _).bind fun profile => ?_
  have hbody : Keeps (synced B idle)
      (if profile = none then InferStack.publishEndpoints B else InferStack.reconcile B true) := by
    split
    · exact h.publishEndpoints
    · exact h.reconcile true
  refine (hbody.handle fun e => undoing_triple hagain e).bind fun rec => ?_
  exact hagain.bind fun _ => Keeps.pure rec

/-! ### maintenance -/

/-- The stored profile is held, and is `stored`. -/
def holding (B : Backend π δ φ) (stored : Option π) (u : ProfileInUse π) (now : Option π) : Prop :=
  Held B none u now ∧ now = stored

omit [DecidableEq δ] h in
/-- Marking replaces no profile. -/
theorem marks_storedIs (hmarks : Marks B idle marked) {stored : Option π} (hsome : stored.isSome) :
    Marks B (storedIs idle stored) (storedIs marked stored) := by
  intro w apply fresh hw hfresh
  have hmarked := hmarks w apply fresh hw.1 hfresh
  have hprofile : w.store.profile = stored := hw.2
  have hnone : fresh = none := hfresh (by rw [hprofile]; exact Option.isSome_iff_ne_none.mp hsome)
  refine ⟨hmarked.1, hmarked.2, ?_⟩
  rw [hnone]
  exact hprofile

/-- A sweep of lapsed leases, published: the process goes on rendering from the
profile it read. -/
theorem maintain (stored : Option π) :
    Proc.Triple (inUse (storedIs idle stored) (Using B none)) (InferStack.maintain B)
      (fun _ => inUse (storedIs idle stored) (Using B none)) (fun _ => synced B idle) := by
  -- a lapsed lease was committed under a marker, so there is a profile already
  refine Proc.Triple.bind (read_triple (Q := fun lapsed => also
    (inUse (storedIs idle stored) (Using B none)) (fun _ => lapsed = true → stored.isSome)
    (fun _ _ hX _ => hX)) (fun w i lapsed hw hres => ⟨hw, fun hlapsed => ?_⟩)
    (fun _ _ _ _ he => by contradiction)) fun lapsed => ?_
  · obtain rfl := Except.ok.inj hres
    obtain ⟨l, hl, -⟩ := List.any_eq_true.mp hlapsed
    have hkey : l.id ∈ w.store.leases.keys := Table.mem_keys.mpr ⟨l, Store.mem_listLeases.mp hl, rfl⟩
    have hprofile : w.store.profile = stored := hw.1.2
    cases hs : stored with
    | some p => rfl
    | none =>
        rw [h.leased w hw.1.1 (hprofile.trans hs)] at hkey
        contradiction
  · refine Keeps.passing (fun hlapsed => ?_) (fun _ w hw => hw.1)
    by_cases hsome : stored.isSome
    · have hX : ∀ u now, holding B stored u now → Held B none u now := fun _ _ hX => hX.1
      have hend : ∀ w, (inUse idle (holding B stored)).holds w →
          (inUse (storedIs idle stored) (Using B none)).holds w :=
        fun w hw => ⟨⟨hw.1, hw.2.2⟩, hw.2.1.toUsing⟩
      have hraise : ∀ w, (inUse idle (holding B stored)).holds w → (synced B idle).holds w :=
        fun w hw => ⟨hw.1, hw.2.1.synced⟩
      refine Proc.Triple.bind ((markPending_using (h.free.storedIs stored).drops
        (marks_storedIs h.marks hsome) (fun hfalse : False => hfalse.elim) none true).conseq
        (fun w hw => hw.1) (fun _ _ hw => hw) (fun _ w hw => ⟨hw.1.1, hw.2.synced⟩)) fun _ => ?_
      refine Proc.Triple.bind (Q := fun _ => inUse marked (holding B stored)) ?_ fun _ => ?_
      · refine ((h.kept.inUse fun u now hX => hX.1.isSome).sweepLedger).conseq
          (fun w hw => ⟨hw.1.1, hw.2, hw.1.2⟩) (fun _ _ hw => hw)
          (fun _ w hw => ⟨h.forget w hw.1, hw.2.1.synced⟩)
      · refine Proc.Triple.bind (Proc.Triple.bind ((h.render (holding B stored) hX).conseq
          (fun _ hw => hw) (fun _ _ hw => hw) (fun _ w hw => ⟨h.forget w hw.1, hw.2.1.synced⟩))
          fun rec => (h.apply (holding B stored) hX rec).conseq (fun _ hw => hw)
            (fun _ => hend) (fun _ => hraise)) fun _ => Proc.Triple.pure fun _ hw => hw
    · exact fun w hw => absurd (hw.2 (by simpa using hlapsed)) hsome

/-! ### deciding -/

omit [DecidableEq π] [DecidableEq δ] h in
/-- Deciding an overlay writes nothing but staged secrets. -/
theorem admitOverlay {P : Proc.Assertion (ctlRely ok inv guar hguar)} (hP : Free P)
    {X : World π δ φ → Prop} {hX : ∀ w w', X w → SameRows w w' → X w'}
    {Y : ProfileInUse π → Option π → Prop} {residency : Option Residency}
    (hobs : ∀ w, X w → w.observed = residency) (o : AcquireOverlay) :
    Proc.Triple (inUse (onRows P X hX) Y) (InferStack.admitOverlay B o residency)
      (fun a => inUse (onBasis P (fun w => X w ∧ Weighed B o a w)
        (fun w w' hw hs => ⟨hX w w' hw.1 hs.toSameRows, hw.2.of_same hs⟩)) Y)
      (fun _ => inUse P Y) := by
  refine Proc.Triple.bind ((stageSecrets_triple hP.onRows).conseq (fun _ hw => hw)
    (fun _ _ hw => hw) (fun _ _ hw => hw)) fun secrets => ?_
  refine Proc.Triple.bind (read_triple (Q := fun a => inUse (onBasis P
    (fun w => X w ∧ Weighed B o a w) (fun w w' hw hs => ⟨hX w w' hw.1 hs.toSameRows, hw.2.of_same hs⟩)) Y)
    (fun w i a hw ha => ?_) (fun _ _ _ hw _ => ⟨hw.1.1.1, hw.2⟩)) fun a => ?_
  · refine ⟨⟨hw.1.1.1, hw.1.1.2, secrets, hw.1.2, w.store, .self w, ?_⟩, hw.2⟩
    rw [hobs w hw.1.1.2]
    exact ha
  · refine Proc.Triple.bind ((Keeps.onlyIf (Keeps.read _)).conseq (fun _ hw => hw)
      (fun _ _ hw => hw) (fun _ _ hw => ⟨hw.1.1, hw.2⟩)) fun _ => ?_
    exact Proc.Triple.pure fun _ hw => hw

omit [DecidableEq π] [DecidableEq δ] h in
/-- Previewing an acquire decides the plan of its requests. -/
theorem previewAcquire {P : Proc.Assertion (ctlRely ok inv guar hguar)} (hP : Free P)
    {Y : ProfileInUse π → Option π → Prop} (requests : List EndpointRequest)
    (residency : Option Residency) :
    Proc.Triple (inUse (seen residency P) Y) (InferStack.previewAcquire B requests residency)
      (fun x => inUse (onBasis P (fun w => Planned requests x.1 w ∧ Weighed B x.1 x.2 w)
        (fun _ _ hw hs => ⟨hw.1.of_same hs.toSameRows, hw.2.of_same hs⟩)) Y)
      (fun _ => inUse P Y) := by
  refine Proc.Triple.bind ((Keeps.read _).conseq (fun _ hw => hw) (fun _ _ hw => hw)
    (fun _ _ hw => ⟨hw.1.1, hw.2⟩)) fun _ => ?_
  refine Proc.Triple.bind (read_triple (Q := fun o => inUse (onRows P
    (fun w => w.observed = residency ∧ Planned requests o w)
    (fun _ _ hw hs => ⟨hs.observed.trans hw.1, hw.2.of_same hs⟩)) Y)
    (fun w i o hw ho => ?_) (fun _ _ _ _ he => by contradiction)) fun o => ?_
  · have hobs : w.observed = residency := hw.1.2
    refine ⟨⟨hw.1.1, hobs, w.store, .self w, i.now, i.newId, ?_⟩, hw.2⟩
    rw [hobs]
    exact (Except.ok.inj ho).symm
  · refine Proc.Triple.bind (admitOverlay hP (fun _ hw => hw.1) o) fun a => ?_
    exact Proc.Triple.pure fun _ hw => ⟨⟨hw.1.1, hw.1.2.1.2, hw.1.2.2⟩, hw.2⟩

/-- What an acquire commits: the admitted plan of its requests. -/
def admittedPlan (B : Backend π δ φ) (requests : List EndpointRequest)
    (P : Proc.Assertion (ctlRely ok inv guar hguar)) (o : AcquireOverlay) (a : Admission δ) :
    Proc.Assertion (ctlRely ok inv guar hguar) :=
  onBasis P (fun w => Planned requests o w ∧ Admitted B o a w)
    fun _ _ hw hs => ⟨hw.1.of_same hs.toSameRows, hw.2.of_same hs⟩

/-- Deciding an acquire: it ends with an admitted plan, or raises with the
stored profile in use again. -/
theorem decideAcquire (requests : List EndpointRequest) (stored : Option π) :
    Proc.Triple (inUse (storedIs idle stored) (Using B none))
      (InferStack.decideAcquire B requests stored)
      (fun x => inUse (admittedPlan B requests idle x.2.1 x.2.2) (Using B x.1))
      (fun _ => synced B idle) := by
  have hfree : Free (storedIs idle stored) := h.free.storedIs stored
  have hobserves : Observes (storedIs idle stored) := fun w r hw =>
    have hobs := h.observes w r hw.1
    ⟨hobs.1, hobs.2, hw.2⟩
  have hrestore := fun candidate => restoreAfter_triple (B := B) (E := fun _ => synced B idle)
    h.free candidate stored
  refine Proc.Triple.bind (observe_triple hobserves) fun residency => ?_
  refine Proc.Triple.bind ((Keeps.read _).conseq (fun _ hw => hw) (fun _ _ hw => hw)
    (fun _ w hw => ⟨hw.1.1.1, hw.2.synced⟩)) fun candidate => ?_
  refine Proc.Triple.bind ((useCandidate_triple hfree.onRows candidate).conseq (fun _ hw => hw)
    (fun _ _ hw => hw) (fun _ w hw => ⟨hw.1.1.1, hw.2.synced⟩)) fun _ => ?_
  refine Proc.Triple.bind (Proc.Triple.handle (previewAcquire hfree requests residency) fun e =>
    undoing_triple (hrestore candidate) e) fun x => ?_
  refine Proc.Triple.bind (Keeps.passing
    (Q := inUse (admittedPlan B requests idle x.1 x.2) (Using B candidate)) (fun _ => ?_)
    (fun hreasons w hw => ?_)) fun _ => Proc.Triple.pure fun _ hw => hw
  · exact (undoing_triple (hrestore candidate) _).conseq (fun w hw => ⟨hw.1.1, hw.2⟩)
      (fun _ _ hw => hw) (fun _ _ hw => hw)
  · exact ⟨⟨hw.1.1.1, hw.1.2.1, hw.1.2.2, not_not.mp hreasons⟩, hw.2⟩

/-! ### committing -/

theorem renderAndApply (apply : Bool) : Proc.Triple (held B marked)
    (InferStack.renderAndApply B apply) (fun _ => synced B idle) (fun _ => synced B idle) := by
  refine Proc.Triple.bind h.renderHeld fun rec => ?_
  exact Keeps.passing (fun _ => Proc.Triple.bind (h.applyHeld rec) fun _ => Keeps.pure ())
    (fun _ => h.staged)

theorem publishBestEffort (apply : Bool) : Proc.Triple (held B marked)
    (InferStack.publishBestEffort B apply) (fun _ => synced B idle) (fun _ => synced B idle) := by
  refine (h.renderAndApply apply).handle fun e => ?_
  split
  · exact Keeps.pure ()
  · exact Keeps.throw e

theorem rollbackAcquire (leaseId : String) (apply : Bool) :
    Keeps (synced B idle) (InferStack.rollbackAcquire B leaseId apply) :=
  h.under apply <| h.andThen (Kept.clearApprovedDigest h.heldKept.approves) fun _ =>
    h.andThen (h.heldKept.releaseTx leaseId) fun rel =>
      h.andThen (h.heldKept.evictNeverRan rel.idledDeploymentIds) fun _ => h.publishBestEffort apply

theorem applyAdmitted (rec : Reconciled) (leaseId : String) (apply : Bool) :
    Proc.Triple (held B rendered) (InferStack.applyAdmitted B rec leaseId apply)
      (fun _ => synced B idle) (fun _ => synced B idle) := by
  cases apply with
  | true => exact (h.applyHeld rec).handle fun e => undoing_triple (h.rollbackAcquire leaseId false) e
  | false => exact Proc.Triple.pure h.staged

theorem publishAdmitted (result : AcquireResult) (apply : Bool) :
    Proc.Triple (held B marked) (InferStack.publishAdmitted B result apply)
      (fun _ => synced B idle) (fun _ => synced B idle) := by
  refine Proc.Triple.bind (Proc.Triple.handle h.renderHeld fun e =>
    undoing_triple (h.rollbackAcquire result.leaseId _) e) fun rec => ?_
  dsimp only
  split
  · exact h.applyAdmitted rec result.leaseId apply
  · exact (undoing_triple (h.rollbackAcquire result.leaseId apply) _).conseq h.staged
      (fun _ _ hw => hw) (fun _ _ hw => hw)

/-- Committing what was decided: the transaction commits, or has written nothing.
Nobody has moved the ledger since, so it does not conflict. -/
theorem commitAdmitted (requests : List EndpointRequest) (owner : String) (ttl : Option Int)
    (o : AcquireOverlay) (a : Admission δ) (apply : Bool) (candidate : Option π) :
    Proc.Triple (inUse (admittedPlan B requests marked o a) (Held B candidate))
      (InferStack.commitAdmitted B owner ttl o a apply candidate)
      (fun _ => inUse marked (Written B candidate))
      (fun e => also (inUse marked (Held B candidate)) (fun _ => e ≠ .admissionConflict)
        (fun _ _ hX _ => hX)) := by
  refine tx_triple (fun w i r s hw hok hres => ?_) (fun w i e hw hres => ⟨⟨hw.1.1, hw.2⟩, ?_⟩)
  · obtain ⟨-, hacq⟩ := commitTx_ok B hres
    have hcommit := h.commit w i requests o a _ owner ttl _ candidate s hw.1.1 hw.2.isSome
      hw.1.2.1 hw.1.2.2 hacq hok
    refine ⟨hcommit.1, hcommit.2, ?_⟩
    change Written B candidate w.process.toProfileInUse s.profile
    rw [(acquire_ok hacq).profile]
    exact hw.2.written
  · intro he
    subst he
    -- the plan carries the version of these rows
    obtain ⟨s, hs, now, newId, ho⟩ := hw.1.2.1
    have hversion : w.store.admissionStateVersion = (enrichOverlay B o).stateVersion := by
      rw [ho]
      exact hs.version.symm
    exact commitTx_conflict hres hversion

theorem commitRaised (candidate : Option π) (e : Failure) :
    Proc.Triple (also (inUse marked (Held B candidate)) (fun _ => e ≠ .admissionConflict)
        (fun _ _ hX _ => hX))
      (InferStack.commitRaised B candidate e)
      (fun _ => inUse marked (Written B candidate)) (fun _ => synced B idle) := by
  refine Proc.Triple.bind (Q := fun _ => synced B idle) ?_ fun _ => Proc.Triple.throw fun _ hw => hw
  refine Keeps.passing (fun _ => ?_) (fun he w hw => absurd hw.2 he)
  refine Proc.Triple.bind (read_triple (Q := fun stored =>
    inUse (storedIs idle stored) (Using B candidate))
    (fun w i stored hw hres => ⟨⟨h.forget w hw.1.1, Except.ok.inj hres⟩, hw.1.2.toUsing⟩)
    (fun _ _ _ _ he => by contradiction)) fun stored => ?_
  exact restoreAfter_triple h.free candidate stored

theorem commitAcquireProgram (requests : List EndpointRequest) (owner : String)
    (ttl : Option Int) (apply : Bool) (candidate : Option π) (o : AcquireOverlay)
    (a : Admission δ) :
    Proc.Triple (inUse (admittedPlan B requests idle o a) (Using B candidate))
      (InferStack.commitAcquireProgram B owner ttl apply candidate o a)
      (fun _ => ended B careful idle) (fun _ => ended B careful idle) := by
  refine Proc.Triple.bind ((markPending_using h.free.drops_onBasis h.marks.onBasis h.guarded
    candidate apply).conseq (fun _ hw => hw) (fun _ _ hw => hw)
    (fun _ w hw => ⟨hw.1.1, hw.2.ended⟩)) fun _ => ?_
  have hcommit := Proc.Triple.bind (Proc.Triple.handle
    (h.commitAdmitted requests owner ttl o a apply candidate) (h.commitRaised candidate))
    fun result => Proc.Triple.bind (adoptCandidate_triple h.freeMarked candidate) fun _ =>
      h.publishAdmitted result apply
  exact hcommit.conseq (fun _ hw => hw) (fun _ => synced_ended) (fun _ => synced_ended)

theorem acquireByAdmission (owner : String) (requests : List EndpointRequest)
    (ttl : Option Int) (apply : Bool) :
    Proc.Triple (synced B idle) (InferStack.acquireByAdmission B owner requests ttl apply)
      (fun _ => ended B careful idle) (fun _ => ended B careful idle) := by
  refine Proc.Triple.bind ((syncProfile_triple h.free).conseq (fun _ hw => hw) (fun _ _ hw => hw)
    (fun _ => synced_ended)) fun _ => ?_
  refine Proc.Triple.bind (read_triple (Q := fun stored =>
    inUse (storedIs idle stored) (Using B none))
    (fun w i stored hw hres => ⟨⟨hw.1, Except.ok.inj hres⟩, hw.2⟩)
    (fun _ _ _ _ he => by contradiction)) fun stored => ?_
  refine Proc.Triple.bind ((h.maintain stored).conseq (fun _ hw => hw) (fun _ _ hw => hw)
    (fun _ => synced_ended)) fun _ => ?_
  refine Proc.Triple.bind ((h.decideAcquire requests stored).conseq (fun _ hw => hw)
    (fun _ _ hw => hw) (fun _ => synced_ended)) fun x => ?_
  exact h.commitAcquireProgram requests owner ttl apply x.1 x.2.1 x.2.2

/-! ### renew -/

/-- A renew with nothing to revive writes only the lease. -/
def nothingIdle (leaseId : String) (w : World π δ φ) : Prop :=
  idleAmong w.store (w.store.deploymentIds leaseId) = []

omit h [DecidableEq π] [DecidableEq δ] in
theorem nothingIdle_of_same (leaseId : String) (w w' : World π δ φ) (hX : nothingIdle leaseId w)
    (hs : SameRows w w') : nothingIdle leaseId w' := by
  unfold nothingIdle idleAmong Store.deploymentIds Store.claimsOf Store.getDeployment at hX ⊢
  rw [hs.deployments, hs.claims]
  exact hX

theorem renewTxLive (leaseId : String) (ttl : Option Int) :
    Proc.Triple (synced B (onRows idle (nothingIdle leaseId) (nothingIdle_of_same leaseId)))
      (InferStack.renewTx B leaseId ttl ∅) (fun _ => synced B idle) (fun _ => synced B idle) := by
  refine tx_triple (fun w i r s hw _ hres => ?_) (fun _ _ _ _ he => by contradiction)
  obtain ⟨-, rfl⟩ := Prod.mk.inj (Except.ok.inj hres)
  have hlive := h.renewLive w leaseId ttl i.now hw.1.1 hw.1.2
  exact ⟨hlive.1, hlive.2, hw.2⟩

/-- What a renew that revives commits.  It decides before it renders from the
stored profile, so it may have been decided with another one. -/
def admittedRenew (leaseId : String) (P : Proc.Assertion (ctlRely ok inv guar hguar))
    (B : Backend π δ φ) (o : AcquireOverlay) (a : Admission δ) :
    Proc.Assertion (ctlRely ok inv guar hguar) :=
  onRows P (fun w => PlannedRenew leaseId o w ∧ AdmittedOnce B o a w)
    fun _ _ hw hs => ⟨hw.1.of_same hs, hw.2.of_same hs⟩

theorem renewTx (leaseId : String) (ttl : Option Int) (o : AcquireOverlay) (a : Admission δ) :
    Proc.Triple (held B (admittedRenew leaseId marked B o a))
      (InferStack.renewTx B leaseId ttl a.allocations) (fun _ => held B marked)
      (fun _ => synced B idle) := by
  refine tx_triple (fun w i r s hw hok hres => ?_) (fun _ _ _ _ he => by contradiction)
  obtain ⟨-, rfl⟩ := Prod.mk.inj (Except.ok.inj hres)
  have hrenew := h.renew w i leaseId ttl o a i.now hw.1.1 hw.1.2.1 hw.1.2.2 hok
  refine ⟨hrenew.1, hrenew.2, ?_⟩
  change Held B none w.process.toProfileInUse
    (InferStack.renew w.store leaseId ttl a.allocations i.now).2.profile
  rw [(rowsOnly_renew w.store leaseId ttl a.allocations i.now).profile]
  exact hw.2

/-- Approving the render of a renew that revives. -/
theorem approvePending {X : World π δ φ → Prop} {hX : ∀ w w', X w → SameRows w w' → X w'}
    (digest : Option δ) {E : Failure → Proc.Assertion (ctlRely ok inv guar hguar)} :
    Proc.Triple (held B (onRows marked X hX)) (InferStack.approvePending B digest)
      (fun _ => held B (onRows marked X hX)) E := by
  cases digest with
  | none => exact Proc.Triple.pure fun _ hw => hw
  | some digest =>
      unfold InferStack.approvePending
      refine tx_triple (fun w i r s hw _ hres => ?_) (fun _ _ _ _ he => by contradiction)
      obtain ⟨-, rfl⟩ := Prod.mk.inj (Except.ok.inj hres)
      have hmarked := h.approve w digest hw.1.1
      exact ⟨hmarked.1, ⟨hmarked.2, hX _ _ hw.1.2 (sameBasis_mark w true false _ none).toSameRows⟩,
        hw.2⟩

theorem renewSlow (leaseId : String) (ttl : Option Int) :
    Keeps (synced B idle) (InferStack.renewSlow B leaseId ttl) := by
  refine (Keeps.read _).bind fun active => Keeps.onlyIf ?_
  refine Proc.Triple.bind (observe_triple h.observes) fun residency => ?_
  refine Proc.Triple.bind (read_triple (Q := fun o => synced B (onRows idle
    (fun w => w.observed = residency ∧ PlannedRenew leaseId o w ∧
      (o.revived = [] → nothingIdle leaseId w))
    (fun w w' hw hs => ⟨hs.observed.trans hw.1, hw.2.1.of_same hs,
      fun hnil => nothingIdle_of_same leaseId w w' (hw.2.2 hnil) hs⟩)))
    (fun w i o hw ho => ?_) (fun _ _ _ _ he => by contradiction)) fun o => ?_
  · obtain rfl := Except.ok.inj ho
    exact ⟨⟨hw.1.1, hw.1.2, ⟨w.store, .self w, i.now, rfl⟩, fun hnil => hnil⟩, hw.2⟩
  · split
    · rename_i hnil
      intro w hw
      exact h.renewTxLive leaseId ttl w ⟨⟨hw.1.1, hw.1.2.2.2 hnil⟩, hw.2⟩
    · refine Proc.Triple.bind (admitOverlay h.free (fun _ hw => hw.1) o) fun a => ?_
      refine Proc.Triple.bind (Keeps.passing
        (Q := synced B (admittedRenew leaseId idle B o a)) (E := fun _ => synced B idle)
        (fun _ => Proc.Triple.throw fun _ hw => ⟨hw.1.1, hw.2⟩)
        (fun hreasons w hw => ⟨⟨hw.1.1, hw.1.2.1.2.1,
          Admitted.once ⟨hw.1.2.2, not_not.mp hreasons⟩⟩, hw.2⟩)) fun _ => ?_
      refine Proc.Triple.bind ((markPending_synced h.free.onRows h.marks.onRows true).conseq
        (fun _ hw => hw) (fun _ _ hw => hw) (fun _ _ hw => ⟨hw.1.1, hw.2⟩)) fun _ => ?_
      refine Proc.Triple.bind (h.approvePending a.digest) fun _ => ?_
      exact Proc.Triple.bind (h.renewTx leaseId ttl o a) fun _ => h.publishUnit

/-! ### operations and runs -/

omit [DecidableEq π] [DecidableEq δ] h in
/-- What keeps a synced process synced ends well. -/
theorem ends {p : Ctl π δ φ Unit} (hp : Keeps (synced B idle) p) : Proc.Triple (synced B idle) p
    (fun _ => ended B careful idle) (fun _ => ended B careful idle) :=
  Proc.Triple.conseq hp (fun _ hw => hw) (fun _ => synced_ended) (fun _ => synced_ended)

/-- Every operation keeps what holds between publications.  It ends synced, if
its steps were guarded. -/
theorem program (op : Op B) : Proc.Triple (synced B idle) op.program
    (fun _ => ended B careful idle) (fun _ => ended B careful idle) := by
  cases op with
  | acquire owner requests ttl apply =>
      exact Proc.Triple.bind (h.acquireByAdmission owner requests ttl apply) fun _ => Keeps.pure ()
  | release l => exact ends ((h.releaseLease l).bind fun _ => Keeps.pure ())
  | releaseLeases ls evictIdled => exact ends (h.releaseLeases ls evictIdled)
  | evict ids => exact ends ((h.evict ids).bind fun _ => Keeps.pure ())
  | gc evictAll => exact ends ((h.gc evictAll).bind fun _ => Keeps.pure ())
  | reconcile apply => exact ends ((h.reconcile apply).bind fun _ => Keeps.pure ())
  | applyNow => exact ends (h.applyNow.bind fun _ => Keeps.pure ())
  | renew l ttl => exact ends (h.renewSlow l ttl)
  | prune => exact ends h.pruneTx
  | publishEndpoints => exact ends (h.publishEndpoints.bind fun _ => Keeps.pure ())
  | publishProfile p =>
      exact Proc.Triple.bind (h.publishProfileProgram p) fun _ => Keeps.pure ()
  | publishChange preflight change =>
      exact ends ((h.publishChange preflight change).bind fun _ => Keeps.pure ())
  | networkMigrate subnet force =>
      exact ends ((h.networkMigrate subnet force).bind fun _ => Keeps.pure ())
  | rotateGatewayKey force =>
      exact ends ((h.rotateGatewayKey force).bind fun _ => Keeps.pure ())

/-- The system keeps the invariant, if `idle` says no more than it does. -/
theorem kept_system (hidle : ∀ w, inv w → idle.holds w) :
    Sys.Kept (ctlRely ok inv guar hguar) (fun _ _ => True)
      (fun (v : Invocation B) w => { w with process := v.process })
      (fun v => v.op.program)
      (fun (r : LockFreeRenew) w =>
        w.withStore B (renewIfLive w.store r.leaseId r.ttlSeconds r.now).2) where
  disturbed := fun r w => renewIfLive_onlyRenewals w r.leaseId r.ttlSeconds r.now
  stable := fun w w' hw hm => idle.inv w' (idle.moved w w' (hidle w hw) hm)
  start := fun v w hw _ => by
    have hstart := h.free.process (hidle w hw) v.process
    have hprogram := h.program v.op { w with process := v.process } ⟨hstart.2, v.synced⟩
    exact hprogram.mono (fun _ _ _ _ => trivial) (fun _ _ _ _ => trivial)

end Scheme

end InferStack
