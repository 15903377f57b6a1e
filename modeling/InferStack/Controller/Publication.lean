import InferStack.Controller.Scheme

/-!
# InferStack.Controller.Publication

No committed change is lost to publication.

* `Published` — with no marker pending, what the last complete apply brought up
  is what the ledger desires;
* `Discipline` — the marker's flags only turn on, and it is cleared only after a
  complete apply of a render taken after the last change;
* `published_run` — both along every run: operations split at their steps,
  lock-free renews in between, killed and failing anywhere.
-/

namespace InferStack

open Kit

variable {π δ φ : Type} [DecidableEq π] [DecidableEq δ]

/-! ## the marker -/

/-- The marker is still there, with every flag it had. -/
def MarkerGrows (s s' : Store π δ) : Prop :=
  ∀ m, s.publicationPending = some m → ∃ m', s'.publicationPending = some m' ∧
    (m.applyRequested = true → m'.applyRequested = true) ∧
    (m.interrupted = true → m'.interrupted = true)

omit [DecidableEq π] [DecidableEq δ] in
theorem MarkerGrows.of_same {s s' : Store π δ}
    (h : s'.publicationPending = s.publicationPending) : MarkerGrows s s' :=
  fun m hm => ⟨m, h.trans hm, fun hf => hf, fun hf => hf⟩

omit [DecidableEq π] [DecidableEq δ] in
theorem MarkerGrows.trans {s₁ s₂ s₃ : Store π δ} (h : MarkerGrows s₁ s₂)
    (h' : MarkerGrows s₂ s₃) : MarkerGrows s₁ s₃ := by
  intro m hm
  obtain ⟨m₂, hm₂, happly₂, hinterrupted₂⟩ := h m hm
  obtain ⟨m₃, hm₃, happly₃, hinterrupted₃⟩ := h' m₂ hm₂
  exact ⟨m₃, hm₃, fun hf => happly₃ (happly₂ hf), fun hf => hinterrupted₃ (hinterrupted₂ hf)⟩

omit [DecidableEq π] [DecidableEq δ] in
theorem markerGrows_writeMarker (s : Store π δ) (apply interrupted : Bool) (digest : Option δ) :
    MarkerGrows s (s.writeMarker apply interrupted digest) := by
  intro m hm
  simp only [Store.writeMarker, hm]
  exact ⟨_, rfl, fun hf => by simp [hf], fun hf => by simp [hf]⟩

omit [DecidableEq π] [DecidableEq δ] in
theorem markerGrows_approve (s : Store π δ) (digest : Option δ) :
    MarkerGrows s (s.setApprovedDigest digest) := by
  intro m hm
  simp only [Store.setApprovedDigest, hm]
  exact ⟨_, rfl, fun hf => hf, fun hf => hf⟩

omit [DecidableEq π] [DecidableEq δ] in
theorem MarkerGrows.isSome {s s' : Store π δ} (h : MarkerGrows s s')
    (hs : s.publicationPending.isSome) : s'.publicationPending.isSome := by
  obtain ⟨m, hm⟩ := Option.isSome_iff_exists.mp hs
  obtain ⟨m', hm', -⟩ := h m hm
  rw [hm']
  rfl

omit [DecidableEq π] [DecidableEq δ] in
theorem Upkeep.markerGrows {s s' : Store π δ} (h : Upkeep s s') : MarkerGrows s s' := by
  cases h with
  | sweep now => exact .of_same (rowsOnly_sweep s now).pending
  | release leaseId now => exact .of_same (rowsOnly_release s leaseId now).pending
  | evict ids now => exact .of_same (rowsOnly_evictIdle s ids now).pending
  | backfill residency d gpus hrow h => exact .of_same rfl
  | addresses table s' h =>
      obtain ⟨t, -, rfl⟩ := Option.map_eq_some_iff.mp h
      exact .of_same rfl
  | approve digest => exact markerGrows_approve s digest
  | mark apply interrupted profile h => exact markerGrows_writeMarker _ apply interrupted none

/-! ## the invariant -/

variable (B : Backend π δ φ)

/-- What the runtime was last brought to; nothing, before the first apply. -/
def World.published (w : World π δ φ) : Desired π := w.history.applied.getD ⟨[], none⟩

/-- With no marker pending, the runtime is what the ledger desires. -/
def Published (w : World π δ φ) : Prop :=
  w.store.publicationPending = none → w.published = desiredOf B w.store

/-- How a step may change the marker. -/
structure Discipline (w w' : World π δ φ) : Prop where
  /-- A flag once on stays on until the marker is cleared. -/
  flags : ∀ m m', w.store.publicationPending = some m → w'.store.publicationPending = some m' →
    (m.applyRequested = true → m'.applyRequested = true) ∧
      (m.interrupted = true → m'.interrupted = true)
  /-- It is cleared after a complete apply of a render that nothing has outdated. -/
  cleared : w.store.publicationPending.isSome → w'.store.publicationPending = none →
    w.history.current = true ∧ w.history.complete = true ∧
      w.history.applied = w.history.rendered ∧ w.history.rendered = some (desiredOf B w.store)

variable {B}

omit [DecidableEq π] [DecidableEq δ] in
theorem Discipline.of_grows {w w' : World π δ φ} (h : MarkerGrows w.store w'.store) :
    Discipline B w w' := by
  constructor
  · intro m m' hm hm'
    obtain ⟨m'', hm'', hflags⟩ := h m hm
    obtain rfl := Option.some.inj (hm'.symm.trans hm'')
    exact hflags
  · intro hsome hnone
    have hstill := h.isSome hsome
    rw [hnone] at hstill
    contradiction

omit [DecidableEq π] [DecidableEq δ] in
theorem Discipline.of_same {w w' : World π δ φ}
    (h : w'.store.publicationPending = w.store.publicationPending) : Discipline B w w' :=
  .of_grows (.of_same h)

omit [DecidableEq π] [DecidableEq δ] in
theorem Discipline.refl (w : World π δ φ) : Discipline B w w := .of_same rfl

/-! ## what holds when -/

/-- Nothing is lost, and every lease is under a profile. -/
structure Kempt (B : Backend π δ φ) (w : World π δ φ) : Prop where
  leased : w.store.Leased
  published : Published B w

/-- The assumptions: any step, and lease renewals in between. -/
abbrev publicationRely (B : Backend π δ φ) : Rely (World π δ φ) Input :=
  ctlRely (fun _ _ _ => True) (Kempt B) (Discipline B) Discipline.refl

omit [DecidableEq π] [DecidableEq δ] in
theorem Published.moved {w w' : World π δ φ} (h : Published B w) (hm : OnlyRenewals w w') :
    Published B w' := by
  intro hnone
  rw [World.published, hm.history, hm.desired B]
  exact h (hm.pending.symm.trans hnone)

/-- Between publications. -/
def idleWorld (B : Backend π δ φ) : Proc.Assertion (publicationRely B) where
  holds := Kempt B
  inv := fun _ hw => hw
  moved := fun _ _ hw hm => ⟨hw.leased.moved hm, hw.published.moved hm⟩

/-- Under the marker. -/
def markedWorld (B : Backend π δ φ) : Proc.Assertion (publicationRely B) where
  holds := fun w => w.store.publicationPending.isSome ∧ w.store.Leased
  inv := fun _ hw => ⟨hw.2, fun hnone => by have hp := hw.1; rw [hnone] at hp; contradiction⟩
  moved := fun _ _ hw hm => ⟨hm.pending ▸ hw.1, hw.2.moved hm⟩

omit [DecidableEq π] [DecidableEq δ] in
theorem marked_idle (w : World π δ φ) (hw : (markedWorld B).holds w) : (idleWorld B).holds w :=
  (markedWorld B).inv w hw

/-- Once the files were rendered from what the ledger desires. -/
def renderedWorld (B : Backend π δ φ) : Proc.Assertion (publicationRely B) :=
  also (markedWorld B)
    (fun w => w.history.current = true ∧ w.history.rendered = some (desiredOf B w.store))
    fun w w' hX hm => by
      rw [hm.history, hm.desired B]
      exact hX

/-- Once they have been applied, completely. -/
def appliedWorld (B : Backend π δ φ) : Proc.Assertion (publicationRely B) :=
  also (renderedWorld B)
    (fun w => w.history.complete = true ∧ w.history.applied = w.history.rendered)
    fun w w' hX hm => by
      rw [hm.history]
      exact hX

omit [DecidableEq δ] in
theorem markedWorld_kept : Kept B (markedWorld B) where
  write := fun w w' ho hw => by
    have hsame : w'.store = w.store := ho.store
    refine ⟨.of_same (by rw [hsame]), ?_⟩
    change w'.store.publicationPending.isSome ∧ w'.store.Leased
    rw [hsame]
    exact hw
  upkeep := fun w s hup hw =>
    ⟨.of_grows hup.markerGrows, hup.markerGrows.isSome hw.1, hup.leased hw.2⟩

omit [DecidableEq δ] in
/-- A transaction outdates no render if it leaves what is desired alone. -/
theorem withStore_history {w : World π δ φ} {s : Store π δ}
    (h : desiredOf B s = desiredOf B w.store) : (w.withStore B s).history = w.history := by
  simp [World.withStore, h]

omit [DecidableEq δ] in
theorem renderedWorld_approves : Kept.Approves B (renderedWorld B) := fun w digest hw => by
  have hgrows := markerGrows_approve w.store digest
  have hdesired : desiredOf B (w.store.setApprovedDigest digest) = desiredOf B w.store := rfl
  refine ⟨.of_grows hgrows, ⟨hgrows.isSome hw.1.1, hw.1.2⟩, ?_, ?_⟩ <;>
    rw [withStore_history hdesired]
  · exact hw.2.1
  · exact hw.2.2

omit [DecidableEq δ] in
theorem appliedWorld_approves : Kept.Approves B (appliedWorld B) := fun w digest hw => by
  have hin := renderedWorld_approves w digest hw.1
  have hdesired : desiredOf B (w.store.setApprovedDigest digest) = desiredOf B w.store := rfl
  refine ⟨hin.1, hin.2, ?_, ?_⟩ <;> rw [withStore_history hdesired]
  · exact hw.2.1
  · exact hw.2.2

/-! ## rendering and applying -/

variable {X : ProfileInUse π → Option π → Prop}

omit [DecidableEq π] [DecidableEq δ] in
/-- A render is taken from what the ledger desires at that moment. -/
theorem renderDesired_marked (hX : ∀ u stored, X u stored → Held B none u stored)
    (residency : Residency) (secrets : Dict String String) :
    Proc.Triple (inUse (markedWorld B) X) (renderDesired B residency secrets)
      (fun r => inUse (also (markedWorld B)
        (fun w => w.history.current = true ∧ r.2 = desiredOf B w.store)
        (fun w w' hY hm => by rw [hm.history, hm.desired B]; exact hY)) X)
      (fun _ => inUse (markedWorld B) X) := by
  refine Proc.Triple.act fun w i hw _ => ?_
  have hprofile : w.store.profile = some w.process.rendersFrom := (hX _ _ hw.2).stored
  dsimp only
  split
  · exact ⟨.refl w, fun _ ha => by contradiction, fun _ _ => hw⟩
  · exact ⟨.refl w, fun _ ha => by contradiction, fun _ _ => hw⟩
  · refine ⟨.of_same rfl, fun r hr => ⟨⟨hw.1, rfl, ?_⟩, hw.2⟩, fun _ _ => hw⟩
    split at hr
    · obtain rfl := Except.ok.inj hr
      change _ = (⟨_, w.store.profile⟩ : Desired π)
      rw [hprofile]
      rfl
    · contradiction

omit [DecidableEq δ] in
theorem render_marked (hX : ∀ u stored, X u stored → Held B none u stored) :
    Proc.Triple (inUse (markedWorld B) X) (render B) (fun _ => inUse (renderedWorld B) X)
      (fun _ => inUse (markedWorld B) X) := by
  have hkept : Kept B (inUse (markedWorld B) X) :=
    markedWorld_kept.inUse fun u stored h => (hX u stored h).isSome
  refine Proc.Triple.bind hkept.prepareRender fun prepared => ?_
  refine Proc.Triple.bind (renderDesired_marked hX prepared.1 prepared.2) fun rendered => ?_
  refine Proc.Triple.bind (Q := fun _ => inUse (also (markedWorld B)
    (fun w => w.history.current = true ∧ rendered.2 = desiredOf B w.store)
    (fun w w' hY hm => by rw [hm.history, hm.desired B]; exact hY)) X) ?_ fun _ => ?_
  · unfold keepAddresses
    cases rendered.1.rendered.addresses with
    | none => exact Proc.Triple.pure fun _ hw => hw
    | some table =>
        refine tx_triple (fun w i a s hw _ hres => ?_) (fun w _ _ hw _ => ⟨hw.1.1, hw.2⟩)
        cases hadd : w.store.addServiceAddresses table with
        | none => simp only [hadd] at hres; contradiction
        | some s' =>
            simp only [hadd] at hres
            obtain ⟨-, rfl⟩ := Prod.mk.inj (Except.ok.inj hres)
            obtain ⟨t, -, rfl⟩ := Option.map_eq_some_iff.mp hadd
            have hdesired : desiredOf B { w.store with serviceAddresses := t } =
                desiredOf B w.store := rfl
            refine ⟨.of_same rfl, ⟨hw.1.1, ?_, hw.1.2.2⟩, hw.2⟩
            rw [withStore_history hdesired]
            exact hw.1.2.1
  · refine Proc.Triple.bind (Q := fun _ => inUse (renderedWorld B) X) ?_
      fun _ => Proc.Triple.pure fun _ hw => hw
    refine Proc.Triple.act fun w i hw _ => ?_
    refine ⟨.of_same rfl, fun _ _ => ⟨⟨hw.1.1, hw.1.2.1, ?_⟩, hw.2⟩, fun _ he => by contradiction⟩
    exact congrArg some hw.1.2.2

omit [DecidableEq π] [DecidableEq δ] in
/-- An apply that completes brings up what was rendered. -/
theorem runApply_rendered : Proc.Triple (inUse (renderedWorld B) X) runApply
    (fun outcome => inUse (if outcome = none then appliedWorld B else renderedWorld B) X)
    (fun _ => inUse (renderedWorld B) X) := by
  refine Proc.Triple.act fun w i hw _ => ?_
  dsimp only
  split
  · refine ⟨.of_same rfl, fun outcome hres => ?_, fun _ he => by contradiction⟩
    obtain rfl := Except.ok.inj hres
    exact ⟨⟨⟨hw.1.1, hw.1.2⟩, rfl, rfl⟩, hw.2⟩
  · refine ⟨.of_same rfl, fun outcome hres => ?_, fun _ he => by contradiction⟩
    obtain rfl := Except.ok.inj hres
    exact hw
  · exact ⟨.of_same rfl, fun _ ha => by contradiction, fun _ _ => hw⟩

omit [DecidableEq δ] in
/-- A failed apply stays pending. -/
theorem applyRaised_rendered (e : Failure) {Q : Option Bool → Proc.Assertion (publicationRely B)} :
    Proc.Triple (inUse (renderedWorld B) X) (applyRaised B e) Q
      (fun _ => inUse (idleWorld B) X) := by
  refine Proc.Triple.bind (Q := fun _ => inUse (idleWorld B) X)
    (tx_triple (fun w i a s hw _ hres => ?_) (fun _ _ _ _ he => by contradiction))
    fun _ => Proc.Triple.throw fun _ hw => hw
  obtain ⟨-, rfl⟩ := Prod.mk.inj (Except.ok.inj hres)
  have hgrows := markerGrows_writeMarker w.store true (decide (e ≠ .applyAborted)) none
  exact ⟨.of_grows hgrows, marked_idle _ ⟨hgrows.isSome hw.1.1.1, hw.1.1.2⟩, hw.2⟩

omit [DecidableEq δ] in
/-- Clearing the marker of a complete apply. -/
theorem clearMarker_applied (approved : Option δ) (version : Nat) :
    Proc.Triple (inUse (appliedWorld B) X) (clearMarker B approved version)
      (fun _ => inUse (idleWorld B) X) (fun _ => inUse (idleWorld B) X) := by
  have happroves : Kept.Approves B (inUse (appliedWorld B) X) := fun w digest hw =>
    have hin := appliedWorld_approves w digest hw.1
    ⟨hin.1, hin.2, hw.2⟩
  refine Proc.Triple.bind ((Keeps.onlyIf (Kept.clearApprovedDigest happroves)).conseq
    (fun _ hw => hw) (fun _ _ hw => hw) (fun _ w hw => ⟨marked_idle w hw.1.1.1, hw.2⟩)) fun _ => ?_
  refine tx_triple (fun w i a s hw _ hres => ?_) (fun _ _ _ _ he => by contradiction)
  obtain ⟨-, rfl⟩ := Prod.mk.inj (Except.ok.inj hres)
  obtain ⟨⟨⟨hpending, hleased⟩, hcurrent, hrendered⟩, hcomplete, happlied⟩ := hw.1
  refine ⟨⟨fun m m' hm hm' => ?_, fun _ _ => ⟨hcurrent, hcomplete, happlied, hrendered⟩⟩,
    ⟨hleased, fun _ => ?_⟩, hw.2⟩
  · change (w.store.publicationPending.filter _) = some m' at hm'
    rw [hm] at hm'
    obtain ⟨hsame, -⟩ := Option.filter_eq_some_iff.mp hm'
    obtain rfl := Option.some.inj hsame
    exact ⟨fun hf => hf, fun hf => hf⟩
  · change w.history.applied.getD _ = desiredOf B w.store
    rw [happlied, hrendered]
    rfl

theorem applyPending_rendered (rec : Reconciled) :
    Proc.Triple (inUse (renderedWorld B) X) (applyPending B rec)
      (fun _ => inUse (idleWorld B) X) (fun _ => inUse (idleWorld B) X) := by
  have hend : ∀ w, (inUse (renderedWorld B) X).holds w → (inUse (idleWorld B) X).holds w :=
    fun w hw => ⟨marked_idle w hw.1.1, hw.2⟩
  have happroves : Kept.Approves B (inUse (renderedWorld B) X) := fun w digest hw =>
    have hin := renderedWorld_approves w digest hw.1
    ⟨hin.1, hin.2, hw.2⟩
  have hread : ∀ {α : Type} (f : Input → World π δ φ → Except Failure α),
      Proc.Triple (inUse (renderedWorld B) X) (read f) (fun _ => inUse (renderedWorld B) X)
        (fun _ => inUse (idleWorld B) X) := fun f =>
    (Keeps.read f).conseq (fun _ hw => hw) (fun _ _ hw => hw) (fun _ => hend)
  refine Proc.Triple.bind (hread _) fun marker => ?_
  cases marker with
  | none => exact Proc.Triple.pure hend
  | some marker =>
      dsimp only
      split
      · refine Proc.Triple.bind ((Kept.approveRender happroves marker.approvedDigest).conseq
          (fun _ hw => hw) (fun _ _ hw => hw) (fun _ => hend)) fun approved => ?_
        refine Proc.Triple.bind (Keeps.passing (fun _ => hread _) (fun _ _ hw => hw)) fun _ => ?_
        refine Proc.Triple.bind (hread _) fun _ => ?_
        refine Proc.Triple.bind (runApply_rendered.handle fun e => applyRaised_rendered e) fun outcome => ?_
        cases outcome with
        | some runtime => exact Proc.Triple.bind (hread _) fun _ => Proc.Triple.pure hend
        | none =>
            refine Proc.Triple.bind ((Keeps.read _).conseq (fun _ hw => hw) (fun _ _ hw => hw)
              (fun _ w hw => ⟨marked_idle w hw.1.1.1, hw.2⟩)) fun _ => ?_
            exact Proc.Triple.bind (clearMarker_applied approved marker.version)
              fun _ => Proc.Triple.pure fun _ hw => hw
      · exact Proc.Triple.pure hend

/-! ## the scheme -/

omit [DecidableEq π] [DecidableEq δ] in
/-- Nothing that is forgotten was desired. -/
theorem desiredOf_prune (s : Store π δ) : desiredOf B (pruneTerminal s) = desiredOf B s := by
  have hrows : (pruneTerminal s).deployments.rows =
      s.deployments.rows.filter fun d => d.state ∉ [DeploymentState.stopped] := rfl
  unfold desiredOf
  rw [hrows, List.filter_filter]
  refine congrArg₂ Desired.mk (List.filter_congr fun d _ => ?_) rfl
  cases hstate : d.state <;> simp [keepsUp, hstate]

omit [DecidableEq δ] in
/-- A change of the ledger that leaves the marker and what is desired alone. -/
theorem Kempt.withStore {w : World π δ φ} (h : Kempt B w) {s : Store π δ}
    (hleased : s.Leased) (hpending : s.publicationPending = w.store.publicationPending)
    (hdesired : desiredOf B s = desiredOf B w.store) :
    Discipline B w (w.withStore B s) ∧ Kempt B (w.withStore B s) := by
  refine ⟨.of_same hpending, hleased, fun hnone => ?_⟩
  rw [World.published, withStore_history hdesired]
  exact (h.published (hpending.symm.trans hnone)).trans hdesired.symm

/-- The publication scheme of the controller. -/
theorem publicationScheme (B : Backend π δ φ) :
    Scheme B False (idleWorld B) (markedWorld B) (renderedWorld B) where
  free := fun w w' ha hw => by
    refine ⟨.of_same (by rw [ha.store]), ?_⟩
    change Kempt B w'
    refine ⟨ha.store ▸ hw.leased, fun hnone => ?_⟩
    rw [World.published, ha.history, ha.store]
    exact hw.published (ha.store ▸ hnone)
  freeMarked := fun w w' ha hw => by
    refine ⟨.of_same (by rw [ha.store]), ?_⟩
    change w'.store.publicationPending.isSome ∧ w'.store.Leased
    rw [ha.store]
    exact hw
  observes := fun w r hw => ⟨.of_same rfl, hw.leased, hw.published⟩
  leased := fun w hw => hw.leased
  guarded := fun hfalse => hfalse.elim
  marks := fun w apply fresh hw _ => by
    have hgrows := markerGrows_writeMarker { w.store with profile := fresh.or w.store.profile }
      apply false none
    exact ⟨.of_grows hgrows, rfl, leased_mark hw.leased apply false none fresh⟩
  kept := markedWorld_kept
  forget := marked_idle
  unapplied := fun w hw => marked_idle w hw.1
  render := fun X hX => render_marked hX
  apply := fun X _ rec => applyPending_rendered rec
  commit := fun w i requests o a leaseId owner ttl digest candidate s hw hprofile _ _ hacq _ => by
    have hcommitted := acquire_ok hacq
    have hgrows : MarkerGrows w.store s := by
      intro m hm
      rw [hcommitted.pending]
      unfold publishCandidate
      cases digest with
      | none => exact ⟨m, hm, fun hf => hf, fun hf => hf⟩
      | some d =>
          exact markerGrows_writeMarker { w.store with profile := candidate.or w.store.profile }
            true false (some d) m hm
    refine ⟨.of_grows hgrows, hgrows.isSome hw.1, Store.Leased.of_isSome ?_⟩
    change s.profile.isSome
    rw [hcommitted.profile]
    cases candidate with
    | none => exact hprofile
    | some p => rfl
  renew := fun w i leaseId ttl o a now hw _ _ _ => by
    have hrows := rowsOnly_renew w.store leaseId ttl a.allocations now
    have hgrows : MarkerGrows w.store _ := .of_same hrows.pending
    exact ⟨.of_grows hgrows, hgrows.isSome hw.1, hw.2.rowsOnly hrows⟩
  renewLive := fun w leaseId ttl now hw hnone => by
    have hrows := rowsOnly_renew w.store leaseId ttl ∅ now
    refine hw.withStore (hw.leased.rowsOnly hrows) hrows.pending ?_
    unfold desiredOf
    rw [deployments_renewLive hnone, hrows.profile]
  approve := fun w digest hw => by
    have hgrows := markerGrows_writeMarker w.store true false (some digest)
    exact ⟨.of_grows hgrows, hgrows.isSome hw.1, hw.2⟩
  prune := fun w hw => by
    have hrows := rowsOnly_prune w.store
    exact hw.withStore (hw.leased.rowsOnly hrows) hrows.pending (desiredOf_prune w.store)
  publishProfile := fun w profile digest hw => by
    have hgrows := markerGrows_writeMarker (w.store.writeProfile profile) true false (some digest)
    exact ⟨.of_grows hgrows, rfl, Store.Leased.of_isSome rfl⟩
  migrate := fun w subnet reset digest fresh hw _ => by
    have hgrows := markerGrows_writeMarker
      { w.store with
        profile := fresh.or w.store.profile
        networkConfig := some subnet
        serviceAddresses := if reset then ∅ else w.store.serviceAddresses } true false (some digest)
    exact ⟨.of_grows hgrows, rfl, leased_mark hw.leased true false (some digest) fresh⟩
  writeProfile := fun w profile hw => ⟨.of_same rfl, hw.1, Store.Leased.of_isSome rfl⟩

/-! ## runs -/

omit [DecidableEq π] [DecidableEq δ] in
theorem kempt_init (env : Dict String String) (files : φ) (process : Process π δ) :
    Kempt B (CtlSys.init env files process).state :=
  ⟨fun _ => rfl, fun _ => rfl⟩

/-- Along every run of the controller the marker keeps its discipline, and in
every state without a marker the last complete apply brought up exactly what
the ledger desires. -/
theorem published_run (B : Backend π δ φ) (env : Dict String String) (files : φ)
    (process : Process π δ) (es : List (CtlEvent B)) :
    ((worldAfter B env files process es).store.publicationPending = none →
      (worldAfter B env files process es).published =
          desiredOf B (worldAfter B env files process es).store ∧
        ∀ d, (worldAfter B env files process es).history.applied = some d →
          d = desiredOf B (worldAfter B env files process es).store) ∧
    AllSteps (ctlStep B) (fun sys e => Discipline B sys.state (ctlStep B sys e).state)
      (CtlSys.init env files process) es := by
  have hkept := (publicationScheme B).kept_system fun _ hw => hw
  have hgood : Sys.Good (publicationRely B) (CtlSys.init env files process) :=
    ⟨kempt_init env files process, by simp [CtlSys.init]⟩
  have hall : AllSteps (ctlStep B) (Sys.Allowed (publicationRely B) fun _ _ => True)
      (CtlSys.init env files process) es := by
    have hany : AllSteps (ctlStep B) (fun _ _ => True) (CtlSys.init env files process) es :=
      allSteps_iff.mpr fun _ _ _ => trivial
    refine AllSteps.of_inv (I := fun _ => True) (fun _ _ _ _ => trivial) (fun sys e _ _ => ?_)
      trivial hany
    cases e with
    | start v => exact .inr trivial
    | step i => trivial
    | crash => trivial
    | disturb r => trivial
  have hend := Sys.run_inv hkept hgood hall
  refine ⟨fun hnone => ?_, ?_⟩
  · have hpublished : (worldAfter B env files process es).published = _ :=
      hend.inv.published hnone
    refine ⟨hpublished, fun d hd => ?_⟩
    rw [World.published, hd] at hpublished
    exact hpublished
  · exact Sys.allSteps_guar hkept (fun v w => .of_same rfl)
      (fun r w => .of_same (renewIfLive_onlyRenewals w r.leaseId r.ttlSeconds r.now).pending)
      hgood hall

end InferStack
