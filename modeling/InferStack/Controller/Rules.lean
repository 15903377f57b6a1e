import InferStack.Controller
import InferStack.Ledger.Spec

/-!
# InferStack.Controller.Rules

Proof rules for the steps of the controller, under any assumptions `R`, and what
the lock-free renew can do between them.

* `OnlyRenewals` — another process has renewed leases, and nothing else;
* `tx_triple`, `read_triple`, `write_triple` — the rules of single steps;
* `Upkeep` — the ledger transactions every operation shares;
* `Kept` — an assertion that upkeep and writes outside the ledger preserve, and
  the programs that preserve it with them.
-/

namespace InferStack

open Kit

variable {π δ φ : Type}

/-! ## what comes between two steps -/

/-- Between two steps of the lock holder only leases have been renewed, and its
own catalogs updated. -/
structure OnlyRenewals (w w' : World π δ φ) : Prop where
  deployments : w'.store.deployments = w.store.deployments
  claims : w'.store.claims = w.store.claims
  profile : w'.store.profile = w.store.profile
  pending : w'.store.publicationPending = w.store.publicationPending
  desiredGen : w'.store.desiredGen = w.store.desiredGen
  version : w'.store.admissionStateVersion = w.store.admissionStateVersion
  addresses : w'.store.serviceAddresses = w.store.serviceAddresses
  network : w'.store.networkConfig = w.store.networkConfig
  leaseStates : ∀ l, (w'.store.getLease l).map Lease.state = (w.store.getLease l).map Lease.state
  env : w'.env = w.env
  files : w'.files = w.files
  process : ∃ v, w'.process = { w.process with invocation := v }
  history : w'.history = w.history
  observed : w'.observed = w.observed

namespace OnlyRenewals

theorem refl (w : World π δ φ) : OnlyRenewals w w :=
  ⟨rfl, rfl, rfl, rfl, rfl, rfl, rfl, rfl, fun _ => rfl, rfl, rfl, ⟨_, rfl⟩, rfl, rfl⟩

theorem trans (w₁ w₂ w₃ : World π δ φ) (h : OnlyRenewals w₁ w₂) (h' : OnlyRenewals w₂ w₃) :
    OnlyRenewals w₁ w₃ where
  deployments := h'.deployments.trans h.deployments
  claims := h'.claims.trans h.claims
  profile := h'.profile.trans h.profile
  pending := h'.pending.trans h.pending
  desiredGen := h'.desiredGen.trans h.desiredGen
  version := h'.version.trans h.version
  addresses := h'.addresses.trans h.addresses
  network := h'.network.trans h.network
  leaseStates := fun l => (h'.leaseStates l).trans (h.leaseStates l)
  env := h'.env.trans h.env
  files := h'.files.trans h.files
  process := by
    obtain ⟨v, hv⟩ := h.process
    obtain ⟨v', hv'⟩ := h'.process
    exact ⟨v', by rw [hv', hv]⟩
  history := h'.history.trans h.history
  observed := h'.observed.trans h.observed

variable {w w' : World π δ φ}

theorem inUse (h : OnlyRenewals w w') :
    w'.process.toProfileInUse = w.process.toProfileInUse := by
  obtain ⟨v, hv⟩ := h.process
  rw [hv]

theorem managed (h : OnlyRenewals w w') : w'.managed = w.managed := by
  obtain ⟨v, hv⟩ := h.process
  unfold World.managed
  rw [h.env, hv]

theorem settings (h : OnlyRenewals w w') : w'.settings = w.settings := by
  obtain ⟨v, hv⟩ := h.process
  unfold World.settings
  rw [h.files, hv]

theorem getDeployment (h : OnlyRenewals w w') (g : String) :
    w'.store.getDeployment g = w.store.getDeployment g := by
  unfold Store.getDeployment
  rw [h.deployments]

theorem deploymentIds (h : OnlyRenewals w w') (l : String) :
    w'.store.deploymentIds l = w.store.deploymentIds l := by
  unfold Store.deploymentIds Store.claimsOf
  rw [h.claims]

theorem desired (h : OnlyRenewals w w') (B : Backend π δ φ) :
    desiredOf B w'.store = desiredOf B w.store := by
  unfold desiredOf
  rw [h.deployments, h.profile]

/-- No lease is new. -/
theorem leases (h : OnlyRenewals w w') : w'.store.leases.keys ⊆ w.store.leases.keys := by
  intro l hl
  have hstates := h.leaseStates l
  obtain ⟨row, hrow⟩ := Option.isSome_iff_exists.mp (Table.mem_keys_iff.mp hl)
  have hget : w'.store.getLease l = some row := hrow
  have hsome : ((w.store.getLease l).map Lease.state).isSome := by
    rw [← hstates, hget]
    rfl
  rw [Option.isSome_map] at hsome
  exact Table.mem_keys_iff.mpr hsome

end OnlyRenewals

/-- The assumptions of the controller's programs: steps that are `ok`, and only
lease renewals between two of them. -/
def ctlRely (ok : World π δ φ → Input → World π δ φ → Prop) (inv : World π δ φ → Prop)
    (guar : World π δ φ → World π δ φ → Prop) (hguar : ∀ w, guar w w) :
    Rely (World π δ φ) Input where
  ok := ok
  moved := OnlyRenewals
  inv := inv
  guar := guar
  refl := OnlyRenewals.refl
  guar_refl := hguar
  trans := OnlyRenewals.trans

section Rules

variable [DecidableEq π] {B : Backend π δ φ}

/-- The lock-free renew only renews. -/
theorem renewIfLive_onlyRenewals (w : World π δ φ) (leaseId : String) (ttl : Option Int)
    (now : Int) :
    OnlyRenewals w (w.withStore B (renewIfLive w.store leaseId ttl now).2) := by
  have hhist : ∀ s : Store π δ, s.deployments = w.store.deployments →
      s.profile = w.store.profile → (w.withStore B s).history = w.history := by
    intro s hd hp
    have hsame : desiredOf B s = desiredOf B w.store := by unfold desiredOf; rw [hd, hp]
    simp [World.withStore, hsame]
  cases renewIfLive_cases w.store leaseId ttl now with
  | inl hsame =>
      rw [hsame.1]
      exact { OnlyRenewals.refl w with history := hhist _ rfl rfl }
  | inr hrenewed =>
      obtain ⟨l, hl, hact, -, hstore⟩ := hrenewed
      rw [hstore]
      refine ⟨rfl, rfl, rfl, rfl, rfl, rfl, rfl, rfl, fun l' => ?_, rfl, rfl, ⟨_, rfl⟩,
        hhist _ rfl rfl, rfl⟩
      change ((w.store.renewLease leaseId ttl _ now).getLease l').map Lease.state = _
      rw [Store.getLease_renewLease]
      by_cases heq : l' = leaseId
      · rw [if_pos heq, heq, hl]
        simp [Lease.renewed, hact]
      · rw [if_neg heq]

variable {ok : World π δ φ → Input → World π δ φ → Prop} {inv : World π δ φ → Prop}
  {guar : World π δ φ → World π δ φ → Prop} {hguar : ∀ w, guar w w} {P : Proc.Assertion (ctlRely ok inv guar hguar)}

/-! ## single steps -/

/-- A transaction: it commits, or leaves the world alone. -/
theorem tx_rule {α : Type} {f : Input → Store π δ → Except Failure (α × Store π δ)}
    {Q : α → Proc.Assertion (ctlRely ok inv guar hguar)}
    {E : Failure → Proc.Assertion (ctlRely ok inv guar hguar)}
    (hok : ∀ w i a s, P.holds w → ok w i (w.withStore B s) → f i w.store = .ok (a, s) →
      guar w (w.withStore B s) ∧ (Q a).holds (w.withStore B s))
    (herr : ∀ w i e, P.holds w → ok w i w → f i w.store = .error e → (E e).holds w) :
    Proc.Triple P (tx B f) Q E := by
  refine Proc.Triple.act fun w i hw hstepOk => ?_
  change ok w i _ at hstepOk
  cases hres : f i w.store with
  | ok r =>
      obtain ⟨a, s⟩ := r
      have hstep := hok w i a s hw (by simpa only [hres] using hstepOk) hres
      refine ⟨hstep.1, fun a' ha' => ?_, fun e he => by contradiction⟩
      obtain rfl := Except.ok.inj ha'
      exact hstep.2
  | error e =>
      have hstep := herr w i e hw (by simpa only [hres] using hstepOk) hres
      refine ⟨hguar w, fun a ha => by contradiction, fun e' he' => ?_⟩
      obtain rfl := Except.error.inj he'
      exact hstep

/-- A transaction whose failure tells nothing. -/
theorem tx_triple {α : Type} {f : Input → Store π δ → Except Failure (α × Store π δ)}
    {Q : α → Proc.Assertion (ctlRely ok inv guar hguar)}
    {E : Failure → Proc.Assertion (ctlRely ok inv guar hguar)}
    (hok : ∀ w i a s, P.holds w → ok w i (w.withStore B s) → f i w.store = .ok (a, s) →
      guar w (w.withStore B s) ∧ (Q a).holds (w.withStore B s))
    (herr : ∀ w i e, P.holds w → f i w.store = .error e → (E e).holds w) :
    Proc.Triple P (tx B f) Q E :=
  tx_rule hok fun w i e hw _ hres => herr w i e hw hres

omit [DecidableEq π] in
/-- A read leaves the world alone. -/
theorem read_triple {α : Type} {f : Input → World π δ φ → Except Failure α}
    {Q : α → Proc.Assertion (ctlRely ok inv guar hguar)}
    {E : Failure → Proc.Assertion (ctlRely ok inv guar hguar)}
    (hok : ∀ w i a, P.holds w → f i w = .ok a → (Q a).holds w)
    (herr : ∀ w i e, P.holds w → f i w = .error e → (E e).holds w) :
    Proc.Triple P (read f) Q E :=
  Proc.Triple.act fun w i hw _ =>
    ⟨hguar w, fun a ha => hok w i a hw ha, fun e he => herr w i e hw he⟩

omit [DecidableEq π] in
/-- A write of one kind keeps what writes of that kind keep. -/
theorem write_triple {α : Type} {f : Input → World π δ φ → Except Failure α × World π δ φ}
    {kind : World π δ φ → World π δ φ → Prop} (hkind : ∀ i w, kind w (f i w).2)
    (hwrite : ∀ w w', kind w w' → P.holds w → guar w w' ∧ P.holds w') :
    Proc.Triple P (Proc.act f) (fun _ => P) (fun _ => P) := by
  refine Proc.Triple.act fun w i hw _ => ?_
  have hw' := hwrite w _ (hkind i w) hw
  exact ⟨hw'.1, fun _ _ => hw'.2, fun _ _ => hw'.2⟩

omit [DecidableEq π] in
/-- Only a ledger that has moved refuses it for a conflict. -/
theorem commitTx_conflict {owner : String} {ttl : Option Int} {o : AcquireOverlay}
    {a : Admission δ} {apply : Bool} {candidate : Option π} {i : Input} {s : Store π δ}
    (h : commitTx B owner ttl o a apply candidate i s = .error .admissionConflict) :
    s.admissionStateVersion ≠ (enrichOverlay B o).stateVersion := by
  unfold commitTx at h
  split at h
  · simp at h
  · split at h
    · contradiction
    · rename_i hacq
      exact acquire_conflict hacq
    · simp at h

/-- An assertion with more said about it. -/
def also (P : Proc.Assertion (ctlRely ok inv guar hguar)) (X : World π δ φ → Prop)
    (hX : ∀ w w', X w → OnlyRenewals w w' → X w') : Proc.Assertion (ctlRely ok inv guar hguar) where
  holds := fun w => P.holds w ∧ X w
  inv := fun w h => P.inv w h.1
  moved := fun w w' h hm => ⟨P.moved w w' h.1 hm, hX w w' h.2 hm⟩

/-- A program that exits where it starts, in `P`. -/
abbrev Keeps {α : Type} (P : Proc.Assertion (ctlRely ok inv guar hguar)) (p : Ctl π δ φ α) :
    Prop := Proc.Triple P p (fun _ => P) (fun _ => P)

namespace Keeps

variable {α β : Type}

omit [DecidableEq π] in
theorem pure (a : α) : Keeps P (Pure.pure a : Ctl π δ φ α) := Proc.Triple.pure fun _ hw => hw

omit [DecidableEq π] in
theorem throw (e : Failure) : Keeps P (MonadExcept.throw e : Ctl π δ φ α) :=
  Proc.Triple.throw fun _ hw => hw

omit [DecidableEq π] in
theorem bind {p : Ctl π δ φ α} {k : α → Ctl π δ φ β} (hp : Keeps P p)
    (hk : ∀ a, Keeps P (k a)) : Keeps P (p >>= k) := Proc.Triple.bind hp hk

omit [DecidableEq π] in
theorem handle {p : Ctl π δ φ α} {k : Failure → Ctl π δ φ α} (hp : Keeps P p)
    (hk : ∀ e, Keeps P (k e)) : Keeps P (p.handle k) := Proc.Triple.handle hp hk

omit [DecidableEq π] in
theorem read (f : Input → World π δ φ → Except Failure α) : Keeps P (InferStack.read f) :=
  read_triple (fun _ _ _ hw _ => hw) (fun _ _ _ hw _ => hw)

omit [DecidableEq π] in
/-- What holds after a part that runs under a condition. -/
theorem passing {c : Prop} [Decidable c] {p : Ctl π δ φ Unit}
    {Q : Proc.Assertion (ctlRely ok inv guar hguar)}
    {E : Failure → Proc.Assertion (ctlRely ok inv guar hguar)}
    (hp : c → Proc.Triple P p (fun _ => Q) E) (hQ : ¬ c → ∀ w, P.holds w → Q.holds w) :
    Proc.Triple P (InferStack.onlyIf c p) (fun _ => Q) E := by
  unfold InferStack.onlyIf
  split
  · rename_i hc
    exact hp hc
  · rename_i hc
    exact Proc.Triple.pure (hQ hc)

omit [DecidableEq π] in
theorem onlyIf {c : Prop} [Decidable c] {p : Ctl π δ φ Unit} (hp : Keeps P p) :
    Keeps P (InferStack.onlyIf c p) := passing (fun _ => hp) (fun _ _ hw => hw)

end Keeps

omit [DecidableEq π] in
/-- Undoing always raises: what must hold after it is what holds when it raises. -/
theorem undoing_triple {α : Type} {undo : Ctl π δ φ Unit}
    {P' : Proc.Assertion (ctlRely ok inv guar hguar)}
    {Q : α → Proc.Assertion (ctlRely ok inv guar hguar)}
    (hundo : Proc.Triple P undo (fun _ => P') (fun _ => P')) (e : Failure) :
    Proc.Triple P (undoing undo e) Q (fun _ => P') :=
  Proc.Triple.bind hundo fun _ => Proc.Triple.throw fun _ hw => hw

/-! ## writes outside the ledger -/

/-- A write to the process, to the files or to the managed `.env`. -/
structure Aside (w w' : World π δ φ) : Prop where
  store : w'.store = w.store
  history : w'.history = w.history
  observed : w'.observed = w.observed

/-- A write aside that leaves the profile in use alone. -/
structure Steady (w w' : World π δ φ) : Prop extends Aside w w' where
  inUse : w'.process.toProfileInUse = w.process.toProfileInUse

/-- What writes aside preserve. -/
def Free (P : Proc.Assertion (ctlRely ok inv guar hguar)) : Prop :=
  ∀ w w', Aside w w' → P.holds w → guar w w' ∧ P.holds w'

/-- What steady writes preserve. -/
def Quiet (P : Proc.Assertion (ctlRely ok inv guar hguar)) : Prop :=
  ∀ w w', Steady w w' → P.holds w → guar w w' ∧ P.holds w'

omit [DecidableEq π] in
theorem Free.quiet (h : Free P) : Quiet P := fun w w' hs => h w w' hs.toAside

omit [DecidableEq π] in
theorem Free.also (h : Free P) {X : World π δ φ → Prop} {hX : ∀ w w', X w → OnlyRenewals w w' → X w'}
    (haside : ∀ w w', Aside w w' → X w → X w') : Free (also P X hX) := fun w w' ha hw =>
  have hw' := h w w' ha hw.1
  ⟨hw'.1, hw'.2, haside w w' ha hw.2⟩

namespace Quiet

variable {α : Type} (h : Quiet P)

include h

omit [DecidableEq π] in
theorem also {X : World π δ φ → Prop} {hX : ∀ w w', X w → OnlyRenewals w w' → X w'}
    (hsteady : ∀ w w', Steady w w' → X w → X w') : Quiet (also P X hX) := fun w w' hs hw =>
  have hw' := h w w' hs hw.1
  ⟨hw'.1, hw'.2, hsteady w w' hs hw.2⟩

omit [DecidableEq π] in
theorem act {f : Input → World π δ φ → Except Failure α × World π δ φ}
    (hf : ∀ i w, Steady w (f i w).2) : Keeps P (Proc.act f) := write_triple hf h

omit [DecidableEq π] in
theorem remembering {f : Process π δ → Process π δ}
    (hf : ∀ p, (f p).toProfileInUse = p.toProfileInUse) : Keeps P (InferStack.remembering f) :=
  h.act fun _ w => ⟨⟨rfl, rfl, rfl⟩, hf w.process⟩

omit [DecidableEq π] in
theorem provideSecrets (staging : Bool) :
    Keeps P (InferStack.provideSecrets B staging) :=
  h.act fun _ _ => ⟨⟨rfl, rfl, rfl⟩, rfl⟩

omit [DecidableEq π] in
theorem previewLedger (residency : Option Residency)
    (network : Store π δ → Option (String × Dict String String)) :
    Keeps P (InferStack.previewLedger B residency network) :=
  (h.provideSecrets true).bind fun _ => Keeps.read _

omit [DecidableEq π] in
theorem writeEnv (f : Dict String String → Dict String String) :
    Keeps P (InferStack.writeEnv f) := h.act fun _ _ => ⟨⟨rfl, rfl, rfl⟩, rfl⟩

end Quiet

/-! ## upkeep -/

/-- The ledger transactions every operation shares: what shrinks demand, what a
render persists, and the marker's upkeep. -/
inductive Upkeep (s : Store π δ) : Store π δ → Prop where
  | sweep (now : Int) : Upkeep s (sweep s now).2
  | release (leaseId : String) (now : Int) : Upkeep s (release s leaseId now).2
  | evict (ids : Option (List String)) (now : Int) : Upkeep s (evictIdle s ids now).2
  /-- A LIVE row without an allocation adopts one. -/
  | backfill (residency : Residency) (d : Deployment) (gpus : List Nat)
      (hrow : s.getDeployment d.id = some d) (h : backfillGpus residency d = some gpus) :
      Upkeep s (setAllocation s d.id (some gpus))
  | addresses (table : Dict String String) (s' : Store π δ)
      (h : s.addServiceAddresses table = some s') : Upkeep s s'
  | approve (digest : Option δ) : Upkeep s (s.setApprovedDigest digest)
  /-- A mark writes a profile only where there is none. -/
  | mark (apply interrupted : Bool) (profile : Option π)
      (h : s.profile ≠ none → profile = none) :
      Upkeep s (s.markPublicationPending apply interrupted none profile)

/-- A steady write outside the ledger, which may record what happened. -/
structure Recorded (w w' : World π δ φ) : Prop where
  store : w'.store = w.store
  observed : w'.observed = w.observed
  inUse : w'.process.toProfileInUse = w.process.toProfileInUse

/-- One that writes or applies no files. -/
structure Outside (w w' : World π δ φ) : Prop extends Recorded w w' where
  served : w'.history.served = w.history.served

omit [DecidableEq π] in
theorem Steady.outside {w w' : World π δ φ} (h : Steady w w') : Outside w w' :=
  ⟨⟨h.store, h.observed, h.inUse⟩, by rw [h.history]⟩

/-- What every recorded write preserves. -/
def Records (P : Proc.Assertion (ctlRely ok inv guar hguar)) : Prop :=
  ∀ w w', Recorded w w' → P.holds w → guar w w' ∧ P.holds w'

namespace Records

variable (h : Records P)

include h

omit [DecidableEq π] in
theorem writeFiles (docs : Documents π δ φ) (desired : Desired π) :
    Keeps P (InferStack.writeFiles B docs desired) :=
  write_triple (fun _ _ => ⟨rfl, rfl, rfl⟩) h

omit [DecidableEq π] in
theorem runApply : Keeps P (InferStack.runApply (π := π) (δ := δ) (φ := φ)) := by
  refine write_triple (fun i w => (?_ : Recorded w _)) h
  dsimp only
  split <;> exact ⟨rfl, rfl, rfl⟩

end Records

/-- What upkeep and writes outside the ledger preserve. -/
structure Kept (B : Backend π δ φ) (P : Proc.Assertion (ctlRely ok inv guar hguar)) : Prop where
  write : ∀ w w', Outside w w' → P.holds w → guar w w' ∧ P.holds w'
  upkeep : ∀ w s, Upkeep w.store s → P.holds w →
    guar w (w.withStore B s) ∧ P.holds (w.withStore B s)

namespace Kept

variable {α : Type} (h : Kept B P)

include h

theorem quiet : Quiet P := fun w w' hs => h.write w w' hs.outside

/-- A transaction of upkeep. -/
theorem tx {f : Input → Store π δ → Except Failure (α × Store π δ)}
    (hf : ∀ i s a s', f i s = .ok (a, s') → Upkeep s s') : Keeps P (InferStack.tx B f) :=
  tx_triple (fun w i _ s hw _ hres => h.upkeep w s (hf i w.store _ s hres) hw)
    (fun _ _ _ hw _ => hw)

theorem act {f : Input → World π δ φ → Except Failure α × World π δ φ}
    (hf : ∀ i w, Outside w (f i w).2) : Keeps P (Proc.act f) := write_triple hf h.write

/-! ### rendering -/

theorem sweepLedger : Keeps P (InferStack.sweepLedger B) := by
  refine h.tx fun i s a s' hres => ?_
  obtain ⟨-, rfl⟩ := Prod.mk.inj (Except.ok.inj hres)
  exact .sweep i.now

/-- The rows a render read are still the ledger's. -/
def rowsOf (deployments : List Deployment) (w : World π δ φ) : Prop :=
  ∀ d ∈ deployments, w.store.getDeployment d.id = some d

omit [DecidableEq π] h in
theorem rowsOf_moved (ds : List Deployment) (w w' : World π δ φ) (hX : rowsOf ds w)
    (hm : OnlyRenewals w w') : rowsOf ds w' := by
  intro d hd
  rw [hm.getDeployment]
  exact hX d hd

theorem backfillAllocations (residency : Residency) {ds : List Deployment}
    (hnodup : (ds.map Deployment.id).Nodup) :
    Proc.Triple (also P (rowsOf ds) (rowsOf_moved ds))
      (InferStack.backfillAllocations B residency ds) (fun _ => P) (fun _ => P) := by
  induction ds with
  | nil => exact Proc.Triple.pure fun w hw => hw.1
  | cons d ds ih =>
      rw [List.map_cons, List.nodup_cons] at hnodup
      unfold InferStack.backfillAllocations
      cases hgpus : backfillGpus residency d with
      | none =>
          refine (ih hnodup.2).conseq (fun w hw => ⟨hw.1, fun e he => ?_⟩) (fun _ _ hw => hw)
            (fun _ _ hw => hw)
          exact hw.2 e (List.mem_cons_of_mem d he)
      | some gpus =>
          refine Proc.Triple.bind (tx_triple (fun w i a s hw _ hres => ?_)
            (fun w i e hw _ => hw.1)) fun _ => ih hnodup.2
          obtain ⟨-, rfl⟩ := Prod.mk.inj (Except.ok.inj hres)
          have hrow := hw.2 d List.mem_cons_self
          have hstep := h.upkeep w _ (.backfill residency d gpus hrow hgpus) hw.1
          refine ⟨hstep.1, hstep.2, fun e he => ?_⟩
          have hne : e.id ≠ d.id := by
            intro heq
            exact hnodup.1 (heq ▸ List.mem_map_of_mem he)
          have hget : (w.store.setDeploymentAllocation d.id (some gpus)).getDeployment e.id =
              w.store.getDeployment e.id := by
            rw [Store.getDeployment_setDeploymentAllocation, if_neg hne]
          exact hget.trans (hw.2 e (List.mem_cons_of_mem d he))

theorem renderDesired (residency : Residency) (secrets : Dict String String) :
    Keeps P (InferStack.renderDesired B residency secrets) := by
  refine h.act fun i w => ?_
  dsimp only
  split <;> exact ⟨⟨rfl, rfl, rfl⟩, rfl⟩

theorem keepAddresses (docs : Documents π δ φ) :
    Keeps P (InferStack.keepAddresses B docs) := by
  unfold InferStack.keepAddresses
  cases docs.rendered.addresses with
  | none => exact Keeps.pure ()
  | some table =>
      refine h.tx fun i s a s' hres => ?_
      cases hadd : s.addServiceAddresses table with
      | none => rw [hadd] at hres; contradiction
      | some s'' =>
          rw [hadd] at hres
          obtain ⟨-, rfl⟩ := Prod.mk.inj (Except.ok.inj hres)
          exact .addresses table s'' hadd

omit [DecidableEq π] h in
theorem readRows : Proc.Triple P
    (InferStack.read fun _ (w : World π δ φ) => .ok w.store.listDeployments)
    (fun ds => also P (fun w => rowsOf ds w ∧ (ds.map Deployment.id).Nodup)
      (fun w w' hX hm => ⟨rowsOf_moved ds w w' hX.1 hm, hX.2⟩)) (fun _ => P) := by
  refine read_triple (fun w i ds hw hres => ⟨hw, ?_⟩) (fun _ _ _ hw _ => hw)
  obtain rfl := Except.ok.inj hres
  refine ⟨fun d hd => Table.mem_iff_find?.mp (Store.mem_listDeployments.mp hd), ?_⟩
  have hperm : w.store.listDeployments.Perm w.store.deployments.rows :=
    List.perm_insertionSort _ _
  exact (hperm.map Deployment.id).nodup_iff.mpr w.store.deployments.nodup

theorem gatherRender : Keeps P (InferStack.gatherRender B) := by
  refine h.sweepLedger.bind fun _ => ?_
  refine (Keeps.read _).bind fun residency => ?_
  refine Proc.Triple.bind readRows fun ds => ?_
  by_cases hnodup : (ds.map Deployment.id).Nodup
  · refine Proc.Triple.bind ((h.backfillAllocations residency hnodup).conseq
      (fun w hw => ⟨hw.1, hw.2.1⟩) (fun _ _ hw => hw) (fun _ _ hw => hw)) fun _ => ?_
    exact Keeps.pure _
  · exact fun w hw => absurd hw.2.2 hnodup

theorem prepareRender : Keeps P (InferStack.prepareRender B) :=
  h.gatherRender.bind fun _ => (h.quiet.provideSecrets false).bind fun _ => Keeps.pure _

theorem render (hrecords : Records P) : Keeps P (InferStack.render B) := by
  refine h.prepareRender.bind fun prepared => ?_
  refine (h.renderDesired prepared.1 prepared.2).bind fun rendered => ?_
  refine (h.keepAddresses rendered.1).bind fun _ => ?_
  exact (hrecords.writeFiles rendered.1 rendered.2).bind fun _ => Keeps.pure _

/-! ### applying -/

omit h in
/-- Replacing the approved digest keeps the assertion. -/
def Approves (B : Backend π δ φ) (P : Proc.Assertion (ctlRely ok inv guar hguar)) : Prop :=
  ∀ w digest, P.holds w → guar w (w.withStore B (w.store.setApprovedDigest digest)) ∧
    P.holds (w.withStore B (w.store.setApprovedDigest digest))

theorem approves : Approves B P := fun w digest => h.upkeep w _ (.approve digest)

omit h in
theorem approveRender [DecidableEq δ] (h : Approves B P) (approved : Option δ) :
    Keeps P (InferStack.approveRender B approved) := by
  unfold InferStack.approveRender
  cases approved with
  | none => exact Keeps.pure _
  | some digest =>
      refine (Keeps.read _).bind fun p => ?_
      split
      · exact Keeps.pure _
      · split
        · exact Keeps.throw _
        · cases p.lastDigest with
          | none => exact Keeps.pure _
          | some digest' =>
              refine Keeps.bind (tx_triple (fun w i a s hw _ hres => ?_) (fun _ _ _ hw _ => hw))
                fun _ => Keeps.pure _
              obtain ⟨-, rfl⟩ := Prod.mk.inj (Except.ok.inj hres)
              exact h w (some digest') hw

theorem applyRaised (e : Failure) : Keeps P (InferStack.applyRaised B e) := by
  refine Keeps.bind (h.tx fun i s a s' hres => ?_) fun _ => Keeps.throw e
  obtain ⟨-, rfl⟩ := Prod.mk.inj (Except.ok.inj hres)
  exact .mark true _ none (fun _ => rfl)

omit h in
theorem clearApprovedDigest (h : Approves B P) : Keeps P (InferStack.clearApprovedDigest B) := by
  refine tx_triple (fun w i a s hw _ hres => ?_) (fun _ _ _ hw _ => hw)
  obtain ⟨-, rfl⟩ := Prod.mk.inj (Except.ok.inj hres)
  exact h w none hw

omit h in
/-- Clearing the marker keeps the assertion too. -/
def Clears (B : Backend π δ φ) (P : Proc.Assertion (ctlRely ok inv guar hguar)) : Prop :=
  ∀ w version, P.holds w → guar w (w.withStore B (w.store.clearPublicationPending version)) ∧
    P.holds (w.withStore B (w.store.clearPublicationPending version))

theorem clearMarker (hclear : Clears B P) (approved : Option δ) (version : Nat) :
    Keeps P (InferStack.clearMarker B approved version) := by
  refine (Keeps.onlyIf (clearApprovedDigest h.approves)).bind fun _ => ?_
  refine tx_triple (fun w i a s hw _ hres => ?_) (fun _ _ _ hw _ => hw)
  obtain ⟨-, rfl⟩ := Prod.mk.inj (Except.ok.inj hres)
  exact hclear w version hw

theorem applyMarked [DecidableEq δ] (hclear : Clears B P) (hrun : Keeps P runApply)
    (rec : Reconciled) (marker : Marker δ) : Keeps P (InferStack.applyMarked B rec marker) := by
  refine (approveRender h.approves _).bind fun approved => ?_
  refine (Keeps.onlyIf (Keeps.read _)).bind fun _ => (Keeps.read _).bind fun _ => ?_
  refine (hrun.handle h.applyRaised).bind fun outcome => (Keeps.read _).bind fun _ => ?_
  cases outcome with
  | some runtime => exact Keeps.pure _
  | none => exact (h.clearMarker hclear approved marker.version).bind fun _ => Keeps.pure _

theorem applyPending [DecidableEq δ] (hclear : Clears B P) (hrun : Keeps P runApply)
    (rec : Reconciled) : Keeps P (InferStack.applyPending B rec) := by
  refine (Keeps.read _).bind fun marker => ?_
  cases marker with
  | none => exact Keeps.pure rec
  | some marker =>
      dsimp only
      split
      · exact h.applyMarked hclear hrun rec marker
      · exact Keeps.pure _

/-! ### shrinking demand -/

theorem releaseTx (leaseId : String) : Keeps P (InferStack.releaseTx B leaseId) := by
  refine h.tx fun i s a s' hres => ?_
  have heq := Except.ok.inj hres
  rw [show s' = (InferStack.release s leaseId i.now).2 by rw [heq]]
  exact .release leaseId i.now

theorem evictIdleDeployments (ids : Option (List String)) :
    Keeps P (InferStack.evictIdleDeployments B ids) := by
  refine h.tx fun i s a s' hres => ?_
  obtain ⟨-, rfl⟩ := Prod.mk.inj (Except.ok.inj hres)
  exact .evict ids i.now

theorem releaseEach (ls : List String) : Keeps P (InferStack.releaseEach B ls) := by
  induction ls with
  | nil => exact Keeps.pure []
  | cons l ls ih => exact (h.releaseTx l).bind fun r => ih.bind fun _ => Keeps.pure _

theorem evictNeverRan (ids : List String) : Keeps P (InferStack.evictNeverRan B ids) :=
  Keeps.onlyIf <| (Keeps.read _).bind fun _ => Keeps.onlyIf (h.evictIdleDeployments _)

end Kept

end Rules

end InferStack
