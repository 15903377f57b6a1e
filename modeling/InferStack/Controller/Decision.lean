import InferStack.Controller.ProfileInUse

/-!
# InferStack.Controller.Decision

What an acquire or a renew has decided, and how long that stays true.

* `Planned`, `PlannedRenew` — the overlay is the plan on these rows;
* `Weighed`, `Admitted` — it was decided by this process, and admitted;
* `SameRows`, `SameBasis` — what a decision depends on.

Only lease renewals come between a decision and its commit, and marking the
publication changes nothing a decision depends on.
-/

namespace InferStack

open Kit

variable {π δ φ : Type}

/-! ## what an admission decided -/

/-- No row has changed, nor what was observed. -/
structure SameRows (w w' : World π δ φ) : Prop where
  deployments : w'.store.deployments = w.store.deployments
  claims : w'.store.claims = w.store.claims
  version : w'.store.admissionStateVersion = w.store.admissionStateVersion
  addresses : w'.store.serviceAddresses = w.store.serviceAddresses
  network : w'.store.networkConfig = w.store.networkConfig
  observed : w'.observed = w.observed

/-- Nothing a decision depends on has changed. -/
structure SameBasis (w w' : World π δ φ) : Prop extends SameRows w w' where
  settings : w'.settings = w.settings
  managed : w'.managed = w.managed

theorem OnlyRenewals.sameBasis {w w' : World π δ φ} (h : OnlyRenewals w w') : SameBasis w w' where
  deployments := h.deployments
  claims := h.claims
  version := h.version
  addresses := h.addresses
  network := h.network
  observed := h.observed
  settings := h.settings
  managed := h.managed

theorem Aside.sameRows {w w' : World π δ φ} (h : Aside w w') : SameRows w w' := by
  refine ⟨?_, ?_, ?_, ?_, ?_, h.observed⟩ <;> rw [h.store]

/-- `s` is the world's ledger as a decision read it. -/
structure Read (s : Store π δ) (w : World π δ φ) : Prop where
  deployments : s.deployments = w.store.deployments
  claims : s.claims = w.store.claims
  version : s.admissionStateVersion = w.store.admissionStateVersion
  addresses : s.serviceAddresses = w.store.serviceAddresses
  network : s.networkConfig = w.store.networkConfig

theorem Read.self (w : World π δ φ) : Read w.store w := ⟨rfl, rfl, rfl, rfl, rfl⟩

theorem Read.of_same {s : Store π δ} {w w' : World π δ φ} (h : Read s w) (hw : SameRows w w') :
    Read s w' where
  deployments := h.deployments.trans hw.deployments.symm
  claims := h.claims.trans hw.claims.symm
  version := h.version.trans hw.version.symm
  addresses := h.addresses.trans hw.addresses.symm
  network := h.network.trans hw.network.symm

/-- The overlay is the plan of `requests` on these rows. -/
def Planned (requests : List EndpointRequest) (o : AcquireOverlay) (w : World π δ φ) : Prop :=
  ∃ s : Store π δ, Read s w ∧ ∃ now newId,
    o = planAcquire s requests (fun g => w.observed.any (·.isResident g)) now newId

/-- The overlay is the plan of a renew of `leaseId` on these rows. -/
def PlannedRenew (leaseId : String) (o : AcquireOverlay) (w : World π δ φ) : Prop :=
  ∃ s : Store π δ, Read s w ∧ ∃ now, o = renewOverlay s leaseId now

/-- The secrets are those of the managed `.env`, staged where it lacks them. -/
def Provided (B : Backend π δ φ) (secrets : Dict String String) (w : World π δ φ) : Prop :=
  ∃ m new, ManagedEnv.secrets m true (B.secretNames w.settings.profile) new = (secrets, w.managed)

/-- The overlay was decided on these rows. -/
def Decided (B : Backend π δ φ) (settings : RenderSettings π φ) (secrets : Dict String String)
    (managed : ManagedEnv) (o : AcquireOverlay) (a : Admission δ) (w : World π δ φ) : Prop :=
  ∃ s : Store π δ, Read s w ∧ admitView B s settings secrets managed o w.observed = .ok a

/-- It was decided by this process, as it is. -/
def Weighed (B : Backend π δ φ) (o : AcquireOverlay) (a : Admission δ) (w : World π δ φ) : Prop :=
  ∃ secrets, Provided B secrets w ∧ Decided B w.settings secrets w.managed o a w

/-- It was decided by this process, and admitted. -/
structure Admitted (B : Backend π δ φ) (o : AcquireOverlay) (a : Admission δ)
    (w : World π δ φ) : Prop where
  weighed : Weighed B o a w
  reasons : a.reasons = []

/-- It was admitted, whatever the process rendered with. -/
structure AdmittedOnce (B : Backend π δ φ) (o : AcquireOverlay) (a : Admission δ)
    (w : World π δ φ) : Prop where
  decided : ∃ settings secrets managed, Decided B settings secrets managed o a w
  reasons : a.reasons = []

section Stable

variable {w w' : World π δ φ}

theorem Planned.of_same {requests : List EndpointRequest} {o : AcquireOverlay}
    (h : Planned requests o w) (hw : SameRows w w') : Planned requests o w' := by
  obtain ⟨s, hs, now, newId, ho⟩ := h
  exact ⟨s, hs.of_same hw, now, newId, by rw [hw.observed]; exact ho⟩

theorem PlannedRenew.of_same {leaseId : String} {o : AcquireOverlay}
    (h : PlannedRenew leaseId o w) (hw : SameRows w w') : PlannedRenew leaseId o w' := by
  obtain ⟨s, hs, now, ho⟩ := h
  exact ⟨s, hs.of_same hw, now, ho⟩

theorem Decided.of_same {B : Backend π δ φ} {settings : RenderSettings π φ}
    {secrets : Dict String String} {managed : ManagedEnv} {o : AcquireOverlay} {a : Admission δ}
    (h : Decided B settings secrets managed o a w) (hw : SameRows w w') :
    Decided B settings secrets managed o a w' := by
  obtain ⟨s, hs, ha⟩ := h
  exact ⟨s, hs.of_same hw, by rw [hw.observed]; exact ha⟩

theorem Weighed.of_same {B : Backend π δ φ} {o : AcquireOverlay} {a : Admission δ}
    (h : Weighed B o a w) (hw : SameBasis w w') : Weighed B o a w' := by
  obtain ⟨secrets, ⟨m, new, hm⟩, hdecided⟩ := h
  refine ⟨secrets, ⟨m, new, ?_⟩, ?_⟩ <;> rw [hw.settings, hw.managed]
  · exact hm
  · exact hdecided.of_same hw.toSameRows

theorem Admitted.once {B : Backend π δ φ} {o : AcquireOverlay} {a : Admission δ}
    (h : Admitted B o a w) : AdmittedOnce B o a w := by
  obtain ⟨secrets, -, hdecided⟩ := h.weighed
  exact ⟨⟨_, _, _, hdecided⟩, h.reasons⟩

theorem AdmittedOnce.of_same {B : Backend π δ φ} {o : AcquireOverlay} {a : Admission δ}
    (h : AdmittedOnce B o a w) (hw : SameRows w w') : AdmittedOnce B o a w' := by
  obtain ⟨settings, secrets, managed, hdecided⟩ := h.decided
  exact ⟨⟨settings, secrets, managed, hdecided.of_same hw⟩, h.reasons⟩

theorem Admitted.of_same {B : Backend π δ φ} {o : AcquireOverlay} {a : Admission δ}
    (h : Admitted B o a w) (hw : SameBasis w w') : Admitted B o a w' :=
  ⟨h.weighed.of_same hw, h.reasons⟩

end Stable

/-- A ledger without a profile has no lease: the first marker writes both. -/
def Store.Leased (s : Store π δ) : Prop := s.profile = none → s.leases.keys = []

theorem Store.Leased.of_isSome {s : Store π δ} (h : s.profile.isSome) : s.Leased := fun hnone => by
  rw [hnone] at h
  contradiction

theorem Store.Leased.of_subset {s s' : Store π δ} (h : s.Leased)
    (hprofile : s'.profile = none → s.profile = none)
    (hleases : s'.leases.keys ⊆ s.leases.keys) : s'.Leased := fun hnone =>
  List.subset_nil.mp (h (hprofile hnone) ▸ hleases)

theorem Store.Leased.rowsOnly {s s' : Store π δ} (h : s.Leased) (hr : RowsOnly s s') :
    s'.Leased := h.of_subset (fun hnone => hr.profile.symm.trans hnone) hr.leases

theorem Store.Leased.moved {w w' : World π δ φ} (h : w.store.Leased) (hm : OnlyRenewals w w') :
    w'.store.Leased := by
  exact h.of_subset (fun hnone => hm.profile.symm.trans hnone) hm.leases

/-- Upkeep never adds a lease, and takes no profile away. -/
theorem Upkeep.leased {s s' : Store π δ} (h : Upkeep s s') (hs : s.Leased) : s'.Leased := by
  cases h with
  | sweep now => exact hs.rowsOnly (rowsOnly_sweep s now)
  | release leaseId now => exact hs.rowsOnly (rowsOnly_release s leaseId now)
  | evict ids now => exact hs.rowsOnly (rowsOnly_evictIdle s ids now)
  | backfill residency d gpus hrow h => exact hs
  | addresses table s' h =>
      obtain ⟨t, -, rfl⟩ := Option.map_eq_some_iff.mp h
      exact hs
  | approve digest => exact hs
  | mark apply interrupted profile h =>
      exact hs.of_subset (fun hnone => (Option.or_eq_none_iff.mp hnone).2) (List.Subset.refl _)

theorem leased_mark {s : Store π δ} (h : s.Leased) (apply interrupted : Bool) (digest : Option δ)
    (profile : Option π) : (s.markPublicationPending apply interrupted digest profile).Leased :=
  h.of_subset (fun hnone => (Option.or_eq_none_iff.mp hnone).2) (List.Subset.refl _)

section Walk

variable [DecidableEq π] {B : Backend π δ φ} {ok : World π δ φ → Input → World π δ φ → Prop}
  {inv : World π δ φ → Prop} {guar : World π δ φ → World π δ φ → Prop} {hguar : ∀ w, guar w w}
  {P : Proc.Assertion (ctlRely ok inv guar hguar)}

/-- A mark changes nothing a decision depends on. -/
theorem sameBasis_mark (w : World π δ φ) (apply interrupted : Bool) (digest : Option δ)
    (profile : Option π) : SameBasis w
      (w.withStore B (w.store.markPublicationPending apply interrupted digest profile)) where
  deployments := rfl
  claims := rfl
  version := rfl
  addresses := rfl
  network := rfl
  observed := rfl
  settings := rfl
  managed := rfl

/-- What depends on the rows goes along with an assertion. -/
def onRows (P : Proc.Assertion (ctlRely ok inv guar hguar)) (X : World π δ φ → Prop)
    (hX : ∀ w w', X w → SameRows w w' → X w') : Proc.Assertion (ctlRely ok inv guar hguar) :=
  also P X fun w w' h hm => hX w w' h hm.sameBasis.toSameRows

/-- What an admission decided goes along with an assertion. -/
def onBasis (P : Proc.Assertion (ctlRely ok inv guar hguar)) (X : World π δ φ → Prop)
    (hX : ∀ w w', X w → SameBasis w w' → X w') : Proc.Assertion (ctlRely ok inv guar hguar) :=
  also P X fun w w' h hm => hX w w' h hm.sameBasis

omit [DecidableEq π] in
theorem Free.onRows (h : Free P) {X : World π δ φ → Prop}
    {hX : ∀ w w', X w → SameRows w w' → X w'} : Free (onRows P X hX) :=
  h.also fun w w' ha hw => hX w w' hw ha.sameRows

omit [DecidableEq π] in
theorem Free.drops_onBasis (h : Free P) {X : World π δ φ → Prop}
    {hX : ∀ w w', X w → SameBasis w w' → X w'} : Drops (onBasis P X hX) := fun w hw =>
  have hin := h.process hw.1 { w.process with fresh := none }
  ⟨hin.1, hin.2, hX w _ hw.2
    { deployments := rfl, claims := rfl, version := rfl, addresses := rfl, network := rfl
      observed := rfl, settings := rfl, managed := rfl }⟩

theorem Marks.onBasis {M : Proc.Assertion (ctlRely ok inv guar hguar)} (h : Marks B P M)
    {X : World π δ φ → Prop} {hX : ∀ w w', X w → SameBasis w w' → X w'} :
    Marks B (onBasis P X hX) (onBasis M X hX) := fun w apply fresh hw hfresh =>
  have hmarked := h w apply fresh hw.1 hfresh
  ⟨hmarked.1, hmarked.2, hX w _ hw.2 (sameBasis_mark w apply false none fresh)⟩

theorem Marks.onRows {M : Proc.Assertion (ctlRely ok inv guar hguar)} (h : Marks B P M)
    {X : World π δ φ → Prop} {hX : ∀ w w', X w → SameRows w w' → X w'} :
    Marks B (onRows P X hX) (onRows M X hX) := fun w apply fresh hw hfresh =>
  have hmarked := h w apply fresh hw.1 hfresh
  ⟨hmarked.1, hmarked.2, hX w _ hw.2 (sameBasis_mark w apply false none fresh).toSameRows⟩

/-- Reading the runtime keeps what held. -/
def Observes (P : Proc.Assertion (ctlRely ok inv guar hguar)) : Prop :=
  ∀ w r, P.holds w → guar w { w with observed := r } ∧ P.holds { w with observed := r }

/-- `P`, and `residency` is what was last observed. -/
def seen (residency : Option Residency) (P : Proc.Assertion (ctlRely ok inv guar hguar)) :
    Proc.Assertion (ctlRely ok inv guar hguar) :=
  onRows P (fun w => w.observed = residency) fun _ _ hX hs => hs.observed.trans hX

omit [DecidableEq π] in
theorem observe_triple (h : Observes P) {X : ProfileInUse π → Option π → Prop}
    {E : Failure → Proc.Assertion (ctlRely ok inv guar hguar)} :
    Proc.Triple (inUse P X) observe (fun r => inUse (seen r P) X) E := by
  refine Proc.Triple.act fun w i hw _ => ?_
  have hobs := h w i.residency hw.1
  exact ⟨hobs.1, fun r hr => ⟨⟨hobs.2, Except.ok.inj hr⟩, hw.2⟩, fun e he => by contradiction⟩

omit [DecidableEq π] in
/-- The secrets of a preview are staged in this process. -/
theorem stageSecrets_triple (h : Free P) {X : ProfileInUse π → Option π → Prop}
    {E : Failure → Proc.Assertion (ctlRely ok inv guar hguar)} :
    Proc.Triple (inUse P X) (provideSecrets B true)
      (fun secrets => inUse (onBasis P (Provided B secrets) fun w w' hX hs => by
        obtain ⟨m, new, hm⟩ := hX
        exact ⟨m, new, by rw [hs.settings, hs.managed]; exact hm⟩) X) E := by
  refine Proc.Triple.act fun w i hw _ => ?_
  let r := w.managed.secrets true (B.secretNames w.process.rendersFrom) i.secret
  have hin : guar w { w with env := r.2.env, process := { w.process with staged := r.2.staged } } ∧
      P.holds { w with env := r.2.env, process := { w.process with staged := r.2.staged } } :=
    h w _ ⟨rfl, rfl, rfl⟩ hw.1
  refine ⟨hin.1, fun secrets hsec => ⟨⟨hin.2, w.managed, i.secret, ?_⟩, hw.2⟩,
    fun e he => by contradiction⟩
  obtain rfl := Except.ok.inj hsec
  rfl

end Walk

end InferStack
