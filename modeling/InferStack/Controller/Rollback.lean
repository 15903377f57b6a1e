import InferStack.Kit.Exits
import InferStack.Controller.Allocation
import InferStack.Controller.Scheme
import InferStack.Ledger.Expiry

/-!
# InferStack.Controller.Rollback

What a failed acquire leaves behind.

An acquire that fails after its commit releases its lease and idles what only
that lease wanted, before the failure surfaces.

* `wanting_run` — along every run of the controller a LIVE deployment is claimed
  by an ACTIVE lease;
* `Beside` — the ledger as it was, but for one lease, and for leases that lapse;
* `failed_acquire_undone` — where an acquire has raised, that one is gone too.
-/

namespace InferStack

open Kit

variable {π δ φ : Type}

/-! ## the ledger but for one lease -/

/-- An overlay whose rows are enriched still claims what it creates. -/
theorem freshClaimed_enrich {B : Backend π δ φ} {o : AcquireOverlay} (h : FreshClaimed o) :
    FreshClaimed (enrichOverlay B o) := by
  unfold FreshClaimed enrichOverlay
  rw [Table.keys_map]
  exact h

/-- The lease is ACTIVE. -/
def Store.Active (s : Store π δ) (l : String) : Prop :=
  ∃ row, s.getLease l = some row ∧ row.state = .active

/-- No lease became ACTIVE, and none that still is claims anything else. -/
def Shrinks (s s' : Store π δ) : Prop :=
  ∀ l, s'.Active l → s.Active l ∧ s'.deploymentIds l = s.deploymentIds l

theorem Shrinks.of_same {s s' : Store π δ} (hleases : ∀ l, s'.getLease l = s.getLease l)
    (hclaims : ∀ l, s'.deploymentIds l = s.deploymentIds l) : Shrinks s s' := by
  rintro l ⟨row, hrow, hact⟩
  exact ⟨⟨row, (hleases l).symm.trans hrow, hact⟩, hclaims l⟩

theorem Shrinks.bumpWhen {s s' : Store π δ} (h : Shrinks s s') (b : Bool) :
    Shrinks s (s'.bumpWhen b) := by
  rintro l ⟨row, hrow, hact⟩
  rw [Store.getLease_bumpWhen] at hrow
  rw [Store.deploymentIds_bumpWhen]
  exact h l ⟨row, hrow, hact⟩

/-- Moving deployments moves no lease. -/
theorem Shrinks.setDeploymentStates {s s' : Store π δ} (h : Shrinks s s') (ids : List String)
    (st : DeploymentState) (now : Int) : Shrinks s (s'.setDeploymentStates ids st now) := h

/-- Marking leases anything but ACTIVE. -/
theorem shrinks_setLeaseStates (s : Store π δ) (ids : List String) {st : LeaseState}
    (hst : st ≠ .active) : Shrinks s (s.setLeaseStates ids st) := by
  rintro l ⟨row, hrow, hact⟩
  rw [Store.getLease_setLeaseStates] at hrow
  by_cases hl : l ∈ ids
  · rw [if_pos hl] at hrow
    obtain ⟨old, -, rfl⟩ := Option.map_eq_some_iff.mp hrow
    exact absurd hact hst
  · rw [if_neg hl] at hrow
    exact ⟨⟨row, hrow, hact⟩, rfl⟩

theorem shrinks_release (s : Store π δ) (leaseId : String) (now : Int) :
    Shrinks s (release s leaseId now).2 := by
  cases release_cases s leaseId now with
  | inl hsame =>
      rw [hsame.2.1]
      exact .of_same (fun _ => rfl) (fun _ => rfl)
  | inr hreleased =>
      obtain ⟨l, idled, -, -, -, -, hstore⟩ := hreleased
      rw [hstore]
      have hmarked : Shrinks s (s.setLeaseStates [leaseId] .released) :=
        shrinks_setLeaseStates s [leaseId] (by simp)
      exact (hmarked.setDeploymentStates idled .idle now).bumpWhen _

/-- A released lease is not ACTIVE. -/
theorem not_active_release (s : Store π δ) (leaseId : String) (now : Int) :
    ¬ (release s leaseId now).2.Active leaseId := by
  rintro ⟨row, hrow, hact⟩
  cases release_cases s leaseId now with
  | inl hsame =>
      rw [hsame.2.1] at hrow
      rw [hsame.1 row hrow] at hact
      contradiction
  | inr hreleased =>
      obtain ⟨l, idled, -, -, -, -, hstore⟩ := hreleased
      rw [hstore, Store.getLease_bumpWhen] at hrow
      have hmarked : (s.setLeaseStates [leaseId] .released).getLease leaseId = some row := hrow
      rw [Store.getLease_setLeaseStates, if_pos (by simp)] at hmarked
      obtain ⟨old, -, rfl⟩ := Option.map_eq_some_iff.mp hmarked
      contradiction

theorem Upkeep.shrinks {s s' : Store π δ} (h : Upkeep s s') : Shrinks s s' := by
  cases h with
  | sweep now =>
      have hmarked : Shrinks s (s.setLeaseStates ((s.activeLeasesPast now).map Lease.id) .expired) :=
        shrinks_setLeaseStates s _ (by simp)
      exact (hmarked.setDeploymentStates _ .idle now).bumpWhen _
  | release leaseId now => exact shrinks_release s leaseId now
  | evict ids now =>
      have hsame : Shrinks s s := .of_same (fun _ => rfl) (fun _ => rfl)
      exact (hsame.setDeploymentStates _ .stopped now).bumpWhen _
  | backfill residency d gpus hrow h => exact .of_same (fun _ => rfl) (fun _ => rfl)
  | addresses table s' h =>
      obtain ⟨t, -, rfl⟩ := Option.map_eq_some_iff.mp h
      exact .of_same (fun _ => rfl) (fun _ => rfl)
  | approve digest => exact .of_same (fun _ => rfl) (fun _ => rfl)
  | mark apply interrupted profile h => exact .of_same (fun _ => rfl) (fun _ => rfl)

theorem Upkeep.wanted {s s' : Store π δ} (h : Upkeep s s') (hs : LiveWanted s) :
    LiveWanted s' := by
  cases h with
  | sweep now => exact hs.sweep now
  | release leaseId now => exact hs.release leaseId now
  | evict ids now => exact hs.evictIdle ids now
  | backfill residency d gpus hrow h => exact hs.setAllocation d.id (some gpus)
  | addresses table s' h =>
      obtain ⟨t, -, rfl⟩ := Option.map_eq_some_iff.mp h
      exact hs
  | approve digest => exact hs
  | mark apply interrupted profile h => exact hs

/-- An acquire adds no claim to another lease. -/
theorem Acquired.deploymentIds_other {s s' : Store π δ} {leaseId owner : String}
    {ttl : Option Int} {o : AcquireOverlay} {allocations : Dict String (List Nat)}
    {digest : Option δ} {profile : Option π}
    (h : Acquired s s' leaseId owner ttl o allocations digest profile) {l : String}
    (hne : l ≠ leaseId) : s'.deploymentIds l = s.deploymentIds l := by
  have hnone : (o.claims.map fun rg => (⟨leaseId, rg.1.endpoint, rg.2⟩ : Claim)).filter
      (fun c => c.leaseId = l) = [] := by
    refine List.filter_eq_nil_iff.mpr fun c hc => ?_
    obtain ⟨rg, -, rfl⟩ := List.mem_map.mp hc
    simpa using hne.symm
  unfold Store.deploymentIds Store.claimsOf
  rw [h.claims, List.filter_append, hnone, List.append_nil]

/-- The ledger `s₀` but for the lease `new`, and for what has lapsed: no other
lease became ACTIVE, those that still are claim what they did, and every LIVE
deployment is claimed by an ACTIVE one. -/
structure Beside (new : Option String) (s₀ s : Store π δ) : Prop where
  leased : s.Leased
  wanted : LiveWanted s
  others : ∀ l, s.Active l → some l = new ∨ s₀.Active l ∧ s.deploymentIds l = s₀.deploymentIds l

namespace Beside

variable {new : Option String} {s₀ s s' : Store π δ}

theorem start (hleased : s.Leased) (hwanted : LiveWanted s) : Beside none s s :=
  ⟨hleased, hwanted, fun _ hl => .inr ⟨hl, rfl⟩⟩

theorem shrink (h : Beside new s₀ s) (hleased : s'.Leased) (hwanted : LiveWanted s')
    (hshrinks : Shrinks s s') : Beside new s₀ s' := by
  refine ⟨hleased, hwanted, fun l hl => ?_⟩
  obtain ⟨hold, hclaims⟩ := hshrinks l hl
  refine (h.others l hold).imp_right fun hkept => ?_
  rw [hclaims]
  exact hkept

theorem upkeep (h : Beside new s₀ s) (hup : Upkeep s s') : Beside new s₀ s' :=
  h.shrink (hup.leased h.leased) (hup.wanted h.wanted) hup.shrinks

/-- Releasing the one lease leaves the others. -/
theorem released {l : String} (h : Beside (some l) s₀ s) (now : Int) :
    Beside none s₀ (release s l now).2 := by
  have hkept := h.upkeep (.release l now)
  refine ⟨hkept.leased, hkept.wanted, fun l' hl' => .inr ?_⟩
  cases hkept.others l' hl' with
  | inl hnew =>
      obtain rfl := Option.some.inj hnew
      exact absurd hl' (not_active_release s l' now)
  | inr hold => exact hold

/-- A committed acquire adds the one lease. -/
theorem acquired {leaseId owner : String} {ttl : Option Int} {o : AcquireOverlay}
    {allocations : Dict String (List Nat)} {digest : Option δ} {profile : Option π}
    (h : Beside none s₀ s) (hfresh : FreshClaimed o) (hprofile : s'.profile.isSome)
    (hacq : acquire s leaseId owner ttl o allocations digest profile = .ok s') :
    Beside (some leaseId) s₀ s' := by
  have hcommitted := acquire_ok hacq
  have hwanted : LiveWanted (acquireOrKeep s leaseId owner ttl o allocations digest profile) :=
    h.wanted.acquireOrKeep hfresh
  simp only [acquireOrKeep, hacq] at hwanted
  refine ⟨.of_isSome hprofile, hwanted, fun l hl => ?_⟩
  obtain ⟨row, hrow, hact⟩ := hl
  obtain ⟨hmem, rfl⟩ := Table.find?_eq_some.mp hrow
  rw [Table.mem_def, hcommitted.leases, List.mem_append, List.mem_singleton] at hmem
  cases hmem with
  | inr hnew =>
      left
      rw [hnew]
      rfl
  | inl hold =>
      have hne : row.id ≠ leaseId := fun heq =>
        hcommitted.fresh (heq ▸ Table.mem_keys.mpr ⟨row, hold, rfl⟩)
      have hactive : s.Active row.id := ⟨row, Table.mem_iff_find?.mp hold, hact⟩
      refine .inr ?_
      rw [hcommitted.deploymentIds_other hne]
      exact (h.others row.id hactive).resolve_left (by simp)

end Beside

/-! ## assertions about the ledger -/

section OfLedger

variable [DecidableEq π] {B : Backend π δ φ} {ok : World π δ φ → Input → World π δ φ → Prop}
  {inv : World π δ φ → Prop} {guar : World π δ φ → World π δ φ → Prop} {hguar : ∀ w, guar w w}
  {P : Proc.Assertion (ctlRely ok inv guar hguar)}

/-- An assertion that reads the ledger alone, under no guarantee. -/
structure OfLedger (P : Proc.Assertion (ctlRely ok inv guar hguar)) : Prop where
  guar : ∀ w w', guar w w'
  holds : ∀ w w', w'.store = w.store → P.holds w → P.holds w'

namespace OfLedger

omit [DecidableEq π] in
theorem free (h : OfLedger P) : Free P := fun w w' ha hw => ⟨h.guar w w', h.holds w w' ha.store hw⟩

omit [DecidableEq π] in
theorem records (h : OfLedger P) : Records P :=
  fun w w' hr hw => ⟨h.guar w w', h.holds w w' hr.store hw⟩

omit [DecidableEq π] in
theorem observes (h : OfLedger P) : Observes P := fun w _ hw => ⟨h.guar w _, h.holds w _ rfl hw⟩

theorem kept (h : OfLedger P)
    (hup : ∀ w s, Upkeep w.store s → P.holds w → P.holds (w.withStore B s)) : Kept B P where
  write := fun w w' ho hw => h.records w w' ho.toRecorded hw
  upkeep := fun w s hs hw => ⟨h.guar w _, hup w s hs hw⟩

end OfLedger

end OfLedger

/-! ## the worlds of a failed acquire -/

section Worlds

variable [DecidableEq π] [DecidableEq δ] {B : Backend π δ φ}

/-- The assumptions: the ledger accepts every mark, and renewals in between. -/
abbrev rollbackRely : Rely (World π δ φ) Input :=
  ctlRely (fun _ i _ => i.markFails = false) (fun _ => True) (fun _ _ => True) fun _ => trivial

omit [DecidableEq π] [DecidableEq δ] in
theorem OnlyRenewals.active {w w' : World π δ φ} (h : OnlyRenewals w w') {l : String} :
    w'.store.Active l ↔ w.store.Active l := by
  have hstate := h.leaseStates l
  have hread : ∀ s : Store π δ, s.Active l ↔ (s.getLease l).map Lease.state = some .active :=
    fun s => Option.map_eq_some_iff.symm
  rw [hread, hread, hstate]

omit [DecidableEq π] [DecidableEq δ] in
theorem LiveWanted.moved {w w' : World π δ φ} (h : LiveWanted w.store) (hm : OnlyRenewals w w') :
    LiveWanted w'.store := by
  intro g hlive
  have hlive' : w.store.IsLive g := by
    obtain ⟨d, hd, hstate⟩ := hlive
    exact ⟨d, hm.getDeployment g ▸ hd, hstate⟩
  obtain ⟨l, hl, hact, hg⟩ := h g hlive'
  have hactive : w'.store.Active l.id :=
    hm.active.mpr ⟨l, Table.mem_iff_find?.mp hl, hact⟩
  obtain ⟨row, hrow, hact'⟩ := hactive
  obtain ⟨hmem, hid⟩ := Table.find?_eq_some.mp hrow
  exact ⟨row, hmem, hact', by rw [hid, hm.deploymentIds]; exact hg⟩

omit [DecidableEq π] [DecidableEq δ] in
theorem Beside.moved {new : Option String} {s₀ : Store π δ} {w w' : World π δ φ}
    (h : Beside new s₀ w.store) (hm : OnlyRenewals w w') : Beside new s₀ w'.store := by
  refine ⟨h.leased.moved hm, h.wanted.moved hm, fun l hl => ?_⟩
  rw [hm.deploymentIds]
  exact h.others l (hm.active.mp hl)

/-- A world beside the ledger `s₀`. -/
def besideWorld (new : Option String) (s₀ : Store π δ) :
    Proc.Assertion (rollbackRely (π := π) (δ := δ) (φ := φ)) where
  holds := fun w => Beside new s₀ w.store
  inv := fun _ _ => trivial
  moved := fun _ _ hw hm => hw.moved hm

variable {new : Option String} {s₀ : Store π δ}

omit [DecidableEq π] [DecidableEq δ] in
theorem besideWorld_ledger : OfLedger (besideWorld (φ := φ) new s₀) :=
  ⟨fun _ _ => trivial, fun w w' hs hw => by
    change Beside new s₀ w'.store
    rw [hs]
    exact hw⟩

omit [DecidableEq π] [DecidableEq δ] in
theorem besideWorld_free : Free (besideWorld (φ := φ) new s₀) := besideWorld_ledger.free

omit [DecidableEq π] [DecidableEq δ] in
theorem besideWorld_records : Records (besideWorld (φ := φ) new s₀) := besideWorld_ledger.records

omit [DecidableEq δ] in
theorem besideWorld_kept : Kept B (besideWorld new s₀) :=
  besideWorld_ledger.kept fun _ _ hup hw => Beside.upkeep hw hup

omit [DecidableEq δ] in
theorem besideWorld_marks : Marks B (besideWorld new s₀) (besideWorld new s₀) :=
  fun _ apply fresh hw _ =>
    ⟨trivial, Beside.shrink hw (leased_mark hw.leased apply false none fresh) hw.wanted
      (.of_same (fun _ => rfl) (fun _ => rfl))⟩

/-! ## rolling back -/

variable {X : ProfileInUse π → Option π → Prop}

omit [DecidableEq δ] in
theorem beside_render (hX : ∀ u stored, X u stored → stored.isSome) :
    Keeps (inUse (besideWorld new s₀) X) (render B) :=
  (besideWorld_kept.inUse hX).render besideWorld_records.inUse

theorem beside_apply (hX : ∀ u stored, X u stored → stored.isSome) (rec : Reconciled) :
    Keeps (inUse (besideWorld new s₀) X) (applyPending B rec) := by
  refine (besideWorld_kept.inUse hX).applyPending (fun w version hw => ⟨trivial, ?_, hw.2⟩)
    (Records.runApply besideWorld_records.inUse) rec
  exact Beside.shrink hw.1 hw.1.leased hw.1.wanted (.of_same (fun _ => rfl) (fun _ => rfl))

omit [DecidableEq δ] in
/-- A mark that is accepted does not raise in a process that renders from the
stored profile, or from a candidate over it. -/
theorem beside_mark (c : Option π) (apply : Bool)
    {P : Proc.Assertion (rollbackRely (π := π) (δ := δ) (φ := φ))} (hdrop : Drops P)
    (hmarks : Marks B P P)
    {E : Failure → Proc.Assertion (rollbackRely (π := π) (δ := δ) (φ := φ))} :
    Proc.Triple (inUse P (Using B c)) (markPending B apply) (fun _ => inUse P (Held B c)) E := by
  refine Proc.Triple.bind syncProfile_again fun _ => ?_
  refine Proc.Triple.bind (takeFreshProfile_triple hdrop) fun profile => ?_
  refine tx_rule (fun w i a s hw _ hres => ?_) (fun w i e _ hok hres => ?_)
  · obtain ⟨-, rfl⟩ := Prod.mk.inj (refusedIf_ok hres)
    have hfresh : freshFor profile w := fun hsome => by rw [hw.2.profile, if_neg hsome]
    have hmarked := hmarks w apply profile hw.1 hfresh
    exact ⟨hmarked.1, hmarked.2, hw.2.held⟩
  · have haccepted : i.markFails = false := hok
    rw [haccepted] at hres
    contradiction

/-- Rolling back releases the lease whatever fails after that. -/
theorem beside_rollback (leaseId : String) (apply : Bool) :
    Proc.Triple (inUse (besideWorld (some leaseId) s₀) (Held B none))
      (rollbackAcquire B leaseId apply) (fun _ => besideWorld (φ := φ) none s₀)
      (fun _ => besideWorld none s₀) := by
  have hend : Kept B (besideWorld (φ := φ) none s₀) := besideWorld_kept
  refine Proc.Triple.bind ((beside_mark none apply besideWorld_free.drops
    besideWorld_marks).conseq (fun w hw => ⟨hw.1, hw.2.toUsing⟩) (fun _ _ hw => hw)
    (fun _ _ hw => hw)) fun _ => ?_
  refine Proc.Triple.bind (Q := fun _ => besideWorld (some leaseId) s₀)
    (tx_triple (fun w i a s hw _ hres => ?_) (fun _ _ _ _ he => by contradiction)) fun _ => ?_
  · obtain ⟨-, rfl⟩ := Prod.mk.inj (Except.ok.inj hres)
    exact ⟨trivial, Beside.upkeep hw.1 (.approve none)⟩
  refine Proc.Triple.bind (Q := fun _ => besideWorld none s₀)
    (tx_triple (fun w i a s hw _ hres => ?_) (fun _ _ _ _ he => by contradiction)) fun rel => ?_
  · have heq := Except.ok.inj hres
    rw [show s = (release w.store leaseId i.now).2 by rw [heq]]
    exact ⟨trivial, Beside.released hw i.now⟩
  refine Keeps.bind (hend.evictNeverRan rel.idledDeploymentIds) fun _ => ?_
  have hrender : Keeps (besideWorld (φ := φ) none s₀) (renderAndApply B apply) := by
    refine (hend.render besideWorld_records).bind fun rec => Keeps.onlyIf ?_
    refine Keeps.bind (hend.applyPending (fun w version hw => ⟨trivial, ?_⟩)
      (Records.runApply besideWorld_records) rec) fun _ => Keeps.pure ()
    exact Beside.shrink hw hw.leased hw.wanted (.of_same (fun _ => rfl) (fun _ => rfl))
  refine hrender.handle fun e => ?_
  split
  · exact Keeps.pure ()
  · exact Keeps.throw e

/-- Any world. -/
def anyWorld : Proc.Assertion (rollbackRely (π := π) (δ := δ) (φ := φ)) where
  holds := fun _ => True
  inv := fun _ _ => trivial
  moved := fun _ _ _ _ => trivial

/-- A committed acquire is published, or rolled back. -/
theorem beside_publishAdmitted (result : AcquireResult) (apply : Bool) :
    Proc.Triple (inUse (besideWorld (some result.leaseId) s₀) (Held B none))
      (publishAdmitted B result apply) (fun _ => anyWorld (φ := φ))
      (fun _ => besideWorld none s₀) := by
  have hheld : ∀ (u : ProfileInUse π) stored, Held B none u stored → stored.isSome :=
    fun _ _ hX => hX.isSome
  refine Proc.Triple.bind (Proc.Triple.handle (beside_render hheld) fun e =>
    undoing_triple (beside_rollback result.leaseId _) e) fun rec => ?_
  dsimp only
  split
  · unfold applyAdmitted
    split
    · refine Proc.Triple.handle ((beside_apply hheld rec).conseq (fun _ hw => hw)
        (fun _ _ _ => trivial) (fun _ _ hw => hw)) fun e => ?_
      exact undoing_triple (beside_rollback result.leaseId false) e
    · exact Proc.Triple.pure fun _ _ => trivial
  · exact undoing_triple (beside_rollback result.leaseId apply) _

/-! ## a whole acquire -/

/-- Publishing what has lapsed. -/
theorem beside_maintain : Proc.Triple (inUse (besideWorld none s₀) (Using B none)) (maintain B)
    (fun _ => inUse (besideWorld none s₀) (Using B none))
    (fun _ => besideWorld (φ := φ) none s₀) := by
  have hheld : ∀ (u : ProfileInUse π) stored, Held B none u stored → stored.isSome :=
    fun _ _ hX => hX.isSome
  refine Proc.Triple.bind ((Keeps.read _).conseq (fun _ hw => hw) (fun _ _ hw => hw)
    (fun _ _ hw => hw.1)) fun lapsed => ?_
  refine Keeps.passing (fun _ => ?_) (fun _ _ hw => hw)
  refine Proc.Triple.bind (beside_mark none true besideWorld_free.drops besideWorld_marks)
    fun _ => ?_
  have hpublish : Keeps (inUse (besideWorld (φ := φ) none s₀) (Held B none))
      (do let _ ← sweepLedger B; let _ ← publish B) :=
    Keeps.bind (besideWorld_kept.inUse hheld).sweepLedger fun _ =>
      Keeps.bind (Keeps.bind (beside_render hheld) fun rec => beside_apply hheld rec)
        fun _ => Keeps.pure ()
  exact hpublish.conseq (fun _ hw => hw) (fun _ _ hw => ⟨hw.1, hw.2.toUsing⟩) (fun _ _ hw => hw.1)

omit [DecidableEq π] [DecidableEq δ] in
/-- Going back to the stored profile writes only to the process. -/
theorem beside_restore (candidate stored : Option π) :
    Keeps (besideWorld (φ := φ) new s₀) (restoreAfter B candidate stored) := by
  have hprocess : ∀ f : Input → World π δ φ → Except Failure Unit × World π δ φ,
      (∀ i w, (f i w).2.store = w.store) → Keeps (besideWorld new s₀) (Proc.act f) :=
    fun f hf => Proc.Triple.act fun w i hw _ => by
      have hsame : Beside new s₀ (f i w).2.store := by
        rw [hf i w]
        exact hw
      exact ⟨trivial, fun _ _ => hsame, fun _ _ => hsame⟩
  cases candidate with
  | none => exact Keeps.pure ()
  | some profile =>
      refine Keeps.bind (Keeps.read _) fun fresh => ?_
      cases stored.or fresh with
      | none => exact Keeps.pure ()
      | some p =>
          refine Keeps.bind (hprocess _ fun i w => ?_) fun _ => hprocess _ fun _ _ => rfl
          split <;> rfl

/-- The plan that was decided, on these rows. -/
def plannedWorld (s₀ : Store π δ) (requests : List EndpointRequest) (o : AcquireOverlay) :
    Proc.Assertion (rollbackRely (π := π) (δ := δ) (φ := φ)) :=
  onBasis (besideWorld none s₀) (Planned requests o) fun _ _ hw hs => hw.of_same hs.toSameRows

omit [DecidableEq π] [DecidableEq δ] in
/-- Deciding an acquire leaves the ledger alone. -/
theorem beside_decide (requests : List EndpointRequest) (stored : Option π) :
    Proc.Triple (inUse (besideWorld none s₀) (Using B none)) (decideAcquire B requests stored)
      (fun x => inUse (plannedWorld s₀ requests x.2.1) (Using B x.1))
      (fun _ => besideWorld (φ := φ) none s₀) := by
  refine Proc.Triple.bind (observe_triple besideWorld_ledger.observes) fun residency => ?_
  refine Proc.Triple.bind ((Keeps.read _).conseq (fun _ hw => hw) (fun _ _ hw => hw)
    (fun _ _ hw => hw.1.1)) fun candidate => ?_
  refine Proc.Triple.bind ((useCandidate_triple besideWorld_free.onRows candidate).conseq
    (fun _ hw => hw) (fun _ _ hw => hw) (fun _ _ hw => hw.1.1)) fun _ => ?_
  refine Proc.Triple.bind (Proc.Triple.handle ((Scheme.previewAcquire besideWorld_free requests
    residency).conseq (fun _ hw => hw) (fun _ _ hw => hw) (fun _ _ hw => hw.1)) fun e =>
    undoing_triple (beside_restore candidate stored) e) fun x => ?_
  refine Proc.Triple.bind (Keeps.passing
    (Q := inUse (plannedWorld s₀ requests x.1) (Using B candidate)) (fun _ => ?_)
    (fun _ w hw => ⟨⟨hw.1.1, hw.1.2.1⟩, hw.2⟩)) fun _ => Proc.Triple.pure fun _ hw => hw
  exact (undoing_triple (beside_restore candidate stored) _).conseq (fun w hw => hw.1.1)
    (fun _ _ hw => hw) (fun _ _ hw => hw)

omit [DecidableEq δ] in
/-- The commit of what was decided adds the one lease, or raises and adds none. -/
theorem beside_commitAdmitted (requests : List EndpointRequest) (owner : String)
    (ttl : Option Int) (apply : Bool) (candidate : Option π) (o : AcquireOverlay)
    (a : Admission δ) :
    Proc.Triple (inUse (plannedWorld s₀ requests o) (Held B candidate))
      (commitAdmitted B owner ttl o a apply candidate)
      (fun r => inUse (besideWorld (some r.leaseId) s₀) (Written B candidate))
      (fun _ => besideWorld (φ := φ) none s₀) := by
  refine tx_triple (fun w i r s hw _ hres => ?_) (fun w i e hw hres => hw.1.1)
  obtain ⟨rfl, hacq⟩ := commitTx_ok B hres
  obtain ⟨s', -, now, newId, ho⟩ := hw.1.2
  have hfresh : FreshClaimed (enrichOverlay B o) := by
    rw [ho]
    exact freshClaimed_enrich (planAcquire_freshClaimed _ _ _ _ _)
  have hwritten : Written B candidate w.process.toProfileInUse s.profile := by
    rw [(acquire_ok hacq).profile]
    exact hw.2.written
  have hsome : s.profile.isSome := by rw [hwritten.stored]; rfl
  exact ⟨trivial, Beside.acquired hw.1.1 hfresh hsome hacq, hwritten⟩

/-- Committing what was decided, and publishing it. -/
theorem beside_commit (requests : List EndpointRequest) (owner : String) (ttl : Option Int)
    (apply : Bool) (candidate : Option π) (o : AcquireOverlay) (a : Admission δ) :
    Proc.Triple (inUse (plannedWorld s₀ requests o) (Using B candidate))
      (commitAcquireProgram B owner ttl apply candidate o a) (fun _ => anyWorld (φ := φ))
      (fun _ => besideWorld none s₀) := by
  have hdrop : Drops (plannedWorld (φ := φ) s₀ requests o) := besideWorld_free.drops_onBasis
  have hmarks : Marks B (plannedWorld (φ := φ) s₀ requests o) (plannedWorld s₀ requests o) :=
    besideWorld_marks.onBasis
  refine Proc.Triple.bind (beside_mark candidate apply hdrop hmarks) fun _ => ?_
  refine Proc.Triple.bind (Proc.Triple.handle (beside_commitAdmitted requests owner ttl apply
    candidate o a) fun e => ?_) fun result => Proc.Triple.bind
      (adoptCandidate_triple besideWorld_free candidate) fun _ =>
        beside_publishAdmitted result apply
  refine Proc.Triple.bind (Q := fun _ => besideWorld none s₀) (Keeps.onlyIf ?_)
    fun _ => Proc.Triple.throw fun _ hw => hw
  exact Keeps.bind (Keeps.read _) fun stored => beside_restore candidate stored

/-- An acquire that raises leaves the ledger as it was, but for what lapsed. -/
theorem beside_acquire (owner : String) (requests : List EndpointRequest) (ttl : Option Int)
    (apply : Bool) : Proc.Triple (synced B (besideWorld none s₀))
      (acquireByAdmission B owner requests ttl apply) (fun _ => anyWorld (φ := φ))
      (fun _ => besideWorld none s₀) := by
  refine Proc.Triple.bind ((syncProfile_triple besideWorld_free).conseq (fun _ hw => hw)
    (fun _ _ hw => hw) (fun _ _ hw => hw.1)) fun _ => ?_
  refine Proc.Triple.bind ((Keeps.read _).conseq (fun _ hw => hw) (fun _ _ hw => hw)
    (fun _ _ hw => hw.1)) fun stored => ?_
  refine Proc.Triple.bind beside_maintain fun _ => ?_
  refine Proc.Triple.bind (beside_decide requests stored) fun x => ?_
  exact beside_commit requests owner ttl apply x.1 x.2.1 x.2.2

theorem beside_program (owner : String) (requests : List EndpointRequest) (ttl : Option Int)
    (apply : Bool) : Proc.Triple (synced B (besideWorld none s₀))
      (Op.acquire owner requests ttl apply : Op B).program (fun _ => anyWorld (φ := φ))
      (fun _ => besideWorld none s₀) :=
  Proc.Triple.bind (beside_acquire owner requests ttl apply) fun _ =>
    Proc.Triple.pure fun _ _ => trivial

/-! ## runs -/

/-- Every LIVE deployment is wanted, and every lease is under a profile. -/
structure Wanting (s : Store π δ) : Prop where
  leased : s.Leased
  wanted : LiveWanted s

/-- The assumptions: any step, and renewals in between. -/
abbrev wantedRely : Rely (World π δ φ) Input :=
  ctlRely (fun _ _ _ => True) (fun w => Wanting w.store) (fun _ _ => True) fun _ => trivial

def wantedWorld : Proc.Assertion (wantedRely (π := π) (δ := δ) (φ := φ)) where
  holds := fun w => Wanting w.store
  inv := fun _ hw => hw
  moved := fun _ _ hw hm => ⟨hw.leased.moved hm, hw.wanted.moved hm⟩

omit [DecidableEq π] [DecidableEq δ] in
theorem wantedWorld_ledger : OfLedger (wantedWorld (π := π) (δ := δ) (φ := φ)) :=
  ⟨fun _ _ => trivial, fun w w' hs hw => by
    change Wanting w'.store
    rw [hs]
    exact hw⟩

omit [DecidableEq δ] in
theorem wantedWorld_kept : Kept B (wantedWorld (π := π) (δ := δ) (φ := φ)) :=
  wantedWorld_ledger.kept fun _ _ hup hw => ⟨hup.leased hw.leased, hup.wanted hw.wanted⟩

/-- The wanting scheme of the controller. -/
theorem wantedScheme (B : Backend π δ φ) :
    Scheme B False (wantedWorld (π := π) (δ := δ) (φ := φ)) wantedWorld wantedWorld where
  free := wantedWorld_ledger.free
  freeMarked := wantedWorld_ledger.free
  observes := wantedWorld_ledger.observes
  leased := fun w hw => hw.leased
  guarded := fun hfalse => hfalse.elim
  marks := fun w apply fresh hw _ =>
    ⟨trivial, leased_mark hw.leased apply false none fresh, hw.wanted⟩
  kept := wantedWorld_kept
  forget := fun _ hw => hw
  unapplied := fun _ hw => hw
  render := fun X hX => (wantedWorld_kept.inUse fun u stored h => (hX u stored h).isSome).render
    (Records.inUse wantedWorld_ledger.records)
  apply := fun X hX rec => by
    have hkept : Kept B (inUse (wantedWorld (π := π) (δ := δ) (φ := φ)) X) :=
      wantedWorld_kept.inUse fun u stored h => (hX u stored h).isSome
    exact hkept.applyPending (fun w version hw => ⟨trivial, ⟨hw.1.leased, hw.1.wanted⟩, hw.2⟩)
      (Records.runApply (Records.inUse wantedWorld_ledger.records)) rec
  commit := fun w i requests o a leaseId owner ttl digest candidate s hw hprofile hplan _ hacq _ => by
    obtain ⟨s', -, now, newId, ho⟩ := hplan
    have hfresh : FreshClaimed (enrichOverlay B o) := by
      rw [ho]
      exact freshClaimed_enrich (planAcquire_freshClaimed _ _ _ _ _)
    have hsome : s.profile.isSome := by
      rw [(acquire_ok hacq).profile]
      cases candidate with
      | none => exact hprofile
      | some p => rfl
    have hbeside := Beside.acquired (.start hw.leased hw.wanted) hfresh hsome hacq
    exact ⟨trivial, hbeside.leased, hbeside.wanted⟩
  renew := fun w i leaseId ttl o a now hw _ _ _ => ⟨trivial,
    hw.leased.rowsOnly (rowsOnly_renew w.store leaseId ttl a.allocations now),
    hw.wanted.renew leaseId ttl a.allocations now⟩
  renewLive := fun w leaseId ttl now hw _ => ⟨trivial,
    hw.leased.rowsOnly (rowsOnly_renew w.store leaseId ttl ∅ now), hw.wanted.renew leaseId ttl ∅ now⟩
  approve := fun w digest hw =>
    ⟨trivial, leased_mark hw.leased true false (some digest) none, hw.wanted⟩
  prune := fun w hw => ⟨trivial, hw.leased.rowsOnly (rowsOnly_prune w.store), hw.wanted.prune⟩
  publishProfile := fun w profile digest hw => ⟨trivial, Store.Leased.of_isSome rfl, hw.wanted⟩
  migrate := fun w subnet reset digest fresh hw _ =>
    ⟨trivial, leased_mark hw.leased true false (some digest) fresh, hw.wanted⟩
  writeProfile := fun w profile hw => ⟨trivial, Store.Leased.of_isSome rfl, hw.wanted⟩

/-- Along every run of the controller, killed and failing anywhere, a LIVE
deployment is claimed by an ACTIVE lease. -/
theorem wanting_run (env : Dict String String) (files : φ) (process : Process π δ)
    (es : List (CtlEvent B)) : Wanting (worldAfter B env files process es).store := by
  have hinit : Wanting (CtlSys.init env files process).state.store := by
    refine ⟨fun _ => rfl, fun g hlive => ?_⟩
    obtain ⟨d, hd, -⟩ := hlive
    simp [CtlSys.init, Store.empty, Store.getDeployment, Table.find?] at hd
  have hgood : Sys.Good (wantedRely (π := π) (δ := δ) (φ := φ)) (CtlSys.init env files process) :=
    ⟨hinit, by simp [CtlSys.init]⟩
  have hkept := (wantedScheme B).kept_system fun _ hw => hw
  refine (Sys.run_inv hkept hgood (allSteps_iff.mpr fun pre e _ => ?_)).inv
  cases e with
  | start v => exact .inr trivial
  | step i => trivial
  | crash => trivial
  | disturb r => trivial

/-- Where an operation of the controller has raised. -/
theorem ctl_raised {Q : Unit → World π δ φ → Prop} {E : Failure → World π δ φ → Prop}
    {sys : CtlSys π δ φ} (h : Sys.Leaves rollbackRely Q E sys) {es : List (CtlEvent B)}
    (hes : AllSteps (ctlStep B) (Sys.Alone rollbackRely) sys es) {e : Failure}
    (hraised : (run (ctlStep B) sys es).running = some (.raise e)) :
    E e (run (ctlStep B) sys es).state := by
  have hsteps : AllSteps (Sys.next (fun (v : Invocation B) (w : World π δ φ) =>
      { w with process := v.process }) (fun v => v.op.program B) (fun (r : LockFreeRenew) w =>
      w.withStore B (renewIfLive w.store r.leaseId r.ttlSeconds r.now).2))
      (Sys.Alone rollbackRely) sys es := hes
  exact Sys.run_raised (fun (r : LockFreeRenew) (w : World π δ φ) =>
    renewIfLive_onlyRenewals w r.leaseId r.ttlSeconds r.now) h hsteps hraised

/-- An event of an operation that nobody kills, on a ledger that accepts every
mark. -/
def Undisturbed : CtlEvent B → Prop
  | .step i => i.markFails = false
  | .disturb _ => True
  | .start _ => False
  | .crash => False

/-- A failed acquire leaves nothing behind.  After any run of the controller an
acquire starts, takes its steps, and raises, wherever it fails: its lease is not
ACTIVE, the leases that still are claim what they did before, and every LIVE
deployment is claimed by one of them. -/
theorem failed_acquire_undone (env : Dict String String) (files : φ) (process : Process π δ)
    (before : List (CtlEvent B))
    (hidle : (run (ctlStep B) (CtlSys.init env files process) before).running = none)
    (v : Invocation B) {owner : String} {requests : List EndpointRequest} {ttl : Option Int}
    {apply : Bool} (hop : v.op = .acquire owner requests ttl apply) (es : List (CtlEvent B))
    (hes : ∀ e ∈ es, Undisturbed e) {e : Failure}
    (hraised : (run (ctlStep B) (CtlSys.init env files process)
      (before ++ .start v :: es)).running = some (.raise e)) :
    let s₀ := (worldAfter B env files process before).store
    let s := (worldAfter B env files process (before ++ .start v :: es)).store
    (∀ l, s.Active l → s₀.Active l ∧ s.deploymentIds l = s₀.deploymentIds l) ∧ LiveWanted s := by
  intro s₀ s
  have hwanting : Wanting s₀ := wanting_run env files process before
  let sys := ctlStep B (run (ctlStep B) (CtlSys.init env files process) before) (.start v)
  have hsys : sys = ⟨{ (worldAfter B env files process before) with process := v.process },
      some v.op.program⟩ := by
    simp only [sys, ctlStep, Sys.next, hidle, worldAfter]
  have hbeside : (besideWorld none s₀).holds sys.state := by
    rw [hsys]
    exact Beside.start hwanting.leased hwanting.wanted
  have hleaves : Sys.Leaves (rollbackRely (π := π) (δ := δ) (φ := φ)) (fun _ _ => True)
      (fun _ => (besideWorld none s₀).holds) sys := by
    intro p hp
    have hprogram : v.op.program = p := by
      rw [hsys] at hp
      exact Option.some.inj hp
    rw [← hprogram, hop]
    have hstart : (synced B (besideWorld none s₀)).holds sys.state := by
      refine ⟨hbeside, ?_⟩
      rw [hsys]
      exact v.synced
    exact (beside_program owner requests ttl apply sys.state hstart).mono
      (fun _ _ _ _ => trivial) (fun _ _ _ hw => hw)
  have halone : AllSteps (ctlStep B) (Sys.Alone (rollbackRely (π := π) (δ := δ) (φ := φ))) sys es := by
    refine allSteps_iff.mpr fun pre e hpre => ?_
    have he := hes e (hpre.subset (by simp))
    cases e with
    | step i => exact he
    | disturb r => trivial
    | start v' => exact he.elim
    | crash => exact he.elim
  rw [run_append, run_cons] at hraised
  have hend := ctl_raised hleaves halone hraised
  have hstore : (run (ctlStep B) sys es).state.store = s := by
    simp only [s, worldAfter, run_append, run_cons, sys]
  have hundone : Beside none s₀ s := hstore ▸ hend
  exact ⟨fun l hl => (hundone.others l hl).resolve_left (by simp), hundone.wanted⟩

end Worlds

/-! ## an apply that raises -/

/-- The desk is up, with one lease. -/
def deskUp : List (CtlEvent desk) :=
  deskRun (.acquire "u" [modelRequest "a"] none true)
    { now := 1, residency := some {}, leaseId := "l1", newId := fun _ => "dep-a" }

theorem deskProcess_synced : deskProcess.Synced desk := fun q hq => by contradiction

/-- A second tenant of the same model. -/
def secondTenant : Invocation desk :=
  ⟨deskProcess, deskProcess_synced, .acquire "v" [modelRequest "a"] none true⟩

/-- The apply of the second tenant raises, and its acquire with it. -/
def applyRaises : List (CtlEvent desk) :=
  List.replicate 36 (.step
    { now := 2, residency := some warmFirst, leaseId := "l2", apply := .raised .failed })

theorem deskUp_keeps_its_lease :
    let s₀ := (worldAfter desk ∅ () deskProcess deskUp).store
    let s := (worldAfter desk ∅ () deskProcess (deskUp ++ .start secondTenant :: applyRaises)).store
    (∀ l, s.Active l → s₀.Active l ∧ s.deploymentIds l = s₀.deploymentIds l) ∧ LiveWanted s := by
  have hidle : (run (ctlStep desk) (CtlSys.init ∅ () deskProcess) deskUp).running = none := by
    have hnone : (run (ctlStep desk) (CtlSys.init ∅ () deskProcess) deskUp).running.isNone := by
      decide +kernel
    exact Option.isNone_iff_eq_none.mp hnone
  have hraised : (run (ctlStep desk) (CtlSys.init ∅ () deskProcess)
      (deskUp ++ .start secondTenant :: applyRaises)).running.bind Proc.raised = some .failed := by
    decide +kernel
  obtain ⟨p, hp, hfailed⟩ := Option.bind_eq_some_iff.mp hraised
  rw [Proc.raised_eq_some.mp hfailed] at hp
  exact failed_acquire_undone ∅ () deskProcess deskUp hidle secondTenant rfl applyRaises
    (fun e he => by rw [List.eq_of_mem_replicate he]; rfl) hp

end InferStack
