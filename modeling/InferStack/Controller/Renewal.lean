import InferStack.Controller.Allocation
import InferStack.Controller.Transitions
import InferStack.Ledger.Protection

/-!
# InferStack.Controller.Renewal

The lock-free renew between the steps of the controller.

It takes no lock and leaves the admission version alone, so it lands anywhere:
between a preview and its commit, or before the sweep of a render.  What it
grants is safe because every transaction reads the lease rows again: a lease
that protects is neither swept nor idled (`Stands.transition`), whatever was
decided before (`Stands.run`).
-/

namespace InferStack

open Kit

variable {π δ φ : Type}

/-- The lease is as it was renewed, and what it claims is LIVE. -/
structure Stands (s : Store π δ) (l : Lease) (ids : List String) : Prop where
  row : s.getLease l.id = some l
  claims : ∀ g, g ∈ s.deploymentIds l.id ↔ g ∈ ids
  live : ∀ g ∈ ids, s.IsLive g

variable {s s' : Store π δ} {l : Lease} {ids : List String}

/-! ## one transaction -/

/-- What leaves the lease rows, the claims and LIVE deployments alone. -/
theorem Stands.same (h : Stands s l ids) (hrow : s'.getLease l.id = s.getLease l.id)
    (hclaims : ∀ g, g ∈ s'.deploymentIds l.id ↔ g ∈ s.deploymentIds l.id)
    (hlive : ∀ g ∈ ids, s.IsLive g → s'.IsLive g) : Stands s' l ids :=
  ⟨hrow.trans h.row, fun g => (hclaims g).trans (h.claims g), fun g hg => hlive g hg (h.live g hg)⟩

theorem Stands.bumpWhen (h : Stands s l ids) (b : Bool) : Stands (s.bumpWhen b) l ids := by
  refine h.same (s.getLease_bumpWhen b l.id) (fun g => by rw [Store.deploymentIds_bumpWhen]) ?_
  intro g _ hlive
  unfold Store.IsLive
  rw [Store.getDeployment_bumpWhen]
  exact hlive

/-- Idling what no lease protects leaves the deployments of a protecting lease. -/
theorem Stands.idle (h : Stands s l ids) {now : Int} (hprotects : l.isProtecting now)
    (affected : List String) : Stands (idleDeployments s affected now).2 l ids := by
  refine h.same rfl (fun _ => Iff.rfl) fun g hg hlive => ?_
  have hmem := Table.find?_eq_some.mp h.row
  exact isLive_idleDeployments hlive ⟨l, hmem.1, hprotects, (h.claims g).mpr hg⟩

/-- Leases of other ids may change state. -/
theorem Stands.setLeaseStates (h : Stands s l ids) {others : List String} (hother : l.id ∉ others)
    (state : LeaseState) : Stands (s.setLeaseStates others state) l ids := by
  refine h.same ?_ (fun _ => Iff.rfl) fun _ _ hlive => hlive
  rw [Store.getLease_setLeaseStates, if_neg hother]

/-- A sweep expires no lease that still protects. -/
theorem Stands.sweep (h : Stands s l ids) {now : Int} (hprotects : l.isProtecting now) :
    Stands (sweep s now).2 l ids := by
  have hnot : l.id ∉ (s.activeLeasesPast now).map Lease.id := by
    intro hin
    obtain ⟨due, hdue, hid⟩ := List.mem_map.mp hin
    obtain ⟨hmem, hpast⟩ := List.mem_filter.mp hdue
    have hrow := Table.find?_eq_some.mp h.row
    have hsame : due = l := Table.eq_of_key_eq hmem hrow.1 hid
    subst hsame
    simp only [decide_eq_true_eq] at hpast
    simp [Lease.isProtecting, hpast] at hprotects
  exact ((h.setLeaseStates hnot .expired).idle hprotects _).bumpWhen _

/-- The step neither released the lease nor renewed it: the row is as it was, or
expired, or gone. -/
def Untouched (s' : Store π δ) (l : Lease) : Prop :=
  ∀ l', s'.getLease l.id = some l' → l' = l ∨ l'.state = .expired

instance (s' : Store π δ) (l : Lease) : Decidable (Untouched s' l) :=
  decidable_of_iff ((s'.getLease l.id).all fun l' => l' = l ∨ l'.state = .expired) (by
    simp [Untouched, Option.all_eq_true])

theorem Stands.release (h : Stands s l ids) {now : Int} (hprotects : l.isProtecting now)
    {leaseId : String} (huntouched : Untouched (release s leaseId now).2 l) :
    Stands (release s leaseId now).2 l ids := by
  cases release_cases s leaseId now with
  | inl hnothing =>
      rw [hnothing.2.1]
      exact h
  | inr hreleased =>
      obtain ⟨l₀, idled, hget, -, hidled, -, hstore⟩ := hreleased
      rw [hstore] at huntouched ⊢
      have hother : l.id ∉ [leaseId] := by
        intro hin
        have hid := List.mem_singleton.mp hin
        have hrow : ((s.setLeaseStates [leaseId] .released).getLease l.id) =
            some (l.withState .released) := by
          rw [Store.getLease_setLeaseStates, if_pos hin, h.row]
          rfl
        have hrow' := huntouched (l.withState .released) (by
          rw [Store.getLease_bumpWhen]
          exact hrow)
        cases hrow' with
        | inl hsame =>
            have hactive : l.state = .active := by
              simp only [Lease.isProtecting, Bool.and_eq_true, decide_eq_true_eq] at hprotects
              exact hprotects.1
            rw [← hsame] at hactive
            contradiction
        | inr hexpired => contradiction
      subst hidled
      exact ((h.setLeaseStates hother .released).idle hprotects _).bumpWhen _

theorem Stands.evictIdle (h : Stands s l ids) (only : Option (List String)) (now : Int) :
    Stands (evictIdle s only now).2 l ids := by
  refine h.same (Store.getLease_bumpWhen _ _ l.id) (fun g => ?_) fun g _ => isLive_evictIdle
  rw [InferStack.evictIdle, Store.deploymentIds_bumpWhen]
  rfl

/-- An acquire adds a lease of its own, and loses no LIVE deployment. -/
theorem Stands.acquired (h : Stands s l ids) {leaseId owner : String} {ttl : Option Int}
    {o : AcquireOverlay} {allocations : Dict String (List Nat)} {digest : Option δ}
    {profile : Option π} (hacq : Acquired s s' leaseId owner ttl o allocations digest profile) :
    Stands s' l ids := by
  have hmem := Table.find?_eq_some.mp h.row
  have hne : l.id ≠ leaseId := by
    intro heq
    exact hacq.fresh (heq ▸ Table.mem_keys.mpr ⟨l, hmem.1, rfl⟩)
  refine h.same ?_ (fun g => ?_) fun g _ hlive => ?_
  · have hin : l ∈ s'.leases := by
      rw [Table.mem_def, hacq.leases]
      exact List.mem_append_left _ hmem.1
    have hget : s'.getLease l.id = some l := Table.mem_iff_find?.mp hin
    rw [hget, h.row]
  · rw [hacq.mem_deploymentIds]
    simp [hne]
  · obtain ⟨d, hd, hstate⟩ := hlive
    obtain ⟨d', hd', hstate'⟩ := acquiredRow_state s o allocations (g := g) (d := d) (by simp [hd])
    refine ⟨d', by rw [hacq.getDeployment, hd'], ?_⟩
    rw [hstate']
    split
    · rfl
    · exact hstate

/-- Renewing another lease leaves the row alone. -/
theorem Stands.row_renewLease (h : Stands s l ids) {leaseId : String} {ttl expires : Option Int}
    {now : Int} (huntouched : Untouched (s.renewLease leaseId ttl expires now) l) :
    (s.renewLease leaseId ttl expires now).getLease l.id = some l := by
  have hrow : (s.renewLease leaseId ttl expires now).getLease l.id =
      if l.id = leaseId then some (l.renewed ttl expires now) else some l := by
    rw [Store.getLease_renewLease, h.row]
    rfl
  by_cases hid : l.id = leaseId
  · rw [if_pos hid] at hrow
    cases huntouched _ hrow with
    | inl hsame => rw [hrow, hsame]
    | inr hexpired => contradiction
  · rw [hrow, if_neg hid]

/-- Another lease's renew revives, and changes no other lease. -/
theorem Stands.renewed (h : Stands s l ids) {leaseId : String} {ttl : Option Int}
    {allocations : Dict String (List Nat)} {now : Int}
    (hrow : (renewedStore s leaseId ttl allocations now).getLease l.id = some l) :
    Stands (renewedStore s leaseId ttl allocations now) l ids :=
  h.same (hrow.trans h.row.symm) (fun g => by rw [deploymentIds_renewedStore])
    fun _ _ hlive => isLive_renewedStore (.inl hlive)

/-- What forgetting terminal rows leaves of a lease that protects. -/
theorem Stands.prune (h : Stands s l ids) (hactive : l.state = .active) :
    Stands (pruneTerminal s) l ids := by
  refine h.same ?_ (fun g => ?_) fun g _ => isLive_prune
  · rw [h.row]
    change (s.leases.filter _).find? l.id = some l
    rw [Table.find?_filter]
    change (s.getLease l.id).filter _ = some l
    rw [h.row, Option.filter_some_pos (by simp [hactive])]
  · rw [Store.mem_deploymentIds, Store.mem_deploymentIds]
    constructor
    · rintro ⟨c, hc, hids⟩
      exact ⟨c, (List.mem_filter.mp hc).1, hids⟩
    · rintro ⟨c, hc, hlease, hdeployment⟩
      have hg : g ∈ ids := (h.claims g).mp (Store.mem_deploymentIds.mpr ⟨c, hc, hlease, hdeployment⟩)
      obtain ⟨d, hd, hstate⟩ := h.live g hg
      refine ⟨c, List.mem_filter.mpr ⟨hc, ?_⟩, hlease, hdeployment⟩
      have hrow : s.leases.find? c.leaseId = some l := hlease ▸ h.row
      have hrow' : s.deployments.find? c.deploymentId = some d := hdeployment ▸ hd
      simp [hrow, hrow', hactive, hstate]

/-- The step is taken before the lease's expiry. -/
def InTime [DecidableEq π] [DecidableEq δ] {B : Backend π δ φ} (l : Lease) : CtlEvent B → Prop
  | .step i => l.isProtecting i.now
  | _ => True

instance [DecidableEq π] [DecidableEq δ] {B : Backend π δ φ} (l : Lease) (e : CtlEvent B) :
    Decidable (InTime l e) :=
  match e with
  | .step i => inferInstanceAs (Decidable (l.isProtecting i.now = true))
  | .start _ => isTrue trivial
  | .crash => isTrue trivial
  | .disturb _ => isTrue trivial

/-- What protects is not reclaimed: no transaction before its expiry takes the
lease or its deployments, unless it releases or renews the lease. -/
theorem Stands.transition (h : Stands s l ids) {i : Input} (hprotects : l.isProtecting i.now)
    (ht : Transition i s s') (huntouched : Untouched s' l) : Stands s' l ids := by
  have hactive : l.state = .active := by
    simp only [Lease.isProtecting, Bool.and_eq_true, decide_eq_true_eq] at hprotects
    exact hprotects.1
  cases ht with
  | rows _ hleases hclaims hdeployments =>
      refine h.same ?_ (fun g => ?_) fun g _ hlive => ?_
      · unfold Store.getLease
        rw [hleases]
      · rw [Store.mem_deploymentIds, Store.mem_deploymentIds, hclaims]
      · unfold Store.IsLive Store.getDeployment
        rw [hdeployments]
        exact hlive
  | sweep => exact h.sweep hprotects
  | release leaseId => exact h.release hprotects huntouched
  | evict only => exact h.evictIdle only i.now
  | allocate g gpus => exact h.same rfl (fun _ => Iff.rfl) fun _ _ => isLive_setAllocation
  | acquire _ owner ttl o allocations digest profile hacq => exact h.acquired (acquire_ok hacq)
  | renew leaseId ttl allocations =>
      cases renew_cases s leaseId ttl allocations i.now with
      | inl hsame =>
          rw [hsame.2]
          exact h
      | inr hrenewed =>
          obtain ⟨l₀, -, -, hstore⟩ := hrenewed
          rw [hstore]
          have hleases : (renewedStore s leaseId ttl allocations i.now).getLease l.id =
              (s.renewLease leaseId ttl (ttl.map (i.now + ·)) i.now).getLease l.id := by
            unfold Store.getLease
            rw [leases_renewedStore]
          refine h.renewed (hleases.trans (h.row_renewLease fun l' hl' => huntouched l' ?_))
          rw [hstore]
          exact hleases.trans hl'
  | prune => exact h.prune hactive

/-- Every event of a run is a transaction of the lease's, or leaves it standing. -/
theorem Stands.event [DecidableEq π] [DecidableEq δ] {B : Backend π δ φ} (h : Stands s l ids)
    {e : CtlEvent B} (htime : InTime l e) (ht : RowEvent B s s' e) (huntouched : Untouched s' l) :
    Stands s' l ids := by
  cases e with
  | start v =>
      obtain rfl : s' = s := ht
      exact h
  | step i => exact h.transition htime ht huntouched
  | crash =>
      obtain rfl : s' = s := ht
      exact h
  | disturb r =>
      obtain rfl : s' = (renewIfLive s r.leaseId r.ttlSeconds r.now).2 := ht
      cases renewIfLive_cases s r.leaseId r.ttlSeconds r.now with
      | inl hsame =>
          rw [hsame.1]
          exact h
      | inr hrenewed =>
          obtain ⟨l₀, -, -, -, hstore⟩ := hrenewed
          rw [hstore] at huntouched ⊢
          exact h.same ((h.row_renewLease huntouched).trans h.row.symm) (fun _ => Iff.rfl)
            fun _ _ hlive => hlive

/-! ## the lock-free renewal -/

section Run

variable [DecidableEq π] [DecidableEq δ] {B : Backend π δ φ}

/-- A lease stands as long as nobody releases or renews it, until its expiry. -/
theorem Stands.run {sys : CtlSys π δ φ} {es : List (CtlEvent B)}
    (h : Stands sys.state.store l ids)
    (htransitions : AllSteps (ctlStep B)
      (fun sys e => RowEvent B sys.state.store (ctlStep B sys e).state.store e) sys es)
    (huntouched : AllSteps (ctlStep B)
      (fun sys e => InTime l e ∧ Untouched (ctlStep B sys e).state.store l) sys es) :
    Stands (run (ctlStep B) sys es).state.store l ids := by
  refine AllSteps.run_inv (I := fun sys => Stands sys.state.store l ids) ?_ h
    (htransitions.and huntouched)
  intro sys e hstands hstep
  exact hstands.event hstep.2.1 hstep.1 hstep.2.2

omit [DecidableEq π] [DecidableEq δ] in
/-- What a lock-free renew answers: the new row, if it wrote it. -/
theorem renewIfLive_answer (s : Store π δ) (leaseId : String) (ttl : Option Int) (now : Int) :
    ((renewIfLive s leaseId ttl now).2 = s ∧
        ∀ lease, (renewIfLive s leaseId ttl now).1 ≠ .renewed lease) ∨
      ∃ old, s.getLease leaseId = some old ∧ old.state = .active ∧
        (∀ g ∈ s.deploymentIds leaseId, s.IsLive g) ∧
        (renewIfLive s leaseId ttl now).1 =
          .renewed (some (old.renewed ttl (ttl.map (now + ·)) now)) ∧
        (renewIfLive s leaseId ttl now).2 = s.renewLease leaseId ttl (ttl.map (now + ·)) now := by
  cases renewIfLive_cases s leaseId ttl now with
  | inl hsame => exact .inl hsame
  | inr hrenewed =>
      obtain ⟨old, hrow, hactive, hlive, hstore⟩ := hrenewed
      refine .inr ⟨old, hrow, hactive, hlive, ?_, hstore⟩
      have hall : (s.deploymentIds leaseId).all
          (fun g => (s.getDeployment g).any fun d => d.state = .live) = true := by
        rw [List.all_eq_true]
        intro g hg
        obtain ⟨d, hd, hstate⟩ := hlive g hg
        simp [hd, hstate]
      have hres : (renewIfLive s leaseId ttl now).1 =
          .renewed ((s.renewLease leaseId ttl (ttl.map (now + ·)) now).getLease leaseId) := by
        simp only [renewIfLive, hrow, hactive, hall, ne_eq, not_true_eq_false, if_false, if_true]
      rw [hres, Store.getLease_renewLease, if_pos rfl, hrow]
      rfl

omit [DecidableEq δ] in
/-- A transaction that changes nothing a render reads. -/
theorem World.withStore_of_desired (w : World π δ φ) {s : Store π δ}
    (hdeployments : s.deployments = w.store.deployments) (hprofile : s.profile = w.store.profile) :
    w.withStore B s = { w with store := s } := by
  have hsame : desiredOf B s = desiredOf B w.store := by
    unfold desiredOf
    rw [hdeployments, hprofile]
  simp [withStore, hsame]

/-- The GPUs of deployment `g` are no other LIVE deployment's. -/
def HoldsAlone (s : Store π δ) (g : String) : Prop :=
  ∀ d ∈ s.deployments, ∀ e ∈ s.deployments, d.id = g → e.id ≠ g → d.state = .live →
    e.state = .live → ∀ xs ys, d.assignedGpus = some xs → e.assignedGpus = some ys →
      ∀ i ∈ xs, i ∉ ys

/-- The lock-free renew, at any point of any run of the controller:

* one that fails changes nothing;
* one that succeeds finds the lease ACTIVE and all it claims LIVE, and writes the
  lease row only;
* until its expiry, the lease and its deployments stay as they are, as long as
  nobody releases or renews it;
* and no admission is given their GPUs, in a run that revives apart. -/
theorem renewIfLive_linearizes (B : Backend π δ φ) (env : Dict String String) (files : φ)
    (process : Process π δ) (es : List (CtlEvent B)) (r : LockFreeRenew) :
    let sys := run (ctlStep B) (CtlSys.init env files process) es
    ((∀ lease, (renewIfLive sys.state.store r.leaseId r.ttlSeconds r.now).1 ≠ .renewed lease) →
      ctlStep B sys (.disturb r) = sys) ∧
    ∀ lease, (renewIfLive sys.state.store r.leaseId r.ttlSeconds r.now).1 = .renewed lease →
      ∃ old new, sys.state.store.getLease r.leaseId = some old ∧ old.state = .active ∧
        (∀ g ∈ sys.state.store.deploymentIds r.leaseId, sys.state.store.IsLive g) ∧
        new = old.renewed r.ttlSeconds (r.ttlSeconds.map (r.now + ·)) r.now ∧ lease = some new ∧
        ctlStep B sys (.disturb r) = { sys with state := { sys.state with
          store := sys.state.store.renewLease r.leaseId r.ttlSeconds
            (r.ttlSeconds.map (r.now + ·)) r.now } } ∧
        ∀ later, AllSteps (ctlStep B)
            (fun sys e => InTime new e ∧ Untouched (ctlStep B sys e).state.store new)
            (ctlStep B sys (.disturb r)) later →
          let after := (run (ctlStep B) (ctlStep B sys (.disturb r)) later).state.store
          Stands after new (sys.state.store.deploymentIds r.leaseId) ∧
          (AllSteps (ctlStep B) (fun sys e => RevivesApart sys.state (ctlStep B sys e).state)
              (CtlSys.init env files process) (es ++ .disturb r :: later) →
            ∀ g ∈ sys.state.store.deploymentIds r.leaseId, HoldsAlone after g) := by
  intro sys
  have hstep : ctlStep B sys (.disturb r) =
      ⟨sys.state.withStore B (renewIfLive sys.state.store r.leaseId r.ttlSeconds r.now).2,
        sys.running⟩ := rfl
  cases renewIfLive_answer sys.state.store r.leaseId r.ttlSeconds r.now with
  | inl hfailed =>
      refine ⟨fun _ => ?_, fun lease hres => absurd hres (hfailed.2 lease)⟩
      have hworld := sys.state.withStore_of_desired (B := B) (s := sys.state.store) rfl rfl
      rw [hstep, hfailed.1, hworld]
  | inr hrenewed =>
    obtain ⟨old, hrow, hactive, hlive, hanswer, hstore⟩ := hrenewed
    refine ⟨fun hfails => absurd hanswer (hfails _), fun lease hres => ?_⟩
    have hlease := FastRenew.renewed.inj (hres.symm.trans hanswer)
    have hworld := sys.state.withStore_of_desired (B := B) (s := sys.state.store.renewLease
      r.leaseId r.ttlSeconds (r.ttlSeconds.map (r.now + ·)) r.now) rfl rfl
    rw [hstore, hworld] at hstep
    refine ⟨old, _, hrow, hactive, hlive, rfl, hlease, hstep, ?_⟩
    intro later hlater
    have hid : old.id = r.leaseId := (Table.find?_eq_some.mp hrow).2
    have hstands : Stands (ctlStep B sys (.disturb r)).state.store
        (old.renewed r.ttlSeconds (r.ttlSeconds.map (r.now + ·)) r.now)
        (sys.state.store.deploymentIds r.leaseId) := by
      rw [hstep]
      refine ⟨?_, fun g => ?_, hlive⟩
      · show (sys.state.store.renewLease r.leaseId r.ttlSeconds _ r.now).getLease old.id = _
        rw [Store.getLease_renewLease, if_pos hid, hid, hrow]
        rfl
      · show g ∈ sys.state.store.deploymentIds old.id ↔ _
        rw [hid]
    have htransitions := ctlStep_transition B env files process (es ++ .disturb r :: later)
    rw [allSteps_append] at htransitions
    refine ⟨hstands.run htransitions.2.2 hlater, fun hapart g _ d hd e he hdg heg => ?_⟩
    have hgranted := (grantedWorld_run hapart).granted
    have hworld : worldAfter B env files process (es ++ .disturb r :: later) =
        (run (ctlStep B) (ctlStep B sys (.disturb r)) later).state := by
      unfold worldAfter
      rw [run_append]
      rfl
    rw [hworld] at hgranted
    exact hgranted.apart d hd e he (by rw [hdg]; exact fun h => heg h.symm)

/-! ## a lease on the desk -/

/-- A lease for 100 seconds. -/
def leased {B : Backend Unit (List (String × Option (List Nat))) Unit} : List (CtlEvent B) :=
  deskRun (.acquire "u" [modelRequest "a"] (some 100) true)
    { now := 1, residency := running [], leaseId := "l1", newId := fun _ => "dep-a" }

/-- A window is what the last renewal says: one of 1000 seconds, renewed for one
second, is swept long before the 1000 are over. -/
theorem shortened_expires :
    ((renewIfLive (worldAfter desk ∅ () deskProcess leased).store "l1" (some 1000) 2).1 =
      .renewed (some ⟨"l1", "u", .active, 1, some 1000, some 1002, 2⟩)) ∧
    let after := (worldAfter desk ∅ () deskProcess (leased ++
      .disturb ⟨"l1", some 1000, 2⟩ :: .disturb ⟨"l1", some 1, 3⟩ ::
        deskRun (.gc false) { now := 10, residency := some warmFirst })).store
    (after.getLease "l1").map Lease.state = some .expired ∧ ¬ after.IsLive "dep-a" := by
  decide +kernel

/-- Another model is admitted, and the ledger swept, past the first expiry. -/
def secondAdmitted : List (CtlEvent bench) :=
  deskRun (.acquire "v" [modelRequest "b"] none true)
      { now := 110, residency := running [("dep-a", 0)], leaseId := "l2"
        newId := fun _ => "dep-b" } ++
    deskRun (.gc false) { now := 120, residency := running [("dep-a", 0), ("dep-b", 1)] }

/-- A lease renewed in time survives the sweep, and its GPU is not given to the
other model. -/
theorem heartbeat_stands :
    let sys := run (ctlStep bench) (CtlSys.init ∅ () deskProcess) leased
    let after := (run (ctlStep bench) (ctlStep bench sys (.disturb ⟨"l1", some 100, 50⟩))
      secondAdmitted).state.store
    after.IsLive "dep-b" ∧
      Stands after ⟨"l1", "u", .active, 1, some 100, some 150, 50⟩
        (sys.state.store.deploymentIds "l1") ∧
      ∀ g ∈ sys.state.store.deploymentIds "l1", HoldsAlone after g := by
  have hlinear := renewIfLive_linearizes bench ∅ () deskProcess leased ⟨"l1", some 100, 50⟩
  dsimp only at hlinear
  obtain ⟨old, new, -, -, -, -, hlease, -, hlater⟩ := hlinear.2
    (some ⟨"l1", "u", .active, 1, some 100, some 150, 50⟩) (by decide +kernel)
  obtain rfl := Option.some.inj hlease
  have hquiet : AllSteps (ctlStep bench)
      (fun sys e => InTime ⟨"l1", "u", .active, 1, some 100, some 150, 50⟩ e ∧
        Untouched (ctlStep bench sys e).state.store ⟨"l1", "u", .active, 1, some 100, some 150, 50⟩)
      (ctlStep bench (run (ctlStep bench) (CtlSys.init ∅ () deskProcess) leased)
        (.disturb ⟨"l1", some 100, 50⟩)) secondAdmitted := by decide +kernel
  obtain ⟨hstands, halone⟩ := hlater secondAdmitted hquiet
  exact ⟨by decide +kernel, hstands, halone (by decide +kernel)⟩

end Run

end InferStack
