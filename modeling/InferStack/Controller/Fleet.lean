import InferStack.Controller.Allocation

/-!
# InferStack.Controller.Fleet

Several long-lived controller processes over one ledger, each rendering from the
published profile.

* `Fleet`, `fleetStep` — the processes with their own memories, the lock that
  one of them holds, and what can happen to them;
* `servingScheme` — no operation writes or applies files with another profile
  than the stored one;
* `served_run` — so does no run, if the ledger refuses no write while a
  candidate is in use unguarded.
-/

namespace InferStack

open Kit

variable {π δ φ : Type} [DecidableEq π] [DecidableEq δ] (B : Backend π δ φ)

/-! ## what the files were written with -/

/-- Files were only written and applied with the profile stored at that time. -/
def Faithful (h : History π) : Prop := ∀ use ∈ h.served, use.1.isSome ∧ use.1 = use.2

/-- Nothing was rendered from another profile, and every lease is under one. -/
structure Serving (w : World π δ φ) : Prop where
  leased : w.store.Leased
  faithful : Faithful w.history

/-- The assumptions: guarded steps, and renewals in between. -/
abbrev servingRely : Rely (World π δ φ) Input :=
  ctlRely (fun w i _ => Guarded i w.process.toProfileInUse) Serving (fun _ _ => True)
    fun _ => trivial

def servingWorld : Proc.Assertion (servingRely (π := π) (δ := δ) (φ := φ)) where
  holds := Serving
  inv := fun _ hw => hw
  moved := fun _ _ hw hm => ⟨hw.leased.moved hm, hm.history ▸ hw.faithful⟩

variable {B} {X : ProfileInUse π → Option π → Prop}

omit [DecidableEq δ] in
/-- A change of the ledger records nothing. -/
theorem Serving.withStore {w : World π δ φ} (h : Serving w) {s : Store π δ} (hs : s.Leased) :
    (servingWorld (π := π) (δ := δ) (φ := φ)).holds (w.withStore B s) := ⟨hs, h.faithful⟩

omit [DecidableEq π] in
/-- One more use of the stored profile. -/
theorem Faithful.use {h : History π} (hh : Faithful h) {p stored : Option π} (hsome : p.isSome)
    (hp : p = stored) : ∀ use ∈ h.served ++ [(p, stored)], use.1.isSome ∧ use.1 = use.2 := by
  intro use huse
  cases List.mem_append.mp huse with
  | inl hold => exact hh use hold
  | inr hnew =>
      obtain rfl := List.mem_singleton.mp hnew
      exact ⟨hsome, hp⟩

omit [DecidableEq π] [DecidableEq δ] in
theorem servingWorld_free : Free (servingWorld (π := π) (δ := δ) (φ := φ)) := fun w w' ha hw => by
  refine ⟨trivial, ?_⟩
  change Serving w'
  exact ⟨ha.store ▸ hw.leased, ha.history ▸ hw.faithful⟩

omit [DecidableEq δ] in
theorem servingWorld_kept : Kept B (servingWorld (π := π) (δ := δ) (φ := φ)) where
  write := fun w w' ho hw => by
    refine ⟨trivial, ?_⟩
    change Serving w'
    refine ⟨ho.store ▸ hw.leased, fun use huse => ?_⟩
    rw [ho.served] at huse
    exact hw.faithful use huse
  upkeep := fun w s hup hw => ⟨trivial, hw.withStore (hup.leased hw.leased)⟩

/-! ## rendering and applying -/

omit [DecidableEq δ] in
/-- Files are written with the profile they were rendered from. -/
theorem render_serving (hX : ∀ u stored, X u stored → Held B none u stored) :
    Proc.Triple (inUse (servingWorld (π := π) (δ := δ) (φ := φ)) X) (render B)
      (fun _ => inUse servingWorld X) (fun _ => inUse servingWorld X) := by
  have hsome : ∀ u stored, X u stored → stored.isSome := fun u stored h => (hX u stored h).isSome
  have hkept : Kept B (inUse (servingWorld (π := π) (δ := δ) (φ := φ)) X) :=
    servingWorld_kept.inUse hsome
  refine Proc.Triple.bind hkept.prepareRender fun prepared => ?_
  refine Proc.Triple.bind (Q := fun rendered => inUse servingWorld
    fun u stored => X u stored ∧ rendered.2.profile = stored) ?_ fun rendered => ?_
  · refine Proc.Triple.act fun w i hw _ => ?_
    have hprofile : w.store.profile = some w.process.rendersFrom := (hX _ _ hw.2).stored
    dsimp only
    split
    · exact ⟨trivial, fun _ ha => by contradiction, fun _ _ => hw⟩
    · exact ⟨trivial, fun _ ha => by contradiction, fun _ _ => hw⟩
    · refine ⟨trivial, fun r hr => ⟨⟨hw.1.leased, hw.1.faithful⟩, hw.2, ?_⟩,
        fun _ _ => ⟨⟨hw.1.leased, hw.1.faithful⟩, hw.2⟩⟩
      split at hr
      · obtain rfl := Except.ok.inj hr
        exact hprofile.symm
      · contradiction
  · have hkept' : Kept B (inUse (servingWorld (π := π) (δ := δ) (φ := φ))
        fun u stored => X u stored ∧ rendered.2.profile = stored) :=
      servingWorld_kept.inUse fun u stored h => hsome u stored h.1
    refine Proc.Triple.bind ((hkept'.keepAddresses rendered.1).conseq (fun _ hw => hw)
      (fun _ _ hw => hw) (fun _ w hw => ⟨hw.1, hw.2.1⟩)) fun _ => ?_
    refine Proc.Triple.bind (Q := fun _ => inUse servingWorld X) ?_
      fun _ => Proc.Triple.pure fun _ hw => hw
    refine Proc.Triple.act fun w i hw _ => ?_
    have hstored : w.store.profile.isSome := hsome _ _ hw.2.1
    refine ⟨trivial, fun _ _ => ⟨⟨hw.1.leased, ?_⟩, hw.2.1⟩, fun _ he => by contradiction⟩
    exact hw.1.faithful.use (hw.2.2 ▸ hstored) hw.2.2

omit [DecidableEq δ] [DecidableEq π] in
/-- They are applied with it too. -/
theorem runApply_serving (hX : ∀ u stored, X u stored → Held B none u stored) :
    Keeps (inUse (servingWorld (π := π) (δ := δ) (φ := φ)) X) runApply := by
  refine Proc.Triple.act fun w i hw _ => ?_
  have hprofile : w.store.profile = some w.process.rendersFrom := (hX _ _ hw.2).stored
  have happlying := hw.1.faithful.use (p := some w.process.rendersFrom) rfl hprofile.symm
  dsimp only
  split
  · exact ⟨trivial, fun _ _ => ⟨⟨hw.1.leased, happlying⟩, hw.2⟩, fun _ _ =>
      ⟨⟨hw.1.leased, happlying⟩, hw.2⟩⟩
  · exact ⟨trivial, fun _ _ => ⟨⟨hw.1.leased, happlying⟩, hw.2⟩, fun _ _ =>
      ⟨⟨hw.1.leased, happlying⟩, hw.2⟩⟩
  · exact ⟨trivial, fun _ _ => ⟨⟨hw.1.leased, happlying⟩, hw.2⟩, fun _ _ =>
      ⟨⟨hw.1.leased, happlying⟩, hw.2⟩⟩

/-- The serving scheme of the controller. -/
theorem servingScheme (B : Backend π δ φ) :
    Scheme B True (servingWorld (π := π) (δ := δ) (φ := φ)) servingWorld servingWorld where
  free := servingWorld_free
  freeMarked := servingWorld_free
  observes := fun w r hw => ⟨trivial, hw.leased, hw.faithful⟩
  leased := fun w hw => hw.leased
  guarded := fun _ w i w' hok => hok
  marks := fun w apply fresh hw _ =>
    ⟨trivial, hw.withStore (leased_mark hw.leased apply false none fresh)⟩
  kept := servingWorld_kept
  forget := fun _ hw => hw
  unapplied := fun _ hw => hw
  render := fun X hX => render_serving hX
  apply := fun X hX rec => by
    have hkept : Kept B (inUse (servingWorld (π := π) (δ := δ) (φ := φ)) X) :=
      servingWorld_kept.inUse fun u stored h => (hX u stored h).isSome
    refine hkept.applyPending (fun w version hw => ?_) (runApply_serving hX) rec
    exact ⟨trivial, hw.1.withStore hw.1.leased, hw.2⟩
  commit := fun w i requests o a leaseId owner ttl digest candidate s hw hprofile _ _ hacq _ => by
    refine ⟨trivial, hw.withStore (Store.Leased.of_isSome ?_)⟩
    rw [(acquire_ok hacq).profile]
    cases candidate with
    | none => exact hprofile
    | some p => rfl
  renew := fun w i leaseId ttl o a now hw _ _ _ => by
    have hrows := rowsOnly_renew w.store leaseId ttl a.allocations now
    exact ⟨trivial, hw.withStore (hw.leased.rowsOnly hrows)⟩
  renewLive := fun w leaseId ttl now hw _ => by
    have hrows := rowsOnly_renew w.store leaseId ttl ∅ now
    exact ⟨trivial, hw.withStore (hw.leased.rowsOnly hrows)⟩
  approve := fun w digest hw =>
    ⟨trivial, hw.withStore (leased_mark hw.leased true false (some digest) none)⟩
  prune := fun w hw => ⟨trivial, hw.withStore (hw.leased.rowsOnly (rowsOnly_prune w.store))⟩
  publishProfile := fun w profile digest hw =>
    ⟨trivial, hw.withStore (Store.Leased.of_isSome rfl)⟩
  migrate := fun w subnet reset digest fresh hw _ =>
    ⟨trivial, hw.withStore (leased_mark hw.leased true false (some digest) fresh)⟩
  writeProfile := fun w profile hw => ⟨trivial, hw.withStore (Store.Leased.of_isSome rfl)⟩

/-! ## the fleet -/

/-- Several controller processes over one ledger: what each keeps in memory
while it does not run, and which one holds the lock. -/
structure Fleet (π δ φ : Type) where
  sys : CtlSys π δ φ
  holder : Nat := 0
  memory : Nat → Option (Process π δ) := fun _ => none

variable (B) in
/-- What happens to a fleet. -/
inductive FleetEvent where
  /-- A process opens a controller over the ledger. -/
  | opens (pid : Nat) (invocation : π) (allowedGpus : Option (List Nat))
  /-- A process takes the lock, and starts an operation. -/
  | locks (pid : Nat) (op : Op B)
  /-- The catalogs of a process are edited; its settings stay. -/
  | configures (pid : Nat) (invocation : π)
  /-- The operation under the lock takes a step. -/
  | step (input : Input)
  /-- The process that holds the lock is killed. -/
  | crash
  /-- Another process renews a lease without the lock. -/
  | renews (r : LockFreeRenew)

namespace Fleet

/-- Whether a process is inside an operation. -/
def busy (f : Fleet π δ φ) (pid : Nat) : Bool := f.sys.running.isSome && f.holder = pid

/-- The memory of one process replaced. -/
def remember (f : Fleet π δ φ) (pid : Nat) (p : Option (Process π δ)) : Fleet π δ φ :=
  { f with memory := fun q => if q = pid then p else f.memory q }

omit [DecidableEq π] [DecidableEq δ] in
theorem memory_remember (f : Fleet π δ φ) (pid q : Nat) (p : Option (Process π δ)) :
    (f.remember pid p).memory q = if q = pid then p else f.memory q := rfl

/-- A step of the operation under the lock; the process keeps its memory after it. -/
def stepHolder (f : Fleet π δ φ) (input : Input) : Fleet π δ φ :=
  let f' := { f with sys := f.sys.stepProc input }
  if f.sys.running.isSome ∧ f'.sys.running = none then
    f'.remember f.holder (some f'.sys.state.process)
  else f'

/-- Other catalogs in the process inside an operation. -/
def reconfigured (f : Fleet π δ φ) (invocation : π) : Fleet π δ φ :=
  { f with sys := { f.sys with state := { f.sys.state with
      process := { f.sys.state.process with invocation := invocation } } } }

end Fleet

/-- One event. -/
def fleetStep (B : Backend π δ φ) (f : Fleet π δ φ) (e : FleetEvent B) : Fleet π δ φ :=
  match e with
  | .opens pid invocation allowedGpus =>
      if f.busy pid then f
      else f.remember pid (some (Process.opened B f.sys.state.store invocation allowedGpus))
  | .locks pid op =>
      match f.sys.running, f.memory pid with
      | none, some p =>
          { f with
            sys := { state := { f.sys.state with process := p }, running := some op.program }
            holder := pid }
      | _, _ => f
  | .configures pid invocation =>
      if f.busy pid then f.reconfigured invocation
      else f.remember pid ((f.memory pid).map fun p => { p with invocation := invocation })
  | .step input => f.stepHolder input
  | .crash =>
      if f.sys.running.isSome then
        { f.remember f.holder none with sys := { f.sys with running := none } }
      else f
  | .renews r =>
      let renewed := (renewIfLive f.sys.state.store r.leaseId r.ttlSeconds r.now).2
      { f with sys := { f.sys with state := f.sys.state.withStore B renewed } }

/-- Processes yet to open a fresh ledger. -/
def Fleet.init (env : Dict String String) (files : φ) (process : Process π δ) : Fleet π δ φ :=
  { sys := CtlSys.init env files process }

/-- The fleet after a run from a fresh ledger. -/
def fleetAfter (B : Backend π δ φ) (env : Dict String String) (files : φ) (process : Process π δ)
    (es : List (FleetEvent B)) : Fleet π δ φ :=
  run (fleetStep B) (Fleet.init env files process) es

/-- An event on which the ledger refuses no write that a candidate's use is not
guarded against: no marker, and no profile of a quiescent stack, while a process
renders from another profile than it last switched to. -/
def GuardedEvent (f : Fleet π δ φ) : FleetEvent B → Prop
  | .step input => Guarded input f.sys.state.process.toProfileInUse
  | _ => True

instance (f : Fleet π δ φ) (e : FleetEvent B) : Decidable (GuardedEvent f e) := by
  cases e <;> unfold GuardedEvent <;> infer_instance

/-! ## runs -/

/-- Where an operation may leave: nothing rendered from another profile, and its
process synced. -/
abbrev leaves (B : Backend π δ φ) : World π δ φ → Prop :=
  (ended B True (servingWorld (π := π) (δ := δ) (φ := φ))).holds

/-- What holds between events: the operation under the lock goes on well, and
every other process is synced. -/
structure Fleet.Sound (B : Backend π δ φ) (f : Fleet π δ φ) : Prop where
  going : Sys.Going servingRely (leaves B) f.sys
  synced : ∀ pid p, f.busy pid = false → f.memory pid = some p → p.Synced B

namespace Fleet.Sound

variable {f : Fleet π δ φ}

omit [DecidableEq π] [DecidableEq δ] in
/-- Between operations every process is synced. -/
theorem idle (h : f.Sound B) (hrun : f.sys.running = none) {pid : Nat} {p : Process π δ}
    (hp : f.memory pid = some p) : p.Synced B :=
  h.synced pid p (by simp [busy, hrun]) hp

omit [DecidableEq π] [DecidableEq δ] in
theorem remember (h : f.Sound B) {pid : Nat} {p : Option (Process π δ)}
    (hp : ∀ q, p = some q → q.Synced B) : (f.remember pid p).Sound B := by
  refine ⟨h.going, fun pid' q hbusy hq => ?_⟩
  by_cases heq : pid' = pid
  · rw [memory_remember, if_pos heq] at hq
    exact hp q hq
  · rw [memory_remember, if_neg heq] at hq
    exact h.synced pid' q hbusy hq

omit [DecidableEq π] [DecidableEq δ] in
/-- Others moving the state disturb nothing. -/
theorem moved (h : f.Sound B) {w : World π δ φ} (hm : OnlyRenewals f.sys.state w) :
    ({ f with sys := { f.sys with state := w } } : Fleet π δ φ).Sound B := by
  have hserving : Serving w := servingWorld.moved _ _ h.going.inv hm
  exact ⟨⟨hserving, fun p hp => (h.going.running p hp).moved hm⟩, h.synced⟩

theorem locks (h : f.Sound B) {pid : Nat} (op : Op B) : (fleetStep B f (.locks pid op)).Sound B := by
  cases hrun : f.sys.running with
  | some p => simpa only [fleetStep, hrun] using h
  | none =>
      cases hp : f.memory pid with
      | none => simpa only [fleetStep, hrun, hp] using h
      | some p =>
          have hstart : (InferStack.synced B servingWorld).holds { f.sys.state with process := p } :=
            ⟨⟨h.going.inv.leased, h.going.inv.faithful⟩, h.idle hrun hp⟩
          have hprogram := (servingScheme B).program op _ hstart
          simp only [fleetStep, hrun, hp]
          refine ⟨⟨hprogram.inv, fun q hq => ?_⟩, fun pid' q hbusy hq => h.idle hrun hq⟩
          obtain rfl := Option.some.inj hq
          exact hprogram

omit [DecidableEq π] [DecidableEq δ] in
theorem stepHolder (h : f.Sound B) {input : Input}
    (hguard : Guarded input f.sys.state.process.toProfileInUse) : (f.stepHolder input).Sound B := by
  obtain ⟨hgoing, hleft⟩ := @Sys.Going.step _ _ _ _ _ _ _ h.going input hguard
  unfold Fleet.stepHolder
  dsimp only
  split
  · rename_i hend
    have hsynced := (hleft hend.1 hend.2).2 trivial
    refine ⟨hgoing, fun pid p _ hp => ?_⟩
    by_cases heq : pid = f.holder
    · rw [memory_remember, if_pos heq] at hp
      obtain rfl := Option.some.inj hp
      exact hsynced
    · rw [memory_remember, if_neg heq] at hp
      refine h.synced pid p ?_ hp
      simp [busy, Ne.symm heq]
  · rename_i hgoes
    refine ⟨hgoing, fun pid p hbusy hp => h.synced pid p ?_ hp⟩
    -- an operation that goes on keeps the lock
    cases hrun : f.sys.running with
    | none => simp [busy, hrun]
    | some q =>
        have hstill : (f.sys.stepProc input).running.isSome := by
          rw [hrun] at hgoes
          simpa [Option.isSome_iff_ne_none] using hgoes
        simpa [busy, hrun, hstill] using hbusy

theorem next (h : f.Sound B) {e : FleetEvent B} (hguard : GuardedEvent f e) :
    (fleetStep B f e).Sound B := by
  cases e with
  | opens pid invocation allowedGpus =>
      unfold fleetStep
      dsimp only
      split
      · exact h
      · refine h.remember fun q hq => ?_
        obtain rfl := Option.some.inj hq
        exact Process.opened_synced B f.sys.state.store invocation allowedGpus
  | locks pid op => exact h.locks op
  | configures pid invocation =>
      unfold fleetStep
      dsimp only
      split
      · exact h.moved { OnlyRenewals.refl f.sys.state with process := ⟨invocation, rfl⟩ }
      · rename_i hbusy
        refine h.remember fun q hq => ?_
        obtain ⟨p, hp, rfl⟩ := Option.map_eq_some_iff.mp hq
        exact h.synced pid p (by simpa using hbusy) hp
  | step input => exact h.stepHolder hguard
  | crash =>
      unfold fleetStep
      dsimp only
      split
      · rename_i hrun
        refine ⟨⟨h.going.inv, fun p hp => by contradiction⟩, fun pid p _ hp => ?_⟩
        by_cases heq : pid = f.holder
        · simp [memory_remember, heq] at hp
        · simp only [memory_remember, if_neg heq] at hp
          exact h.synced pid p (by simp [busy, Ne.symm heq]) hp
      · exact h
  | renews r => exact h.moved (renewIfLive_onlyRenewals f.sys.state r.leaseId r.ttlSeconds r.now)

end Fleet.Sound

omit [DecidableEq π] [DecidableEq δ] in
theorem sound_init (env : Dict String String) (files : φ) (process : Process π δ) :
    (Fleet.init env files process).Sound B :=
  ⟨⟨⟨fun _ => rfl, by simp [Fleet.init, CtlSys.init, Faithful]⟩, by simp [Fleet.init, CtlSys.init]⟩,
    fun _ _ _ hp => by contradiction⟩

/-- Whatever several processes do, every file was written and applied with the
profile stored at that time, if no write failed while a candidate was in use
unguarded. -/
theorem served_run (B : Backend π δ φ) (env : Dict String String) (files : φ)
    (process : Process π δ) (es : List (FleetEvent B))
    (hguarded : AllSteps (fleetStep B) GuardedEvent (Fleet.init env files process) es) :
    Faithful (fleetAfter B env files process es).sys.state.history := by
  have hsound : (fleetAfter B env files process es).Sound B :=
    AllSteps.run_inv (fun f e h hguard => h.next hguard) (sound_init env files process) hguarded
  exact hsound.going.inv.faithful

/-! ## a backend that shows its profile -/

/-- A backend whose profile names the revision of its catalogs. -/
def shelf : Backend String (List String × String) Unit where
  host := { gpus := Table.ofList [{ index := 0, memoryGib := 24 }] }
  reclaimDefault := "keep-warm"
  compatible _ := true
  settingsOnly _ := "settings"
  acquireProfile s _ invocation _ :=
    .ok (if s.profile = some invocation then none else some invocation)
  validateRequests _ _ := true
  secretNames _ := []
  enrichPlacement spec := spec.placement
  render input := .ok { digest := (input.desired.map Deployment.id, input.profile) }
  remember _ := ()

def shelfProcess : Process String (List String × String) :=
  { invocation := "v1", settings := "settings", rendersFrom := "v1" }

/-- An operation of a process, and enough steps to finish it. -/
def shelfRun (pid : Nat) (op : Op shelf) (input : Input) : List (FleetEvent shelf) :=
  .locks pid op :: List.replicate 40 (.step input)

/-- One process has published `v1`; its catalogs are edited since. -/
def edited : List (FleetEvent shelf) :=
  .opens 0 "v1" none ::
    shelfRun 0 (.acquire "u" [modelRequest "a"] none true)
      { now := 1, residency := some {}, leaseId := "l1", newId := fun _ => "dep-a" } ++
    [.configures 0 "v2"]

/-- The operator declines the edited catalogs, the process renders again, and
another process publishes its own. -/
def declined : List (FleetEvent shelf) :=
  edited ++
    shelfRun 0 (.acquire "v" [modelRequest "a"] none true)
      { now := 2, residency := some warmFirst, approve := false } ++
    shelfRun 0 (.reconcile true) { now := 3, residency := some warmFirst } ++
    .opens 1 "v3" none ::
    shelfRun 1 (.acquire "v" [modelRequest "a"] none true)
      { now := 4, residency := some warmFirst, leaseId := "l2" } ++
    shelfRun 0 (.release "l2") { now := 5, residency := some warmFirst }

/-- A declined candidate is not rendered from. -/
theorem declined_served : Faithful (fleetAfter shelf ∅ () shelfProcess declined).sys.state.history :=
  served_run shelf ∅ () shelfProcess declined (by decide +kernel)

/-- The marker of the acquire cannot be written, and the process renders again. -/
def unmarked : List (FleetEvent shelf) :=
  edited ++
    shelfRun 0 (.acquire "v" [modelRequest "a"] none true)
      { now := 2, residency := some warmFirst, leaseId := "l2", markFails := true } ++
    shelfRun 0 (.reconcile true) { now := 3, residency := some warmFirst }

/-- It renders and applies the candidate, which is not the stored profile. -/
theorem unmarked_unfaithful :
    ¬ Faithful (fleetAfter shelf ∅ () shelfProcess unmarked).sys.state.history := by
  have hserved : (fleetAfter shelf ∅ () shelfProcess unmarked).sys.state.history.served =
      [(some "v1", some "v1"), (some "v1", some "v1"), (some "v2", some "v1"),
        (some "v2", some "v1")] := by decide +kernel
  intro h
  have hlast := h (some "v2", some "v1") (by rw [hserved]; simp)
  exact absurd hlast.2 (by decide)

end InferStack
