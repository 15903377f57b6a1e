import InferStack.Controller
import InferStack.Gateway.Pruning

/-!
# InferStack.Gateway.RouteChanges

`routes seed` and `routes prune` as operations of the controller.

`commitRouteSeed` and `commitRoutePrune` are stated over the ledger and the route
registry alone.  `recordChange_seed` and `recordChange_prune` say that this is
what the controller's `publishChange` writes before it publishes.
-/

namespace InferStack

open Kit

section Changes

variable {σ δ φ α : Type}

/-- The route registry among the files of a backend. -/
structure RouteRegistry (φ : Type) where
  entries : φ → Dict String RegistryRow
  replace : φ → Dict String RegistryRow → φ
  entries_replace : ∀ files rows, entries (replace files rows) = rows

/-- The ledger and the route registry of a world. -/
def World.seedState (w : World (RecoveryProfile σ) δ φ) (registry : RouteRegistry φ) :
    SeedState σ δ := ⟨w.store, registry.entries w.files⟩

/-- The failure that the controller's callers see. -/
def SeedRefusal.failure : SeedRefusal → Failure
  | .profileMismatch _ => .profileMismatch
  | _ => .failed

/-! ## what a command writes -/

/-- Of the ledger only the catalogs of the stored profile are another. -/
def OnlyCatalogs (before after : Store (RecoveryProfile σ) δ) : Prop :=
  after = before ∨ ∃ stored catalogs, before.profile = some stored ∧
    after = before.writeProfile { stored with catalogs := catalogs }

theorem onlyCatalogs_storeCatalogs (s : SeedState σ δ) (catalogs : List Catalog) :
    OnlyCatalogs s.ledger (s.storeCatalogs catalogs).ledger := by
  unfold SeedState.storeCatalogs
  cases hprofile : s.ledger.profile with
  | none => exact .inl rfl
  | some stored => exact .inr ⟨stored, catalogs, hprofile, rfl⟩

/-- A change of the published catalogs and the route registry; a refusal writes
nothing. -/
structure RouteWrite (σ δ α : Type) where
  run : PruneHost σ → SeedState σ δ → Except SeedRefusal α × SeedState σ δ
  refused : ∀ host s e s', run host s = (.error e, s') → s' = s
  written : ∀ host s, OnlyCatalogs s.ledger (run host s).2.ledger
  reads : ∀ host host' s, host.residency = host'.residency → host.now = host'.now →
    host.catalogs = host'.catalogs → run host s = run host' s

/-- The change of a `routes seed`. -/
def seedWrite (py : Python) (managed : String → EndpointRequest → Option GatewayRoute)
    (plan : RoutePlan) : RouteWrite σ δ RoutePlan where
  run host := seedChange py managed host.toSeedHost plan
  refused host s e s' h := by
    unfold seedChange at h
    split at h
    · exact (Prod.mk.inj h).2.symm
    · split at h
      · exact (Prod.mk.inj h).2.symm
      · exact (Prod.mk.inj h).2.symm
      · exact absurd (Prod.mk.inj h).1 (by simp)
  written host s := by
    unfold seedChange
    split
    · exact .inl rfl
    · split
      · exact .inl rfl
      · exact .inl rfl
      · exact onlyCatalogs_storeCatalogs s _
  reads host host' s hresidency hnow _ := by
    unfold seedChange pinnedEndpoints pinnedDeployments
    rw [hresidency, hnow]

/-- The change of a `routes prune`. -/
def pruneWrite (B : Backend (RecoveryProfile σ) δ φ) (confirmed : List String) :
    RouteWrite σ δ (List String) where
  run host := pruneChange B host confirmed
  refused host s e s' h := by
    unfold pruneChange at h
    split at h
    · exact (Prod.mk.inj h).2.symm
    · dsimp only at h
      split at h <;> exact absurd (Prod.mk.inj h).1 (by simp)
  written host s := by
    unfold pruneChange
    split
    · exact .inl rfl
    · dsimp only
      split
      · exact .inl rfl
      · exact onlyCatalogs_storeCatalogs (s.dropEntries _) _
  reads host host' s hresidency hnow hcatalogs := by
    unfold pruneChange prunable pruneKeep pinnedEndpoints pinnedDeployments
    rw [hresidency, hnow, hcatalogs]

/-- A `routes seed` that has found nothing in its way before it took the lock. -/
theorem seedChecks_again (py : Python) (managed : String → EndpointRequest → Option GatewayRoute)
    (host : SeedHost σ) (plan : RoutePlan) (replace : Bool) (s : SeedState σ δ) :
    seedChecks py managed host plan replace s s =
      (seedPreflight py managed host plan replace s).bind fun _ =>
        if host.profileError then .error (.profileMismatch []) else .ok () := by
  unfold seedChecks seedPreflight
  cases hcurrent : s.publishedMeanings py managed with
  | error e => rfl
  | ok current =>
      cases hconflicts : refuseConflicts replace (planSeed current plan.incoming) with
      | error e => simp [hconflicts, bind, Except.bind]
      | ok u => simp [hconflicts, bind, Except.bind]

end Changes

/-! ## the commands -/

section Commands

variable {σ δ φ α : Type} [DecidableEq σ]
  (B : Backend (RecoveryProfile σ) δ φ) (registry : RouteRegistry φ)

/-- What a step of a route command finds beside the ledger. -/
def World.routesHost (w : World (RecoveryProfile σ) δ φ) (i : Input) : PruneHost σ where
  residency := i.residency
  now := i.now
  hasKey name := (ManagedEnv.present w.env name).isSome
  settings := w.process.settings.settings
  profileError := !(syncStep B w).1.isOk
  catalogs := w.process.invocation.catalogs

/-- The profile that a write has the controller store, if it is another one. -/
def newProfile (before after : Store (RecoveryProfile σ) δ) : Option (RecoveryProfile σ) :=
  if after.profile = before.profile then none else after.profile

namespace OnlyCatalogs

variable {before after : Store (RecoveryProfile σ) δ} (h : OnlyCatalogs before after)

include h

theorem eq_newProfile : after = (newProfile before after).elim before before.writeProfile := by
  unfold newProfile
  cases h with
  | inl hsame => simp [hsame]
  | inr h =>
      obtain ⟨stored, catalogs, hprofile, rfl⟩ := h
      by_cases hsame : (before.writeProfile { stored with catalogs := catalogs }).profile =
          before.profile
      · rw [if_pos hsame, Option.elim_none]
        unfold Store.writeProfile at hsame ⊢
        dsimp only at hsame
        rw [hsame]
      · rw [if_neg hsame]
        rfl

theorem of_newProfile {p : RecoveryProfile σ} (hp : newProfile before after = some p) :
    ∃ stored catalogs, before.profile = some stored ∧ p = { stored with catalogs := catalogs } := by
  unfold newProfile at hp
  cases h with
  | inl hsame =>
      rw [hsame, if_pos rfl] at hp
      contradiction
  | inr h =>
      obtain ⟨stored, catalogs, hprofile, rfl⟩ := h
      split at hp
      · contradiction
      · exact ⟨stored, catalogs, hprofile, (Option.some.inj hp).symm⟩

end OnlyCatalogs

/-- Such a write as the controller makes it.  Whether a backend can render from
a profile does not depend on the published endpoints. -/
def RouteWrite.change (r : RouteWrite σ δ α)
    (hcompat : ∀ p catalogs, B.compatible { p with catalogs := catalogs } = B.compatible p) :
    CatalogChange B where
  run i w :=
    match r.run (w.routesHost B i) (w.seedState registry) with
    | (.error e, _) => .error e.failure
    | (.ok _, s) => .ok (newProfile w.store s.ledger, registry.replace w.files s.routeEntries)
  compatible i w p files hrun hstored := by
    have hwritten := r.written (w.routesHost B i) (w.seedState registry)
    split at hrun
    · contradiction
    · rename_i a s hr
      rw [hr] at hwritten
      obtain ⟨hp, -⟩ := Prod.mk.inj (Except.ok.inj hrun)
      obtain ⟨stored, catalogs, hprofile, rfl⟩ := hwritten.of_newProfile hp
      rw [hcompat]
      exact hstored stored hprofile

/-- The checks of a command, as the controller makes them. -/
def routePreflight
    (preflight : PruneHost σ → SeedState σ δ → Except SeedRefusal Unit) (i : Input)
    (w : World (RecoveryProfile σ) δ φ) : Except Failure Unit :=
  (preflight (w.routesHost B i) (w.seedState registry)).mapError SeedRefusal.failure

variable {B}

theorem seedState_storeCatalogs (profile : Option (RecoveryProfile σ)) (inputs : Nat → Input)
    (w : World (RecoveryProfile σ) δ φ) :
    (((storeCatalogs B profile).exec inputs w).2.2).seedState registry =
      ⟨profile.elim w.store w.store.writeProfile, registry.entries w.files⟩ := by
  cases profile with
  | none => rfl
  | some profile =>
      simp only [storeCatalogs, tx, adoptedCandidate, remembering, useProfile, Proc.exec_bind,
        Proc.exec_act]
      split <;> rfl

/-- The change leaves the ledger and the registry as the write says. -/
theorem changeCatalogs_write (r : RouteWrite σ δ α)
    (hcompat : ∀ p catalogs, B.compatible { p with catalogs := catalogs } = B.compatible p)
    (inputs : Nat → Input) (w : World (RecoveryProfile σ) δ φ) :
    (((changeCatalogs B (r.change B registry hcompat)).exec inputs w).2.2).seedState registry =
      (r.run (w.routesHost B (inputs 0)) (w.seedState registry)).2 := by
  have hrefused := r.refused (w.routesHost B (inputs 0)) (w.seedState registry)
  have hwritten := r.written (w.routesHost B (inputs 0)) (w.seedState registry)
  unfold changeCatalogs
  rw [Proc.exec_bind, Proc.exec_act]
  cases hr : r.run (w.routesHost B (inputs 0)) (w.seedState registry) with
  | mk res s =>
  rw [hr] at hwritten
  cases res with
  | error e =>
      rw [hrefused e s hr]
      simp [RouteWrite.change, hr]
  | ok a =>
      have hrun : (r.change B registry hcompat).run (inputs 0) w =
          .ok (newProfile w.store s.ledger, registry.replace w.files s.routeEntries) := by
        simp only [RouteWrite.change, hr]
      have hledger := hwritten.eq_newProfile
      simp only [hrun, seedState_storeCatalogs, registry.entries_replace]
      exact congrArg (SeedState.mk · s.routeEntries) hledger.symm

theorem syncStep_process (w : World (RecoveryProfile σ) δ φ) :
    ∃ p, (syncStep B w).2 = { w with process := p } ∧ p.invocation = w.process.invocation ∧
      ((syncStep B w).1 = .ok () → w.store.profile = none →
        p.fresh = some w.process.settings) := by
  unfold syncStep
  dsimp only
  split
  · exact ⟨w.process, rfl, rfl, fun hok => by contradiction⟩
  · split
    · exact ⟨_, rfl, rfl, fun _ hnone => by simp [hnone]⟩
    · split
      · exact ⟨_, rfl, rfl, fun _ hnone => by simp [hnone]⟩
      · exact ⟨_, rfl, rfl, fun hok => by contradiction⟩

/-- The marker, as the commits of the route commands write it. -/
theorem markPending_write {i : Input} {w : World (RecoveryProfile σ) δ φ}
    (hmark : i.markFails = false) (hsettings : w.process.settings.catalogs = [])
    (hsync : (syncStep B w).1 = .ok ()) :
    ∃ w', (markPending B true).exec (fun _ => i) w = (.ok (), fun _ => i, w') ∧
      w'.seedState registry =
        (w.seedState registry).markPending (w.routesHost B i).toSeedHost ∧
      w'.process.invocation = w.process.invocation := by
  obtain ⟨p, hsame, hinvocation, hfresh⟩ := syncStep_process (B := B) w
  simp only [markPending, syncProfile, takeFreshProfile, tx, refusedIf, hmark, Proc.exec_bind,
    Proc.exec_act, hsync, hsame]
  refine ⟨_, rfl, ?_, hinvocation⟩
  unfold World.seedState SeedState.markPending World.withStore
  cases hprofile : w.store.profile with
  | none => simp [hfresh hsync hprofile, World.routesHost, ← hsettings]
  | some stored => simp

/-- The checks, the marker and the change, up to the publication. -/
theorem recordChange_write (r : RouteWrite σ δ α)
    (hcompat : ∀ p catalogs, B.compatible { p with catalogs := catalogs } = B.compatible p)
    (preflight : PruneHost σ → SeedState σ δ → Except SeedRefusal Unit) {i : Input}
    {w : World (RecoveryProfile σ) δ φ} (hmark : i.markFails = false)
    (hsettings : w.process.settings.catalogs = []) :
    (((recordChange B (routePreflight B registry preflight)
        (r.change B registry hcompat)).exec (fun _ => i) w).2.2).seedState registry =
      match preflight (w.routesHost B i) (w.seedState registry) with
      | .error _ => w.seedState registry
      | .ok () =>
          if (w.routesHost B i).profileError then w.seedState registry
          else (r.run (w.routesHost B i)
            ((w.seedState registry).markPending (w.routesHost B i).toSeedHost)).2 := by
  unfold recordChange
  rw [Proc.exec_bind, read, Proc.exec_act]
  cases hpre : preflight (w.routesHost B i) (w.seedState registry) with
  | error e => simp [routePreflight, hpre, Except.mapError]
  | ok u =>
  simp only [routePreflight, hpre, Except.mapError]
  rw [Proc.exec_bind]
  cases hsync : (syncStep B w).1 with
  | ok u =>
      obtain ⟨w', hexec, hstate, hinvocation⟩ :=
        markPending_write registry hmark hsettings hsync
      have hreads := r.reads (w'.routesHost B i) (w.routesHost B i) (w'.seedState registry) rfl rfl
        (congrArg RecoveryProfile.catalogs hinvocation)
      have hwrites := changeCatalogs_write registry r hcompat (fun _ => i) w'
      have hknown : (w.routesHost B i).profileError = false := by
        rw [World.routesHost, hsync]
        rfl
      rw [hreads, hstate] at hwrites
      rw [hexec, hknown]
      exact hwrites
  | error e =>
      obtain ⟨p, hsame, -, -⟩ := syncStep_process (B := B) w
      have hknown : (w.routesHost B i).profileError = true := by
        rw [World.routesHost, hsync]
        rfl
      simp only [markPending, syncProfile, Proc.exec_bind, Proc.exec_act, hsync, hsame, hknown]
      rfl

/-! ### the two operations -/

section Operations

variable (py : Python) (managed : String → EndpointRequest → Option GatewayRoute)
  (plan : RoutePlan) (replace : Bool) (confirmed : List String)
  (hcompat : ∀ p catalogs, B.compatible { p with catalogs := catalogs } = B.compatible p)

variable (B) in
/-- The checks of a `routes seed` under the lock. -/
def seedChecked : Input → World (RecoveryProfile σ) δ φ → Except Failure Unit :=
  routePreflight B registry fun host => seedPreflight py managed host.toSeedHost plan replace

variable (B) in
/-- `routes seed`, once its plan is confirmed. -/
def routesSeed : Op B :=
  .publishChange (seedChecked B registry py managed plan replace)
    ((seedWrite py managed plan).change B registry hcompat)

variable (B) in
/-- `routes prune`, once its plan is confirmed: it checks nothing. -/
def routesPrune : Op B :=
  .publishChange (routePreflight B registry fun _ _ => .ok ())
    ((pruneWrite B confirmed).change B registry hcompat)

variable {i : Input} {w : World (RecoveryProfile σ) δ φ} (hmark : i.markFails = false)
  (hsettings : w.process.settings.catalogs = [])

include hmark hsettings

/-- Before it publishes, a seed has written what `commitRouteSeed` says. -/
theorem recordChange_seed :
    (((recordChange B (seedChecked B registry py managed plan replace)
        ((seedWrite py managed plan).change B registry hcompat)).exec
          (fun _ => i) w).2.2).seedState registry =
      (commitRouteSeed py managed (w.routesHost B i).toSeedHost plan replace
        (w.seedState registry) (w.seedState registry)).2 := by
  rw [seedChecked, recordChange_write registry _ hcompat _ hmark hsettings, commitRouteSeed,
    seedChecks_again]
  cases seedPreflight py managed (w.routesHost B i).toSeedHost plan replace
      (w.seedState registry) with
  | error e => rfl
  | ok u => cases hknown : (w.routesHost B i).profileError <;> rfl

/-- Before it publishes, a prune has written what `commitRoutePrune` says. -/
theorem recordChange_prune :
    (((recordChange B (routePreflight B registry fun _ _ => .ok ())
        ((pruneWrite B confirmed).change B registry hcompat)).exec
          (fun _ => i) w).2.2).seedState registry =
      (commitRoutePrune B (w.routesHost B i) confirmed (w.seedState registry)).2 := by
  rw [recordChange_write registry _ hcompat _ hmark hsettings, commitRoutePrune]
  cases hknown : (w.routesHost B i).profileError <;> rfl

end Operations

end Commands

/-! ### a prune, run by the controller -/

/-- A backend without a GPU whose one file is the route registry. -/
def registryBox : Backend (RecoveryProfile Unit) Unit (Dict String RegistryRow) where
  host := {}
  reclaimDefault := "keep-warm"
  compatible _ := true
  settingsOnly profile := { profile with catalogs := [] }
  acquireProfile _ _ _ _ := .ok none
  validateRequests _ _ := true
  secretNames _ := []
  enrichPlacement spec := spec.placement
  render _ := .ok { digest := () }
  remember input := input.files

/-- A leased endpoint, and the row of an alias that is gone. -/
def chatAndOldWorld : World (RecoveryProfile Unit) Unit (Dict String RegistryRow) where
  store := chatAndOld.ledger
  env := ∅
  files := chatAndOld.routeEntries
  process := { invocation := ⟨(), []⟩, settings := ⟨(), []⟩, rendersFrom := ⟨(), []⟩ }

example :
    let w := (((routesPrune registryBox ⟨id, fun _ rows => rows, fun _ _ => rfl⟩ ["chat", "old"]
      fun _ _ => rfl).program.exec (fun _ => { now := 1, residency := some {} })
        chatAndOldWorld).2.2)
    w.files.keys = [] ∧ w.store.profile.map (·.catalogs) = some [tagged "tiny"] ∧
      w.history.complete = true := by
  decide +kernel

end InferStack
