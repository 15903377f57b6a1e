import InferStack.Compose.Apply
import InferStack.Controller.Fleet
import InferStack.Controller.Keys
import InferStack.Controller.Publication

/-!
# InferStack.Controller.Rotation

Rotating the gateway's master key.

The new key goes into the managed `.env` before the publication that recreates
the gateway with it, so a publication that does not get that far has to take it
back.  `Course` says how far it got; `keyMatches_iff` says for exactly which
courses the file is left with the key of the running gateway, and what that asks
of the Compose backend's apply.
-/

namespace InferStack

open Kit

/-! ## how far a publication gets -/

variable {π δ φ : Type} [DecidableEq π] [DecidableEq δ] (B : Backend π δ φ)

/-- What a rotation checks and writes first: no lease, and the marker. -/
def startRotation (force : Bool) : Ctl π δ φ Unit := do
  requireNoLease force
  markPending B true

/-- The new key is written, and no apply has begun. -/
def writeNewKey : Ctl π δ φ ReplacedKeys := do
  let replaced ← rotateMasterKey
  remembering fun p => { p with applyBegan := false }
  pure replaced

/-- The rest of a publication up to its apply; `none` without one. -/
def untilApply (residency : Residency) (secrets : Dict String String) :
    Ctl π δ φ (Reconciled × Option (Option δ × Nat)) := do
  let rendered ← renderDesired B residency secrets
  keepAddresses B rendered.1
  writeFiles B rendered.1 rendered.2
  let marker ← read fun _ w => .ok w.store.publicationPending
  match marker with
  | none => pure (rendered.1.report, none)
  | some marker =>
      if marker.applyRequested then do
        let approved ← approveRender B marker.approvedDigest
        onlyIf marker.interrupted waitForSettledRuntime
        observeRuntime
        pure (rendered.1.report, some (approved, marker.version))
      else pure ({ rendered.1.report with publicationPending := true }, none)

/-- The apply, and what follows it. -/
def fromApply (rec : Reconciled) (approved : Option δ) (version : Nat) : Ctl π δ φ Reconciled := do
  let outcome ← runApply.handle (applyRaised B)
  observeRuntime
  finishApply B rec approved version outcome

/-- What is left of a publication. -/
def finishPublish (x : Reconciled × Option (Option δ × Nat)) : Ctl π δ φ Reconciled :=
  match x.2 with
  | none => pure x.1
  | some (approved, version) => fromApply B x.1 approved version

/-- A publication, in its parts. -/
theorem publish_parts : publish B = gatherRender B >>= fun residency =>
    provideSecrets B false >>= fun secrets => untilApply B residency secrets >>= finishPublish B := by
  unfold publish render prepareRender untilApply applyPending
  simp only [bind_assoc, pure_bind]
  congr 1
  funext residency
  congr 1
  funext secrets
  congr 1
  funext rendered
  congr 1
  funext _
  congr 1
  funext _
  congr 1
  funext marker
  cases marker with
  | none => rfl
  | some marker =>
      dsimp only
      split
      · unfold applyMarked
        simp only [bind_assoc, pure_bind]
        rfl
      · rfl

/-! ## what the parts leave alone -/

/-- A step that neither writes the file nor has an apply begin. -/
structure Unapplied (w w' : World π δ φ) : Prop where
  env : w'.env = w.env
  recreated : w'.history.recreated = w.history.recreated
  began : w'.process.applyBegan = w.process.applyBegan
  marker : MarkerGrows w.store w'.store

namespace Unapplied

omit [DecidableEq π] [DecidableEq δ] in
theorem refl (w : World π δ φ) : Unapplied w w := ⟨rfl, rfl, rfl, .of_same rfl⟩

omit [DecidableEq π] [DecidableEq δ] in
theorem trans (w₁ w₂ w₃ : World π δ φ) (h : Unapplied w₁ w₂) (h' : Unapplied w₂ w₃) :
    Unapplied w₁ w₃ where
  env := h'.env.trans h.env
  recreated := h'.recreated.trans h.recreated
  began := h'.began.trans h.began
  marker := h.marker.trans h'.marker

/-- Every step of the program is one. -/
abbrev Each {α : Type} (p : Ctl π δ φ α) : Prop := p.Each fun _ => Unapplied

variable {B}

omit [DecidableEq δ] in
theorem tx {α : Type} {f : Input → Store π δ → Except Failure (α × Store π δ)}
    (h : ∀ i s a s', f i s = .ok (a, s') → MarkerGrows s s') : Each (φ := φ) (tx B f) := by
  refine Proc.Each.act fun i w => ?_
  cases hres : f i w.store with
  | ok r => exact ⟨rfl, rfl, rfl, h i w.store r.1 r.2 hres⟩
  | error e => exact .refl w

omit [DecidableEq π] [DecidableEq δ] in
theorem read {α : Type} (f : Input → World π δ φ → Except Failure α) : Each (read f) :=
  Proc.Each.act fun _ w => .refl w

omit [DecidableEq π] [DecidableEq δ] in
theorem onlyIf {c : Prop} [Decidable c] {p : Ctl π δ φ Unit} (h : Each p) :
    Each (onlyIf c p) := by
  unfold InferStack.onlyIf
  split
  · exact h
  · exact Proc.Each.pure ()

omit [DecidableEq δ] in
theorem markPending (apply : Bool) : Each (φ := φ) (markPending B apply) := by
  refine Proc.Each.bind (Proc.Each.act fun _ w => ?_) fun _ => ?_
  · unfold syncStep
    dsimp only
    split
    · exact .refl w
    · split
      · exact ⟨rfl, rfl, rfl, .of_same rfl⟩
      · split <;> exact ⟨rfl, rfl, rfl, .of_same rfl⟩
  · refine Proc.Each.bind (Proc.Each.act fun _ w => ⟨rfl, rfl, rfl, .of_same rfl⟩) fun fresh => ?_
    refine tx fun i s a s' hres => ?_
    obtain ⟨-, rfl⟩ := Prod.mk.inj (refusedIf_ok hres)
    exact markerGrows_writeMarker _ apply false none

omit [DecidableEq δ] in
theorem startRotation (force : Bool) : Each (φ := φ) (startRotation B force) :=
  Proc.Each.bind (read _) fun _ => markPending true

omit [DecidableEq δ] in
theorem backfillAllocations (residency : Residency) (ds : List Deployment) :
    Each (φ := φ) (backfillAllocations B residency ds) := by
  induction ds with
  | nil => exact Proc.Each.pure ()
  | cons d ds ih =>
      unfold InferStack.backfillAllocations
      cases backfillGpus residency d with
      | none => exact ih
      | some gpus =>
          refine Proc.Each.bind (tx fun i s a s' hres => ?_) fun _ => ih
          obtain ⟨-, rfl⟩ := Prod.mk.inj (Except.ok.inj hres)
          exact .of_same rfl

omit [DecidableEq δ] in
theorem gatherRender : Each (φ := φ) (gatherRender B) := by
  have hsweep : Each (φ := φ) (sweepLedger B) := by
    refine tx fun i s a s' hres => ?_
    obtain ⟨-, rfl⟩ := Prod.mk.inj (Except.ok.inj hres)
    exact .of_same (rowsOnly_sweep s i.now).pending
  exact Proc.Each.bind hsweep fun _ => Proc.Each.bind (read _) fun residency =>
    Proc.Each.bind (read _) fun ds => Proc.Each.bind (backfillAllocations residency ds) fun _ =>
      Proc.Each.pure residency

omit [DecidableEq δ] [DecidableEq π] in
theorem renderDesired (residency : Residency) (secrets : Dict String String) :
    Each (renderDesired B residency secrets) := by
  refine Proc.Each.act fun i w => ?_
  dsimp only
  split
  · exact .refl w
  · exact .refl w
  · exact ⟨rfl, rfl, rfl, .of_same rfl⟩

omit [DecidableEq δ] in
theorem keepAddresses (docs : Documents π δ φ) : Each (keepAddresses B docs) := by
  unfold InferStack.keepAddresses
  split
  · exact Proc.Each.pure ()
  · refine tx fun i s a s' hres => ?_
    split at hres
    · contradiction
    · rename_i hadd
      obtain ⟨-, rfl⟩ := Prod.mk.inj (Except.ok.inj hres)
      obtain ⟨_, -, rfl⟩ := Option.map_eq_some_iff.mp hadd
      exact .of_same rfl

omit [DecidableEq π] [DecidableEq δ] in
theorem writeFiles (docs : Documents π δ φ) (desired : Desired π) :
    Each (writeFiles B docs desired) :=
  Proc.Each.act fun _ _ => ⟨rfl, rfl, rfl, .of_same rfl⟩

theorem approveRender (approved : Option δ) : Each (φ := φ) (approveRender B approved) := by
  unfold InferStack.approveRender
  cases approved with
  | none => exact Proc.Each.pure none
  | some digest =>
      refine Proc.Each.bind (read _) fun p => ?_
      split
      · exact Proc.Each.pure _
      · split
        · exact Proc.Each.throw _
        · split
          · exact Proc.Each.pure none
          · refine Proc.Each.bind (tx fun i s a s' hres => ?_) fun _ => Proc.Each.pure _
            obtain ⟨-, rfl⟩ := Prod.mk.inj (Except.ok.inj hres)
            exact markerGrows_approve s _

theorem untilApply (residency : Residency) (secrets : Dict String String) :
    Each (untilApply B residency secrets) := by
  refine Proc.Each.bind (renderDesired residency secrets) fun rendered => ?_
  refine Proc.Each.bind (keepAddresses rendered.1) fun _ => ?_
  refine Proc.Each.bind (writeFiles rendered.1 rendered.2) fun _ => ?_
  refine Proc.Each.bind (read _) fun marker => ?_
  cases marker with
  | none => exact Proc.Each.pure _
  | some marker =>
      dsimp only
      split
      · exact Proc.Each.bind (approveRender _) fun approved => Proc.Each.bind (onlyIf (read _))
          fun _ => Proc.Each.bind (read _) fun _ => Proc.Each.pure _
      · exact Proc.Each.pure _

omit [DecidableEq π] [DecidableEq δ] in
/-- A program of such steps, run alone. -/
theorem runs {α : Type} {p : Ctl π δ φ α} (h : Each p) {inputs inputs' : Nat → Input}
    {w w' : World π δ φ} {res : Except Failure α} (hrun : p.exec inputs w = (res, inputs', w')) :
    Unapplied w w' := by
  have hstep := Proc.Each.exec refl trans h inputs w
  rw [hrun] at hstep
  exact hstep

end Unapplied

/-! ## how far a publication gets -/

/-- How far the publication of a rotation got, and what its environment did. -/
inductive Course where
  /-- It was refused before the key was written. -/
  | refused
  /-- It raised before the render asked for its secrets. -/
  | unread
  /-- It raised before its apply, having asked for these secrets. -/
  | unapplied (asked : List String)
  /-- Its apply ran on an input; `observed` is what was asked after it. -/
  | applied (asked : List String) (apply observed : Input)

/-- The course of a publication. -/
def publishCourse (inputs : Nat → Input) (w : World π δ φ) : Course :=
  match (gatherRender B).exec inputs w with
  | (.error _, _, _) => .unread
  | (.ok residency, inputs, w) =>
      let asked := B.secretNames w.process.rendersFrom
      match (provideSecrets B false >>= untilApply B residency).exec inputs w with
      | (.error _, _, _) => .unapplied asked
      | (.ok _, inputs, _) => .applied asked (inputs 0) (inputs 1)

/-- The course of a rotation. -/
def course (force : Bool) (inputs : Nat → Input) (w : World π δ φ) : Course :=
  match (startRotation B force >>= fun _ => writeNewKey).exec inputs w with
  | (.error _, _, _) => .refused
  | (.ok _, inputs, w) => publishCourse B inputs w

/-- An apply that says it did not reach the runtime, and is believed. -/
def Unreached (apply observed : Input) : Prop :=
  apply.apply = .incomplete false ∧ observed.fault = none

/-- Its render made the secrets it asked for and did not find. -/
def Made (asked : List String) (w w' : World π δ φ) : Prop :=
  ∃ staged new, w'.env = (ManagedEnv.secrets ⟨w.env, staged⟩ false asked new).2.env

/-- A publication that raised. -/
def Raised (out : Except Failure Reconciled × (Nat → Input) × World π δ φ) : Prop :=
  ∃ e, out.1 = .error e

/-- What a publication that began to apply has done. -/
structure Applied (apply observed : Input) (w : World π δ φ)
    (out : Except Failure Reconciled × (Nat → Input) × World π δ φ) : Prop where
  began : out.2.2.process.applyBegan = true
  recreated : out.2.2.history.recreated = w.history.recreated + apply.recreates.toNat
  published : out.2.2.history.complete = true ∨ out.2.2.store.publicationPending.isSome
  result : Raised out ∧ ¬ Unreached apply observed ∨
    ∃ rec, out.1 = .ok rec ∧ (rec.applied ∧ ¬ rec.runtimeApplied ↔ Unreached apply observed)

/-- What a publication has done, by its course. -/
def Ends (w : World π δ φ) (out : Except Failure Reconciled × (Nat → Input) × World π δ φ) :
    Course → Prop
  | .refused => False
  | .unread => Raised out ∧ Unapplied w out.2.2
  | .unapplied asked => Raised out ∧ Made asked w out.2.2 ∧
      out.2.2.history.recreated = w.history.recreated ∧
      out.2.2.process.applyBegan = w.process.applyBegan
  | .applied asked apply observed => Made asked w out.2.2 ∧ Applied apply observed w out

/-- A finished apply leaves the file, and what is recorded of the runtime. -/
structure Finished (w w' : World π δ φ) : Prop where
  env : w'.env = w.env
  process : w'.process = w.process
  recreated : w'.history.recreated = w.history.recreated
  complete : w'.history.complete = w.history.complete

omit [DecidableEq π] [DecidableEq δ] in
theorem Finished.refl (w : World π δ φ) : Finished w w := ⟨rfl, rfl, rfl, rfl⟩

omit [DecidableEq π] [DecidableEq δ] in
theorem Finished.trans (w₁ w₂ w₃ : World π δ φ) (h : Finished w₁ w₂)
    (h' : Finished w₂ w₃) : Finished w₁ w₃ :=
  ⟨h'.env.trans h.env, h'.process.trans h.process, h'.recreated.trans h.recreated,
    h'.complete.trans h.complete⟩

omit [DecidableEq δ] in
theorem clearMarker_finished (approved : Option δ) (version : Nat) :
    (clearMarker (φ := φ) B approved version).Each fun _ => Finished := by
  have htx : ∀ f : Input → Store π δ → Except Failure (Unit × Store π δ),
      (tx (φ := φ) B f).Each fun _ => Finished := by
    intro f
    refine Proc.Each.act fun i w => ?_
    split
    · exact ⟨rfl, rfl, rfl, rfl⟩
    · exact .refl w
  refine Proc.Each.bind ?_ fun _ => htx _
  unfold onlyIf
  split
  · exact htx _
  · exact Proc.Each.pure ()

omit [DecidableEq δ] in
theorem clearMarker_ok (approved : Option δ) (version : Nat) (inputs : Nat → Input)
    (w : World π δ φ) : ((clearMarker B approved version).exec inputs w).1 = .ok () := by
  cases approved with
  | none => simp [clearMarker, onlyIf, tx, Proc.exec_act]
  | some d => simp [clearMarker, onlyIf, clearApprovedDigest, Proc.exec_bind, tx, Proc.exec_act]

omit [DecidableEq δ] in
/-- An apply under a marker, run alone. -/
theorem fromApply_exec (rec : Reconciled) (approved : Option δ) (version : Nat)
    (inputs : Nat → Input) {w : World π δ φ} (hpending : w.store.publicationPending.isSome) :
    let out := (fromApply B rec approved version).exec inputs w
    out.2.2.env = w.env ∧ Applied (inputs 0) (inputs 1) w out := by
  intro out
  cases happly : (inputs 0).apply with
  | raised e =>
      have hout : out = (.error e, fun n => inputs (n + 2), (w.applying (inputs 0)).withStore B
          (w.store.markPublicationPending true (e ≠ .applyAborted) none none)) := by
        simp [out, fromApply, runApply, applyRaised, Proc.exec_bind, Proc.exec_handle,
          Proc.exec_act, happly, tx, World.applying]
      rw [hout]
      refine ⟨rfl, rfl, rfl, .inr rfl, .inl ⟨⟨e, rfl⟩, fun h => ?_⟩⟩
      simp [Unreached, happly] at h
  | incomplete runtime =>
      cases hfault : (inputs 1).fault with
      | some e =>
          have hout : out = (.error e, fun n => inputs (n + 2), w.applying (inputs 0)) := by
            simp [out, fromApply, runApply, observeRuntime, read, Proc.exec_bind, Proc.exec_handle,
              Proc.exec_act, happly, hfault]
          rw [hout]
          refine ⟨rfl, rfl, rfl, .inr hpending, .inl ⟨⟨e, rfl⟩, fun h => ?_⟩⟩
          simp [Unreached, hfault] at h
      | none =>
          have hout : out = (.ok { rec with
              applied := true, runtimeApplied := runtime, publicationPending := true },
              fun n => inputs (n + 2), w.applying (inputs 0)) := by
            simp [-bind_pure_comp, out, fromApply, runApply, observeRuntime, read, finishApply,
              Proc.exec_bind, Proc.exec_handle, Proc.exec_act, happly, hfault]
          rw [hout]
          refine ⟨rfl, rfl, rfl, .inr hpending, .inr ⟨_, rfl, ?_⟩⟩
          cases runtime <;> simp [Unreached, happly, hfault]
  | complete =>
      let completed : World π δ φ := { w.applying (inputs 0) with
        history := { (w.applying (inputs 0)).history with
          applied := w.history.rendered, complete := true } }
      cases hfault : (inputs 1).fault with
      | some e =>
          have hout : out = (.error e, fun n => inputs (n + 2), completed) := by
            simp [out, completed, fromApply, runApply, observeRuntime, read, Proc.exec_bind,
              Proc.exec_handle, Proc.exec_act, happly, hfault]
          rw [hout]
          refine ⟨rfl, rfl, rfl, .inl rfl, .inl ⟨⟨e, rfl⟩, fun h => ?_⟩⟩
          simp [Unreached, happly] at h
      | none =>
          have hrun : out = (clearMarker B approved version >>= fun _ => pure { rec with
              applied := true, runtimeApplied := true, publicationPending := false }).exec
                (fun n => inputs (n + 2)) completed := by
            simp [-bind_pure_comp, out, completed, fromApply, runApply, observeRuntime, read,
              finishApply, Proc.exec_bind, Proc.exec_handle, Proc.exec_act, happly, hfault]
          have hok := clearMarker_ok B approved version (fun n => inputs (n + 2)) completed
          have hfin := (clearMarker_finished B approved version).exec Finished.refl
            Finished.trans (fun n => inputs (n + 2)) completed
          rw [hrun, Proc.exec_bind]
          cases hclear : (clearMarker B approved version).exec (fun n => inputs (n + 2))
              completed with
          | mk res rest =>
              obtain ⟨inputs', w'⟩ := rest
              rw [hclear] at hok hfin
              obtain rfl : res = .ok () := hok
              have hbegan : w'.process.applyBegan = true := by
                rw [hfin.process]
                rfl
              refine ⟨hfin.env, hbegan, hfin.recreated, .inl hfin.complete, .inr ⟨_, rfl, ?_⟩⟩
              simp [Unreached, happly]

/-- The marker requests an apply. -/
def Requested (w : World π δ φ) : Prop :=
  ∃ m, w.store.publicationPending = some m ∧ m.applyRequested = true

omit [DecidableEq π] [DecidableEq δ] in
theorem Unapplied.requested {w w' : World π δ φ} (h : Unapplied w w') (hw : Requested w) :
    Requested w' := by
  obtain ⟨m, hm, hreq⟩ := hw
  obtain ⟨m', hm', happly, -⟩ := h.marker m hm
  exact ⟨m', hm', happly hreq⟩

/-- Under a marker that requests an apply, there is one left to run. -/
theorem untilApply_ok {residency : Residency} {secrets : Dict String String}
    {inputs inputs' : Nat → Input} {w w' : World π δ φ} {x : Reconciled × Option (Option δ × Nat)}
    (hreq : Requested w)
    (h : (untilApply B residency secrets).exec inputs w = (.ok x, inputs', w')) :
    ∃ rec approved version, x = (rec, some (approved, version)) := by
  obtain ⟨rendered, inputs₁, w₁, hrender, h⟩ := Proc.exec_bind_ok h
  obtain ⟨_, inputs₂, w₂, hkeep, h⟩ := Proc.exec_bind_ok h
  obtain ⟨_, inputs₃, w₃, hwrite, h⟩ := Proc.exec_bind_ok h
  obtain ⟨marker, inputs₄, w₄, hread, h⟩ := Proc.exec_bind_ok h
  have hreq₁ := (Unapplied.runs (Unapplied.renderDesired residency secrets) hrender).requested hreq
  have hreq₂ := (Unapplied.runs (Unapplied.keepAddresses rendered.1) hkeep).requested hreq₁
  have hreq₃ := (Unapplied.runs (Unapplied.writeFiles rendered.1 rendered.2) hwrite).requested hreq₂
  obtain ⟨m, hm, happly⟩ := hreq₃
  have hmarker : marker = some m := by
    rw [read, Proc.exec_act] at hread
    simp only [Prod.mk.injEq, Except.ok.injEq] at hread
    exact hread.1.symm.trans hm
  rw [hmarker] at h
  simp only [happly, if_true] at h
  obtain ⟨approved, _, _, -, h⟩ := Proc.exec_bind_ok h
  obtain ⟨_, _, _, -, h⟩ := Proc.exec_bind_ok h
  obtain ⟨_, _, _, -, h⟩ := Proc.exec_bind_ok h
  simp only [Proc.exec_pure, Prod.mk.injEq, Except.ok.injEq] at h
  exact ⟨rendered.1.report, approved, m.version, h.1.symm⟩

omit [DecidableEq π] [DecidableEq δ] in
/-- The secrets of a render are written, and nothing else. -/
theorem provideSecrets_exec (inputs : Nat → Input) (w : World π δ φ) :
    ∃ secrets w', (provideSecrets B false).exec inputs w =
        (.ok secrets, fun n => inputs (n + 1), w') ∧
      Made (B.secretNames w.process.rendersFrom) w w' ∧
      w'.history = w.history ∧ w'.process.applyBegan = w.process.applyBegan ∧
      w'.store = w.store := by
  refine ⟨_, _, Proc.exec_act _ inputs w, ⟨w.process.staged, (inputs 0).secret, rfl⟩, rfl, rfl, rfl⟩

/-- A publication under a marker that requests an apply, run alone. -/
theorem publish_ends (inputs : Nat → Input) {w : World π δ φ} (hreq : Requested w) :
    Ends w ((publish B).exec inputs w) (publishCourse B inputs w) := by
  rw [publish_parts, Proc.exec_bind]
  unfold publishCourse
  cases hg : (gatherRender B).exec inputs w with
  | mk res rest =>
  obtain ⟨inputs₁, w₁⟩ := rest
  have hgather := Unapplied.runs Unapplied.gatherRender hg
  cases res with
  | error e => exact ⟨⟨e, rfl⟩, hgather⟩
  | ok residency =>
  obtain ⟨secrets, w₂, hprovide, hmade, hhistory, hbegan, hstore⟩ :=
    provideSecrets_exec B inputs₁ w₁
  have hmade' : Made (B.secretNames w₁.process.rendersFrom) w w₂ := by
    obtain ⟨staged, new, henv⟩ := hmade
    exact ⟨staged, new, by rw [henv, hgather.env]⟩
  have hreq₂ : Requested w₂ := by
    have hreq₁ := hgather.requested hreq
    unfold Requested at hreq₁ ⊢
    rw [hstore]
    exact hreq₁
  dsimp only
  rw [Proc.exec_bind, Proc.exec_bind, hprovide]
  dsimp only
  rw [Proc.exec_bind]
  cases hu : (untilApply B residency secrets).exec (fun n => inputs₁ (n + 1)) w₂ with
  | mk res rest =>
  obtain ⟨inputs₃, w₃⟩ := rest
  have huntil := Unapplied.runs (Unapplied.untilApply residency secrets) hu
  have hmade₃ : Made (B.secretNames w₁.process.rendersFrom) w w₃ := by
    obtain ⟨staged, new, henv⟩ := hmade'
    exact ⟨staged, new, huntil.env.trans henv⟩
  have hrecreated₃ : w₃.history.recreated = w.history.recreated := by
    rw [huntil.recreated, hhistory, hgather.recreated]
  cases res with
  | error e => exact ⟨⟨e, rfl⟩, hmade₃, hrecreated₃, by rw [huntil.began, hbegan, hgather.began]⟩
  | ok x =>
  obtain ⟨rec, approved, version, rfl⟩ := untilApply_ok B hreq₂ hu
  obtain ⟨m, hm, -⟩ := huntil.requested hreq₂
  have hpending : w₃.store.publicationPending.isSome := by simp [hm]
  obtain ⟨henv, happlied⟩ := fromApply_exec B rec approved version inputs₃ hpending
  refine ⟨?_, happlied.began, ?_, happlied.published, happlied.result⟩
  · obtain ⟨staged, new, henv₃⟩ := hmade₃
    exact ⟨staged, new, henv.trans henv₃⟩
  · rw [← hrecreated₃]
    exact happlied.recreated

/-! ## the rotation -/

/-- The end of a rotation: a publication that did not get to the gateway is undone. -/
def finishRotation (replaced : ReplacedKeys) : Ctl π δ φ Reconciled := do
  let rec ← (publish B).handle (undoRotation replaced)
  onlyIf (rec.applied ∧ ¬ rec.runtimeApplied) (undoing (restoreEnv replaced) .profileMismatch)
  pure rec

theorem rotateGatewayKey_parts (force : Bool) : rotateGatewayKey B force =
    (startRotation B force >>= fun _ => writeNewKey) >>= finishRotation B := by
  unfold rotateGatewayKey startRotation writeNewKey finishRotation
  simp only [bind_assoc, pure_bind]

/-- The two keys as a file has them. -/
def keysOf (env : Dict String String) : ReplacedKeys := ⟨env.get? apiKeyEnv, env.get? saltKeyEnv⟩

/-- What a rotation finds after a publication, and leaves. -/
theorem finishRotation_exec (env : Dict String String) (inputs : Nat → Input) (w : World π δ φ) :
    let out := (publish B).exec inputs w
    let w' := ((finishRotation B (keysOf env)).exec inputs w).2.2
    w'.history = out.2.2.history ∧ w'.store = out.2.2.store ∧
      (Raised out → w'.env =
        if out.2.2.process.applyBegan then out.2.2.env else undone env out.2.2.env) ∧
      ∀ rec, out.1 = .ok rec → w'.env =
        if rec.applied ∧ ¬ rec.runtimeApplied then undone env out.2.2.env else out.2.2.env := by
  intro out w'
  have hw' : w' = ((finishRotation B (keysOf env)).exec inputs w).2.2 := rfl
  rw [finishRotation, Proc.exec_bind, Proc.exec_handle] at hw'
  cases hout : (publish B).exec inputs w with
  | mk res rest =>
  obtain ⟨inputs₁, w₁⟩ := rest
  have hout' : out = (res, inputs₁, w₁) := hout
  rw [hout] at hw'
  rw [hout']
  cases res with
  | error e =>
      by_cases hbegan : w₁.process.applyBegan = true
      · have hend : w' = w₁ := by
          rw [hw']
          simp [undoRotation, read, onlyIf, Proc.exec_bind, Proc.exec_act, hbegan]
        refine ⟨by rw [hend], by rw [hend], fun _ => ?_, fun rec hrec => by contradiction⟩
        rw [hend, if_pos hbegan]
      · have hend : w' = { w₁ with env := undone env w₁.env } := by
          rw [hw']
          simp [undoRotation, restoreEnv, writeEnv, read, onlyIf, Proc.exec_bind, Proc.exec_act,
            hbegan, undone, keysOf]
        refine ⟨by rw [hend], by rw [hend], fun _ => ?_, fun rec hrec => by contradiction⟩
        rw [hend, if_neg hbegan]
  | ok rec =>
      by_cases hun : rec.applied ∧ ¬ rec.runtimeApplied
      · have hend : w' = { w₁ with env := undone env w₁.env } := by
          rw [hw']
          simp only [onlyIf, if_pos hun]
          simp [-bind_pure_comp, undoing, restoreEnv, writeEnv, Proc.exec_bind, Proc.exec_act,
            undone, keysOf]
        refine ⟨by rw [hend], by rw [hend], fun h => ?_, fun rec' hrec => ?_⟩
        · obtain ⟨e, he⟩ := h
          contradiction
        · obtain rfl := Except.ok.inj hrec
          rw [hend, if_pos hun]
      · have hend : w' = w₁ := by
          rw [hw']
          simp only [onlyIf, if_neg hun, pure_bind, Proc.exec_pure]
        refine ⟨by rw [hend], by rw [hend], fun h => ?_, fun rec' hrec => ?_⟩
        · obtain ⟨e, he⟩ := h
          contradiction
        · obtain rfl := Except.ok.inj hrec
          rw [hend, if_neg hun]

/-- What a rotation owes the file: unless the gateway was removed or recreated it
reads as before, and otherwise it holds a key of this rotation, whose publication
is complete or still pending. -/
structure KeyMatches (inputs : Nat → Input) (w w' : World π δ φ) : Prop where
  untouched : w'.history.recreated = w.history.recreated → ∀ k, w'.env.get? k = w.env.get? k
  recreated : w'.history.recreated ≠ w.history.recreated →
    (∃ n, w'.env.get? apiKeyEnv = some (inputs n).masterKey) ∧
      (w'.history.complete = true ∨ w'.store.publicationPending.isSome)

/-- A course after which the file has the key of the running gateway: it recreated
the gateway exactly unless it ended before the apply, or the apply says that it
did not reach the runtime; and if it did not, every secret was there before. -/
def Course.Settles (env : Dict String String) : Course → Prop
  | .refused => True
  | .unread => True
  | .unapplied asked => SecretsThere env asked
  | .applied asked apply observed =>
      if apply.recreates then ¬ Unreached apply observed
      else Unreached apply observed ∧ SecretsThere env asked

section Rotation

variable {inputs : Nat → Input} {w w' : World π δ φ}

omit [DecidableEq π] [DecidableEq δ] in
/-- A gateway that was left alone. -/
theorem keyMatches_untouched (h : w'.history.recreated = w.history.recreated) :
    KeyMatches inputs w w' ↔ ∀ k, w'.env.get? k = w.env.get? k :=
  ⟨fun hm => hm.untouched h, fun hk => ⟨fun _ => hk, fun hne => absurd h hne⟩⟩

omit [DecidableEq δ] in
theorem startRotation_requested {B : Backend π δ φ} {force : Bool} {inputs' : Nat → Input}
    (h : (startRotation B force).exec inputs w = (.ok (), inputs', w')) : Requested w' := by
  obtain ⟨_, inputs₁, w₁, -, h⟩ := Proc.exec_bind_ok h
  obtain ⟨_, inputs₂, w₂, -, h⟩ := Proc.exec_bind_ok h
  obtain ⟨fresh, inputs₃, w₃, -, h⟩ := Proc.exec_bind_ok h
  rw [tx, Proc.exec_act] at h
  cases hmark : (inputs₃ 0).markFails with
  | true => simp [refusedIf, hmark] at h
  | false =>
      simp only [refusedIf, hmark, Prod.mk.injEq] at h
      obtain ⟨-, -, rfl⟩ := h
      unfold Requested
      simp only [World.withStore, Store.markPublicationPending, Store.writeMarker]
      exact ⟨_, rfl, by cases w₃.store.publicationPending <;> rfl⟩

omit [DecidableEq δ] in
/-- What a rotation has written when its publication starts. -/
theorem startRotation_exec {B : Backend π δ φ} {force : Bool} {inputs' : Nat → Input}
    {res : Except Failure ReplacedKeys}
    (h : (startRotation B force >>= fun _ => writeNewKey).exec inputs w = (res, inputs', w')) :
    w'.history.recreated = w.history.recreated ∧
      ((∃ e, res = .error e) ∧ w'.env = w.env ∨
        res = .ok (keysOf w.env) ∧ w'.process.applyBegan = false ∧ Requested w' ∧
          ∃ n, w'.env = setMasterKey w.env (inputs n).masterKey) := by
  rw [Proc.exec_bind] at h
  cases hstart : (startRotation B force).exec inputs w with
  | mk r rest =>
  obtain ⟨inputs₁, w₁⟩ := rest
  have hun := Unapplied.runs (Unapplied.startRotation force) hstart
  rw [hstart] at h
  cases r with
  | error e =>
      simp only [Prod.mk.injEq] at h
      obtain ⟨rfl, -, rfl⟩ := h
      exact ⟨hun.recreated, .inl ⟨⟨e, rfl⟩, hun.env⟩⟩
  | ok u =>
      have hreq := startRotation_requested hstart
      simp only [writeNewKey, rotateMasterKey, remembering, Proc.exec_bind, Proc.exec_act,
        Proc.exec_pure, Prod.mk.injEq] at h
      obtain ⟨rfl, -, hw'⟩ := h
      obtain ⟨used, hused⟩ := (startRotation B force).exec_inputs inputs w
      rw [hstart] at hused
      have hinput : inputs₁ 0 = inputs (0 + used) := congrFun hused 0
      have henv : w'.env = setMasterKey w.env (inputs (0 + used)).masterKey := by
        rw [← hw', ← hun.env, ← hinput]
      have hrecreated : w'.history.recreated = w.history.recreated := by
        rw [← hw']
        exact hun.recreated
      have hstore : w'.store = w₁.store := by rw [← hw']
      have hbegan : w'.process.applyBegan = false := by rw [← hw']
      have hrequested : Requested w' := by
        unfold Requested at hreq ⊢
        rw [hstore]
        exact hreq
      exact ⟨hrecreated, .inr ⟨by rw [keysOf, ← hun.env], hbegan, hrequested, 0 + used, henv⟩⟩

omit [DecidableEq π] [DecidableEq δ] in
/-- A rotation that was undone before its render asked for a secret. -/
theorem undone_setMasterKey (env : Dict String String) (key k : String) :
    (undone env (setMasterKey env key)).get? k = env.get? k :=
  undone_same.mpr (fun _ hapi hsalt => get?_setMasterKey env key hapi hsalt) k

omit [DecidableEq π] [DecidableEq δ] in
/-- A render keeps the new key. -/
theorem get?_made {asked : List String} {w₁ : World π δ φ} {n : Nat}
    (hkey : w₁.env = setMasterKey w.env (inputs n).masterKey) (h : Made asked w₁ w') :
    w'.env.get? apiKeyEnv = some (inputs n).masterKey := by
  obtain ⟨staged, new, henv⟩ := h
  have hnew := get?_setMasterKey_api w.env (inputs n).masterKey
  generalize setMasterKey w.env (inputs n).masterKey = env at hkey hnew
  have hthere : apiKeyEnv ∈ asked → ManagedEnv.present env apiKeyEnv ≠ none := by
    intro _ hnone
    have hmissing := ManagedEnv.present_eq_none.mp hnone
    simp [hnew, masterKey_ne_empty] at hmissing
  rw [henv, hkey, ManagedEnv.get?_secrets ⟨env, staged⟩ hthere]
  exact hnew

section Ended

variable {touched : Bool}
  (hfresh : ∀ n, w.env.get? apiKeyEnv ≠ some (inputs n).masterKey)
  (hcount : w'.history.recreated = w.history.recreated + touched.toNat)

include hfresh hcount

omit [DecidableEq π] [DecidableEq δ] in
/-- A rotation that was taken back is right if the gateway was left alone. -/
theorem keyMatches_taken {asked : List String} {env : Dict String String}
    (henv : w'.env = undone w.env env)
    (hsame : (∀ k, (undone w.env env).get? k = w.env.get? k) ↔ SecretsThere w.env asked) :
    KeyMatches inputs w w' ↔ touched = false ∧ SecretsThere w.env asked := by
  cases touched with
  | true =>
      refine iff_of_false (fun hmatches => ?_) (by simp)
      obtain ⟨m, hm⟩ := (hmatches.recreated (by rw [hcount]; simp)).1
      rw [henv, undone, get?_putBack, if_neg apiKeyEnv_ne_saltKeyEnv, get?_putBack,
        if_pos rfl] at hm
      exact hfresh m hm
  | false =>
      rw [keyMatches_untouched (by rw [hcount]; rfl), henv, hsame]
      simp

omit [DecidableEq π] [DecidableEq δ] in
/-- A rotation whose new key stays is right if the gateway was recreated. -/
theorem keyMatches_kept {n : Nat} (hnew : w'.env.get? apiKeyEnv = some (inputs n).masterKey)
    (hpublished : w'.history.complete = true ∨ w'.store.publicationPending.isSome) :
    KeyMatches inputs w w' ↔ touched = true := by
  cases touched with
  | true =>
      refine iff_of_true ⟨fun hsame => ?_, fun _ => ⟨⟨n, hnew⟩, hpublished⟩⟩ rfl
      rw [hcount] at hsame
      simp at hsame
  | false =>
      refine iff_of_false (fun hmatches => ?_) (by simp)
      have hold := hmatches.untouched (by rw [hcount]; rfl) apiKeyEnv
      exact hfresh n (hold.symm.trans hnew)

end Ended

end Rotation

/-- The file has the key of the running gateway just after the courses that
settle it. -/
theorem keyMatches_course (B : Backend π δ φ) (force : Bool) (inputs : Nat → Input)
    (w : World π δ φ) (hfresh : ∀ n, w.env.get? apiKeyEnv ≠ some (inputs n).masterKey) :
    KeyMatches inputs w ((rotateGatewayKey B force).exec inputs w).2.2 ↔
      (course B force inputs w).Settles w.env := by
  rw [rotateGatewayKey_parts, Proc.exec_bind]
  unfold course
  cases hstart : (startRotation B force >>= fun _ => writeNewKey).exec inputs w with
  | mk res rest =>
  obtain ⟨inputs₁, w₁⟩ := rest
  obtain ⟨hrecreated, hstarted⟩ := startRotation_exec hstart
  cases hstarted with
  | inl herr =>
      obtain ⟨⟨e, rfl⟩, henv⟩ := herr
      rw [keyMatches_untouched hrecreated]
      exact iff_of_true (fun k => by rw [henv]) trivial
  | inr hok =>
  obtain ⟨rfl, hbegan, hreq, n, hkey⟩ := hok
  dsimp only
  obtain ⟨hhistory, hstore, hraised, hreturned⟩ := finishRotation_exec B w.env inputs₁ w₁
  have hends := publish_ends B inputs₁ hreq
  generalize (publish B).exec inputs₁ w₁ = out at *
  generalize ((finishRotation B (keysOf w.env)).exec inputs₁ w₁).2.2 = w' at *
  cases hcourse : publishCourse B inputs₁ w₁ with
  | refused =>
      rw [hcourse] at hends
      exact absurd hends id
  | unread =>
      rw [hcourse] at hends
      obtain ⟨hout, hun⟩ := hends
      have henv := hraised hout
      rw [hun.began, hbegan, if_neg (by simp), hun.env, hkey] at henv
      rw [keyMatches_untouched (by rw [hhistory, hun.recreated, hrecreated])]
      exact iff_of_true (fun k => by rw [henv, undone_setMasterKey]) trivial
  | unapplied asked =>
      rw [hcourse] at hends
      obtain ⟨hout, ⟨staged, new, hmade⟩, hsame, hbegan'⟩ := hends
      have henv := hraised hout
      rw [hbegan', hbegan, if_neg (by simp), hmade, hkey] at henv
      rw [keyMatches_untouched (by rw [hhistory, hsame, hrecreated]), henv]
      exact undone_secrets w.env staged _ asked new
  | applied asked apply observed =>
      rw [hcourse] at hends
      obtain ⟨hmade, happlied⟩ := hends
      have hcount : w'.history.recreated = w.history.recreated + apply.recreates.toNat := by
        rw [hhistory, happlied.recreated, hrecreated]
      by_cases hun : Unreached apply observed
      · -- the apply is believed, and the rotation taken back
        have henv : w'.env = undone w.env out.2.2.env := by
          cases happlied.result with
          | inl h => exact absurd hun h.2
          | inr h =>
              obtain ⟨rec, hrec, hiff⟩ := h
              rw [hreturned rec hrec, if_pos (hiff.mpr hun)]
        obtain ⟨staged, new, hmade⟩ := hmade
        have hsame := undone_secrets w.env staged (inputs n).masterKey asked new
        rw [← hkey, ← hmade] at hsame
        rw [keyMatches_taken hfresh hcount henv hsame]
        cases hrec : apply.recreates <;> simp [Course.Settles, hrec, hun]
      · -- the new key stays
        have henv : w'.env = out.2.2.env := by
          cases happlied.result with
          | inl h => rw [hraised h.1, if_pos happlied.began]
          | inr h =>
              obtain ⟨rec, hrec, hiff⟩ := h
              rw [hreturned rec hrec, if_neg (fun h => hun (hiff.mp h))]
        have hnew : w'.env.get? apiKeyEnv = some (inputs n).masterKey := by
          rw [henv]
          exact get?_made hkey hmade
        have hpublished : w'.history.complete = true ∨ w'.store.publicationPending.isSome := by
          rw [hhistory, hstore]
          exact happlied.published
        rw [keyMatches_kept hfresh hcount hnew hpublished]
        cases hrec : apply.recreates <;> simp [Course.Settles, hrec, hun]

instance (apply observed : Input) : Decidable (Unreached apply observed) :=
  inferInstanceAs (Decidable (_ ∧ _))

instance (env : Dict String String) (asked : List String) : Decidable (SecretsThere env asked) :=
  inferInstanceAs (Decidable (∀ name ∈ asked, _))

instance (env : Dict String String) (c : Course) : Decidable (c.Settles env) :=
  match c with
  | .refused => isTrue trivial
  | .unread => isTrue trivial
  | .unapplied asked => inferInstanceAs (Decidable (SecretsThere env asked))
  | .applied asked apply observed =>
      inferInstanceAs (Decidable (if apply.recreates then ¬ Unreached apply observed
        else Unreached apply observed ∧ SecretsThere env asked))

/-! ## the Compose backend's apply -/

/-- No container has the gateway's rendered configuration, as after a new key. -/
structure NewGateway (p : Project) (docker : Docker) : Prop where
  rendered : litellmService ∈ p.services.keys
  needed : litellmService ∉ p.optional
  fresh : ∀ c ∈ docker.containers, p.key c ≠ some (p.wanted litellmService)

/-- The input has the Compose backend's apply of a render with a new gateway. -/
def ComposeApplied (i : Input) : Prop :=
  ∃ p calls docker, NewGateway p docker ∧ calls.rendered = true ∧
    i.apply = (composeApply p calls docker).1 ∧
    i.recreates = gatewayTouched docker (composeApply p calls docker).2

/-- With the Compose backend, a rotation whose apply returns is settled unless a
secret was missing; one whose apply raises is settled exactly when the apply got
as far as the gateway's container. -/
def ComposeSettles (env : Dict String String) (asked : List String) (apply observed : Input) :
    Prop :=
  match apply.apply with
  | .complete => True
  | .incomplete true => True
  | .incomplete false => observed.fault = none ∧ SecretsThere env asked
  | .raised _ => apply.recreates = true

theorem settles_of_compose {env : Dict String String} {asked : List String}
    {apply observed : Input} (h : ComposeApplied apply) :
    (Course.applied asked apply observed).Settles env ↔
      ComposeSettles env asked apply observed := by
  obtain ⟨p, calls, docker, hnew, hrendered, happly, hrecreates⟩ := h
  obtain ⟨s, hs, hname⟩ := List.mem_map.mp hnew.rendered
  have htouched : apply.apply = .complete ∨ apply.apply = .incomplete true →
      apply.recreates = true := by
    intro hreached
    rw [happly] at hreached
    rw [hrecreates]
    exact composeApply_touched hrendered hs hname (hname ▸ hnew.needed) (hname ▸ hnew.fresh)
      hreached
  cases hout : apply.apply with
  | complete => simp [ComposeSettles, Course.Settles, Unreached, hout, htouched (.inl hout)]
  | incomplete runtime =>
      cases runtime with
      | true => simp [ComposeSettles, Course.Settles, Unreached, hout, htouched (.inr hout)]
      | false =>
          have huntouched : apply.recreates = false := by
            rw [hrecreates]
            exact composeApply_untouched (happly ▸ hout)
          simp [ComposeSettles, Course.Settles, Unreached, hout, huntouched]
  | raised e => simp [ComposeSettles, Course.Settles, Unreached, hout]

/-- For which courses a rotation leaves the file with the key of the running
gateway, if a fresh key is not the one that was there; and what that asks of the
Compose backend's apply. -/
theorem keyMatches_iff (B : Backend π δ φ) (force : Bool) (inputs : Nat → Input)
    (w : World π δ φ) (hfresh : ∀ n, w.env.get? apiKeyEnv ≠ some (inputs n).masterKey) :
    (KeyMatches inputs w ((rotateGatewayKey B force).exec inputs w).2.2 ↔
      (course B force inputs w).Settles w.env) ∧
    ∀ asked apply observed, course B force inputs w = .applied asked apply observed →
      ComposeApplied apply →
      (KeyMatches inputs w ((rotateGatewayKey B force).exec inputs w).2.2 ↔
        ComposeSettles w.env asked apply observed) := by
  have hmatches := keyMatches_course B force inputs w hfresh
  refine ⟨hmatches, fun asked apply observed hcourse hcompose => ?_⟩
  rw [hmatches, hcourse]
  exact settles_of_compose hcompose

/-! ## a rotation whose image is missing -/

/-- A rendered gateway, and the container of the one with the old key. -/
def rotatedProject : Project where
  services := Table.ofList [{ name := "litellm", image := some "litellm:v1" }]
  fingerprints := fun _ => "new"

def oldGateway : Docker where
  containers := Table.ofList
    [{ containerId := "c1", deploymentId := "", state := .running, service := "litellm"
       composeService := "litellm", fingerprint := "old", labelled := true }]

/-- A rotation's inputs, its apply run on the old gateway. -/
def rotationInput (calls : ApplyCalls) : Input where
  residency := some {}
  secret := fun _ => ⟨"new", by decide⟩
  apply := (composeApply rotatedProject calls oldGateway).1
  recreates := gatewayTouched oldGateway (composeApply rotatedProject calls oldGateway).2

/-- A fresh ledger beside a file with the old key. -/
def beforeRotation : World String (List String × String) Unit where
  store := .empty
  env := Dict.set ∅ apiKeyEnv "sk-old"
  files := ()
  process := shelfProcess

theorem rotationInput_applied (calls : ApplyCalls) (h : calls.rendered = true) :
    ComposeApplied (rotationInput calls) :=
  ⟨rotatedProject, calls, oldGateway, ⟨by decide, by decide, by decide⟩, h, rfl, rfl⟩

/-- The image is there: the gateway is recreated, and the file has its key. -/
theorem pulledImage_matches :
    (∀ _ : Nat, beforeRotation.env.get? apiKeyEnv ≠
      some (rotationInput { toCommands := answering }).masterKey) ∧
    ComposeApplied (rotationInput { toCommands := answering }) ∧
    KeyMatches (fun _ => rotationInput { toCommands := answering }) beforeRotation
      ((rotateGatewayKey shelf false).exec (fun _ => rotationInput { toCommands := answering })
        beforeRotation).2.2 := by
  have hfresh : ∀ _ : Nat, beforeRotation.env.get? apiKeyEnv ≠
      some (rotationInput { toCommands := answering }).masterKey := fun _ => by decide +kernel
  have hcompose := rotationInput_applied { toCommands := answering } rfl
  obtain ⟨-, hmatches⟩ := keyMatches_iff shelf false _ beforeRotation hfresh
  exact ⟨hfresh, hcompose, (hmatches _ _ _ rfl hcompose).mpr trivial⟩

/-- The image cannot be pulled: the file has a key the running gateway rejects. -/
theorem missingImage_mismatches :
    ¬ KeyMatches (fun _ => rotationInput { toCommands := { answering with pull := fun _ => false } })
      beforeRotation ((rotateGatewayKey shelf false).exec
        (fun _ => rotationInput { toCommands := { answering with pull := fun _ => false } })
        beforeRotation).2.2 := by
  intro h
  have hkey := h.untouched (by decide +kernel) apiKeyEnv
  exact absurd hkey (by decide +kernel)

example : ¬ (course shelf false
    (fun _ => rotationInput { toCommands := { answering with pull := fun _ => false } })
    beforeRotation).Settles beforeRotation.env := by decide +kernel

end InferStack
