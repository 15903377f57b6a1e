import InferStack.Controller.Allocation
import InferStack.Compose.Enrichment
import InferStack.Placement.Room

/-!
# InferStack.Controller.Feasibility

The feasibility check of an acquire that would wait.

* `planOnIdleHost` — the plan of the requested deployments as if nothing else ran;
* `infeasibleAlone` — what that plan leaves out, and why;
* `infeasible_is_final` — what the check refuses, no wait could have admitted;
* `infeasibleAlone_iff` — and of new deployments it refuses nothing else.
-/

namespace InferStack

open Kit

variable {π δ φ : Type}

/-! ## the check -/

/-- Plan some deployments alone: of the sidecar's pins only theirs survive. -/
def planOnIdleHost (B : Backend π δ φ) (allowedGpus : Option (List Nat))
    (sidecar : Dict String (List Nat)) (desired : List Deployment) : GpuPlan :=
  let requested := desired.map Deployment.id
  planPlacement B.host allowedGpus (sidecar.filter fun pin => pin.1 ∈ requested) none
    (desired.map B.enrich)

/-- The deployments an acquire waits for: those it would make LIVE. -/
def AcquireOverlay.blocked (o : AcquireOverlay) : List String :=
  (o.deployments.keys.filter (· ∈ freshIds (some o))).insertionSort (· ≤ ·)

/-- What cannot be placed even on an idle host, each with the first error of the
plan about it. -/
def infeasibleAlone (B : Backend π δ φ) (allowedGpus : Option (List Nat))
    (sidecar : Dict String (List Nat)) (deployments : List Deployment) (requested : List String) :
    List (String × Option PlacementFailure) :=
  let plan := planOnIdleHost B allowedGpus sidecar deployments
  let blocked := requested.filter fun gid => plan.assignments.get? gid = none
  (blocked.insertionSort (· ≤ ·)).map fun gid =>
    (gid, (plan.errors.find? (·.1 = gid)).map Prod.snd)

section Check

variable {B : Backend π δ φ} {allowedGpus : Option (List Nat)} {sidecar : Dict String (List Nat)}
  {o : AcquireOverlay}

theorem AcquireOverlay.mem_blocked {g : String} :
    g ∈ o.blocked ↔ g ∈ o.deployments.keys ∧ g ∈ freshIds (some o) := by
  unfold blocked
  rw [List.mem_insertionSort, List.mem_filter, decide_eq_true_iff]

/-- The check lets a request wait that the idle host has room for. -/
theorem infeasibleAlone_eq_nil {ds : List Deployment} {requested : List String} :
    infeasibleAlone B allowedGpus sidecar ds requested = [] ↔ ∀ g ∈ requested,
      ((planOnIdleHost B allowedGpus sidecar ds).assignments.get? g).isSome := by
  unfold infeasibleAlone
  dsimp only
  rw [List.map_eq_nil_iff, ← List.length_eq_zero_iff, List.length_insertionSort,
    List.length_eq_zero_iff, List.filter_eq_nil_iff]
  simp [Option.isSome_iff_ne_none]

end Check

/-! ## the same request later -/

/-- A later overlay asks for the same deployments.  Those the sidecar has pinned
stay on their GPUs; those it has not hold none. -/
structure SameDemand (sidecar : Dict String (List Nat)) (o : AcquireOverlay)
    (residency : Option Residency) (o' : AcquireOverlay) (later : Deployment → Deployment) :
    Prop where
  row : ∀ d ∈ o.deployments, later d ∈ o'.deployments ∧
    (later d).engine = d.engine ∧ (later d).spec = d.spec
  apart : ∀ d ∈ o.deployments, ∀ e ∈ o.deployments, d.id ≠ e.id → (later d).id ≠ (later e).id
  stays : ∀ d ∈ o.deployments,
    (adoptRow residency o' (later d)).assignedGpus = sidecar.get? d.id

theorem adoptRow_engine (residency : Option Residency) (o : AcquireOverlay) (d : Deployment) :
    (adoptRow residency o d).engine = d.engine := by
  unfold adoptRow
  cases adoptedGpus residency o d <;> rfl

theorem adoptRow_spec (residency : Option Residency) (o : AcquireOverlay) (d : Deployment) :
    (adoptRow residency o d).spec = d.spec := by
  unfold adoptRow
  cases adoptedGpus residency o d <;> rfl

section Later

variable {B : Backend π δ φ} {s : Store π δ} {o : AcquireOverlay} {residency : Option Residency}
  {allowed : Option (List Nat)}

theorem Backend.nodup_enriched (B : Backend π δ φ) {ds : List Deployment}
    (h : (ds.map Deployment.id).Nodup) : ((ds.map B.enrich).map Deployment.id).Nodup := by
  have hids : (ds.map B.enrich).map Deployment.id = ds.map Deployment.id := by
    simp [List.map_map]
  rwa [hids]

/-- A preview shows a row of its overlay, LIVE, with what it adopts. -/
theorem mem_preview (residency : Option Residency) (ho : OverlayOn s o) {v : Deployment}
    (hv : v ∈ o.deployments) :
    adoptRow residency o v ∈ viewRows s.listDeployments (some (previewOverlay residency o)) ∧
      (adoptRow residency o v).state = .live := by
  have hfind := find?_preview s o residency v.id
  rw [Table.mem_iff_find?.mp hv] at hfind
  exact ⟨(Table.find?_eq_some.mp hfind).1, by rw [adoptRow_state, ho.live hv]⟩

/-- A claim that a decision places is placed on what it holds, or anew. -/
theorem placed_claim (ho : OverlayOn s o) {v : Deployment} (hv : v ∈ o.deployments)
    (hplaced : ((viewPlan B allowed s.listDeployments residency
      (some (previewOverlay residency o))).assignments.get? v.id).isSome) :
    PlacedAs B.host allowed
      (viewPlan B allowed s.listDeployments residency (some (previewOverlay residency o)))
      (adoptRow residency o v).assignedGpus (B.enrich (adoptRow residency o v)) := by
  obtain ⟨hx, hlive⟩ := mem_preview residency ho hv
  have hid : (B.enrich (adoptRow residency o v)).id = v.id := by simp
  let view := admissionView B s.listDeployments residency (some (previewOverlay residency o))
  have hnodup : ((view.1.map B.enrich).map Deployment.id).Nodup :=
    B.nodup_enriched (nodup_desired B s.listDeployments residency _)
  -- what is placed is desired, and a LIVE row is desired as required
  have hdesired : adoptRow residency o v ∈ view.1 ∧ v.id ∈ view.2.requiredIds := by
    have hin : v.id ∈ (view.1.map B.enrich).map Deployment.id := by
      by_contra hnot
      have hnone : (viewPlan B allowed s.listDeployments residency
          (some (previewOverlay residency o))).assignments.get? v.id = none :=
        get?_planPlacement_of_not_mem hnot
      rw [hnone] at hplaced
      contradiction
    obtain ⟨y, hy, hyid⟩ := List.mem_map.mp hin
    obtain ⟨d, hd, rfl⟩ := List.mem_map.mp hy
    have hdid : d.id = (adoptRow residency o v).id := by simpa using hyid
    cases List.mem_append.mp hd with
    | inl hrequired =>
        have heq : d = adoptRow residency o v :=
          Table.eq_of_key_eq (List.mem_filter.mp hrequired).1 hx hdid
        subst heq
        have hmem : (adoptRow residency o v).id ∈ view.2.requiredIds :=
          List.mem_map_of_mem hrequired
        exact ⟨hd, by rwa [adoptRow_id] at hmem⟩
    | inr hoptional =>
        obtain ⟨hrow, hhint⟩ := List.mem_filter.mp hoptional
        have heq : d = adoptRow residency o v := Table.eq_of_key_eq hrow hx hdid
        unfold optionalHint at hhint
        rw [heq, hlive] at hhint
        simp at hhint
  have hplacedAs := placed_of_admission hnodup (List.mem_map_of_mem hdesired.1)
    (by rw [hid]; exact hdesired.2) (by rw [hid]; exact hplaced)
  have hhard : view.2.hard.get? (B.enrich (adoptRow residency o v)).id =
      (adoptRow residency o v).assignedGpus := by
    apply Option.ext
    intro gpus
    have hiff : view.2.hard.get? (adoptRow residency o v).id = some gpus ↔
        ∃ d ∈ viewRows s.listDeployments (some (previewOverlay residency o)),
          d.id = (adoptRow residency o v).id ∧ d.state = .live ∧ d.assignedGpus = some gpus :=
      get?_hard B s.listDeployments residency (some (previewOverlay residency o))
    rw [Backend.enrich_id]
    refine hiff.trans ⟨fun h => ?_, fun h => ⟨_, hx, rfl, hlive, h⟩⟩
    obtain ⟨d, hd, hdid, -, hgpus⟩ := h
    have heq : d = adoptRow residency o v := Table.eq_of_key_eq hd hx hdid
    rwa [heq] at hgpus
  rwa [hhard] at hplacedAs

end Later

/-! ## the check is final, and exact -/

section Exact

variable {B : Backend π δ φ} {allowed : Option (List Nat)} {sidecar : Dict String (List Nat)}
  {s : Store π δ} {o o' : AcquireOverlay} {residency : Option Residency}
  {later : Deployment → Deployment}

/-- The pins of the idle host are the sidecar's for what is requested. -/
theorem get?_pins {d : Deployment} (hd : d ∈ o.deployments) :
    Dict.get? (sidecar.filter fun pin => pin.1 ∈ o.deployments.rows.map Deployment.id)
      (B.enrich d).id = sidecar.get? d.id := by
  have hin : d.id ∈ o.deployments.rows.map Deployment.id := List.mem_map_of_mem hd
  have hget := Dict.get?_filter sidecar (fun g => g ∈ o.deployments.rows.map Deployment.id) d.id
  rw [decide_eq_true hin] at hget
  rw [Backend.enrich_id]
  exact hget

/-- What one decision places, the idle host has room for. -/
theorem placed_alone (hsized : B.host.Sized) (ho : OverlayOn s o')
    (hsame : SameDemand sidecar o residency o' later)
    (hplaced : ∀ d ∈ o.deployments, ((viewPlan B allowed s.listDeployments residency
      (some (previewOverlay residency o'))).assignments.get? (later d).id).isSome) :
    ∀ d ∈ o.deployments,
      ((planOnIdleHost B allowed sidecar o.deployments.rows).assignments.get? d.id).isSome := by
  intro d hd
  -- the row a decision sees for a row of the request
  let kept := fun x : Deployment =>
    B.enrich (adoptRow residency o' (later ((o.deployments.find? x.id).getD x)))
  have hkept : ∀ e ∈ o.deployments,
      kept (B.enrich e) = B.enrich (adoptRow residency o' (later e)) := by
    intro e he
    simp only [kept, Backend.enrich_id]
    rw [Table.mem_iff_find?.mp he]
    rfl
  have hspec : ∀ x ∈ o.deployments.rows.map B.enrich, (kept x).spec = x.spec := by
    intro x hx
    obtain ⟨e, he, rfl⟩ := List.mem_map.mp hx
    obtain ⟨-, hengine, hspec⟩ := hsame.row e he
    rw [hkept e he]
    exact B.enrich_spec_congr ((adoptRow_spec _ _ _).trans hspec)
      ((adoptRow_engine _ _ _).trans hengine)
  have hapart : ∀ x ∈ o.deployments.rows.map B.enrich, ∀ y ∈ o.deployments.rows.map B.enrich,
      x.id ≠ y.id → (kept x).id ≠ (kept y).id := by
    intro x hx y hy hne
    obtain ⟨e, he, rfl⟩ := List.mem_map.mp hx
    obtain ⟨f, hf, rfl⟩ := List.mem_map.mp hy
    rw [hkept e he, hkept f hf]
    simp only [Backend.enrich_id, adoptRow_id] at hne ⊢
    exact hsame.apart e he f hf hne
  have hclaims : ∀ x ∈ o.deployments.rows.map B.enrich, PlacedAs B.host allowed
      (viewPlan B allowed s.listDeployments residency (some (previewOverlay residency o')))
      (Dict.get? (sidecar.filter fun pin => pin.1 ∈ o.deployments.rows.map Deployment.id) x.id)
      (kept x) := by
    intro x hx
    obtain ⟨e, he, rfl⟩ := List.mem_map.mp hx
    rw [get?_pins he, hkept e he, ← hsame.stays e he]
    exact placed_claim ho (hsame.row e he).1 (hplaced e he)
  have hroom := room_of_placed hspec hapart hclaims
  obtain ⟨xs, hxs⟩ := hroom.plan_plain hsized (B.nodup_enriched o.deployments.nodup) (B.enrich d)
    (List.mem_map_of_mem hd)
  rw [Backend.enrich_id] at hxs
  exact Option.isSome_iff_exists.mpr ⟨xs, hxs⟩

/-- What the check refuses is not admitted later either, whatever the ledger
then holds, on the same host and the same allow-list. -/
theorem infeasible_is_final {settings : RenderSettings π φ} {secrets : Dict String String}
    {managed : ManagedEnv} {a : Admission δ} (hsized : B.host.Sized)
    (hrefused : infeasibleAlone B settings.allowedGpus sidecar o.deployments.rows o.blocked ≠ [])
    (ho : OverlayOn s o') (hsame : SameDemand sidecar o residency o' later)
    (hdecided : admitView B s settings secrets managed o' residency = .ok a) : a.reasons ≠ [] := by
  intro hreasons
  obtain ⟨docs, hby⟩ := admitView_ok hdecided hreasons
  have hplan : docs.plan = viewPlan B settings.allowedGpus s.listDeployments residency
      (some (previewOverlay residency o')) := plan_renderDocuments hby.rendered
  refine hrefused (infeasibleAlone_eq_nil.mpr fun g hg => ?_)
  obtain ⟨d, hd, rfl⟩ := Table.mem_keys.mp (AcquireOverlay.mem_blocked.mp hg).1
  apply placed_alone hsized ho hsame ?_ d hd
  intro e he
  have hclaim := hby.claims _ (Table.mem_keys.mpr ⟨_, (hsame.row e he).1, rfl⟩)
  rw [← hplan]
  exact (refusals_eq_nil hclaim).2.1

/-- An overlay over no deployments has only new ones. -/
theorem OverlayOn.all_new (ho : OverlayOn s o) (hempty : s.deployments = ∅) {d : Deployment}
    (hd : d ∈ o.deployments) : d.id ∈ o.created.keys ∧ d.assignedGpus = none := by
  have hnew : d.id ∈ o.created.keys := by
    by_contra hnot
    obtain ⟨e, he, -⟩ := ho.stored d hd hnot
    have hmem := (Store.mem_of_getDeployment he).1
    rw [hempty] at hmem
    contradiction
  obtain ⟨c, hc, hid⟩ := Table.mem_keys.mp hnew
  have hcreated := ho.created c hc
  have heq : c = d := Table.eq_of_key_eq hcreated.1 hd hid
  exact ⟨hnew, heq ▸ hcreated.2.2⟩

/-- Nor does such an overlay adopt anything. -/
theorem OverlayOn.adopts_none (ho : OverlayOn s o) (hempty : s.deployments = ∅)
    (d : Deployment) : adoptRow residency o d = d := by
  apply adoptRow_of_not_revived
  intro hrevived
  obtain ⟨-, e, he, -⟩ := ho.revived d.id hrevived
  have hmem := (Store.mem_of_getDeployment he).1
  rw [hempty] at hmem
  contradiction

/-- The rows of a decision over no deployments. -/
theorem mem_preview_empty (ho : OverlayOn s o) (hempty : s.deployments = ∅) {d : Deployment} :
    d ∈ viewRows s.listDeployments (some (previewOverlay residency o)) ↔ d ∈ o.deployments := by
  have hnone : s.getDeployment d.id = none := by
    unfold Store.getDeployment
    rw [hempty]
    rfl
  have hfind := find?_preview s o residency d.id
  rw [hnone, Option.or_none] at hfind
  rw [Table.mem_iff_find?, Table.mem_iff_find?, hfind]
  cases o.deployments.find? d.id with
  | none => simp
  | some e => simp [ho.adopts_none hempty]

/-- What the idle host has room for, a ledger without deployments admits. -/
theorem placed_empty (residency : Option Residency) (hsized : B.host.Sized) (ho : OverlayOn s o)
    (hempty : s.deployments = ∅) (hpins : ∀ d ∈ o.deployments, sidecar.get? d.id = none)
    (hplaced : ∀ d ∈ o.deployments,
      ((planOnIdleHost B allowed sidecar o.deployments.rows).assignments.get? d.id).isSome) :
    ∀ d ∈ o.deployments, ((viewPlan B allowed s.listDeployments residency
      (some (previewOverlay residency o))).assignments.get? d.id).isSome := by
  intro d hd
  let view := admissionView B s.listDeployments residency (some (previewOverlay residency o))
  have hrow : ∀ e ∈ view.1, e ∈ o.deployments := by
    intro e he
    apply (mem_preview_empty ho hempty).mp
    cases List.mem_append.mp he with
    | inl hin => exact (List.mem_filter.mp hin).1
    | inr hin => exact (List.mem_filter.mp hin).1
  -- every row is a fresh candidate, so it is required
  have hrequired : ∀ e ∈ o.deployments, e ∈ view.1 ∧ e.id ∈ view.2.requiredIds := by
    intro e he
    have hfresh : e.id ∈ freshIds (some (previewOverlay residency o)) :=
      List.mem_append_left _ (ho.all_new hempty he).1
    have hin : e ∈ (viewRows s.listDeployments (some (previewOverlay residency o))).rows.filter
        (isRequired (freshIds (some (previewOverlay residency o)))) := by
      rw [List.mem_filter]
      exact ⟨(mem_preview_empty ho hempty).mpr he, by simp [isRequired, ho.live he, hfresh]⟩
    exact ⟨List.mem_append_left _ hin, List.mem_map_of_mem hin⟩
  have hhard : ∀ g, view.2.hard.get? g = none := by
    intro g
    apply Option.eq_none_iff_forall_ne_some.mpr
    intro gpus hget
    obtain ⟨e, he, -, -, hgpus⟩ := (get?_hard B _ residency _).mp hget
    rw [(ho.all_new hempty ((mem_preview_empty ho hempty).mp he)).2] at hgpus
    contradiction
  have hnodup : ((view.1.map B.enrich).map Deployment.id).Nodup :=
    B.nodup_enriched (nodup_desired B s.listDeployments residency _)
  have halone : ∀ x ∈ view.1.map B.enrich, PlacedAs B.host allowed
      (planOnIdleHost B allowed sidecar o.deployments.rows) (view.2.hard.get? x.id) x := by
    intro x hx
    obtain ⟨e, he, rfl⟩ := List.mem_map.mp hx
    have hin := hrow e he
    have hsome := hplaced e hin
    rw [← Backend.enrich_id B e] at hsome
    rw [hhard]
    exact placed_of_plain (B.nodup_enriched o.deployments.nodup) (List.mem_map_of_mem hin)
      ((get?_pins hin).trans (hpins e hin)) hsome
  have hroom := room_of_placed (fun _ _ => rfl) (fun _ _ _ _ hne => hne) halone
  have hids : ∀ x ∈ view.1.map B.enrich, x.id ∈ view.2.requiredIds := by
    intro x hx
    obtain ⟨e, he, rfl⟩ := List.mem_map.mp hx
    rw [Backend.enrich_id]
    exact (hrequired e (hrow e he)).2
  obtain ⟨xs, hxs⟩ := hroom.plan_demand hsized hnodup hids (B.enrich d)
    (List.mem_map_of_mem (hrequired d hd).1)
  rw [Backend.enrich_id] at hxs
  exact Option.isSome_iff_exists.mpr ⟨xs, hxs⟩

/-- An overlay of new deployments, over a ledger that has none. -/
theorem OverlayOn.anew (ho : OverlayOn s o) (hnew : ∀ d ∈ o.deployments, d.id ∈ o.created.keys) :
    OverlayOn (Store.empty : Store π δ) { o with revived := [] } where
  created := ho.created
  stored := fun v hv hnot => absurd (hnew v hv) hnot
  revived := fun _ hg => absurd hg List.not_mem_nil
  updates := ho.updates
  claims := ho.claims

/-- The check refuses a request of new deployments exactly when no plan of an
admission finds room for all of them, whatever the ledger holds. -/
theorem infeasibleAlone_iff (hsized : B.host.Sized) (ho : OverlayOn s o)
    (hnew : ∀ d ∈ o.deployments, d.id ∈ o.created.keys)
    (hpins : ∀ d ∈ o.deployments, sidecar.get? d.id = none) :
    infeasibleAlone B allowed sidecar o.deployments.rows o.blocked ≠ [] ↔
      ∀ (s' : Store π δ) (o' : AcquireOverlay) (residency : Residency)
        (later : Deployment → Deployment), OverlayOn s' o' →
        SameDemand sidecar o (some residency) o' later → ∃ d ∈ o.deployments,
          (viewPlan B allowed s'.listDeployments (some residency)
            (some (previewOverlay (some residency) o'))).assignments.get? (later d).id = none := by
  constructor
  · intro hrefused s' o' residency later ho' hsame
    by_contra hall
    push Not at hall
    refine hrefused (infeasibleAlone_eq_nil.mpr fun g hg => ?_)
    obtain ⟨d, hd, rfl⟩ := Table.mem_keys.mp (AcquireOverlay.mem_blocked.mp hg).1
    exact placed_alone hsized ho' hsame (fun e he => Option.isSome_iff_ne_none.mpr (hall e he)) d hd
  · intro hnever hnil
    rw [infeasibleAlone_eq_nil] at hnil
    have hplaced : ∀ d ∈ o.deployments, ((planOnIdleHost B allowed sidecar
        o.deployments.rows).assignments.get? d.id).isSome := by
      intro d hd
      apply hnil
      have hfresh : d.id ∈ freshIds (some o) := List.mem_append_left _ (hnew d hd)
      exact AcquireOverlay.mem_blocked.mpr ⟨Table.mem_keys.mpr ⟨d, hd, rfl⟩, hfresh⟩
    -- the request itself, over no deployments
    have hempty : (Store.empty : Store π δ).deployments = ∅ := rfl
    have ho' := ho.anew hnew
    have hsame : SameDemand sidecar o (some {}) { o with revived := [] } id := by
      refine ⟨fun d hd => ⟨hd, rfl, rfl⟩, fun _ _ _ _ hne => hne, fun d hd => ?_⟩
      rw [hpins d hd]
      exact (congrArg Deployment.assignedGpus (ho'.adopts_none hempty d)).trans
        (ho'.all_new hempty hd).2
    obtain ⟨d, hd, hnone⟩ := hnever Store.empty _ {} id ho' hsame
    have hsome := placed_empty (some {}) hsized ho' hempty hpins hplaced d hd
    rw [id_eq] at hnone
    rw [hnone] at hsome
    contradiction

end Exact

/-! ## two GPUs of a desk with one -/

/-- A request for two GPUs. -/
def pairRequest : EndpointRequest where
  endpoint := "pair"
  engine := .vllm
  structural := .vllm "pair" none none none 2 1 1 none none false [] none "pair" [] {}
  spec := { hfModelId := some "pair", runtime := { tensorParallelSize := some 2 } }

/-- The ledger of a desk after some operations. -/
def deskLedger (events : List (CtlEvent desk)) : Store Unit (List (String × Option (List Nat))) :=
  (worldAfter desk ∅ () deskProcess events).store

/-- One model is served. -/
def deskBusy : List (CtlEvent desk) :=
  deskRun (.acquire "u" [modelRequest "a"] none true)
    { now := 1, residency := some {}, leaseId := "l1", newId := fun _ => "dep-a" }

/-- An attempt to acquire two GPUs. -/
def pairAttempt (events : List (CtlEvent desk)) (now : Int) (id : String) : AcquireOverlay :=
  planAcquire (deskLedger events) [pairRequest] (fun _ => false) now fun _ => id

theorem rows_pairAttempt_first :
    (pairAttempt [] 1 "dep-b").deployments.rows = [newDeployment "dep-b" 1 pairRequest] := by
  decide +kernel

theorem rows_pairAttempt_busy :
    (pairAttempt deskBusy 2 "dep-c").deployments.rows = [newDeployment "dep-c" 2 pairRequest] := by
  decide +kernel

theorem mem_pairAttempt_first {d : Deployment} (hd : d ∈ (pairAttempt [] 1 "dep-b").deployments) :
    d = newDeployment "dep-b" 1 pairRequest := by
  rw [Table.mem_def, rows_pairAttempt_first] at hd
  exact List.mem_singleton.mp hd

theorem desk_sized : desk.host.Sized := Host.sized_of_gpus (by decide +kernel)

theorem pairAttempt_sameDemand : SameDemand ∅ (pairAttempt [] 1 "dep-b") (some {})
    (pairAttempt deskBusy 2 "dep-c") fun _ => newDeployment "dep-c" 2 pairRequest := by
  constructor
  · intro d hd
    rw [mem_pairAttempt_first hd, Table.mem_def, rows_pairAttempt_busy]
    exact ⟨List.mem_singleton_self _, rfl, rfl⟩
  · intro d hd e he hne
    rw [mem_pairAttempt_first hd, mem_pairAttempt_first he] at hne
    contradiction
  · intro d _
    have hnone : (adoptRow (some {}) (pairAttempt deskBusy 2 "dep-c")
        (newDeployment "dep-c" 2 pairRequest)).assignedGpus = none := by decide +kernel
    exact hnone

theorem pairRequest_refused : infeasibleAlone desk none ∅
    (pairAttempt [] 1 "dep-b").deployments.rows (pairAttempt [] 1 "dep-b").blocked ≠ [] := by
  decide +kernel

theorem pairAttempt_decided : ∃ a, admitView desk (deskLedger deskBusy) ⟨(), none, ()⟩ ∅ {}
    (pairAttempt deskBusy 2 "dep-c") (some {}) = .ok a := by
  have hok : (admitView desk (deskLedger deskBusy) ⟨(), none, ()⟩ ∅ {}
    (pairAttempt deskBusy 2 "dep-c") (some {})).isOk = true := by decide +kernel
  cases hdecided : admitView desk (deskLedger deskBusy) ⟨(), none, ()⟩ ∅ {}
      (pairAttempt deskBusy 2 "dep-c") (some {}) with
  | ok a => exact ⟨a, rfl⟩
  | error e =>
      rw [hdecided] at hok
      contradiction

/-- What an idle desk refuses, a busy one does not admit. -/
theorem pairRequest_is_final : ∃ a, admitView desk (deskLedger deskBusy) ⟨(), none, ()⟩ ∅ {}
    (pairAttempt deskBusy 2 "dep-c") (some {}) = .ok a ∧ a.reasons ≠ [] := by
  obtain ⟨a, ha⟩ := pairAttempt_decided
  exact ⟨a, ha, infeasible_is_final desk_sized pairRequest_refused (planAcquire_overlayOn _ _ _ _ _)
    pairAttempt_sameDemand ha⟩

/-- Nor does any other, whatever it finds. -/
theorem pairRequest_never_fits :
    infeasibleAlone desk none ∅ (pairAttempt deskBusy 2 "dep-c").deployments.rows
        (pairAttempt deskBusy 2 "dep-c").blocked ≠ [] ∧
      ∀ (s : Store Unit (List (String × Option (List Nat)))) (o' : AcquireOverlay)
        (residency : Residency) (later : Deployment → Deployment), OverlayOn s o' →
        SameDemand ∅ (pairAttempt deskBusy 2 "dep-c") (some residency) o' later →
        ∃ d ∈ (pairAttempt deskBusy 2 "dep-c").deployments,
          (viewPlan desk none s.listDeployments (some residency)
            (some (previewOverlay (some residency) o'))).assignments.get? (later d).id = none := by
  have hrefused : infeasibleAlone desk none ∅ (pairAttempt deskBusy 2 "dep-c").deployments.rows
      (pairAttempt deskBusy 2 "dep-c").blocked ≠ [] := by decide +kernel
  have hnew : ∀ d ∈ (pairAttempt deskBusy 2 "dep-c").deployments.rows,
      d.id ∈ (pairAttempt deskBusy 2 "dep-c").created.keys := by decide +kernel
  exact ⟨hrefused, (infeasibleAlone_iff desk_sized
    (planAcquire_overlayOn (deskLedger deskBusy) [pairRequest] (fun _ => false) 2 fun _ => "dep-c")
    hnew (fun _ _ => rfl)).mp hrefused⟩

end InferStack
