import Mathlib.Algebra.GroupWithZero.Nat
import InferStack.Controller.Allocation
import InferStack.Launch
import InferStack.Ledger.Cheapest

/-!
# InferStack.Compose.Enrichment

The VRAM facts a preview plans with, and what of them a commit writes.

A preview attaches what this host has measured, and the floor of the weights in
its cache, to the deployments it plans over (`VramFacts.enrichPlacement`).  The
deployments an acquire creates are among them, and are inserted as they are.

* `planLoop_creates_spec` — a planned deployment has its request's spec;
* `keepsSpecs_iff` — when that spec is the one stored.
-/

namespace InferStack

open Kit

/-! ## weights on disk -/

/-- A file of weights in a snapshot of a model: the first directory of its path
(empty at the root), its suffix and its size. -/
structure WeightFile where
  directory : String
  suffix : String
  bytes : Nat

namespace WeightFile

/-- One set of weights: files of one directory and one format family. -/
def group (f : WeightFile) : String × String :=
  (f.directory, if f.suffix = ".gguf" then "gguf" else "torch")

def isWeights (f : WeightFile) : Bool :=
  f.suffix ∈ [".safetensors", ".bin", ".gguf", ".pth"]

end WeightFile

/-- The bytes of the largest set of weights in a snapshot. -/
def largestSet (files : List WeightFile) : Nat :=
  let weights := files.filter WeightFile.isWeights
  (weights.map fun f => ((weights.filter fun f' => f'.group = f.group).map WeightFile.bytes).sum).foldr
    max 0

/-- What this host knows about the memory models need. -/
structure VramFacts where
  /-- The measurements overlay, by key; `none` where an entry has no number. -/
  measurements : Dict String (Option ℚ)
  /-- The snapshots of a model in the cache, if it has a directory there. -/
  snapshots : String → Option (List (List WeightFile))
  /-- `round(x, 2)`. -/
  round : ℚ → ℚ

/-- The key a measurement is valid for: all that changes the requirement. -/
def measurementKeyForSpec (spec : Spec) : String :=
  (truthy spec.hfModelId).getD "" ++ "|" ++ (truthy spec.runtime.image).getD "default-image" ++
    "|" ++ (truthy spec.dtype).getD "auto" ++ "|" ++ toString (spec.runtime.maxModelLen.getD 0)

namespace VramFacts

variable (V : VramFacts)

def getMinVramGib (key : String) : Option ℚ :=
  ((V.measurements.get? key).bind id).filter (0 < ·)

/-- The GiB the weights of a model need at least, if it is downloaded. -/
def weightFloorGib (modelId : String) : Option ℚ :=
  if modelId = "" then none
  else
    match V.snapshots modelId with
    | none => none
    | some snapshots =>
        let best := (snapshots.map largestSet).foldr max 0
        if best = 0 then none else some (V.round (best / 2 ^ 30))

/-- The measurement to plan with, where the spec declares none. -/
def measured (spec : Spec) : Option ℚ :=
  if (spec.placement.minVramGib.filter (· ≠ 0)).isSome then none
  else V.getMinVramGib (measurementKeyForSpec spec)

/-- The floor to plan with, where the spec has none. -/
def floor (spec : Spec) : Option ℚ :=
  if (spec.placement.floorVramGib.filter (· ≠ 0)).isSome then none
  else (V.weightFloorGib (spec.hfModelId.getD "")).filter (· ≠ 0)

/-- The placement block with the VRAM facts attached. -/
def enrichPlacement (spec : Spec) : Placement :=
  let placement := spec.placement
  let placement := (V.measured spec).elim placement fun gib =>
    { placement with minVramGib := some gib, minVramSource := some "measured" }
  (V.floor spec).elim placement fun gib => { placement with floorVramGib := some gib }

/-- There is no fact to attach to a spec. -/
def Silent (spec : Spec) : Prop := V.measured spec = none ∧ V.floor spec = none

/-- Attaching facts changes a placement exactly when there is one. -/
theorem enrichPlacement_eq_iff (spec : Spec) :
    V.enrichPlacement spec = spec.placement ↔ V.Silent spec := by
  have hmeasured : ∀ gib, V.measured spec = some gib → spec.placement.minVramGib ≠ some gib := by
    intro gib h heq
    unfold measured at h
    split at h
    · contradiction
    · rename_i hunset
      have hpos : 0 < gib := by
        have hfilter := (Option.filter_eq_some_iff.mp h).2
        simpa using hfilter
      rw [heq] at hunset
      simp [Option.filter_some, ne_of_gt hpos] at hunset
  have hfloor : ∀ gib, V.floor spec = some gib → spec.placement.floorVramGib ≠ some gib := by
    intro gib h heq
    unfold floor at h
    split at h
    · contradiction
    · rename_i hunset
      have hne : gib ≠ 0 := by
        have hfilter := (Option.filter_eq_some_iff.mp h).2
        simpa using hfilter
      rw [heq] at hunset
      simp [Option.filter_some, hne] at hunset
  unfold enrichPlacement Silent
  constructor
  · intro h
    have hmin := congrArg Placement.minVramGib h
    have hfl := congrArg Placement.floorVramGib h
    cases hm : V.measured spec with
    | none =>
        cases hf : V.floor spec with
        | none => exact ⟨rfl, rfl⟩
        | some gib =>
            rw [hm, hf] at hfl
            exact absurd hfl.symm (hfloor gib hf)
    | some gib =>
        rw [hm] at hmin
        have hmin' : some gib = spec.placement.minVramGib := by
          cases hf : V.floor spec with
          | none => rw [hf] at hmin; exact hmin
          | some g => rw [hf] at hmin; exact hmin
        exact absurd hmin'.symm (hmeasured gib hm)
  · rintro ⟨hm, hf⟩
    rw [hm, hf]
    rfl

end VramFacts

/-! ## what a plan creates -/

section Plan

variable {π δ : Type} {s : Store π δ} {resident : String → Bool} {now : Int}
  {newId : Nat → String} {p : PlanState} {r : EndpointRequest}

/-- A reused deployment of the plan keeps its spec. -/
theorem PlanOn.keeps_created (h : PlanOn s newId p) (hfresh : FreshIds s newId) {g : String}
    {d : Deployment} (hd : p.created.find? g = some d) :
    ∃ d', (InferStack.planRequest s resident now newId p r).created.find? g = some d' ∧
      d'.spec = d.spec ∧ d'.engine = d.engine := by
  obtain ⟨hmem, hid⟩ := Table.find?_eq_some.mp hd
  have hview := (h.plan.created d hmem).1
  unfold InferStack.planRequest
  cases hchoose : chooseDeployment s resident p r with
  | none =>
      have hne : newId p.claims.length ≠ g := by
        intro heq
        have hnew := h.newId_fresh hfresh
        exact hnew (heq ▸ hid ▸ Table.mem_keys.mpr ⟨d, hview, rfl⟩)
      refine ⟨d, ?_, rfl, rfl⟩
      show (p.created.put _).find? g = some d
      rw [Table.find?_put]
      exact (if_neg hne).trans hd
  | some c =>
      show ∃ d', (if c.id ∈ p.created.keys then p.created.put _ else p.created).find? g = some d' ∧ _
      by_cases hc : c.id ∈ p.created.keys
      · rw [if_pos hc, Table.find?_put]
        have hcid : (c.revive.serving r.endpoint r.served).id = c.id := by simp
        rw [hcid]
        by_cases heq : c.id = g
        · -- the candidate is the row of the plan itself
          have hsame : c = d := by
            cases h.plan.choice hchoose with
            | inl hin => exact Table.eq_of_key_eq hin hview (heq.trans hid.symm)
            | inr hstored => exact absurd (heq ▸ hid ▸ Table.mem_keys.mpr ⟨d, hview, rfl⟩) hstored.1
          rw [if_pos heq]
          refine ⟨_, rfl, ?_, ?_⟩
          · rw [hsame, Deployment.serving_eq]
            unfold Deployment.revive
            split <;> rfl
          · rw [hsame, Deployment.serving_eq]
            unfold Deployment.revive
            split <;> rfl
        · rw [if_neg heq]
          exact ⟨d, hd, rfl, rfl⟩
      · rw [if_neg hc]
        exact ⟨d, hd, rfl, rfl⟩

/-- What a plan creates for a request has the request's engine and spec. -/
theorem planLoop_creates_spec (hfresh : FreshIds s newId) (before : List EndpointRequest)
    (r : EndpointRequest) (after : List EndpointRequest)
    (hcreates : Creates s (planLoop s resident now newId before) r) :
    ∃ d, (planLoop s resident now newId (before ++ r :: after)).created.find? (newId before.length) =
      some d ∧ d.spec = r.spec ∧ d.engine = r.engine := by
  induction after using List.reverseRecOn with
  | nil =>
      rw [planLoop_snoc]
      have hnone : chooseDeployment s resident (planLoop s resident now newId before) r = none :=
        creates_iff.mpr hcreates
      unfold planRequest
      rw [hnone, planLoop_claims_length]
      refine ⟨newDeployment (newId before.length) now r, ?_, rfl, rfl⟩
      show (Table.put _ _).find? _ = _
      rw [Table.find?_put]
      exact if_pos rfl
  | append_singleton after r' ih =>
      obtain ⟨d, hd, hspec, hengine⟩ := ih
      have hsplit : before ++ r :: (after ++ [r']) = (before ++ r :: after) ++ [r'] := by simp
      rw [hsplit, planLoop_snoc]
      obtain ⟨d', hd', hspec', hengine'⟩ := (planLoop_on hfresh _).keeps_created hfresh hd
      exact ⟨d', hd', hspec'.trans hspec, hengine'.trans hengine⟩

end Plan

/-! ## what is stored -/

section Stored

variable {π δ φ : Type}

/-- The backend on a host with these VRAM facts. -/
def Backend.knowing (B : Backend π δ φ) (V : VramFacts) : Backend π δ φ :=
  { B with enrichPlacement := V.enrichPlacement }

/-- The plan of an acquire against what is running. -/
def plannedOn (s : Store π δ) (requests : List EndpointRequest) (residency : Option Residency)
    (now : Int) (newId : Nat → String) : AcquireOverlay :=
  planAcquire s requests (fun g => residency.any (·.isResident g)) now newId

/-- An acquire planned and previewed on the ledger `s`, and committed on `s'`. -/
structure PreviewedAcquire (B : Backend π δ φ) (requests : List EndpointRequest)
    (residency : Option Residency) (now : Int) (newId : Nat → String) (s s' s'' : Store π δ) :
    Prop where
  fresh : FreshIds s newId
  committed : ∃ settings secrets managed a owner ttl apply candidate i r,
    admitView B s settings secrets managed (plannedOn s requests residency now newId) residency =
      .ok a ∧ a.reasons = [] ∧
    commitTx B owner ttl (plannedOn s requests residency now newId) a apply candidate i s' =
      .ok (r, s'')

/-- A request of the list creates a deployment, under this id. -/
def CreatesRow (s : Store π δ) (requests : List EndpointRequest) (residency : Option Residency)
    (now : Int) (newId : Nat → String) (r : EndpointRequest) (g : String) : Prop :=
  ∃ before after, requests = before ++ r :: after ∧ g = newId before.length ∧
    Creates s (planLoop s (fun g => residency.any (·.isResident g)) now newId before) r

/-- What is stored is what was requested, and what was there before. -/
structure KeepsSpecs (requests : List EndpointRequest) (residency : Option Residency) (now : Int)
    (newId : Nat → String) (s s' s'' : Store π δ) : Prop where
  created : ∀ r g, CreatesRow s requests residency now newId r g →
    ∃ d, s''.getDeployment g = some d ∧ d.spec = r.spec.stored
  existing : ∀ d ∈ s'.deployments, ∃ d', s''.getDeployment d.id = some d' ∧ d'.spec = d.spec

variable {B : Backend π δ φ} {V : VramFacts} {requests : List EndpointRequest}
  {residency : Option Residency} {now : Int} {newId : Nat → String} {s s' s'' : Store π δ}

/-- The row an acquire leaves keeps the spec it starts from. -/
theorem acquiredRow_spec (s : Store π δ) (o : AcquireOverlay)
    (allocations : Dict String (List Nat)) {g : String} {d : Deployment}
    (h : (s.getDeployment g).or ((o.created.find? g).map Deployment.stored) = some d) :
    ∃ d', acquiredRow s o allocations g = some d' ∧ d'.spec = d.spec := by
  obtain ⟨t, ht⟩ := acquiredRow_eq s o allocations h
  exact ⟨_, ht, rfl⟩

/-- What enrichment makes of a spec is decided by the spec and the engine. -/
theorem Backend.enrich_spec_congr (B : Backend π δ φ) {d d' : Deployment} (hspec : d.spec = d'.spec)
    (hengine : d.engine = d'.engine) : (B.enrich d).spec = (B.enrich d').spec := by
  unfold enrich
  rw [hengine]
  split
  · show { d.spec with placement := B.enrichPlacement d.spec } = _
    rw [hspec]
  · exact hspec

/-- The spec stored for a created deployment is that of its request, with the
VRAM facts of the preview. -/
theorem PreviewedAcquire.created_spec (h : PreviewedAcquire B requests residency now newId s s' s'')
    {r : EndpointRequest} {g : String} (hr : CreatesRow s requests residency now newId r g) :
    ∃ d, s''.getDeployment g = some d ∧
      d.spec = ((B.enrich (newDeployment g now r)).spec).stored := by
  obtain ⟨settings, secrets, managed, a, owner, ttl, apply, candidate, i, res, -, -, hcommit⟩ :=
    h.committed
  obtain ⟨before, after, rfl, rfl, hcreates⟩ := hr
  obtain ⟨d, hd, hspec, hengine⟩ := planLoop_creates_spec h.fresh before r after hcreates
  have hacquired := acquire_ok (commitTx_ok B hcommit).2
  have hfind : (enrichOverlay B (plannedOn s (before ++ r :: after) residency now newId)).created.find?
      (newId before.length) = some (B.enrich d) := by
    show (Table.map _ B.enrich B.enrich_id).find? _ = _
    rw [Table.find?_map]
    exact congrArg (Option.map B.enrich) hd
  obtain ⟨hmem, hid⟩ := Table.find?_eq_some.mp hfind
  have hnone : s'.getDeployment (newId before.length) = none :=
    hid ▸ Table.find?_of_not_mem_keys (hacquired.created_fresh _ hmem)
  have hbase : (s'.getDeployment (newId before.length)).or
      (((enrichOverlay B (plannedOn s (before ++ r :: after) residency now newId)).created.find?
        (newId before.length)).map Deployment.stored) = some (B.enrich d).stored := by
    rw [hnone, hfind]
    rfl
  obtain ⟨d', hd', hspec'⟩ := acquiredRow_spec s' _ a.allocations hbase
  refine ⟨d', (hacquired.getDeployment _).trans hd', hspec'.trans ?_⟩
  have henriched : (B.enrich d).spec =
      (B.enrich (newDeployment (newId before.length) now r)).spec :=
    B.enrich_spec_congr hspec hengine
  exact congrArg Spec.stored henriched

/-- A deployment that was there keeps its spec. -/
theorem PreviewedAcquire.existing_spec (h : PreviewedAcquire B requests residency now newId s s' s'')
    {d : Deployment} (hd : d ∈ s'.deployments) :
    ∃ d', s''.getDeployment d.id = some d' ∧ d'.spec = d.spec := by
  obtain ⟨settings, secrets, managed, a, owner, ttl, apply, candidate, i, res, -, -, hcommit⟩ :=
    h.committed
  have hacquired := acquire_ok (commitTx_ok B hcommit).2
  have hget : s'.getDeployment d.id = some d := Table.mem_iff_find?.mp hd
  obtain ⟨d', hd', hspec⟩ := acquiredRow_spec s'
    (enrichOverlay B (plannedOn s requests residency now newId)) a.allocations
    (g := d.id) (d := d) (by rw [hget]; rfl)
  exact ⟨d', (hacquired.getDeployment _).trans hd', hspec⟩

/-- A spec with facts attached is stored as the spec itself exactly when there are
none to attach. -/
theorem enrich_stored_eq_iff {g : String} {r : EndpointRequest} :
    (((B.knowing V).enrich (newDeployment g now r)).spec).stored = r.spec.stored ↔
      (r.engine = .vllm → V.Silent r.spec) := by
  have hspec : ((B.knowing V).enrich (newDeployment g now r)).spec =
      if r.engine = .vllm then { r.spec with placement := V.enrichPlacement r.spec } else r.spec := by
    unfold Backend.enrich
    show Deployment.spec (if r.engine = .vllm then _ else _) = _
    split <;> rfl
  rw [hspec]
  by_cases hengine : r.engine = .vllm
  · rw [if_pos hengine, ← V.enrichPlacement_eq_iff]
    constructor
    · exact fun h _ => congrArg Spec.placement h
    · intro h
      rw [h hengine]
  · rw [if_neg hengine]
    exact ⟨fun _ hvllm => absurd hvllm hengine, fun _ => rfl⟩

/-- A commit stores what was requested exactly when the preview knew nothing about
the models it creates. -/
theorem keepsSpecs_iff (B : Backend π δ φ) (V : VramFacts) (requests : List EndpointRequest)
    (residency : Option Residency) (now : Int) (newId : Nat → String) (s s' s'' : Store π δ)
    (h : PreviewedAcquire (B.knowing V) requests residency now newId s s' s'') :
    KeepsSpecs requests residency now newId s s' s'' ↔
      ∀ r g, CreatesRow s requests residency now newId r g → r.engine = .vllm → V.Silent r.spec := by
  constructor
  · intro hkeeps r g hr
    obtain ⟨d, hd, hspec⟩ := h.created_spec hr
    obtain ⟨d', hd', hspec'⟩ := hkeeps.created r g hr
    obtain rfl := Option.some.inj (hd.symm.trans hd')
    exact enrich_stored_eq_iff.mp (hspec.symm.trans hspec')
  · intro hsilent
    refine ⟨fun r g hr => ?_, fun d hd => h.existing_spec hd⟩
    obtain ⟨d, hd, hspec⟩ := h.created_spec hr
    exact ⟨d, hd, hspec.trans (enrich_stored_eq_iff.mpr (hsilent r g hr))⟩

end Stored

/-! ## a measured model -/

/-- A host that has measured one model at 20 GiB. -/
def measuredModel : VramFacts where
  measurements := Table.ofList [("m|default-image|auto|0", some 20)]
  snapshots _ := none
  round q := q

section Previews

variable {B : Backend Unit (List (String × Option (List Nat))) Unit} {V : VramFacts}
  {s : Store Unit (List (String × Option (List Nat)))} {r : EndpointRequest} {i : Input}

/-- The request is admitted, and the acquire commits. -/
def requestCommits (B : Backend Unit (List (String × Option (List Nat))) Unit) (V : VramFacts)
    (s : Store Unit (List (String × Option (List Nat)))) (r : EndpointRequest) (i : Input) : Bool :=
  let o := plannedOn s [r] i.residency i.now lengthId
  match admitView (B.knowing V) s ⟨(), none, ()⟩ ∅ {} o i.residency with
  | .error _ => false
  | .ok a => decide (a.reasons = []) && (commitTx (B.knowing V) "u" none o a true none i s).toBool

theorem exists_previewed (hfresh : FreshIds s lengthId) (h : requestCommits B V s r i = true) :
    ∃ s'', PreviewedAcquire (B.knowing V) [r] i.residency i.now lengthId s s s'' := by
  unfold requestCommits at h
  dsimp only at h
  split at h
  · contradiction
  · rename_i a hadmit
    obtain ⟨hreasons, hcommits⟩ := (Bool.and_eq_true _ _).mp h
    cases hcommit : commitTx (B.knowing V) "u" none
        (plannedOn s [r] i.residency i.now lengthId) a true none i s with
    | error e => rw [hcommit] at hcommits; contradiction
    | ok res =>
        exact ⟨res.2, hfresh, _, _, _, a, _, _, _, _, _, res.1, hadmit,
          of_decide_eq_true hreasons, hcommit⟩

end Previews

theorem freshIds_empty : FreshIds (Store.empty : Store Unit (List (String × Option (List Nat))))
    lengthId := ⟨lengthId_injective, fun _ => List.not_mem_nil⟩

/-- The bench serves one model. -/
def benchServing : Store Unit (List (String × Option (List Nat))) :=
  (worldAfter bench ∅ () deskProcess (deskRun (.acquire "u" [modelRequest "a"] none true)
    { now := 1, residency := running [], leaseId := "l1", newId := fun _ => "dep-a" })).store

theorem keys_benchServing : benchServing.deployments.keys = ["dep-a"] := by decide +kernel

theorem freshIds_benchServing : FreshIds benchServing lengthId := by
  refine ⟨lengthId_injective, fun i hi => ?_⟩
  rw [keys_benchServing] at hi
  exact lengthId_ne (by simp) i (List.mem_singleton.mp hi)

/-- The measured model, declared to need 10 GiB. -/
def declaredRequest : EndpointRequest :=
  { modelRequest "m" with
    spec := { hfModelId := some "m", placement := { minVramGib := some 10 } } }

/-- A declared number beats the measured one: the spec is stored as requested, beside
the spec that was there. -/
theorem declared_kept : ∃ s'' : Store Unit (List (String × Option (List Nat))),
    benchServing.deployments.keys = ["dep-a"] ∧
    PreviewedAcquire (bench.knowing measuredModel) [declaredRequest] (running [("dep-a", 0)]) 2
      lengthId benchServing benchServing s'' ∧
    KeepsSpecs [declaredRequest] (running [("dep-a", 0)]) 2 lengthId benchServing benchServing
      s'' := by
  have hcommits : requestCommits bench measuredModel benchServing declaredRequest
      { now := 2, residency := running [("dep-a", 0)], leaseId := "l2" } = true := by
    decide +kernel
  obtain ⟨s'', h⟩ := exists_previewed freshIds_benchServing hcommits
  refine ⟨s'', keys_benchServing, h, (keepsSpecs_iff bench _ _ _ _ _ _ _ _ h).mpr
    fun r g hr _ => ?_⟩
  obtain ⟨before, after, heq, -, -⟩ := hr
  have hmem : r ∈ [declaredRequest] := by rw [heq]; simp
  obtain rfl := List.mem_singleton.mp hmem
  exact ⟨by decide +kernel, by decide +kernel⟩

/-- Measured at 20 GiB, the model's row is stored with that measurement. -/
theorem measured_leaks : ¬ ∀ (B : Backend Unit (List (String × Option (List Nat))) Unit)
    (V : VramFacts) (requests : List EndpointRequest) (residency : Option Residency) (now : Int)
    (newId : Nat → String) (s s' s'' : Store Unit (List (String × Option (List Nat)))),
    PreviewedAcquire (B.knowing V) requests residency now newId s s' s'' →
      KeepsSpecs requests residency now newId s s' s'' := by
  intro hall
  have hcommits : requestCommits desk measuredModel Store.empty (modelRequest "m")
      { now := 1, residency := some {}, leaseId := "l1" } = true := by decide +kernel
  obtain ⟨s'', h⟩ := exists_previewed freshIds_empty hcommits
  have hnone : chooseDeployment (Store.empty : Store Unit (List (String × Option (List Nat))))
      (fun g => (some ({} : Residency)).any (·.isResident g)) {} (modelRequest "m") = none := rfl
  have hrow : CreatesRow (Store.empty : Store Unit (List (String × Option (List Nat))))
      [modelRequest "m"] (some {}) 1 lengthId (modelRequest "m") (lengthId 0) :=
    ⟨[], [], rfl, rfl, creates_iff.mp hnone⟩
  obtain ⟨d, hd, hspec⟩ := h.created_spec hrow
  obtain ⟨d', hd', hspec'⟩ := (hall desk _ _ _ _ _ _ _ _ h).created _ _ hrow
  obtain rfl := Option.some.inj (hd.symm.trans hd')
  have hsilent := enrich_stored_eq_iff.mp (hspec.symm.trans hspec') rfl
  have hmeasured : measuredModel.measured (modelRequest "m").spec ≠ none := by
    decide +kernel
  exact hmeasured hsilent.1

end InferStack
