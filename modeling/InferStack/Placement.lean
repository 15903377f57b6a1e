import Mathlib.Data.List.Induction
import Mathlib.Data.String.Basic
import InferStack.Kit.Holdings
import InferStack.Models

/-!
# InferStack.Placement

Single-host GPU placement: the whole set of desired deployments onto one GPU
pool, in a fixed order.

In admission mode (`PlacementInputs` given) demand decides who gets a GPU:

1. hard allocations are validated against the whole pool, oldest deployment
   first; one that is no longer valid is `degraded`, never placed anew;
2. required deployments without one are placed next, inside `allowedGpus`:
   explicit indices first, then fit;
3. optional residents keep their GPUs if still free, or are `displaced`.

Without inputs, soft pins take the place of the hard layer.  No GPU is ever
assigned twice: the assignments of a plan are `Holdings`.
-/

namespace InferStack

open Kit

/-! ## the pool -/

/-- A GPU of the host. -/
structure Gpu where
  index : Nat
  memoryGib : ℚ := 0
  displayActive : Bool := false
  deriving DecidableEq

/-- The host's GPUs, as a backend may use them. -/
structure Host where
  gpus : Table Gpu Gpu.index := ∅
  reserved : List Nat := []
  skipDisplay : Bool := false

/-- The placeable GPUs, in inventory order. -/
def availableIndices (host : Host) (allowedGpus : Option (List Nat)) : List Nat :=
  let gpus := if host.skipDisplay then host.gpus.rows.filter (!·.displayActive) else host.gpus.rows
  let indices := gpus.map Gpu.index
  let indices := match allowedGpus with
    | none => indices
    | some allowed => indices.filter (· ∈ allowed)
  indices.filter (· ∉ host.reserved)

/-- A GPU's memory, 0 when the inventory lacks it. -/
def Host.memory (host : Host) (i : Nat) : ℚ := ((host.gpus.find? i).map Gpu.memoryGib).getD 0

/-- The allow-list only takes GPUs away. -/
theorem mem_availableIndices_none {host : Host} {allowed : Option (List Nat)} {i : Nat}
    (h : i ∈ availableIndices host allowed) : i ∈ availableIndices host none := by
  cases allowed with
  | none => exact h
  | some a =>
      simp only [availableIndices, List.mem_filter] at h ⊢
      exact ⟨h.1.1, h.2⟩

/-! ## what a deployment needs -/

/-- `int(x or 1)` for a parallelism setting. -/
def parallelSize (x : Option Int) : Int :=
  match x with
  | none => 1
  | some n => if n = 0 then 1 else n

/-- GPUs a deployment needs. -/
def requiredGpuCount (d : Deployment) : Nat :=
  if d.spec.reservedGpuCount ≠ 0 then max 1 d.spec.reservedGpuCount
  else if d.spec.runtime.simulator.isSome || d.spec.runtime.cpuOnly then 0
  else
    let r := d.spec.runtime
    (max 1 (parallelSize r.tensorParallelSize * parallelSize r.pipelineParallelSize
      * parallelSize r.dataParallelSize)).toNat

/-- How many ways a deployment's weights are split; data parallelism replicates. -/
def weightShardCount (d : Deployment) : Int :=
  if d.spec.reservedGpuCount ≠ 0 then 1
  else max 1 (parallelSize d.spec.runtime.tensorParallelSize
    * parallelSize d.spec.runtime.pipelineParallelSize)

/-- The indices a deployment pins, `none` if it wants to be fitted.  An Ollama
daemon always pins, possibly to nothing. -/
def explicitIndices (d : Deployment) : Option (List Nat) :=
  if d.spec.engine = .ollama then some d.spec.gpuIndices
  else if d.spec.placement.gpuIndices ≠ [] then some d.spec.placement.gpuIndices
  else if d.spec.runtime.gpuIndices ≠ [] then some d.spec.runtime.gpuIndices
  else none

/-- The declared (or measured) VRAM requirement. -/
def declaredMinVram (d : Deployment) : ℚ := d.spec.placement.minVramGib.getD 0

/-- The per-GPU VRAM a deployment needs to be eligible, 0 for no constraint.  A
measurement is the real footprint and is not clamped by the weight floor. -/
def minVramPerGpu (d : Deployment) : ℚ :=
  let floor := d.spec.placement.floorVramGib.elim 0 (· / weightShardCount d)
  if d.spec.placement.minVramSource = some "measured" ∧ 0 < declaredMinVram d
  then declaredMinVram d
  else max (declaredMinVram d) floor

/-! ## plans -/

/-- Why a deployment could not be placed. -/
inductive PlacementFailure where
  /-- Explicit indices outside the pool, or in use. -/
  | explicit (invalid : List Nat) (pool : List Nat) (clash : List Nat)
  /-- Too few free GPUs for a deployment without a VRAM requirement. -/
  | firstFit (count available : Nat)
  /-- The pool can never satisfy it. -/
  | never (count : Nat) (gib : ℚ) (eligible : Nat)
  /-- Eligible GPUs exist but are busy. -/
  | busy (count : Nat) (gib : ℚ) (free : Nat)
  deriving DecidableEq

/-- An honoured pin or explicit index below the declared VRAM. -/
structure PlacementWarning where
  deployment : String
  pinned : Bool
  want : List Nat
  below : List Nat
  gib : ℚ
  deriving DecidableEq

/-- Result of placing a set of deployments. -/
structure GpuPlan where
  assignments : Holdings String Nat := ∅
  errors : List (String × PlacementFailure) := []
  warnings : List PlacementWarning := []
  /-- Hard allocations that are no longer valid; never placed anew. -/
  degraded : List String := []
  /-- Optional residents whose GPUs are needed or gone. -/
  displaced : List String := []
  deriving DecidableEq

/-- Admission-mode planner inputs. -/
structure PlacementInputs where
  requiredIds : List String := []
  hard : Dict String (List Nat) := ∅
  optionalHints : Dict String (List Nat) := ∅
  deriving DecidableEq

/-- Creation order, ids breaking ties. -/
def Deployment.before (a b : Deployment) : Prop :=
  a.createdAt < b.createdAt ∨ (a.createdAt = b.createdAt ∧ a.id ≤ b.id)

instance : DecidableRel Deployment.before := fun _ _ =>
  inferInstanceAs (Decidable (_ ∨ _))

/-- Deployments in creation order. -/
def sortedDeployments (ds : List Deployment) : List Deployment := ds.insertionSort Deployment.before

/-! ## the planning steps -/

namespace GpuPlan

/-- Give `d` the GPUs in `want`. -/
def place (p : GpuPlan) (d : Deployment) (want : List Nat) (h : p.assignments.Free want) :
    GpuPlan :=
  { p with assignments := p.assignments.grant d.id want h }

def fail (p : GpuPlan) (d : Deployment) (why : PlacementFailure) : GpuPlan :=
  { p with errors := p.errors ++ [(d.id, why)] }

/-- Warn when an honoured placement contradicts a declared requirement. -/
def warn (p : GpuPlan) (host : Host) (d : Deployment) (want : List Nat) (pinned : Bool) :
    GpuPlan :=
  let gib := minVramPerGpu d
  let below := want.filter fun i => host.memory i < gib
  if 0 < gib ∧ below ≠ [] then
    { p with warnings := p.warnings ++ [⟨d.id, pinned, want, below, gib⟩] }
  else p

end GpuPlan

/-- Validate a hard allocation; deployments without one are left alone. -/
def planHard (pinPool : List Nat) (hard : Dict String (List Nat)) (p : GpuPlan)
    (d : Deployment) : GpuPlan :=
  match hard.get? d.id with
  | none => p
  | some want =>
      if h : (∀ i ∈ want, i ∈ pinPool) ∧ p.assignments.Free want then p.place d want h.2
      else { p with degraded := p.degraded ++ [d.id] }

/-- Keep a soft pin that is still physically placeable. -/
def planPinned (host : Host) (pinPool : List Nat) (pinned : Dict String (List Nat))
    (p : GpuPlan) (d : Deployment) : GpuPlan :=
  match pinned.get? d.id with
  | none => p
  | some want =>
      if h : (∀ i ∈ want, i ∈ pinPool) ∧ p.assignments.Free want then
        (p.place d want h.2).warn host d want true
      else p

/-- Place a deployment at its explicit indices. -/
def planExplicit (host : Host) (pool : List Nat) (p : GpuPlan) (d : Deployment) : GpuPlan :=
  match explicitIndices d with
  | none => p
  | some want =>
      if h : want = [] then p.place d [] (by simp [Holdings.Free])
      else
        let invalid := want.filter (· ∉ pool)
        if hfree : p.assignments.Free want then
          if invalid = [] then (p.place d want hfree).warn host d want false
          else p.fail d (.explicit invalid (pool.insertionSort (· ≤ ·)) [])
        else
          let clash := (want.filter (· ∈ p.assignments.used)).eraseDups.insertionSort (· ≤ ·)
          p.fail d (.explicit invalid (pool.insertionSort (· ≤ ·)) clash)

/-- The GPUs a fitted deployment takes, or why it gets none.  Declaring a
requirement opts into best fit: the smallest eligible free GPUs. -/
def fitIndices (host : Host) (pool used : List Nat) (d : Deployment) :
    Except PlacementFailure (List Nat) :=
  let count := requiredGpuCount d
  let gib := minVramPerGpu d
  if gib ≤ 0 then
    let remaining := pool.filter (· ∉ used)
    if remaining.length < count then .error (.firstFit count remaining.length)
    else .ok (remaining.take count)
  else
    let eligible := pool.filter fun i => gib ≤ host.memory i
    if eligible.length < count then .error (.never count gib eligible.length)
    else
      let free := eligible.filter (· ∉ used)
      if free.length < count then .error (.busy count gib free.length)
      else if 0 < declaredMinVram d then
        let best := free.insertionSort fun i j =>
          host.memory i < host.memory j ∨ (host.memory i = host.memory j ∧ i ≤ j)
        .ok ((best.take count).insertionSort (· ≤ ·))
      else .ok (free.take count)

/-- Most constrained first: fewest eligible GPUs, then creation order. -/
def fitBefore (host : Host) (pool : List Nat) (a b : Deployment) : Prop :=
  let eligible := fun d => (pool.filter fun i => minVramPerGpu d ≤ host.memory i).length
  eligible a < eligible b ∨ (eligible a = eligible b ∧ a.before b)

instance (host : Host) (pool : List Nat) : DecidableRel (fitBefore host pool) := fun _ _ =>
  inferInstanceAs (Decidable (_ ∨ _))

theorem fitIndices_spec {host : Host} {pool used : List Nat} {d : Deployment} {xs : List Nat}
    (h : fitIndices host pool used d = .ok xs) : ∀ i ∈ xs, i ∈ pool ∧ i ∉ used := by
  intro i hi
  unfold fitIndices at h
  dsimp only at h
  split at h
  · split at h
    · contradiction
    · obtain rfl := Except.ok.inj h
      have hmem := List.mem_of_mem_take hi
      simpa using hmem
  · split at h
    · contradiction
    · split at h
      · contradiction
      · have hfree : ∀ j ∈ (pool.filter fun i => minVramPerGpu d ≤ host.memory i).filter
            (· ∉ used), j ∈ pool ∧ j ∉ used := by
          intro j hj
          simp only [List.mem_filter, decide_eq_true_eq] at hj
          exact ⟨hj.1.1, hj.2⟩
        split at h
        · obtain rfl := Except.ok.inj h
          rw [List.mem_insertionSort] at hi
          have hbest := List.mem_of_mem_take hi
          rw [List.mem_insertionSort] at hbest
          exact hfree i hbest
        · obtain rfl := Except.ok.inj h
          exact hfree i (List.mem_of_mem_take hi)

/-- Fit a deployment into what remains of the pool. -/
def planFit (host : Host) (pool : List Nat) (p : GpuPlan) (d : Deployment) : GpuPlan :=
  match h : fitIndices host pool p.assignments.used d with
  | .error why => p.fail d why
  | .ok indices => p.place d indices fun i hi => (fitIndices_spec h i hi).2

/-- An optional resident stays where it is, or yields. -/
def planOptional (pinPool : List Nat) (hints : Dict String (List Nat)) (p : GpuPlan)
    (d : Deployment) : GpuPlan :=
  match hints.get? d.id with
  | none => p
  | some want =>
      if h : (∀ i ∈ want, i ∈ pinPool) ∧ p.assignments.Free want then p.place d want h.2
      else { p with displaced := p.displaced ++ [d.id] }

/-- New placements: explicit indices, then fit, the most constrained first. -/
def planNew (host : Host) (pool : List Nat) (p : GpuPlan) (ds : List Deployment) : GpuPlan :=
  let p := ds.foldl (planExplicit host pool) p
  let fit := ds.filter fun d => explicitIndices d = none
  (fit.insertionSort (fitBefore host pool)).foldl (planFit host pool) p

/-- Assign GPUs to every deployment, or record why one gets none. -/
def planPlacement (host : Host) (allowedGpus : Option (List Nat))
    (pinned : Dict String (List Nat)) (inputs : Option PlacementInputs)
    (deployments : List Deployment) : GpuPlan :=
  let pool := availableIndices host allowedGpus
  let pinPool := availableIndices host none
  let ordered := sortedDeployments deployments
  match inputs with
  | some inputs =>
      let required := ordered.filter fun d =>
        inputs.hard.get? d.id = none ∧ d.id ∈ inputs.requiredIds
      let optional := ordered.filter fun d =>
        inputs.hard.get? d.id = none ∧ d.id ∉ inputs.requiredIds
      let p := ordered.foldl (planHard pinPool inputs.hard) {}
      let p := planNew host pool p required
      optional.foldl (planOptional pinPool inputs.optionalHints) p
  | none =>
      let p := ordered.foldl (planPinned host pinPool pinned) {}
      planNew host pool p (ordered.filter fun d => p.assignments.get? d.id = none)

/-! ## what each step changes -/

/-- A step that decides about its own deployment only, inside the pool, and
leaves the degraded list alone. -/
structure PlanStep (pinPool : List Nat) (step : GpuPlan → Deployment → GpuPlan) : Prop where
  other : ∀ p d g, g ≠ d.id → (step p d).assignments.get? g = p.assignments.get? g
  own : ∀ p d xs, (step p d).assignments.get? d.id = some xs →
    p.assignments.get? d.id = some xs ∨ ∀ i ∈ xs, i ∈ pinPool
  degraded : ∀ p d, (step p d).degraded = p.degraded

namespace GpuPlan

@[simp] theorem get?_place {p : GpuPlan} {d : Deployment} {want : List Nat}
    (h : p.assignments.Free want) (g : String) :
    (p.place d want h).assignments.get? g =
      if g = d.id then some want else p.assignments.get? g := by
  unfold place
  exact Holdings.get?_grant h g

@[simp] theorem assignments_warn (p : GpuPlan) (host : Host) (d : Deployment) (want : List Nat)
    (pinned : Bool) : (p.warn host d want pinned).assignments = p.assignments := by
  unfold warn
  dsimp only
  split <;> rfl

@[simp] theorem degraded_warn (p : GpuPlan) (host : Host) (d : Deployment) (want : List Nat)
    (pinned : Bool) : (p.warn host d want pinned).degraded = p.degraded := by
  unfold warn
  dsimp only
  split <;> rfl

end GpuPlan

/-- A step that leaves the assignments alone or places inside the pool. -/
theorem PlanStep.of_place {pinPool : List Nat} {step : GpuPlan → Deployment → GpuPlan}
    (h : ∀ p d, (step p d).degraded = p.degraded ∧
      ((step p d).assignments = p.assignments ∨ ∃ want hfree, (∀ i ∈ want, i ∈ pinPool) ∧
        (step p d).assignments = (p.place d want hfree).assignments)) :
    PlanStep pinPool step := by
  constructor
  · intro p d g hg
    cases (h p d).2 with
    | inl hsame => rw [hsame]
    | inr hplaced =>
        obtain ⟨want, hfree, -, heq⟩ := hplaced
        rw [heq, GpuPlan.get?_place, if_neg hg]
  · intro p d xs hxs
    cases (h p d).2 with
    | inl hsame => rw [hsame] at hxs; exact .inl hxs
    | inr hplaced =>
        obtain ⟨want, hfree, hin, heq⟩ := hplaced
        rw [heq, GpuPlan.get?_place, if_pos rfl] at hxs
        obtain rfl := Option.some.inj hxs
        exact .inr hin
  · exact fun p d => (h p d).1

theorem planExplicit_step {host : Host} {pool pinPool : List Nat}
    (hpool : ∀ i ∈ pool, i ∈ pinPool) : PlanStep pinPool (planExplicit host pool) := by
  refine .of_place fun p d => ?_
  unfold planExplicit
  cases explicitIndices d with
  | none => exact ⟨rfl, .inl rfl⟩
  | some want =>
      dsimp only
      by_cases hnil : want = []
      · rw [dif_pos hnil]
        exact ⟨rfl, .inr ⟨[], by simp [Holdings.Free], by simp, rfl⟩⟩
      · rw [dif_neg hnil]
        by_cases hfree : p.assignments.Free want
        · rw [dif_pos hfree]
          by_cases hvalid : want.filter (· ∉ pool) = []
          · rw [if_pos hvalid]
            have hin : ∀ i ∈ want, i ∈ pinPool := by
              intro i hi
              have hnot := List.filter_eq_nil_iff.mp hvalid i hi
              exact hpool i (by simpa using hnot)
            exact ⟨by simp [GpuPlan.place], .inr ⟨want, hfree, hin, by simp⟩⟩
          · rw [if_neg hvalid]
            exact ⟨rfl, .inl rfl⟩
        · rw [dif_neg hfree]
          exact ⟨rfl, .inl rfl⟩

theorem planFit_step {host : Host} {pool pinPool : List Nat}
    (hpool : ∀ i ∈ pool, i ∈ pinPool) : PlanStep pinPool (planFit host pool) := by
  refine .of_place fun p d => ?_
  unfold planFit
  split
  · exact ⟨rfl, .inl rfl⟩
  · rename_i xs hfit
    have hspec := fitIndices_spec hfit
    exact ⟨rfl, .inr ⟨xs, fun i hi => (hspec i hi).2, fun i hi => hpool i (hspec i hi).1, rfl⟩⟩

theorem planOptional_step {pinPool : List Nat} {hints : Dict String (List Nat)} :
    PlanStep pinPool (planOptional pinPool hints) := by
  refine .of_place fun p d => ?_
  unfold planOptional
  cases hints.get? d.id with
  | none => exact ⟨rfl, .inl rfl⟩
  | some want =>
      dsimp only
      by_cases hvalid : (∀ i ∈ want, i ∈ pinPool) ∧ p.assignments.Free want
      · rw [dif_pos hvalid]
        exact ⟨rfl, .inr ⟨want, hvalid.2, hvalid.1, rfl⟩⟩
      · rw [dif_neg hvalid]
        exact ⟨rfl, .inl rfl⟩

namespace PlanStep

variable {pinPool : List Nat} {step : GpuPlan → Deployment → GpuPlan}

/-- A layer of plan steps decides about its own deployments only. -/
theorem foldl_other (h : PlanStep pinPool step) {ds : List Deployment} {p : GpuPlan} {g : String}
    (hg : g ∉ ds.map Deployment.id) :
    (ds.foldl step p).assignments.get? g = p.assignments.get? g := by
  induction ds generalizing p with
  | nil => rfl
  | cons d ds ih =>
      simp only [List.map_cons, List.mem_cons, not_or] at hg
      rw [List.foldl_cons, ih hg.2, h.other p d g hg.1]

theorem foldl_degraded (h : PlanStep pinPool step) {ds : List Deployment} {p : GpuPlan} :
    (ds.foldl step p).degraded = p.degraded := by
  induction ds generalizing p with
  | nil => rfl
  | cons d ds ih => rw [List.foldl_cons, ih, h.degraded]

/-- What a layer assigns lies in the pool, if what it started from does. -/
theorem foldl_pool (h : PlanStep pinPool step) {ds : List Deployment} {p : GpuPlan}
    (hp : ∀ g xs, p.assignments.get? g = some xs → ∀ i ∈ xs, i ∈ pinPool) :
    ∀ g xs, (ds.foldl step p).assignments.get? g = some xs → ∀ i ∈ xs, i ∈ pinPool := by
  induction ds generalizing p with
  | nil => exact hp
  | cons d ds ih =>
      refine ih fun g xs hxs => ?_
      by_cases hg : g = d.id
      · rw [hg] at hxs
        cases h.own p d xs hxs with
        | inl hold => exact hp d.id xs hold
        | inr hin => exact hin
      · rw [h.other p d g hg] at hxs
        exact hp g xs hxs

end PlanStep

theorem planNew_other {host : Host} {pool : List Nat} {p : GpuPlan} {ds : List Deployment}
    {g : String} (hg : g ∉ ds.map Deployment.id) :
    (planNew host pool p ds).assignments.get? g = p.assignments.get? g := by
  have hself : ∀ i ∈ pool, i ∈ pool := fun _ hi => hi
  have hfit : g ∉ ((ds.filter fun d => explicitIndices d = none).insertionSort
      (fitBefore host pool)).map Deployment.id := by
    intro hmem
    obtain ⟨d, hd, rfl⟩ := List.mem_map.mp hmem
    rw [List.mem_insertionSort] at hd
    exact hg (List.mem_map_of_mem (List.mem_filter.mp hd).1)
  unfold planNew
  rw [(planFit_step hself).foldl_other hfit, (planExplicit_step hself).foldl_other hg]

theorem planNew_degraded {host : Host} {pool : List Nat} {p : GpuPlan} {ds : List Deployment} :
    (planNew host pool p ds).degraded = p.degraded := by
  have hself : ∀ i ∈ pool, i ∈ pool := fun _ hi => hi
  unfold planNew
  rw [(planFit_step hself).foldl_degraded, (planExplicit_step hself).foldl_degraded]

theorem planNew_pool {host : Host} {pool pinPool : List Nat} (hpool : ∀ i ∈ pool, i ∈ pinPool)
    {p : GpuPlan} {ds : List Deployment}
    (hp : ∀ g xs, p.assignments.get? g = some xs → ∀ i ∈ xs, i ∈ pinPool) :
    ∀ g xs, (planNew host pool p ds).assignments.get? g = some xs → ∀ i ∈ xs, i ∈ pinPool :=
  (planFit_step hpool).foldl_pool ((planExplicit_step hpool).foldl_pool hp)

/-! ## the hard layer -/

/-- The hard layer keeps an allocation, or reports it. -/
theorem planHard_cases (pinPool : List Nat) (hard : Dict String (List Nat)) (p : GpuPlan)
    (d : Deployment) :
    (hard.get? d.id = none ∧ planHard pinPool hard p d = p) ∨
      ∃ want, hard.get? d.id = some want ∧
        ((∃ h : p.assignments.Free want, (∀ i ∈ want, i ∈ pinPool) ∧
            planHard pinPool hard p d = p.place d want h) ∨
          (¬ ((∀ i ∈ want, i ∈ pinPool) ∧ p.assignments.Free want) ∧
            planHard pinPool hard p d = { p with degraded := p.degraded ++ [d.id] })) := by
  unfold planHard
  cases hw : hard.get? d.id with
  | none => exact .inl ⟨rfl, rfl⟩
  | some want =>
      dsimp only
      refine .inr ⟨want, rfl, ?_⟩
      by_cases hvalid : (∀ i ∈ want, i ∈ pinPool) ∧ p.assignments.Free want
      · exact .inl ⟨hvalid.2, hvalid.1, by rw [dif_pos hvalid]⟩
      · exact .inr ⟨hvalid, by rw [dif_neg hvalid]⟩

/-- What the hard layer has decided after some deployments: each is assigned
its allocation or degraded, and nothing else is assigned. -/
structure HardLayer (pinPool : List Nat) (hard : Dict String (List Nat)) (done : List Deployment)
    (p : GpuPlan) : Prop where
  assigned : ∀ g xs, p.assignments.get? g = some xs →
    hard.get? g = some xs ∧ g ∈ done.map Deployment.id ∧ ∀ i ∈ xs, i ∈ pinPool
  decided : ∀ d ∈ done, ∀ xs, hard.get? d.id = some xs →
    p.assignments.get? d.id = some xs ∨ d.id ∈ p.degraded
  degraded : ∀ g ∈ p.degraded, (∃ xs, hard.get? g = some xs) ∧ g ∈ done.map Deployment.id ∧
    p.assignments.get? g = none

theorem HardLayer.nil {pinPool : List Nat} {hard : Dict String (List Nat)} :
    HardLayer pinPool hard [] {} := ⟨by simp, by simp, by simp⟩

theorem HardLayer.snoc {pinPool : List Nat} {hard : Dict String (List Nat)}
    {done : List Deployment} {p : GpuPlan} (h : HardLayer pinPool hard done p) {d : Deployment}
    (hnew : d.id ∉ done.map Deployment.id) :
    HardLayer pinPool hard (done ++ [d]) (planHard pinPool hard p d) := by
  have hmem : ∀ g, g ∈ (done ++ [d]).map Deployment.id ↔ g ∈ done.map Deployment.id ∨ g = d.id := by
    simp
  have hfresh : p.assignments.get? d.id = none := by
    cases hget : p.assignments.get? d.id with
    | none => rfl
    | some xs => exact absurd (h.assigned d.id xs hget).2.1 hnew
  cases planHard_cases pinPool hard p d with
  | inl hnone =>
      rw [hnone.2]
      constructor
      · intro g xs hg
        have hold := h.assigned g xs hg
        exact ⟨hold.1, (hmem g).mpr (.inl hold.2.1), hold.2.2⟩
      · intro e he xs hxs
        cases List.mem_append.mp he with
        | inl hin => exact h.decided e hin xs hxs
        | inr hlast =>
            rw [List.mem_singleton.mp hlast, hnone.1] at hxs
            contradiction
      · intro g hg
        have hold := h.degraded g hg
        exact ⟨hold.1, (hmem g).mpr (.inl hold.2.1), hold.2.2⟩
  | inr hsome =>
      obtain ⟨want, hwant, hres⟩ := hsome
      cases hres with
      | inl hkept =>
          obtain ⟨hfree, hin, heq⟩ := hkept
          rw [heq]
          constructor
          · intro g xs hg
            rw [GpuPlan.get?_place] at hg
            by_cases hgd : g = d.id
            · rw [if_pos hgd] at hg
              obtain rfl := Option.some.inj hg
              exact ⟨by rw [hgd]; exact hwant, (hmem g).mpr (.inr hgd), hin⟩
            · rw [if_neg hgd] at hg
              have hold := h.assigned g xs hg
              exact ⟨hold.1, (hmem g).mpr (.inl hold.2.1), hold.2.2⟩
          · intro e he xs hxs
            rw [GpuPlan.get?_place]
            by_cases hed : e.id = d.id
            · rw [if_pos hed]
              rw [hed, hwant] at hxs
              exact .inl hxs
            · rw [if_neg hed]
              cases List.mem_append.mp he with
              | inl hold => exact h.decided e hold xs hxs
              | inr hlast => exact absurd (by rw [List.mem_singleton.mp hlast]) hed
          · intro g hg
            have hold := h.degraded g hg
            have hgd : g ≠ d.id := fun heq => hnew (heq ▸ hold.2.1)
            rw [GpuPlan.get?_place, if_neg hgd]
            exact ⟨hold.1, (hmem g).mpr (.inl hold.2.1), hold.2.2⟩
      | inr hdegraded =>
          obtain ⟨-, heq⟩ := hdegraded
          rw [heq]
          constructor
          · intro g xs hg
            have hold := h.assigned g xs hg
            exact ⟨hold.1, (hmem g).mpr (.inl hold.2.1), hold.2.2⟩
          · intro e he xs hxs
            cases List.mem_append.mp he with
            | inl hold =>
                cases h.decided e hold xs hxs with
                | inl hget => exact .inl hget
                | inr hdeg => exact .inr (List.mem_append_left _ hdeg)
            | inr hlast =>
                rw [List.mem_singleton.mp hlast]
                exact .inr (List.mem_append_right _ (List.mem_singleton.mpr rfl))
          · intro g hg
            cases List.mem_append.mp hg with
            | inl hold =>
                have hrow := h.degraded g hold
                exact ⟨hrow.1, (hmem g).mpr (.inl hrow.2.1), hrow.2.2⟩
            | inr hlast =>
                rw [List.mem_singleton.mp hlast]
                exact ⟨⟨want, hwant⟩, (hmem d.id).mpr (.inr rfl), hfresh⟩

/-- The hard layer over deployments with distinct ids. -/
theorem hardLayer_foldl (pinPool : List Nat) (hard : Dict String (List Nat))
    {ds : List Deployment} (hnodup : (ds.map Deployment.id).Nodup) :
    HardLayer pinPool hard ds (ds.foldl (planHard pinPool hard) {}) := by
  have hgen : ∀ rest done p, HardLayer pinPool hard done p →
      ((done ++ rest).map Deployment.id).Nodup →
      HardLayer pinPool hard (done ++ rest) (rest.foldl (planHard pinPool hard) p) := by
    intro rest
    induction rest with
    | nil => intro done p hp _; simpa using hp
    | cons d rest ih =>
        intro done p hp hnd
        have hassoc : done ++ d :: rest = done ++ [d] ++ rest := by simp
        have hnew : d.id ∉ done.map Deployment.id := by
          rw [List.map_append, List.map_cons] at hnd
          intro hin
          exact (List.nodup_append.mp hnd).2.2 _ hin _ List.mem_cons_self rfl
        rw [hassoc] at hnd ⊢
        exact ih _ _ (hp.snoc hnew) hnd
  exact hgen ds [] {} .nil (by simpa using hnodup)

/-- Why the hard layer degraded a deployment: its GPUs are gone, or an earlier
one holds some of them. -/
theorem degraded_hard {pinPool : List Nat} {hard : Dict String (List Nat)}
    {ds : List Deployment} (hnodup : (ds.map Deployment.id).Nodup) {g : String}
    (hg : g ∈ (ds.foldl (planHard pinPool hard) {}).degraded) :
    ∃ pre d post want, ds = pre ++ d :: post ∧ d.id = g ∧ hard.get? g = some want ∧
      ((∃ i ∈ want, i ∉ pinPool) ∨
        ∃ e ∈ pre, ∃ xs, hard.get? e.id = some xs ∧ ∃ i ∈ want, i ∈ xs) := by
  induction ds using List.reverseRecOn with
  | nil => simp at hg
  | append_singleton ds d ih =>
      have hnodup' : (ds.map Deployment.id).Nodup := by
        rw [List.map_append] at hnodup
        exact (List.nodup_append.mp hnodup).1
      have hlayer : HardLayer pinPool hard ds _ := hardLayer_foldl pinPool hard hnodup'
      have hold : g ∈ (ds.foldl (planHard pinPool hard) {}).degraded → ∃ pre d' post want,
          ds ++ [d] = pre ++ d' :: post ∧ d'.id = g ∧ hard.get? g = some want ∧
          ((∃ i ∈ want, i ∉ pinPool) ∨
            ∃ e ∈ pre, ∃ xs, hard.get? e.id = some xs ∧ ∃ i ∈ want, i ∈ xs) := by
        intro hin
        obtain ⟨pre, d', post, want, hds, hrest⟩ := ih hnodup' hin
        exact ⟨pre, d', post ++ [d], want, by rw [hds]; simp, hrest⟩
      rw [List.foldl_append, List.foldl_cons, List.foldl_nil] at hg
      cases planHard_cases pinPool hard (ds.foldl (planHard pinPool hard) {}) d with
      | inl hnone =>
          rw [hnone.2] at hg
          exact hold hg
      | inr hsome =>
          obtain ⟨want, hwant, hres⟩ := hsome
          cases hres with
          | inl hkept =>
              obtain ⟨hfree, -, heq⟩ := hkept
              rw [heq] at hg
              exact hold hg
          | inr hdegraded =>
              obtain ⟨hinvalid, heq⟩ := hdegraded
              rw [heq] at hg
              cases List.mem_append.mp hg with
              | inl hin => exact hold hin
              | inr hlast =>
                  obtain rfl := List.mem_singleton.mp hlast
                  refine ⟨ds, d, [], want, rfl, rfl, hwant, ?_⟩
                  by_cases hpool : ∀ i ∈ want, i ∈ pinPool
                  · right
                    have hused : ∃ i ∈ want, i ∈ (ds.foldl (planHard pinPool hard) {}).assignments.used := by
                      have hnotfree : ¬ (ds.foldl (planHard pinPool hard) {}).assignments.Free want :=
                        fun hfree => hinvalid ⟨hpool, hfree⟩
                      simpa [Holdings.Free] using hnotfree
                    obtain ⟨i, hi, hiused⟩ := hused
                    obtain ⟨e, xs, hxs, hix⟩ := Holdings.mem_used.mp hiused
                    obtain ⟨hhard, hmem, -⟩ := hlayer.assigned e xs hxs
                    obtain ⟨e', he', rfl⟩ := List.mem_map.mp hmem
                    exact ⟨e', he', xs, hhard, i, hi, hix⟩
                  · left
                    simpa using hpool

/-! ## a plan in admission mode -/

theorem mem_sortedDeployments {ds : List Deployment} {d : Deployment} :
    d ∈ sortedDeployments ds ↔ d ∈ ds := List.mem_insertionSort _

theorem nodup_sortedDeployments {ds : List Deployment} (h : (ds.map Deployment.id).Nodup) :
    ((sortedDeployments ds).map Deployment.id).Nodup :=
  ((List.perm_insertionSort Deployment.before ds).map Deployment.id).nodup_iff.mpr h

instance : Std.Total Deployment.before where
  total a b := by
    unfold Deployment.before
    cases le_total a.id b.id with
    | inl hid =>
        by_cases heq : a.createdAt = b.createdAt
        · simp [heq, hid]
        · simp only [heq]
          omega
    | inr hid =>
        by_cases heq : a.createdAt = b.createdAt
        · simp [heq, hid]
        · simp only [heq]
          omega

instance : IsTrans Deployment Deployment.before where
  trans a b c hab hbc := by
    unfold Deployment.before at *
    rcases hab with hab | hab <;> rcases hbc with hbc | hbc
    · left; omega
    · left; omega
    · left; omega
    · exact .inr ⟨hab.1.trans hbc.1, hab.2.trans hbc.2⟩

theorem pairwise_sortedDeployments (ds : List Deployment) :
    (sortedDeployments ds).Pairwise Deployment.before :=
  List.pairwise_insertionSort _ _

/-- What a plan in admission mode does with the hard allocations. -/
structure AdmissionPlan (host : Host) (hard : Dict String (List Nat)) (ds : List Deployment)
    (p : GpuPlan) : Prop where
  /-- A hard allocation is kept as it is, or reported. -/
  kept : ∀ d ∈ ds, ∀ want, hard.get? d.id = some want →
    p.assignments.get? d.id = some want ∨ d.id ∈ p.degraded
  /-- It is reported when its GPUs are gone or an older deployment holds some. -/
  degraded : ∀ g ∈ p.degraded, ∃ d ∈ ds, d.id = g ∧ ∃ want, hard.get? g = some want ∧
    ((∃ i ∈ want, i ∉ availableIndices host none) ∨
      ∃ e ∈ ds, e.before d ∧ e.id ≠ d.id ∧ ∃ xs, hard.get? e.id = some xs ∧ ∃ i ∈ want, i ∈ xs)
  pool : ∀ g xs, p.assignments.get? g = some xs → ∀ i ∈ xs, i ∈ availableIndices host none

theorem planPlacement_admission (host : Host) (allowedGpus : Option (List Nat))
    (pinned : Dict String (List Nat)) (inputs : PlacementInputs) {ds : List Deployment}
    (hnodup : (ds.map Deployment.id).Nodup) :
    AdmissionPlan host inputs.hard ds (planPlacement host allowedGpus pinned (some inputs) ds) := by
  have hsorted := nodup_sortedDeployments hnodup
  have hpool : ∀ i ∈ availableIndices host allowedGpus, i ∈ availableIndices host none :=
    fun i hi => mem_availableIndices_none hi
  have hlayer := hardLayer_foldl (availableIndices host none) inputs.hard hsorted
  -- the later layers take no deployment that has a hard allocation
  have hlater : ∀ (sel : Deployment → Bool) g want, inputs.hard.get? g = some want →
      g ∉ ((sortedDeployments ds).filter fun d =>
        inputs.hard.get? d.id = none ∧ sel d).map Deployment.id := by
    intro sel g want hwant hmem
    obtain ⟨d, hd, rfl⟩ := List.mem_map.mp hmem
    have hnone := (List.mem_filter.mp hd).2
    simp [hwant] at hnone
  have hassigned : ∀ g want, inputs.hard.get? g = some want →
      (planPlacement host allowedGpus pinned (some inputs) ds).assignments.get? g =
        ((sortedDeployments ds).foldl (planHard (availableIndices host none) inputs.hard)
          {}).assignments.get? g := by
    intro g want hwant
    unfold planPlacement
    dsimp only
    rw [planOptional_step.foldl_other (by simpa using hlater (fun d => d.id ∉ inputs.requiredIds) g want hwant),
      planNew_other (by simpa using hlater (fun d => d.id ∈ inputs.requiredIds) g want hwant)]
  have hdegraded : (planPlacement host allowedGpus pinned (some inputs) ds).degraded =
      ((sortedDeployments ds).foldl (planHard (availableIndices host none) inputs.hard)
        {}).degraded := by
    unfold planPlacement
    dsimp only
    rw [planOptional_step.foldl_degraded, planNew_degraded]
  constructor
  · intro d hd want hwant
    rw [hassigned d.id want hwant, hdegraded]
    exact hlayer.decided d (mem_sortedDeployments.mpr hd) want hwant
  · intro g hg
    rw [hdegraded] at hg
    obtain ⟨pre, d, post, want, hds, rfl, hwant, hwhy⟩ := degraded_hard hsorted hg
    have hmem : d ∈ sortedDeployments ds := by rw [hds]; simp
    refine ⟨d, mem_sortedDeployments.mp hmem, rfl, want, hwant, ?_⟩
    cases hwhy with
    | inl hgone => exact .inl hgone
    | inr hheld =>
        obtain ⟨e, he, xs, hxs, hoverlap⟩ := hheld
        have hemem : e ∈ sortedDeployments ds := by rw [hds]; simp [he]
        have hpair := pairwise_sortedDeployments ds
        rw [hds, List.pairwise_append] at hpair
        have hbefore := hpair.2.2 e he d List.mem_cons_self
        rw [hds, List.map_append, List.map_cons] at hsorted
        have hne := (List.nodup_append.mp hsorted).2.2 e.id (List.mem_map_of_mem he) d.id
          List.mem_cons_self
        exact .inr ⟨e, mem_sortedDeployments.mp hemem, hbefore, hne, xs, hxs, hoverlap⟩
  · unfold planPlacement
    dsimp only
    exact planOptional_step.foldl_pool (planNew_pool hpool fun g xs hxs => (hlayer.assigned g xs hxs).2.2)

end InferStack
