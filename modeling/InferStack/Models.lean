import InferStack.Kit.Ordered
import Mathlib.Data.String.Basic
import Mathlib.Data.Rat.Defs
import Mathlib.Algebra.Order.Ring.Rat

/-!
# InferStack.Models

The data model of the leasing ledger: endpoint requests (what a caller asks
for), leases (who asks, until when) and deployments (what is realized).

Deployments are shared through two separate tests: the compatibility key, a
pure structural identity, and capacity subsumption (`capacitySatisfies`).
The key is a digest of canonical JSON in the source; here it is the data
digested, with the unordered parts sorted, so equal keys are equal structures.

Times are integer ticks of one clock; VRAM is counted in rational GiB.
-/

namespace InferStack

open Kit

/-! ## lifecycle states -/

/-- Lifecycle states of a lease. -/
inductive LeaseState where
  | active
  | expired
  | released
  deriving DecidableEq, Repr

/-- Lifecycle states of a deployment.  `reclaiming` is reserved by the source
and never written by the ledger. -/
inductive DeploymentState where
  | live
  | idle
  | reclaiming
  | stopped
  deriving DecidableEq, Repr

/-- The sharing policy of a request.  The catalog passes any other word on. -/
inductive Sharing where
  | shared
  | dedicated
  | other (mode : String)
  deriving DecidableEq, Repr

/-- The serving engines; `reserved` holds GPUs without launching a server. -/
inductive Engine where
  | vllm
  | ollama
  | reserved
  deriving DecidableEq, Repr

/-! ## what a process is: runtime, placement, spec -/

/-- A name in `runtime.env`.  YAML reads unquoted `true` or `null` as a boolean
or a null, which pass the name check as their Python spelling. -/
inductive EnvKey where
  | text (s : String)
  | bool (b : Bool)
  | null
  deriving DecidableEq, Repr

/-- `str(key)`: what the renderer writes. -/
def EnvKey.str : EnvKey → String
  | .text s => s
  | .bool true => "True"
  | .bool false => "False"
  | .null => "None"

/-- The key as JSON writes it: what the store reads back. -/
def EnvKey.json : EnvKey → String
  | .text s => s
  | .bool true => "true"
  | .bool false => "false"
  | .null => "null"

/-- A value in `runtime.env` or `runtime.mounts`; a float is the text Python
writes for it. -/
inductive EnvValue where
  | text (s : String)
  | int (n : Int)
  | bool (b : Bool)
  deriving DecidableEq, Repr

/-- How an env value is written (`env_string`). -/
def EnvValue.envString : EnvValue → String
  | .text s => s
  | .int n => toString n
  | .bool b => if b then "true" else "false"

/-- `str(value)`. -/
def EnvValue.str : EnvValue → String
  | .text s => s
  | .int n => toString n
  | .bool b => if b then "True" else "False"

/-- A value in a simulator block. -/
inductive SimValue where
  | null
  | bool (b : Bool)
  | text (s : String)
  | list (items : List String)
  deriving DecidableEq, Repr

/-- The `simulator` block of a runtime: which simulator stands in for vLLM, and
its flags. -/
structure Simulator where
  kind : String := "llm-d-sim"
  model : Option String := none
  flags : Dict String SimValue := ∅
  extraArgs : List String := []
  deriving DecidableEq

/-- The `runtime` mapping of an endpoint; a missing key is `none` (or empty). -/
structure Runtime where
  tensorParallelSize : Option Int := none
  pipelineParallelSize : Option Int := none
  dataParallelSize : Option Int := none
  image : Option String := none
  chatTemplate : Option String := none
  trustRemoteCode : Bool := false
  loraAdapters : List String := []
  attentionBackend : Option String := none
  maxModelLen : Option Int := none
  gpuMemoryUtilization : Option ℚ := none
  maxNumBatchedTokens : Option Int := none
  maxNumSeqs : Option Int := none
  enablePrefixCaching : Bool := false
  simulator : Option Simulator := none
  cpuOnly : Bool := false
  gpuIndices : List Nat := []
  command : List String := []
  env : Dict EnvKey EnvValue := ∅
  mounts : Dict String EnvValue := ∅
  extraArgs : List String := []
  shmSize : Option String := none
  resourceProfile : Option String := none
  minReplicas : Option Int := none
  maxReplicas : Option Int := none
  deriving DecidableEq

/-- The `placement` block of a spec. -/
structure Placement where
  gpuIndices : List Nat := []
  minVramGib : Option ℚ := none
  floorVramGib : Option ℚ := none
  minVramSource : Option String := none
  deriving DecidableEq

/-- The settings of an Ollama daemon. -/
structure OllamaSettings where
  keepAlive : Option String := none
  numParallel : Option Int := none
  maxLoadedModels : Option Int := none
  contextLength : Option Int := none
  deriving DecidableEq

/-- The host-realization payload the backend starts a process from. -/
structure Spec where
  engine : Engine := .vllm
  hfModelId : Option String := none
  servedModelName : Option String := none
  revision : Option String := none
  quantization : Option String := none
  dtype : Option String := none
  runtime : Runtime := {}
  reclaim : Option String := none
  placement : Placement := {}
  reservedGpuCount : Nat := 0
  host : Option String := none
  image : Option String := none
  gpuIndices : List Nat := []
  settings : OllamaSettings := {}
  modelStore : Option String := none
  deriving DecidableEq

/-- The per-endpoint payload in a deployment's `served` map. -/
structure Served where
  servedModelName : Option String := none
  hfModelId : Option String := none
  protocol : Option String := none
  maxInputTokens : Option Int := none
  model : Option String := none
  deriving DecidableEq

/-- Whether `json.dumps(sort_keys=True)` can order these keys: Python compares
neither text with booleans nor anything with null. -/
def EnvKey.sortable (keys : List EnvKey) : Bool :=
  keys.all (fun | .text _ => true | _ => false) || keys.all (fun | .bool _ => true | _ => false)
    || keys.length ≤ 1

/-- `runtime.env` as the store reads it back: `json.dumps(sort_keys=True)` puts
the names in order, and spells them its own way. -/
def storedEnv (env : Dict EnvKey EnvValue) : Dict EnvKey EnvValue :=
  Table.ofList ((Dict.sortEntries (env.rows.map fun kv => (kv.1.json, kv.2))).map
    fun kv => (.text kv.1, kv.2))

/-- The spec as the store reads it back. -/
def Spec.stored (s : Spec) : Spec :=
  { s with runtime := { s.runtime with
      env := storedEnv s.runtime.env
      mounts := s.runtime.mounts.sorted
      simulator := s.runtime.simulator.map fun sim => { sim with flags := sim.flags.sorted } } }

/-! ## structural identity -/

/-- The launch fields that are part of a process's identity, in canonical
order. -/
structure LaunchIdentity where
  command : List String := []
  env : Dict String String := ∅
  mounts : Dict String String := ∅
  extraArgs : List String := []
  deriving DecidableEq

/-- The structural fields of a request, one shape per engine. -/
inductive Structural where
  | vllm (modelRef : String) (revision quantization dtype : Option String)
      (tensorParallelSize pipelineParallelSize dataParallelSize : Int)
      (image chatTemplate : Option String) (trustRemoteCode : Bool)
      (loraAdapters : List String) (attentionBackend : Option String)
      (servedName : String) (gpuIndices : List Nat) (launch : LaunchIdentity)
  | ollama (host : String) (gpuIndices : List Nat) (keepAlive : Option String)
      (numParallel maxLoadedModels : Option Int) (modelStore : Option String)
  | reserved (reservedGpuCount : Nat)
  deriving DecidableEq

/-- The identity of deployments that may be shared: engine and structure. -/
structure CompatKey where
  engine : Engine
  structural : Structural
  deriving DecidableEq

/-- Engine capacities by name; the catalog records `max_model_len`. -/
abbrev Capacity := Dict String Int

/-- Whether an existing deployment's capacity covers a request: every capacity
the request names must be recorded, and at least as large. -/
def capacitySatisfies (existing requested : Capacity) : Bool :=
  requested.rows.all fun (key, need) =>
    match existing.get? key with
    | none => false
    | some got => decide (need ≤ got)

theorem capacitySatisfies_iff {existing requested : Capacity} :
    capacitySatisfies existing requested ↔
      ∀ key need, (key, need) ∈ requested →
        ∃ got, existing.get? key = some got ∧ need ≤ got := by
  unfold capacitySatisfies
  rw [List.all_eq_true]
  constructor
  · intro h key need hmem
    have hrow := h (key, need) hmem
    cases hget : existing.get? key with
    | none => simp [hget] at hrow
    | some got => exact ⟨got, rfl, by simpa [hget] using hrow⟩
  · rintro h ⟨key, need⟩ hmem
    obtain ⟨got, hget, hle⟩ := h key need hmem
    simp [hget, hle]

/-! ## requests, leases, deployments -/

/-- A catalog-resolved request for one served endpoint. -/
structure EndpointRequest where
  endpoint : String
  engine : Engine
  structural : Structural
  capacity : Capacity := ∅
  sharing : Sharing := .shared
  spec : Spec := {}
  served : Served := {}
  host : Option String := none
  deriving DecidableEq

/-- The compatibility key of a request. -/
def EndpointRequest.compatKey (r : EndpointRequest) : CompatKey := ⟨r.engine, r.structural⟩

/-- A lease row as stored. -/
structure Lease where
  id : String
  owner : String
  state : LeaseState
  createdAt : Int
  ttlSeconds : Option Int
  expiresAt : Option Int
  heartbeatAt : Int
  deriving DecidableEq

/-- Whether an expiry has passed at `now`; a standing lease never expires. -/
def pastExpiry (expiresAt : Option Int) (now : Int) : Bool :=
  match expiresAt with
  | none => false
  | some e => decide (e ≤ now)

theorem pastExpiry_mono {e : Option Int} {now now' : Int} (h : now ≤ now')
    (hp : pastExpiry e now) : pastExpiry e now' := by
  cases e with
  | none => simp [pastExpiry] at hp
  | some e => simp only [pastExpiry, decide_eq_true_eq] at hp ⊢; omega

/-- A lease protects its deployments while it is ACTIVE and not past its TTL. -/
def Lease.isProtecting (l : Lease) (now : Int) : Bool :=
  l.state = .active && !pastExpiry l.expiresAt now

theorem Lease.isProtecting_anti {l : Lease} {now now' : Int} (h : now ≤ now')
    (hp : l.isProtecting now') : l.isProtecting now := by
  unfold isProtecting at hp ⊢
  cases he : pastExpiry l.expiresAt now with
  | false => simp_all
  | true => simp [pastExpiry_mono h he] at hp

/-- The row in another state. -/
def Lease.withState (l : Lease) (state : LeaseState) : Lease := { l with state := state }

/-- The row with a new TTL window, ACTIVE. -/
def Lease.renewed (l : Lease) (ttlSeconds expiresAt : Option Int) (heartbeatAt : Int) : Lease :=
  { l with
    state := .active, ttlSeconds := ttlSeconds, expiresAt := expiresAt
    heartbeatAt := heartbeatAt }

@[simp] theorem Lease.withState_id (l : Lease) (state : LeaseState) :
    (l.withState state).id = l.id := rfl

@[simp] theorem Lease.renewed_id (l : Lease) (ttl expiresAt : Option Int) (t : Int) :
    (l.renewed ttl expiresAt t).id = l.id := rfl

/-- A deployment row.  `assignedGpus` is the committed allocation of a LIVE
deployment, `none` when it is not LIVE or predates allocations. -/
structure Deployment where
  id : String
  compatKey : CompatKey
  engine : Engine
  sharing : Sharing
  capacity : Capacity
  spec : Spec
  served : Dict String Served
  state : DeploymentState
  createdAt : Int
  updatedAt : Int
  assignedGpus : Option (List Nat) := none
  deriving DecidableEq

namespace Deployment

/-- The row as the store reads it back. -/
def stored (d : Deployment) : Deployment := { d with spec := d.spec.stored }

/-- The row in another state.  Leaving LIVE releases the committed allocation. -/
def withState (d : Deployment) (state : DeploymentState) (updatedAt : Int) : Deployment :=
  { d with
    state := state
    updatedAt := updatedAt
    assignedGpus := if state = .live then d.assignedGpus else none }

def withAllocation (d : Deployment) (gpus : Option (List Nat)) : Deployment :=
  { d with assignedGpus := gpus }

def withServed (d : Deployment) (served : Dict String Served) (updatedAt : Int) : Deployment :=
  { d with served := served, updatedAt := updatedAt }

@[simp] theorem stored_id (d : Deployment) : d.stored.id = d.id := rfl

@[simp] theorem withState_id (d : Deployment) (state : DeploymentState) (t : Int) :
    (d.withState state t).id = d.id := rfl

@[simp] theorem withAllocation_id (d : Deployment) (gpus : Option (List Nat)) :
    (d.withAllocation gpus).id = d.id := rfl

@[simp] theorem withServed_id (d : Deployment) (served : Dict String Served) (t : Int) :
    (d.withServed served t).id = d.id := rfl

/-- Setting one state twice is setting it once. -/
theorem withState_withState (d : Deployment) (state : DeploymentState) (t : Int) :
    (d.withState state t).withState state t = d.withState state t := by
  by_cases h : state = .live <;> simp [withState, h]

end Deployment

/-- The least served alias, if any. -/
def Deployment.firstAlias (d : Deployment) : Option String :=
  (d.served.keys.insertionSort (· ≤ ·)).head?

/-- The model name a deployment's engine serves under: the spec's
`served_model_name`, else its first served alias, else its id. -/
def servedName (d : Deployment) : String :=
  match d.spec.servedModelName with
  | some s => if s = "" then d.firstAlias.getD d.id else s
  | none => d.firstAlias.getD d.id

/-- A claim of a lease on a deployment, for one endpoint. -/
structure Claim where
  leaseId : String
  endpoint : String
  deploymentId : String
  deriving DecidableEq

end InferStack
