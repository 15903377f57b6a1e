import InferStack.Catalog
import InferStack.Placement

/-!
# InferStack.Launch

How a vLLM deployment's spec becomes the command and environment of a process,
shared by the Compose and the KubeAI backend.

* `vllmServiceDict` reads the spec once, with the defaults filled in;
* `vllmArgs` and `simulatorArgs` write the flags of the real engine and of the
  simulator that may stand in for it;
* `envEntries` and `fill` write the environment.

What the source takes from Python (`str` of a float, `str.lower`, SHA-256) are
the functions of a `Python`.
-/

namespace InferStack

open Kit

/-- What a render takes from Python. -/
structure Python where
  /-- `str` of a float. -/
  float : ℚ → String
  /-- `str.lower`. -/
  lower : String → String
  /-- The hexadecimal SHA-256 of a text. -/
  sha256 : String → String

/-- A text that is set and not empty. -/
def truthy (s : Option String) : Option String := s.filter (· ≠ "")

/-! ## the service dictionary -/

/-- The settings of one vLLM process. -/
structure ServiceDict where
  servedModelName : String
  tensorParallelSize : Int
  pipelineParallelSize : Int
  dataParallelSize : Int
  revision : Option String
  quantization : Option String
  dtype : Option String
  chatTemplate : Option String
  trustRemoteCode : Bool
  image : Option String
  command : List String
  env : Dict EnvKey EnvValue
  mounts : Dict String EnvValue
  maxModelLen : Int
  gpuMemoryUtilization : ℚ
  maxNumBatchedTokens : Int
  maxNumSeqs : Int
  enablePrefixCaching : Bool
  attentionBackend : Option String
  simulator : Option Simulator
  extraArgs : List String
  shmSize : Option String

/-- The settings of a deployment's process. -/
def vllmServiceDict (d : Deployment) : ServiceDict :=
  let runtime := d.spec.runtime
  { servedModelName := servedName d
    tensorParallelSize := parallelSize runtime.tensorParallelSize
    pipelineParallelSize := parallelSize runtime.pipelineParallelSize
    dataParallelSize := parallelSize runtime.dataParallelSize
    revision := d.spec.revision
    quantization := d.spec.quantization
    dtype := d.spec.dtype
    chatTemplate := runtime.chatTemplate
    trustRemoteCode := runtime.trustRemoteCode
    image := runtime.image
    command := runtime.command
    env := runtime.env
    mounts := runtime.mounts
    -- one derivation with the advertised window
    maxModelLen := effectiveMaxModelLen runtime
    gpuMemoryUtilization := runtime.gpuMemoryUtilization.getD (9 / 10)
    maxNumBatchedTokens := runtime.maxNumBatchedTokens.getD 8192
    maxNumSeqs := runtime.maxNumSeqs.getD 256
    enablePrefixCaching := runtime.enablePrefixCaching
    attentionBackend := runtime.attentionBackend
    simulator := runtime.simulator
    extraArgs := runtime.extraArgs
    shmSize := runtime.shmSize }

/-! ## templates -/

/-- Replace the names of `values`, from left to right and once; the first
argument bounds the characters left. -/
def fillChars (values : List (List Char × List Char)) : Nat → List Char → List Char
  | 0, cs => cs
  | _ + 1, [] => []
  | n + 1, c :: cs =>
      match values.find? (fun kv => kv.1.isPrefixOf (c :: cs)) with
      | some kv => kv.2 ++ fillChars values n ((c :: cs).drop kv.1.length)
      | none => c :: fillChars values n cs

section Render

variable (py : Python)

/-- The names a template may use. -/
def templateValues (svc : ServiceDict) : List (String × String) :=
  [("\x7bmax_model_len\x7d", toString svc.maxModelLen),
    ("\x7bgpu_memory_utilization\x7d", py.float svc.gpuMemoryUtilization),
    ("\x7bserved_model_name\x7d", svc.servedModelName),
    ("\x7bport\x7d", "8000")]

/-- Substitute the template names of a value. -/
def fill (svc : ServiceDict) (value : String) : String :=
  String.ofList (fillChars
    ((templateValues py svc).map fun kv => (kv.1.toList, kv.2.toList)) value.length value.toList)

/-! ## flags -/

/-- Lower-case letters and digits, each run of anything else one dash. -/
def dashed : Bool → List Char → List Char
  | _, [] => []
  | afterDash, c :: cs =>
      if ('a' ≤ c ∧ c ≤ 'z') ∨ ('0' ≤ c ∧ c ≤ '9') then c :: dashed false cs
      else if afterDash then dashed true cs
      else '-' :: dashed true cs

/-- A label of lower-case letters, digits and dashes, safe as a name. -/
def dnsSlug (text : String) : String :=
  let dashes := dashed false (py.lower text).toList
  let slug := ((dashes.dropWhile (· = '-')).reverse.dropWhile (· = '-')).reverse
  if slug = [] then "model" else String.ofList slug

/-- The DNS-safe tail that makes a per-deployment name unique. -/
def deploymentTail (deploymentId : String) : String :=
  let last := ((deploymentId.splitOn "-").getLast?.getD deploymentId).toList.take 8
  dnsSlug py (if last = [] then "x" else String.ofList last)

/-- A `--model` value no repository id matches. -/
def unresolvableModelName (served : String) : String := "sim-" ++ dnsSlug py served

/-- The `--model` of a simulator: its own, or a slug of the served name. -/
def Simulator.modelName (sim : Simulator) (served : String) : String :=
  (truthy sim.model).getD (unresolvableModelName py served)

/-- One flag of a simulator block. -/
def simulatorFlag (key : String) (value : SimValue) : List String :=
  let flag := "--" ++ String.ofList (key.toList.map fun c => if c = '_' then '-' else c)
  match value with
  | .null => []
  | .bool b => if b then [flag] else []
  | .text s => [flag, s]
  | .list items => flag :: items

/-- The flags a simulator block adds, by name, and its extra arguments. -/
def Simulator.options (sim : Simulator) : List String :=
  sim.flags.sorted.rows.flatMap (fun kv => simulatorFlag kv.1 kv.2) ++ sim.extraArgs

/-- Why a service cannot be rendered. -/
inductive LaunchError where
  /-- `runtime.simulator.kind` is not a known simulator. -/
  | unknownSimulatorKind (kind : String)
  /-- The spec names no model to serve. -/
  | missingModelId
  deriving DecidableEq, Repr

/-- The argv of a simulator standing in for vLLM. -/
def simulatorArgs (svc : ServiceDict) (sim : Simulator) : Except LaunchError (List String) :=
  if sim.kind ≠ "llm-d-sim" then .error (.unknownSimulatorKind sim.kind)
  else .ok (["--model", sim.modelName py svc.servedModelName, "--port", "8000",
    "--served-model-name=" ++ svc.servedModelName,
    "--max-model-len=" ++ toString svc.maxModelLen,
    "--max-num-seqs=" ++ toString svc.maxNumSeqs] ++ sim.options)

/-- A flag that is only written when it is set. -/
def optionalFlag (flag : String) (value : Option String) : List String :=
  match truthy value with
  | some v => [flag ++ v]
  | none => []

/-- The flags of vLLM itself. -/
def vllmArgs (svc : ServiceDict) (includeServedName : Bool) : List String :=
  (if includeServedName then ["--served-model-name=" ++ svc.servedModelName] else []) ++
  ["--tensor-parallel-size=" ++ toString svc.tensorParallelSize,
    "--pipeline-parallel-size=" ++ toString svc.pipelineParallelSize,
    "--data-parallel-size=" ++ toString svc.dataParallelSize,
    "--max-model-len=" ++ toString svc.maxModelLen,
    "--gpu-memory-utilization=" ++ py.float svc.gpuMemoryUtilization,
    "--max-num-batched-tokens=" ++ toString svc.maxNumBatchedTokens,
    "--max-num-seqs=" ++ toString svc.maxNumSeqs] ++
  optionalFlag "--revision=" svc.revision ++
  optionalFlag "--quantization=" svc.quantization ++
  optionalFlag "--dtype=" svc.dtype ++
  optionalFlag "--chat-template=" svc.chatTemplate ++
  (if svc.trustRemoteCode then ["--trust-remote-code"] else []) ++
  (if svc.enablePrefixCaching then ["--enable-prefix-caching"] else []) ++
  svc.extraArgs

end Render

end InferStack
