import InferStack.Launch

/-!
# InferStack.Compose.Service

The Compose service of one deployment.

A catalog mapping has no meaningful order, so the environment is written in the
order of its names: a request and the row it becomes render the same text.
-/

namespace InferStack

open Kit

/-- The directories a container's caches are mounted from. -/
structure StatePaths where
  hfCache : String
  vllmCache : String
  torchCache : String
  tritonCache : String
  cudaCache : String
  runtime : String
  ollama : String

/-- What renders services: Python, the stock images and the state directories. -/
structure Renderer where
  py : Python
  vllmImage : String
  ollamaImage : String
  state : StatePaths

/-- How Compose checks a container. -/
inductive Healthcheck where
  | disabled
  | test (test : List String) (interval timeout : String) (retries : Nat)
      (startPeriod : Option String)
  deriving DecidableEq

/-- One service of the Compose project. -/
structure ComposeService where
  image : String
  command : Option (List String) := none
  environment : Dict String String
  /-- Absent for a simulator. -/
  volumes : Option (List String)
  restart : String := "unless-stopped"
  labels : Dict String String
  healthcheck : Healthcheck
  ports : Option (List String) := none
  /-- The device ids of the GPU reservation. -/
  devices : Option (List Nat) := none
  shmSize : Option String := none
  deriving DecidableEq

section Render

variable (R : Renderer)

/-! ## vLLM -/

/-- A `$` of the catalog is literal to Compose. -/
def escapeDollars (s : String) : String :=
  String.ofList (s.toList.flatMap fun c => if c = '$' then ['$', '$'] else [c])

/-- The environment entries of a runtime, in the order of their names. -/
def envEntries (env : Dict EnvKey EnvValue) : List (String × String) :=
  Dict.sortEntries (env.rows.map fun kv => (kv.1.str, kv.2.envString))

/-- The environment of a vLLM container. -/
def vllmEnvironment (svc : ServiceDict) : Dict String String :=
  let environment := (Dict.set ∅ "HF_TOKEN" "$\x7bHF_TOKEN:-\x7d").putAll
    ((envEntries svc.env).map fun kv => (kv.1, escapeDollars (fill R.py svc kv.2)))
  match truthy svc.attentionBackend with
  | some backend => Dict.set environment "VLLM_ATTENTION_BACKEND" backend
  | none => environment

/-- The command of a vLLM container. -/
def vllmCommand (svc : ServiceDict) (hfModelId : Option String) :
    Except LaunchError (List String) :=
  match svc.simulator with
  | some sim => simulatorArgs R.py svc sim
  | none =>
      -- an image with its own launcher gets exactly this, nothing added
      if svc.command ≠ [] then .ok (svc.command.map (fill R.py svc))
      else
        match hfModelId with
        | none => .error .missingModelId
        | some model =>
            .ok (model :: "--host" :: "0.0.0.0" :: "--port" :: "8000" :: vllmArgs R.py svc true)

/-- The compile cache's key: everything that shapes the compiled graphs. -/
def serveConfigHash (svc : ServiceDict) (command : List String)
    (environment : Dict String String) : String :=
  let exported := (environment.sorted.rows.filter (fun kv => kv.1 ≠ "HF_TOKEN")).map
    fun kv => kv.1 ++ "=" ++ kv.2
  let material := "\x00".intercalate
    ((truthy svc.image).getD R.vllmImage :: command ++ exported)
  String.ofList ((R.py.sha256 material).toList.take 12)

/-- The subdirectory of each mounted container path, by path. -/
def mountEntries (mounts : Dict String EnvValue) : List (String × String) :=
  mounts.sorted.rows.map fun kv => (kv.1, kv.2.str)

/-- The volumes of a vLLM container: its caches and the catalog's mounts.  A
custom launcher gets only the mounts. -/
def vllmVolumes (svc : ServiceDict) (command : List String)
    (environment : Dict String String) : List String :=
  let caches :=
    [R.state.hfCache ++ ":/root/.cache/huggingface",
      R.state.vllmCache ++ "/cfg-" ++ serveConfigHash R svc command environment ++
        ":/root/.cache/vllm",
      R.state.torchCache ++ ":/root/.cache/torch",
      R.state.tritonCache ++ ":/root/.triton",
      R.state.cudaCache ++ ":/root/.nv"]
  let mounts := (mountEntries svc.mounts).map fun kv =>
    R.state.runtime ++ "/" ++ kv.2 ++ ":" ++ kv.1
  if mounts = [] then caches
  else if svc.command ≠ [] then mounts
  else caches ++ mounts

/-- The service of a vLLM deployment. -/
def vllmService (d : Deployment) (gpus : List Nat) (hostPort : Option Nat) :
    Except LaunchError ComposeService :=
  let svc := vllmServiceDict d
  let environment := vllmEnvironment R svc
  (vllmCommand R svc d.spec.hfModelId).map fun command =>
    { image := (truthy svc.image).getD R.vllmImage
      command := some command
      environment := environment
      -- a simulator downloads no weights and has no curl
      volumes := if svc.simulator.isSome then none
        else some (vllmVolumes R svc command environment)
      labels := Table.ofList [("infer-stack.deployment", d.id), ("infer-stack.engine", "vllm")]
      healthcheck := if svc.simulator.isSome then .disabled
        else .test ["CMD", "curl", "-f", "http://localhost:8000/health"] "30s" "10s" 5
          (some "1800s")
      ports := hostPort.map fun p => [toString p ++ ":8000"]
      devices := if gpus = [] then none else some gpus
      shmSize := if svc.simulator.isSome then none else truthy svc.shmSize }

/-! ## Ollama -/

/-- A setting of the daemon that is only written when it is set. -/
def optionalSetting (name : String) (value : Option String) : List (String × String) :=
  match value with
  | some v => [(name, v)]
  | none => []

/-- The service of an Ollama daemon. -/
def ollamaService (d : Deployment) (gpus : List Nat) (hostPort : Option Nat) : ComposeService :=
  let settings := d.spec.settings
  { image := (truthy d.spec.image).getD R.ollamaImage
    environment := Table.ofList (
      optionalSetting "OLLAMA_KEEP_ALIVE" (truthy settings.keepAlive) ++
      optionalSetting "OLLAMA_NUM_PARALLEL" (settings.numParallel.map toString) ++
      optionalSetting "OLLAMA_MAX_LOADED_MODELS" (settings.maxLoadedModels.map toString) ++
      optionalSetting "OLLAMA_CONTEXT_LENGTH" (settings.contextLength.map toString))
    volumes := some [R.state.ollama ++ ":/root/.ollama"]
    labels := Table.ofList [("infer-stack.deployment", d.id), ("infer-stack.engine", "ollama")]
    healthcheck := .test ["CMD", "ollama", "list"] "30s" "10s" 5 none
    ports := hostPort.map fun p => [toString p ++ ":11434"]
    devices := if gpus = [] then none else some gpus }

/-- The service of a deployment; a reservation launches none. -/
def composeService (d : Deployment) (gpus : List Nat) (hostPort : Option Nat) :
    Except LaunchError (Option ComposeService) :=
  match d.engine with
  | .vllm => (vllmService R d gpus hostPort).map some
  | .ollama => .ok (some (ollamaService R d gpus hostPort))
  | .reserved => .ok none

end Render

end InferStack
