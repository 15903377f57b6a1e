import InferStack.Compose.Service
import InferStack.Ledger

/-!
# InferStack.Compose.Interchange

Whether two requests of one compatibility key ask for the same container.

The key is a projection of the spec written by hand, and the renderer reads the
spec again.  What it reads beside the key, the context window and the tuning is
a simulator block, the spelling of a boolean mount and, for Ollama, the image
and the context length: `interchangeable_iff` says that the containers agree
exactly when these do.
-/

namespace InferStack

open Kit

/-! ## the property -/

/-- The spec with the context window and the performance tuning of another. -/
def Spec.tunedAs (s t : Spec) : Spec :=
  { s with runtime := { s.runtime with
      maxModelLen := t.runtime.maxModelLen
      gpuMemoryUtilization := t.runtime.gpuMemoryUtilization
      maxNumSeqs := t.runtime.maxNumSeqs
      maxNumBatchedTokens := t.runtime.maxNumBatchedTokens
      enablePrefixCaching := t.runtime.enablePrefixCaching
      shmSize := t.runtime.shmSize } }

/-- The deployment of a request, with the tuning of another. -/
def tunedDeployment (id : String) (now : Int) (r t : EndpointRequest) : Deployment :=
  { newDeployment id now r with spec := r.spec.tunedAs t.spec }

/-- Two requests ask for the same model and, on the same GPUs, for the same
container, up to the context window and the performance tuning. -/
def Interchangeable (R : Renderer) (r₁ r₂ : EndpointRequest) : Prop :=
  r₁.spec.servedModelName = r₂.spec.servedModelName ∧
    ∀ (id : String) (now : Int) (gpus : List Nat) (hostPort : Option Nat),
      composeService R (newDeployment id now r₁) gpus hostPort =
        composeService R (tunedDeployment id now r₂ r₁) gpus hostPort

/-! ## the condition -/

/-- Two simulator blocks start the same simulator for a served name. -/
def SameSimulator (py : Python) (served : String) : Option Simulator → Option Simulator → Prop
  | none, none => True
  | some a, some b => a.kind = b.kind ∧ (a.kind = "llm-d-sim" →
      a.modelName py served = b.modelName py served ∧ a.options = b.options)
  | _, _ => False

/-- The settings outside the key agree. -/
def SameLaunch (R : Renderer) (r₁ r₂ : EndpointRequest) : Prop :=
  match r₁.engine with
  | .vllm =>
      -- a nameless endpoint is keyed by its model's source
      (r₁.spec.servedModelName = some "" ↔ r₂.spec.servedModelName = some "") ∧
        SameSimulator R.py (r₁.spec.servedModelName.getD "") r₁.spec.runtime.simulator
          r₂.spec.runtime.simulator ∧
        (r₁.spec.runtime.simulator = none →
          mountEntries r₁.spec.runtime.mounts = mountEntries r₂.spec.runtime.mounts)
  | .ollama =>
      (truthy r₁.spec.image).getD R.ollamaImage = (truthy r₂.spec.image).getD R.ollamaImage ∧
        r₁.spec.settings.contextLength = r₂.spec.settings.contextLength
  | .reserved => True

/-! ## what the key says -/

section Key

variable {m₁ m₂ : ModelSpec} {e₁ e₂ : EndpointSpec} {s₁ s₂ : Sharing}

/-- The settings two vLLM requests of one key share. -/
structure SameKey (m₁ m₂ : ModelSpec) (e₁ e₂ : EndpointSpec) : Prop where
  source : m₁.source = m₂.source
  revision : m₁.revision = m₂.revision
  quantization : m₁.quantization = m₂.quantization
  dtype : m₁.dtype = m₂.dtype
  tensor : parallelSize e₁.runtime.tensorParallelSize = parallelSize e₂.runtime.tensorParallelSize
  pipeline :
    parallelSize e₁.runtime.pipelineParallelSize = parallelSize e₂.runtime.pipelineParallelSize
  data : parallelSize e₁.runtime.dataParallelSize = parallelSize e₂.runtime.dataParallelSize
  image : e₁.runtime.image = e₂.runtime.image
  chatTemplate : e₁.runtime.chatTemplate = e₂.runtime.chatTemplate
  trustRemoteCode : e₁.runtime.trustRemoteCode = e₂.runtime.trustRemoteCode
  attentionBackend : e₁.runtime.attentionBackend = e₂.runtime.attentionBackend
  name : (e₁.upstreamName = "" ↔ e₂.upstreamName = "") → e₁.upstreamName = e₂.upstreamName
  command : e₁.runtime.command = e₂.runtime.command
  env : (Table.ofList (envEntries e₁.runtime.env) : Dict String String) =
    Table.ofList (envEntries e₂.runtime.env)
  mounts : ∀ k, k ∈ e₁.runtime.mounts.keys ↔ k ∈ e₂.runtime.mounts.keys
  extraArgs : e₁.runtime.extraArgs = e₂.runtime.extraArgs

theorem parallelSize_getD (x : Option Int) : parallelSize (some (x.getD 1)) = parallelSize x := by
  cases x with
  | none => rfl
  | some n => rfl

theorem mem_keys_mountIdentity (mounts : Dict String EnvValue) (k : String) :
    k ∈ (Dict.sorted (Table.ofList (mounts.rows.map fun kv => (kv.1, kv.2.envString)) :
      Dict String String)).keys ↔ k ∈ mounts.keys := by
  rw [Dict.mem_keys_sorted, Table.mem_keys_ofList, List.map_map]
  rfl

/-- The launch identity keeps the environment as it is rendered. -/
theorem env_launchIdentity (runtime : Runtime) :
    (launchIdentity runtime).env = Table.ofList (envEntries runtime.env) := by
  show Dict.sorted _ = _
  rw [Dict.sorted_ofList]
  rfl

theorem sameKey (h : (resolveVllm m₁ e₁ s₁).compatKey = (resolveVllm m₂ e₂ s₂).compatKey) :
    SameKey m₁ m₂ e₁ e₂ := by
  have hstruct : vllmStructural m₁ e₁.runtime e₁.upstreamName e₁.placement.gpuIndices =
      vllmStructural m₂ e₂.runtime e₂.upstreamName e₂.placement.gpuIndices :=
    congrArg CompatKey.structural h
  unfold vllmStructural at hstruct
  injection hstruct with hsource hrev hquant hdtype htp hpp hdp himage hchat htrust _ hattn hname _
    hlaunch
  have henv := congrArg LaunchIdentity.env hlaunch
  rw [env_launchIdentity, env_launchIdentity] at henv
  have hmounts := congrArg LaunchIdentity.mounts hlaunch
  refine ⟨hsource, hrev, hquant, hdtype, ?_, ?_, ?_, himage, hchat, htrust, hattn, ?_,
    congrArg LaunchIdentity.command hlaunch, henv, ?_, congrArg LaunchIdentity.extraArgs hlaunch⟩
  · rw [← parallelSize_getD e₁.runtime.tensorParallelSize, htp, parallelSize_getD]
  · rw [← parallelSize_getD e₁.runtime.pipelineParallelSize, hpp, parallelSize_getD]
  · rw [← parallelSize_getD e₁.runtime.dataParallelSize, hdp, parallelSize_getD]
  · intro hiff
    by_cases hempty : e₁.upstreamName = ""
    · rw [hempty, hiff.mp hempty]
    · rwa [if_neg hempty, if_neg fun h => hempty (hiff.mpr h)] at hname
  · intro k
    have hkeys := congrArg (fun d : Dict String String => k ∈ d.keys) hmounts
    rw [← mem_keys_mountIdentity e₁.runtime.mounts,
      ← mem_keys_mountIdentity e₂.runtime.mounts]
    exact hkeys ▸ Iff.rfl

/-- The name a request's own deployment serves under. -/
theorem servedName_newDeployment (id : String) (now : Int) (m : ModelSpec) (e : EndpointSpec)
    (s : Sharing) : servedName (newDeployment id now (resolveVllm m e s)) = e.upstreamName := by
  show (if e.upstreamName = "" then _ else e.upstreamName) = e.upstreamName
  by_cases hempty : e.upstreamName = ""
  · have hname : e.name = "" := by
      unfold EndpointSpec.upstreamName at hempty
      cases hserved : e.servedName with
      | none => rwa [hserved] at hempty
      | some name =>
          by_cases hn : name = ""
          · rwa [hserved, hn] at hempty
          · simp only [hserved, if_neg hn] at hempty
            exact absurd hempty hn
    rw [if_pos hempty, hempty]
    show (Deployment.firstAlias _).getD id = ""
    simp [Deployment.firstAlias, newDeployment, resolveVllm, hname, Table.ofList, Table.putAll,
      Table.put, Table.keys, Table.insert]
  · rw [if_neg hempty]

end Key

/-! ## vLLM -/

section Vllm

variable (R : Renderer)

/-- A simulator's argv is its block's, for one service. -/
theorem simulatorArgs_eq_iff (svc : ServiceDict) (a b : Simulator) :
    simulatorArgs R.py svc a = simulatorArgs R.py svc b ↔
      SameSimulator R.py svc.servedModelName (some a) (some b) := by
  unfold simulatorArgs SameSimulator
  by_cases ha : a.kind = "llm-d-sim"
  · by_cases hb : b.kind = "llm-d-sim"
    · simp [ha, hb]
    · have hne : ¬ a.kind = b.kind := fun h => hb (h ▸ ha)
      simp [ha, hb, Ne.symm hb]
  · by_cases hb : b.kind = "llm-d-sim"
    · simp [ha, hb]
    · simp [ha, hb]

variable {m₁ m₂ : ModelSpec} {e₁ e₂ : EndpointSpec} {s₁ s₂ : Sharing}

/-- The service dictionaries of two requests of one key differ in what the key
leaves out. -/
theorem vllmServiceDict_sameKey (s₁ s₂ : Sharing) (hkey : SameKey m₁ m₂ e₁ e₂)
    (hname : e₁.upstreamName = e₂.upstreamName) (id : String) (now : Int) :
    vllmServiceDict (tunedDeployment id now (resolveVllm m₂ e₂ s₂) (resolveVllm m₁ e₁ s₁)) =
      { vllmServiceDict (newDeployment id now (resolveVllm m₁ e₁ s₁)) with
        env := e₂.runtime.env, mounts := e₂.runtime.mounts
        simulator := e₂.runtime.simulator } := by
  have hserved : servedName (tunedDeployment id now (resolveVllm m₂ e₂ s₂) (resolveVllm m₁ e₁ s₁)) =
      servedName (newDeployment id now (resolveVllm m₁ e₁ s₁)) := by
    have htuned : servedName
        (tunedDeployment id now (resolveVllm m₂ e₂ s₂) (resolveVllm m₁ e₁ s₁)) =
          servedName (newDeployment id now (resolveVllm m₂ e₂ s₂)) := rfl
    rw [htuned, servedName_newDeployment, servedName_newDeployment, hname]
  unfold vllmServiceDict
  simp only [ServiceDict.mk.injEq]
  exact ⟨hserved, hkey.tensor.symm, hkey.pipeline.symm, hkey.data.symm, hkey.revision.symm,
    hkey.quantization.symm, hkey.dtype.symm, hkey.chatTemplate.symm, hkey.trustRemoteCode.symm,
    hkey.image.symm, hkey.command.symm, rfl, rfl, rfl, rfl, rfl, rfl, rfl,
    hkey.attentionBackend.symm, rfl, hkey.extraArgs.symm, rfl⟩

/-- The environment depends on the entries as a dictionary. -/
theorem vllmEnvironment_congr (svc : ServiceDict) (mounts : Dict String EnvValue)
    (sim : Option Simulator) {env : Dict EnvKey EnvValue}
    (h : (Table.ofList (envEntries svc.env) : Dict String String) = Table.ofList (envEntries env)) :
    vllmEnvironment R { svc with env := env, mounts := mounts, simulator := sim } =
      vllmEnvironment R svc := by
  have hvalues := Dict.ofList_mapValues (f := fun v => escapeDollars (fill R.py svc v)) h
  have hput := Table.putAll_congr hvalues (Dict.set ∅ "HF_TOKEN" "$\x7bHF_TOKEN:-\x7d")
  have hsame : (envEntries env).map (fun kv => (kv.1, escapeDollars (fill R.py
      { svc with env := env, mounts := mounts, simulator := sim } kv.2))) =
        (envEntries env).map (fun kv => (kv.1, escapeDollars (fill R.py svc kv.2))) := rfl
  unfold vllmEnvironment
  dsimp only
  rw [hsame, ← hput]

/-- Mounting by path tells the subdirectories apart. -/
theorem mount_injective (base : String) {l l' : List (String × String)}
    (hpaths : l.map Prod.fst = l'.map Prod.fst)
    (h : l.map (fun kv => base ++ "/" ++ kv.2 ++ ":" ++ kv.1) =
      l'.map (fun kv => base ++ "/" ++ kv.2 ++ ":" ++ kv.1)) : l = l' := by
  induction l generalizing l' with
  | nil =>
      cases l' with
      | nil => rfl
      | cons b bs => simp at hpaths
  | cons a as ih =>
      cases l' with
      | nil => simp at hpaths
      | cons b bs =>
          simp only [List.map_cons, List.cons.injEq] at hpaths h
          have hsub : a.2 = b.2 := by
            have hhead := h.1
            rw [hpaths.1, String.append_left_inj, String.append_left_inj, String.append_right_inj]
              at hhead
            exact hhead
          rw [Prod.ext hpaths.1 hsub, ih hpaths.2 h.2]

/-- The volumes of two services that differ in their mounts. -/
theorem vllmVolumes_eq_iff (svc : ServiceDict) (command : List String)
    (environment : Dict String String) {env : Dict EnvKey EnvValue}
    {mounts : Dict String EnvValue} {sim : Option Simulator}
    (hpaths : ∀ k, k ∈ svc.mounts.keys ↔ k ∈ mounts.keys) :
    vllmVolumes R svc command environment =
        vllmVolumes R { svc with env := env, mounts := mounts, simulator := sim } command
          environment ↔
      mountEntries svc.mounts = mountEntries mounts := by
  have hkeys : (mountEntries svc.mounts).map Prod.fst = (mountEntries mounts).map Prod.fst := by
    have hsorted := Dict.keys_sorted_congr hpaths
    unfold mountEntries
    rw [List.map_map, List.map_map]
    exact hsorted
  constructor
  · intro h
    apply mount_injective R.state.runtime hkeys
    unfold vllmVolumes at h
    have hhash : serveConfigHash R { svc with env := env, mounts := mounts, simulator := sim } command
        environment = serveConfigHash R svc command environment := rfl
    simp only [hhash] at h
    have hlen : (mountEntries svc.mounts).length = (mountEntries mounts).length := by
      simpa using congrArg List.length hkeys
    by_cases hnil : mountEntries svc.mounts = []
    · have hnil' : mountEntries mounts = [] := by
        rw [hnil] at hlen
        exact List.eq_nil_of_length_eq_zero hlen.symm
      rw [hnil, hnil']
    · have hnil' : ¬ mountEntries mounts = [] := fun h' => by
        rw [h'] at hlen
        exact hnil (List.eq_nil_of_length_eq_zero hlen)
      simp only [List.map_eq_nil_iff, hnil, hnil', if_false] at h
      by_cases hcommand : svc.command = []
      · simp only [hcommand, ne_eq, not_true_eq_false, if_false] at h
        exact List.append_cancel_left h
      · simp only [ne_eq, hcommand, not_false_eq_true, if_true] at h
        exact h
  · intro h
    unfold vllmVolumes
    have hhash : serveConfigHash R { svc with env := env, mounts := mounts, simulator := sim } command
        environment = serveConfigHash R svc command environment := rfl
    simp only [hhash, h]

/-- Running the same steps after two commands tells the commands apart. -/
theorem map_eq_iff {ε α β : Type} {f : α → β} (hf : Function.Injective f) {x y : Except ε α} :
    x.map f = y.map f ↔ x = y := by
  constructor
  · intro h
    cases x with
    | error e =>
        cases y with
        | error e' => exact congrArg Except.error (Except.error.inj h)
        | ok b => contradiction
    | ok a =>
        cases y with
        | error e' => contradiction
        | ok b => exact congrArg Except.ok (hf (Except.ok.inj h))
  · exact fun h => h ▸ rfl

/-- Two vLLM requests of one key and one upstream name. -/
theorem vllmService_eq_iff (hkey : SameKey m₁ m₂ e₁ e₂)
    (hname : e₁.upstreamName = e₂.upstreamName) (id : String) (now : Int) (gpus : List Nat)
    (hostPort : Option Nat) :
    vllmService R (newDeployment id now (resolveVllm m₁ e₁ s₁)) gpus hostPort =
        vllmService R (tunedDeployment id now (resolveVllm m₂ e₂ s₂) (resolveVllm m₁ e₁ s₁)) gpus
          hostPort ↔
      SameSimulator R.py e₁.upstreamName e₁.runtime.simulator e₂.runtime.simulator ∧
        (e₁.runtime.simulator = none →
          mountEntries e₁.runtime.mounts = mountEntries e₂.runtime.mounts) := by
  have hdict := vllmServiceDict_sameKey s₁ s₂ hkey hname id now
  have henv := vllmEnvironment_congr R (vllmServiceDict (newDeployment id now (resolveVllm m₁ e₁ s₁)))
    e₂.runtime.mounts e₂.runtime.simulator hkey.env
  have hmodel : (tunedDeployment id now (resolveVllm m₂ e₂ s₂)
      (resolveVllm m₁ e₁ s₁)).spec.hfModelId = some m₁.hfModelId := by
    show some m₂.hfModelId = some m₁.hfModelId
    unfold ModelSpec.hfModelId
    rw [hkey.source]
  have hmodel' : (newDeployment id now (resolveVllm m₁ e₁ s₁)).spec.hfModelId =
      some m₁.hfModelId := rfl
  have hid : (newDeployment id now (resolveVllm m₁ e₁ s₁)).id = id := rfl
  have hid' : (tunedDeployment id now (resolveVllm m₂ e₂ s₂) (resolveVllm m₁ e₁ s₁)).id = id := rfl
  have hserved := servedName_newDeployment id now m₁ e₁ s₁
  have hsvcServed : (vllmServiceDict (newDeployment id now
      (resolveVllm m₁ e₁ s₁))).servedModelName = e₁.upstreamName := hserved
  have hsvcSim : (vllmServiceDict (newDeployment id now
      (resolveVllm m₁ e₁ s₁))).simulator = e₁.runtime.simulator := rfl
  have hsvcMounts : (vllmServiceDict (newDeployment id now
      (resolveVllm m₁ e₁ s₁))).mounts = e₁.runtime.mounts := rfl
  unfold vllmService
  simp only [hdict, henv, hmodel, hmodel', hid, hid']
  generalize vllmServiceDict (newDeployment id now (resolveVllm m₁ e₁ s₁)) = svc at *
  -- a real engine always has a command, the same one for both
  have hreal : ∀ svc' : ServiceDict, svc'.simulator = none → svc'.command = svc.command →
      fill R.py svc' = fill R.py svc → vllmArgs R.py svc' true = vllmArgs R.py svc true →
      vllmCommand R svc' (some m₁.hfModelId) = .ok (if svc.command ≠ []
        then svc.command.map (fill R.py svc)
        else m₁.hfModelId :: "--host" :: "0.0.0.0" :: "--port" :: "8000" ::
          vllmArgs R.py svc true) := by
    intro svc' hnone hcommand hfill hargs
    unfold vllmCommand
    rw [hnone, hcommand, hfill, hargs]
    by_cases hc : svc.command = []
    · simp [hc]
    · simp [hc]
  cases h₁ : e₁.runtime.simulator with
  | none =>
      have hok₁ := hreal svc (hsvcSim.trans h₁) rfl rfl rfl
      cases h₂ : e₂.runtime.simulator with
      | none =>
          have hok₂ := hreal { svc with
            env := e₂.runtime.env, mounts := e₂.runtime.mounts, simulator := none } rfl rfl rfl rfl
          rw [hok₁, hok₂]
          simp only [hsvcSim, h₁, Except.map, Except.ok.injEq, ComposeService.mk.injEq,
            Option.isSome_none, Bool.false_eq_true, if_false, Option.some.injEq, true_and, and_true,
            SameSimulator, forall_const]
          rw [vllmVolumes_eq_iff R svc _ _ (by rw [hsvcMounts]; exact hkey.mounts), hsvcMounts]
      | some b =>
          rw [hok₁]
          simp only [SameSimulator, false_and, iff_false]
          intro h
          cases hcmd : vllmCommand R { svc with
            env := e₂.runtime.env, mounts := e₂.runtime.mounts, simulator := some b }
              (some m₁.hfModelId) with
          | error e => rw [hcmd] at h; contradiction
          | ok c =>
              rw [hcmd] at h
              have hcheck := congrArg ComposeService.healthcheck (Except.ok.inj h)
              simp [hsvcSim, h₁] at hcheck
  | some a =>
      cases h₂ : e₂.runtime.simulator with
      | none =>
          have hok₂ := hreal { svc with
            env := e₂.runtime.env, mounts := e₂.runtime.mounts, simulator := none } rfl rfl rfl rfl
          rw [hok₂]
          simp only [SameSimulator, false_and, iff_false]
          intro h
          cases hcmd : vllmCommand R svc (some m₁.hfModelId) with
          | error e => rw [hcmd] at h; contradiction
          | ok c =>
              rw [hcmd] at h
              have hcheck := congrArg ComposeService.healthcheck (Except.ok.inj h)
              simp [hsvcSim, h₁] at hcheck
      | some b =>
          have hcmd₁ : vllmCommand R svc (some m₁.hfModelId) = simulatorArgs R.py svc a := by
            unfold vllmCommand
            rw [hsvcSim, h₁]
          have hcmd₂ : vllmCommand R { svc with
              env := e₂.runtime.env, mounts := e₂.runtime.mounts, simulator := some b }
                (some m₁.hfModelId) = simulatorArgs R.py svc b := rfl
          rw [hcmd₁, hcmd₂, ← hsvcServed, ← simulatorArgs_eq_iff]
          simp only [hsvcSim, h₁, Option.isSome_some, if_true, reduceCtorEq, false_implies, and_true]
          rw [map_eq_iff]
          intro c c' h
          exact Option.some.inj (congrArg ComposeService.command h)

end Vllm

/-! ## Ollama -/

section Ollama

theorem repr_injective {m n : Nat} (h : m.repr = n.repr) : m = n := by
  have hdigits := congrArg String.toList h
  rw [Nat.toList_repr, Nat.toList_repr] at hdigits
  rw [← Nat.ofDigitChars_ten_toDigits (n := m), hdigits, Nat.ofDigitChars_ten_toDigits]

/-- An integer is read back from its decimal text. -/
theorem toString_int_injective : Function.Injective (toString : Int → String) := by
  have hsign : ∀ m n : Nat, m.repr ≠ "-" ++ n.repr := by
    intro m n h
    have hlist := congrArg String.toList h
    rw [Nat.toList_repr, String.toList_append] at hlist
    have hminus : '-' ∈ Nat.toDigits 10 m := by
      rw [hlist]
      simp
    have hdigit := Nat.isDigit_of_mem_toDigits (by omega) (by omega) hminus
    contradiction
  intro a b h
  rw [Int.toString_eq_repr, Int.toString_eq_repr, Int.repr_eq_if, Int.repr_eq_if] at h
  by_cases ha : 0 ≤ a
  · by_cases hb : 0 ≤ b
    · rw [if_pos ha, if_pos hb] at h
      have hnat := repr_injective h
      omega
    · rw [if_pos ha, if_neg hb] at h
      exact absurd h (hsign _ _)
  · by_cases hb : 0 ≤ b
    · rw [if_neg ha, if_pos hb] at h
      exact absurd h.symm (hsign _ _)
    · rw [if_neg ha, if_neg hb, String.append_right_inj] at h
      have hnat := repr_injective h
      omega

/-- The last setting of a daemon's environment, whatever the others are. -/
theorem get?_contextLength (a b c x : Option String) :
    Dict.get? (Table.ofList (optionalSetting "OLLAMA_KEEP_ALIVE" a ++
      optionalSetting "OLLAMA_NUM_PARALLEL" b ++ optionalSetting "OLLAMA_MAX_LOADED_MODELS" c ++
      optionalSetting "OLLAMA_CONTEXT_LENGTH" x)) "OLLAMA_CONTEXT_LENGTH" = x := by
  have hlast := Table.find?_putAll_last (∅ : Dict String String)
    (optionalSetting "OLLAMA_KEEP_ALIVE" a ++ optionalSetting "OLLAMA_NUM_PARALLEL" b ++
      optionalSetting "OLLAMA_MAX_LOADED_MODELS" c ++ optionalSetting "OLLAMA_CONTEXT_LENGTH" x)
    "OLLAMA_CONTEXT_LENGTH"
  have hother : ∀ name : String, name ≠ "OLLAMA_CONTEXT_LENGTH" → ∀ v : Option String,
      (optionalSetting name v).filter (fun kv => kv.1 = "OLLAMA_CONTEXT_LENGTH") = [] := by
    intro name hname v
    cases v <;> simp [optionalSetting, hname]
  rw [List.filter_append, List.filter_append, List.filter_append, hother _ (by decide),
    hother _ (by decide), hother _ (by decide), Table.find?_empty, Option.or_none] at hlast
  unfold Dict.get?
  rw [Table.ofList, hlast]
  cases x <;> rfl

variable (R : Renderer) {h₁ h₂ : RuntimeHostSpec} {e₁ e₂ : EndpointSpec} {s₁ s₂ : Sharing}

/-- Two Ollama requests of one key. -/
theorem ollamaService_eq_iff
    (hkey : (resolveOllama h₁ e₁ s₁).compatKey = (resolveOllama h₂ e₂ s₂).compatKey)
    (id : String) (now : Int) (gpus : List Nat) (hostPort : Option Nat) :
    ollamaService R (newDeployment id now (resolveOllama h₁ e₁ s₁)) gpus hostPort =
        ollamaService R (tunedDeployment id now (resolveOllama h₂ e₂ s₂) (resolveOllama h₁ e₁ s₁))
          gpus hostPort ↔
      (truthy h₁.image).getD R.ollamaImage = (truthy h₂.image).getD R.ollamaImage ∧
        h₁.settings.contextLength = h₂.settings.contextLength := by
  have hstruct := congrArg CompatKey.structural hkey
  injection hstruct with _ _ hkeep hparallel hloaded _
  constructor
  · intro h
    refine ⟨congrArg ComposeService.image h, ?_⟩
    have henv := congrArg (fun svc => svc.environment.get? "OLLAMA_CONTEXT_LENGTH") h
    simp only [ollamaService, get?_contextLength] at henv
    exact Option.map_injective toString_int_injective henv
  · rintro ⟨himage, hcontext⟩
    show ComposeService.mk _ _ _ _ _ _ _ _ _ _ = ComposeService.mk _ _ _ _ _ _ _ _ _ _
    simp only [ComposeService.mk.injEq, true_and, and_true]
    refine ⟨himage, ?_, rfl⟩
    show Table.ofList (optionalSetting _ (truthy h₁.settings.keepAlive) ++
      optionalSetting _ (h₁.settings.numParallel.map toString) ++
      optionalSetting _ (h₁.settings.maxLoadedModels.map toString) ++
      optionalSetting _ (h₁.settings.contextLength.map toString)) = _
    rw [hkeep, hparallel, hloaded, hcontext]
    rfl

end Ollama

/-! ## both engines -/

/-- Requests of one key get interchangeable containers exactly when the
settings outside the key agree. -/
theorem interchangeable_iff (R : Renderer) {r₁ r₂ : EndpointRequest} (h₁ : FromCatalog r₁)
    (h₂ : FromCatalog r₂) (hkey : r₁.compatKey = r₂.compatKey) :
    Interchangeable R r₁ r₂ ↔ SameLaunch R r₁ r₂ := by
  have hengine : r₁.engine = r₂.engine := congrArg CompatKey.engine hkey
  cases h₁.cases with
  | inl hvllm₁ =>
      obtain ⟨m₁, e₁, s₁, rfl⟩ := hvllm₁
      cases h₂.cases with
      | inr hollama₂ =>
          obtain ⟨host, e₂, s₂, rfl⟩ := hollama₂
          contradiction
      | inl hvllm₂ =>
          obtain ⟨m₂, e₂, s₂, rfl⟩ := hvllm₂
          have hsame := sameKey hkey
          show (some e₁.upstreamName = some e₂.upstreamName ∧ ∀ id now gpus hostPort,
              (vllmService R (newDeployment id now (resolveVllm m₁ e₁ s₁)) gpus hostPort).map some =
                (vllmService R (tunedDeployment id now (resolveVllm m₂ e₂ s₂)
                  (resolveVllm m₁ e₁ s₁)) gpus hostPort).map some) ↔
            (some e₁.upstreamName = some "" ↔ some e₂.upstreamName = some "") ∧
              SameSimulator R.py e₁.upstreamName e₁.runtime.simulator e₂.runtime.simulator ∧
              (e₁.runtime.simulator = none →
                mountEntries e₁.runtime.mounts = mountEntries e₂.runtime.mounts)
          simp only [Option.some.injEq, map_eq_iff (Option.some_injective ComposeService)]
          constructor
          · rintro ⟨hname, hservice⟩
            rw [hname]
            have hlaunch := (vllmService_eq_iff R hsame hname "" 0 [] none).mp
              (hservice "" 0 [] none)
            exact ⟨Iff.rfl, hname ▸ hlaunch⟩
          · rintro ⟨hnameless, hlaunch⟩
            have hname := hsame.name hnameless
            exact ⟨hname, fun id now gpus hostPort =>
              (vllmService_eq_iff R hsame hname id now gpus hostPort).mpr hlaunch⟩
  | inr hollama₁ =>
      obtain ⟨host₁, e₁, s₁, rfl⟩ := hollama₁
      cases h₂.cases with
      | inl hvllm₂ =>
          obtain ⟨m₂, e₂, s₂, rfl⟩ := hvllm₂
          contradiction
      | inr hollama₂ =>
          obtain ⟨host₂, e₂, s₂, rfl⟩ := hollama₂
          constructor
          · rintro ⟨-, hservice⟩
            have hsome := Except.ok.inj (hservice "" 0 [] none)
            exact (ollamaService_eq_iff R hkey "" 0 [] none).mp (Option.some.inj hsome)
          · intro hlaunch
            refine ⟨rfl, fun id now gpus hostPort => ?_⟩
            have hservice := (ollamaService_eq_iff R hkey id now gpus hostPort).mpr hlaunch
            exact congrArg (fun svc => Except.ok (some svc)) hservice

/-! ## one model, run and simulated -/

/-- A renderer with the text and hash functions at the inputs below. -/
def smolRenderer : Renderer where
  py :=
    { float := fun _ => "0.9"
      lower := fun s => String.ofList (s.toList.map Char.toLower)
      sha256 := fun _ => "37b26dd08677f81b7e10bcea00bee2f476c615782686e5812a236e99c0aecbab" }
  vllmImage := "vllm/vllm-openai:v0.10.0"
  ollamaImage := "ollama/ollama:0.11.4"
  state := ⟨"hf", "vllm", "torch", "triton", "nv", "runtime", "ollama"⟩

def smolModel : ModelSpec := { name := "smol", source := "hf://org/smol" }

/-- An endpoint of the model under one upstream name. -/
def smolEndpoint (name : String) (maxModelLen : Int) (simulator : Option Simulator) :
    EndpointSpec where
  name := name
  model := "smol"
  servedName := some "smol"
  runtime := { maxModelLen := some maxModelLen, simulator := simulator }

/-- Two windows of one model, and its simulator. -/
def smolCatalog : Catalog where
  models := ⟨[smolModel], by decide⟩
  endpoints := ⟨[smolEndpoint "small" 4096 none, smolEndpoint "large" 8192 none,
    smolEndpoint "simulated" 8192 (some {})], by decide⟩

/-- The request of an endpoint of the catalog. -/
def smolRequest (name : String) (maxModelLen : Int) (simulator : Option Simulator) :
    EndpointRequest :=
  resolveVllm smolModel (smolEndpoint name maxModelLen simulator) .shared

theorem small_fromCatalog : FromCatalog (smolRequest "small" 4096 none) :=
  ⟨smolCatalog, "small", none, none, _, rfl, rfl⟩

theorem large_fromCatalog : FromCatalog (smolRequest "large" 8192 none) :=
  ⟨smolCatalog, "large", none, none, _, rfl, rfl⟩

theorem simulated_fromCatalog : FromCatalog (smolRequest "simulated" 8192 (some {})) :=
  ⟨smolCatalog, "simulated", none, none, _, rfl, rfl⟩

/-- Two windows of one model: the smaller request gets the same container, up
to its window. -/
theorem small_on_large : Interchangeable smolRenderer (smolRequest "small" 4096 none)
    (smolRequest "large" 8192 none) :=
  (interchangeable_iff smolRenderer small_fromCatalog large_fromCatalog (by decide)).mpr
    ⟨Iff.rfl, trivial, fun _ => rfl⟩

/-- The simulator has the key of the model it simulates. -/
theorem large_on_simulated :
    ¬ ∀ (R : Renderer) (r₁ r₂ : EndpointRequest), FromCatalog r₁ → FromCatalog r₂ →
      r₁.compatKey = r₂.compatKey → capacitySatisfies r₂.capacity r₁.capacity →
        Interchangeable R r₁ r₂ := by
  intro h
  have hkey : (smolRequest "large" 8192 none).compatKey =
      (smolRequest "simulated" 8192 (some {})).compatKey := by decide
  have hboth := h smolRenderer _ _ large_fromCatalog simulated_fromCatalog hkey (by decide)
  have hservice := hboth.2 "g1" 0 [0] none
  have hsame := (vllmService_eq_iff smolRenderer (sameKey hkey) rfl "g1" 0 [0] none).mp
    ((map_eq_iff (Option.some_injective ComposeService)).mp hservice)
  exact hsame.1

end InferStack
