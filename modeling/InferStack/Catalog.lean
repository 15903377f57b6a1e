import InferStack.Models

/-!
# InferStack.Catalog

The serving catalog: models, Ollama hosts, endpoints and bundles, and how an
endpoint name resolves to the request the ledger coalesces.

A catalog here is one `from_dict` has parsed: legacy recipes are translated and
defaults filled in.  Four derivations of one endpoint have to agree and are
kept apart as in the source: its structural key (`vllmStructural`), the
capacity recorded for comparison, the window it launches with
(`effectiveMaxModelLen`), and the window advertised under its alias.
-/

namespace InferStack

open Kit

/-! ## launch -/

/-- The `--max-model-len` of an endpoint that does not set one. -/
def vllmDefaultMaxModelLen : Int := 8192

/-- The `--max-model-len` a vLLM deployment runs with.  Translating a legacy
recipe never touches `max_model_len`. -/
def effectiveMaxModelLen (runtime : Runtime) : Int :=
  runtime.maxModelLen.getD vllmDefaultMaxModelLen

/-- The launch fields that are set, for the structural key. -/
def launchIdentity (runtime : Runtime) : LaunchIdentity where
  command := runtime.command
  env := Dict.sorted (Table.ofList (runtime.env.rows.map fun kv => (kv.1.str, kv.2.envString)))
  mounts := Dict.sorted (Table.ofList (runtime.mounts.rows.map fun kv => (kv.1, kv.2.envString)))
  extraArgs := runtime.extraArgs

/-! ## catalog data -/

/-- A vLLM model: what exists, independent of how it is run. -/
structure ModelSpec where
  name : String
  source : String
  revision : Option String := none
  quantization : Option String := none
  dtype : Option String := none
  deriving DecidableEq

/-- The Hugging Face id: `source` without its scheme. -/
def ModelSpec.hfModelId (m : ModelSpec) : String :=
  match m.source.splitOn "://" with
  | _ :: part :: parts => "://".intercalate (part :: parts)
  | _ => m.source

/-- An Ollama daemon. -/
structure RuntimeHostSpec where
  name : String
  gpuIndices : List Nat := []
  settings : OllamaSettings := {}
  modelStore : Option String := none
  image : Option String := none
  deriving DecidableEq

/-- An OpenAI-compatible server the stack does not run. -/
structure ExternalTarget where
  apiBase : String
  model : String
  apiKeyEnv : Option String := none
  deriving DecidableEq

/-- A served name and what runs behind it. -/
structure EndpointSpec where
  name : String
  engine : Engine := .vllm
  model : String
  host : Option String := none
  runtime : Runtime := {}
  sharing : Sharing := .shared
  reclaim : String := "keep-warm"
  servedName : Option String := none
  protocol : String := "chat"
  placement : Placement := {}
  external : Option ExternalTarget := none
  deriving DecidableEq

/-- A parsed serving catalog. -/
structure Catalog where
  models : Table ModelSpec ModelSpec.name := ∅
  endpoints : Table EndpointSpec EndpointSpec.name := ∅
  hosts : Table RuntimeHostSpec RuntimeHostSpec.name := ∅
  bundles : Dict String (List String) := ∅
  deriving DecidableEq

/-! ## resolution -/

/-- The structural fields of a vLLM endpoint.  An empty pin is no pin. -/
def vllmStructural (model : ModelSpec) (rt : Runtime) (servedName : String)
    (gpuIndices : List Nat) : Structural :=
  .vllm model.source model.revision model.quantization model.dtype
    (rt.tensorParallelSize.getD 1) (rt.pipelineParallelSize.getD 1)
    (rt.dataParallelSize.getD 1) rt.image rt.chatTemplate rt.trustRemoteCode
    (rt.loraAdapters.insertionSort (· ≤ ·)) rt.attentionBackend
    (if servedName = "" then model.source else servedName) gpuIndices (launchIdentity rt)

/-- The capacity an endpoint's runtime records: nothing when it sets none. -/
def vllmCapacity (rt : Runtime) : Capacity :=
  match rt.maxModelLen with
  | none => ∅
  | some n => Table.ofList [("max_model_len", n)]

/-- The upstream name an endpoint is served under: its own alias by default. -/
def EndpointSpec.upstreamName (ep : EndpointSpec) : String :=
  match ep.servedName with
  | none => ep.name
  | some name => if name = "" then ep.name else name

/-- The request of a vLLM endpoint. -/
def resolveVllm (model : ModelSpec) (ep : EndpointSpec) (sharing : Sharing) :
    EndpointRequest where
  endpoint := ep.name
  engine := .vllm
  structural := vllmStructural model ep.runtime ep.upstreamName ep.placement.gpuIndices
  capacity := vllmCapacity ep.runtime
  sharing := sharing
  spec :=
    { engine := .vllm
      hfModelId := some model.hfModelId
      servedModelName := some ep.upstreamName
      revision := model.revision
      quantization := model.quantization
      dtype := model.dtype
      runtime := ep.runtime
      reclaim := some ep.reclaim
      placement := ep.placement }
  -- the alias keeps its own window: it may land on a larger deployment
  served :=
    { servedModelName := some ep.upstreamName
      hfModelId := some model.hfModelId
      protocol := some ep.protocol
      maxInputTokens := some (effectiveMaxModelLen ep.runtime) }

/-- The request of an Ollama endpoint: the tag is not part of the daemon. -/
def resolveOllama (host : RuntimeHostSpec) (ep : EndpointSpec) (sharing : Sharing) :
    EndpointRequest where
  endpoint := ep.name
  engine := .ollama
  structural := .ollama host.name host.gpuIndices host.settings.keepAlive
    host.settings.numParallel host.settings.maxLoadedModels host.modelStore
  sharing := sharing
  spec :=
    { engine := .ollama
      host := some host.name
      image := host.image
      gpuIndices := host.gpuIndices
      settings := host.settings
      modelStore := host.modelStore
      reclaim := some ep.reclaim }
  served := { model := some ep.model }
  host := some host.name

/-- Who fulfils an endpoint. -/
inductive Target where
  | managed (request : EndpointRequest)
  | external (target : ExternalTarget)
  deriving DecidableEq

/-- What an endpoint name means. -/
structure ResolvedEndpoint where
  alias_ : String
  protocol : String
  target : Target
  deriving DecidableEq

/-- Why a name does not resolve. -/
inductive CatalogError where
  /-- Not an endpoint of the catalog. -/
  | unknownEndpoint (name : String)
  /-- The endpoint names a model or a host the catalog lacks. -/
  | danglingReference (endpoint reference : String)
  /-- An Ollama endpoint without a host. -/
  | hostless (endpoint : String)
  /-- `reserved` is not an engine of the catalog. -/
  | unknownEngine (endpoint : String)
  /-- An external endpoint takes no lease. -/
  | external (endpoint : String)
  deriving DecidableEq, Repr

/-- What endpoint `name` means; a given sharing overrides the catalog's. -/
def Catalog.resolveEndpoint (c : Catalog) (name : String) (sharing : Option Sharing) :
    Except CatalogError ResolvedEndpoint :=
  match c.endpoints.find? name with
  | none => .error (.unknownEndpoint name)
  | some ep =>
      match ep.external with
      | some target => .ok ⟨ep.name, ep.protocol, .external target⟩
      | none =>
          let share := sharing.getD ep.sharing
          match ep.engine with
          | .vllm =>
              match c.models.find? ep.model with
              | none => .error (.danglingReference name ep.model)
              | some model => .ok ⟨ep.name, ep.protocol, .managed (resolveVllm model ep share)⟩
          | .ollama =>
              match ep.host with
              | none => .error (.hostless name)
              | some h =>
                  match c.hosts.find? h with
                  | none => .error (.danglingReference name h)
                  | some host => .ok ⟨ep.name, ep.protocol, .managed (resolveOllama host ep share)⟩
          | .reserved => .error (.unknownEngine name)

/-- The ledger's request for a resolved endpoint. -/
def ResolvedEndpoint.toRequest (r : ResolvedEndpoint) (sharingOverride : Option Sharing) :
    Except CatalogError EndpointRequest :=
  match r.target with
  | .external _ => .error (.external r.alias_)
  | .managed request => .ok { request with sharing := sharingOverride.getD request.sharing }

/-! ## requests of a catalog -/

/-- A request some catalog resolves an endpoint to. -/
def FromCatalog (r : EndpointRequest) : Prop :=
  ∃ (c : Catalog) (name : String) (override share : Option Sharing) (e : ResolvedEndpoint),
    c.resolveEndpoint name override = .ok e ∧ e.toRequest share = .ok r

/-- A resolved request is that of a vLLM or of an Ollama endpoint. -/
theorem FromCatalog.cases {r : EndpointRequest} (h : FromCatalog r) :
    (∃ model ep sharing, r = resolveVllm model ep sharing) ∨
      ∃ host ep sharing, r = resolveOllama host ep sharing := by
  obtain ⟨c, name, override, share, e, he, hr⟩ := h
  unfold Catalog.resolveEndpoint at he
  cases hep : c.endpoints.find? name with
  | none => simp [hep] at he
  | some ep =>
      cases hext : ep.external with
      | some target =>
          simp only [hep, hext, Except.ok.injEq] at he
          subst he
          simp [ResolvedEndpoint.toRequest] at hr
      | none =>
          simp only [hep, hext] at he
          cases hengine : ep.engine with
          | reserved => simp [hengine] at he
          | vllm =>
              simp only [hengine] at he
              cases hm : c.models.find? ep.model with
              | none => simp [hm] at he
              | some model =>
                  simp only [hm, Except.ok.injEq] at he
                  subst he
                  simp only [ResolvedEndpoint.toRequest, Except.ok.injEq] at hr
                  exact .inl ⟨model, ep, _, hr.symm⟩
          | ollama =>
              simp only [hengine] at he
              cases hh : ep.host with
              | none => simp [hh] at he
              | some h =>
                  simp only [hh] at he
                  cases hhost : c.hosts.find? h with
                  | none => simp [hhost] at he
                  | some host =>
                      simp only [hhost, Except.ok.injEq] at he
                      subst he
                      simp only [ResolvedEndpoint.toRequest, Except.ok.injEq] at hr
                      exact .inr ⟨host, ep, _, hr.symm⟩

/-- A request a catalog resolves a vLLM endpoint to. -/
def FromVllm (r : EndpointRequest) : Prop :=
  ∃ (c : Catalog) (name : String) (override share : Option Sharing) (e : ResolvedEndpoint),
    c.resolveEndpoint name override = .ok e ∧ e.toRequest share = .ok r ∧ r.engine = .vllm

theorem FromVllm.fromCatalog {r : EndpointRequest} (h : FromVllm r) : FromCatalog r := by
  obtain ⟨c, name, override, share, e, he, hr, -⟩ := h
  exact ⟨c, name, override, share, e, he, hr⟩

theorem FromVllm.resolved {r : EndpointRequest} (h : FromVllm r) :
    ∃ model ep sharing, r = resolveVllm model ep sharing := by
  cases h.fromCatalog.cases with
  | inl hvllm => exact hvllm
  | inr hollama =>
      obtain ⟨host, ep, sharing, rfl⟩ := hollama
      obtain ⟨-, -, -, -, -, -, -, hengine⟩ := h
      contradiction

/-- A vLLM request records the capacity of the runtime it launches, and
advertises that runtime's window. -/
theorem FromVllm.fields {r : EndpointRequest} (h : FromVllm r) :
    r.capacity = vllmCapacity r.spec.runtime ∧
      r.served.maxInputTokens = some (effectiveMaxModelLen r.spec.runtime) := by
  obtain ⟨model, ep, sharing, rfl⟩ := h.resolved
  exact ⟨rfl, rfl⟩

end InferStack
