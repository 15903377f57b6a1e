import InferStack.EnvFile
import InferStack.Launch
import InferStack.Ledger.Overlay

/-!
# InferStack.Kubeai

The KubeAI backend: one `Model` manifest for each vLLM deployment.

A manifest is written with its mappings in insertion order, and the one mapping
that comes from the catalog is the environment.  Through the ledger it comes
back in the order of its names and with JSON's spelling of them, so a manifest
survives exactly when it was written that way: `manifests_survive_iff`.
-/

namespace InferStack

open Kit

variable {π δ : Type}

/-! ## rendering -/

/-- The settings of the backend. -/
structure KubeaiBackend where
  py : Python
  kubeNamespace : String
  defaultResourceProfile : Option String
  /-- Dynamic routing: one `Model` for each deployment. -/
  uniqueNames : Bool
  /-- Resource profiles with the memory of their GPUs, by name. -/
  sized : List (String × ℚ)
  /-- The recorded VRAM of a model, image, dtype and window. -/
  measured : Option String → Option String → Option String → Option Int → Option ℚ

/-- A `Model` manifest, its mappings as ordered lists. -/
structure ModelDoc where
  name : String
  kubeNamespace : String
  labels : List (String × String)
  url : String
  resourceProfile : String
  minReplicas : Int
  maxReplicas : Int
  args : List String
  /-- Absent when empty. -/
  env : List (String × String)
  deriving DecidableEq

/-- Why a deployment gets no `Model`. -/
inductive ModelExclusion where
  | unsupportedEngine (deployment : String) (engine : Engine)
  | customLaunch (deployment field : String)
  | noResourceProfile (deployment : String)
  | nameTaken (deployment name holder : String)
  deriving DecidableEq

/-- The set of manifests, and who got none. -/
structure RenderedModels where
  docs : List ModelDoc := []
  /-- Model name to deployment. -/
  models : Dict String String := ∅
  errors : List ModelExclusion := []

section Render

variable (K : KubeaiBackend)

/-- The first runtime field a stock `Model` has no place for. -/
def unsupportedRuntimeField (runtime : Runtime) : Option String :=
  if (truthy runtime.image).isSome then some "image"
  else if runtime.command ≠ [] then some "command"
  else if runtime.mounts.rows ≠ [] then some "mounts"
  else none

/-- The `Model` name of a served name: at most 40 characters, an overlong slug
ending in a digest of the whole name. -/
def modelNameFor (served : String) (deploymentId : Option String) : String :=
  let suffix := deploymentId.elim "" fun id => "-" ++ deploymentTail K.py id
  let slug := dnsSlug K.py served
  let budget := 40 - suffix.length
  if budget < slug.length then
    let digest := String.ofList ((K.py.sha256 served).toList.take 8)
    let kept := ((slug.toList.take (budget - digest.length - 1)).reverse.dropWhile
      (· = '-')).reverse
    String.ofList kept ++ "-" ++ digest ++ suffix
  else slug ++ suffix

def modelName (d : Deployment) : String :=
  modelNameFor K (servedName d) (if K.uniqueNames then some d.id else none)

/-- The resource profile of a deployment: its own, else the smallest that is
large enough, else the default. -/
def pickProfile (explicit : Option String) (minVramGib : Option ℚ) : Option String :=
  match truthy explicit with
  | some profile => some profile
  | none =>
      match minVramGib.filter (· ≠ 0) with
      | none => K.defaultResourceProfile
      | some need =>
          let fitting := (K.sized.filter (fun p => need ≤ p.2)).insertionSort
            (fun a b => a.2 < b.2 ∨ (a.2 = b.2 ∧ a.1 ≤ b.1))
          match fitting with
          | p :: _ => some p.1
          | [] => truthy K.defaultResourceProfile

/-- Fill a missing VRAM requirement of a vLLM deployment from a measurement. -/
def KubeaiBackend.enrichMinVram (d : Deployment) : Deployment :=
  if d.engine ≠ .vllm ∨ (d.spec.placement.minVramGib.filter (· ≠ 0)).isSome then d
  else
    match K.measured d.spec.hfModelId d.spec.runtime.image d.spec.dtype d.spec.runtime.maxModelLen with
    | none => d
    | some vram => { d with spec := { d.spec with placement := { d.spec.placement with
        minVramGib := some vram, minVramSource := some "measured" } } }

/-- The environment of a `Model`, in the order of `runtime.env`. -/
def modelEnv (svc : ServiceDict) : Dict String String :=
  let env : Dict String String :=
    Table.ofList (svc.env.rows.map fun kv => (kv.1.str, fill K.py svc kv.2.envString))
  match truthy svc.attentionBackend with
  | some backend => env.set "VLLM_ATTENTION_BACKEND" backend
  | none => env

/-- One `Model` manifest. -/
def modelDoc (d : Deployment) (resourceProfile name : String) : Except LaunchError ModelDoc :=
  -- KubeAI serves under the manifest's own name
  let svc := { vllmServiceDict d with servedModelName := name }
  let minReplicas := parallelSize d.spec.runtime.minReplicas
  match d.spec.hfModelId with
  | none => .error .missingModelId
  | some model => .ok
      { name := name
        kubeNamespace := K.kubeNamespace
        labels := [("infer-stack/managed", "true"), ("infer-stack/deployment", d.id)]
        url := "hf://" ++ model
        resourceProfile := if ':' ∈ resourceProfile.toList then resourceProfile
          else resourceProfile ++ ":" ++ toString (max 1 (requiredGpuCount d))
        minReplicas := minReplicas
        maxReplicas := max minReplicas (parallelSize d.spec.runtime.maxReplicas)
        args := vllmArgs K.py svc false
        env := (modelEnv K svc).rows }

/-- One deployment of the render loop. -/
def renderModel (out : RenderedModels) (d : Deployment) : Except LaunchError RenderedModels :=
  if d.engine ≠ .vllm then
    .ok { out with errors := out.errors ++ [.unsupportedEngine d.id d.engine] }
  else
    match unsupportedRuntimeField d.spec.runtime with
    | some field => .ok { out with errors := out.errors ++ [.customLaunch d.id field] }
    | none =>
        match (pickProfile K d.spec.runtime.resourceProfile d.spec.placement.minVramGib).filter
            (fun p => ¬ p.toList.all isSpace) with
        | none => .ok { out with errors := out.errors ++ [.noResourceProfile d.id] }
        | some profile =>
            match out.models.get? (modelName K d) with
            | some holder =>
                .ok { out with errors := out.errors ++ [.nameTaken d.id (modelName K d) holder] }
            | none => (modelDoc K d profile (modelName K d)).map fun doc =>
                { out with
                  docs := out.docs ++ [doc]
                  models := out.models.set (modelName K d) d.id }

/-- The manifests of a desired set, oldest deployment first. -/
def renderModels (desired : List Deployment) : Except LaunchError RenderedModels :=
  (sortedDeployments (desired.map K.enrichMinVram)).foldlM (renderModel K) {}

/-- The documents of a desired set: what the digest is taken of. -/
def manifests (desired : List Deployment) : Except LaunchError (List ModelDoc) :=
  (renderModels K desired).map RenderedModels.docs

end Render
/-! ## environment names through JSON -/

/-- The names of an environment are texts, written in order. -/
def SortedNames (env : Dict EnvKey EnvValue) : Prop :=
  (∀ k ∈ env.keys, k = .text k.str) ∧ (env.keys.map EnvKey.str).Pairwise (· < ·)

section Names

variable {env : Dict EnvKey EnvValue}

/-- Names JSON can sort stay different from each other in either spelling. -/
theorem nodup_of_sortable (h : EnvKey.sortable env.keys) :
    (env.keys.map EnvKey.json).Nodup ∧ (env.keys.map EnvKey.str).Nodup := by
  have hnodup : env.keys.Nodup := env.nodup
  simp only [EnvKey.sortable, Bool.or_eq_true, List.all_eq_true, decide_eq_true_eq] at h
  rcases h with (htext | hbool) | hone
  · have hinj : ∀ f : EnvKey → String, (∀ s, f (.text s) = s) → (env.keys.map f).Nodup := by
      intro f hf
      apply hnodup.map_on
      intro a ha b hb heq
      cases a with
      | text s =>
          cases b with
          | text t => rw [hf, hf] at heq; rw [heq]
          | bool b => exact absurd (htext _ hb) (by simp)
          | null => exact absurd (htext _ hb) (by simp)
      | bool b => exact absurd (htext _ ha) (by simp)
      | null => exact absurd (htext _ ha) (by simp)
    exact ⟨hinj _ fun _ => rfl, hinj _ fun _ => rfl⟩
  · have hinj : ∀ f : EnvKey → String, f (.bool true) ≠ f (.bool false) →
        (env.keys.map f).Nodup := by
      intro f hf
      apply hnodup.map_on
      intro a ha b hb heq
      cases a with
      | bool x =>
          cases b with
          | bool y =>
              cases x <;> cases y
              · rfl
              · exact absurd heq.symm hf
              · exact absurd heq hf
              · rfl
          | text t => exact absurd (hbool _ hb) (by simp)
          | null => exact absurd (hbool _ hb) (by simp)
      | text t => exact absurd (hbool _ ha) (by simp)
      | null => exact absurd (hbool _ ha) (by simp)
    exact ⟨hinj _ (by decide), hinj _ (by decide)⟩
  · have hsmall : ∀ f : EnvKey → String, (env.keys.map f).Nodup := by
      intro f
      cases hkeys : env.keys with
      | nil => simp
      | cons k ks =>
          rw [hkeys] at hone
          have hnil : ks = [] := List.eq_nil_of_length_eq_zero (by simpa using hone)
          simp [hnil]
    exact ⟨hsmall _, hsmall _⟩

theorem eq_of_length_le_one {α : Type} {l : List α} {a b : α} (h : l.length ≤ 1) (ha : a ∈ l)
    (hb : b ∈ l) : a = b := by
  cases l with
  | nil => simp at ha
  | cons x xs =>
      have hnil : xs = [] := List.eq_nil_of_length_eq_zero (by simpa using h)
      rw [hnil, List.mem_singleton] at ha hb
      rw [ha, hb]

/-- A name in one spelling that occurs in the other is a text. -/
theorem text_of_sortable (h : EnvKey.sortable env.keys) {k k' : EnvKey} (hk : k ∈ env.keys)
    (hk' : k' ∈ env.keys) (heq : k.str = k'.json) : k = .text k.str := by
  simp only [EnvKey.sortable, Bool.or_eq_true, List.all_eq_true, decide_eq_true_eq] at h
  cases k with
  | text s => rfl
  | bool b =>
      rcases h with (htext | hbool) | hone
      · exact absurd (htext _ hk) (by simp)
      · cases k' with
        | bool b' => cases b <;> cases b' <;> simp [EnvKey.str, EnvKey.json] at heq
        | text t => exact absurd (hbool _ hk') (by simp)
        | null => exact absurd (hbool _ hk') (by simp)
      · have hsame : k' = .bool b := eq_of_length_le_one hone hk' hk
        rw [hsame] at heq
        cases b <;> simp [EnvKey.str, EnvKey.json] at heq
  | null =>
      rcases h with (htext | hbool) | hone
      · exact absurd (htext _ hk) (by simp)
      · exact absurd (hbool _ hk) (by simp)
      · have hsame : k' = .null := eq_of_length_le_one hone hk' hk
        rw [hsame] at heq
        simp [EnvKey.str, EnvKey.json] at heq

/-- The names after a reload: sorted, in JSON's spelling. -/
theorem names_storedEnv (h : EnvKey.sortable env.keys) :
    (storedEnv env).keys.map EnvKey.str =
      (Dict.sortEntries (env.rows.map fun kv => (kv.1.json, kv.2))).map Prod.fst := by
  have hjson := (nodup_of_sortable h).1
  have hnames : ((Dict.sortEntries (env.rows.map fun kv => (kv.1.json, kv.2))).map
      Prod.fst).Nodup := by
    have hperm := (Dict.sortEntries_perm (env.rows.map fun kv => (kv.1.json, kv.2))).map Prod.fst
    rw [hperm.nodup_iff, List.map_map]
    unfold Table.keys at hjson
    rwa [List.map_map] at hjson
  have htexts : ((Dict.sortEntries (env.rows.map fun kv => (kv.1.json, kv.2))).map
      fun kv => (EnvKey.text kv.1, kv.2)).map Prod.fst = ((Dict.sortEntries
        (env.rows.map fun kv => (kv.1.json, kv.2))).map Prod.fst).map EnvKey.text := by
    rw [List.map_map, List.map_map]
    rfl
  have hdistinct : (((Dict.sortEntries (env.rows.map fun kv => (kv.1.json, kv.2))).map
      fun kv => (EnvKey.text kv.1, kv.2)).map Prod.fst).Nodup := by
    rw [htexts]
    exact hnames.map fun a b hab => EnvKey.text.inj hab
  have hrows := Table.rows_ofList hdistinct
  show ((storedEnv env).rows.map Prod.fst).map EnvKey.str = _
  unfold storedEnv
  rw [hrows, List.map_map, List.map_map]
  rfl

/-- Names written in order come back as they were. -/
theorem storedEnv_of_sortedNames (h : SortedNames env) : storedEnv env = env := by
  have hjson : ∀ kv ∈ env.rows, kv.1 = .text kv.1.json := by
    intro kv hkv
    have hkey := h.1 kv.1 (List.mem_map_of_mem hkv)
    rw [hkey]
    rfl
  have hstr : ∀ kv ∈ env.rows, kv.1.str = kv.1.json := by
    intro kv hkv
    rw [hjson kv hkv]
    rfl
  have hsorted : (env.rows.map fun kv => (kv.1.json, kv.2)).Pairwise
      (fun a b : String × EnvValue => a.1 ≤ b.1) := by
    have hlt := h.2
    unfold Table.keys at hlt
    rw [List.map_map, List.pairwise_map] at hlt
    rw [List.pairwise_map]
    refine hlt.imp_of_mem fun {a b} ha hb hab => ?_
    rw [← hstr a ha, ← hstr b hb]
    exact le_of_lt hab
  have hsort : Dict.sortEntries (env.rows.map fun kv => (kv.1.json, kv.2)) =
      env.rows.map fun kv => (kv.1.json, kv.2) := List.Pairwise.insertionSort_eq hsorted
  unfold storedEnv
  rw [hsort, List.map_map]
  have hback : env.rows.map ((fun kv : String × EnvValue => (EnvKey.text kv.1, kv.2)) ∘
      fun kv => (kv.1.json, kv.2)) = env.rows := by
    conv_rhs => rw [← List.map_id env.rows]
    apply List.map_congr_left
    intro kv hkv
    exact Prod.ext (hjson kv hkv).symm rfl
  rw [hback]
  exact Table.ext (Table.rows_ofList env.nodup)

/-- Names that come back as they were were written in order. -/
theorem sortedNames_of_names (h : EnvKey.sortable env.keys)
    (hnames : env.keys.map EnvKey.str = (storedEnv env).keys.map EnvKey.str) :
    SortedNames env := by
  rw [names_storedEnv h] at hnames
  have hperm := (Dict.sortEntries_perm (env.rows.map fun kv => (kv.1.json, kv.2))).map Prod.fst
  constructor
  · intro k hk
    have hmem : k.str ∈ env.keys.map EnvKey.str := List.mem_map_of_mem hk
    rw [hnames, hperm.mem_iff, List.map_map] at hmem
    obtain ⟨kv, hkv, heq⟩ := List.mem_map.mp hmem
    exact text_of_sortable h hk (List.mem_map_of_mem hkv) heq.symm
  · have hle := Dict.pairwise_sortEntries (env.rows.map fun kv => (kv.1.json, kv.2))
    have hnodup := (nodup_of_sortable h).2
    rw [hnames] at hnodup ⊢
    exact hle.imp₂ (fun _ _ hab hne => lt_of_le_of_ne hab hne) hnodup

end Names
/-! ## one manifest through the ledger -/

section Survive

variable (K : KubeaiBackend)

/-- Setting one more variable tells apart the names before it. -/
theorem addKey_injective {ks ks' : List String} {k : String} (hmem : k ∈ ks ↔ k ∈ ks')
    (h : Table.addKey ks k = Table.addKey ks' k) : ks = ks' := by
  unfold Table.addKey at h
  by_cases hk : k ∈ ks
  · rwa [if_pos hk, if_pos (hmem.mp hk)] at h
  · rw [if_neg hk, if_neg fun hk' => hk (hmem.mpr hk')] at h
    exact List.append_cancel_right h

/-- The names of a `Model`'s environment, the attention backend apart. -/
theorem keys_envTable {env : Dict EnvKey EnvValue} (h : (env.keys.map EnvKey.str).Nodup)
    (f : EnvValue → String) :
    (Table.ofList (env.rows.map fun kv => (kv.1.str, f kv.2)) : Dict String String).keys =
      env.keys.map EnvKey.str := by
  have hmap : (env.rows.map fun kv => (kv.1.str, f kv.2)).map Prod.fst =
      env.keys.map EnvKey.str := by
    unfold Table.keys
    rw [List.map_map, List.map_map]
    rfl
  rw [Table.keys_ofList, hmap, Table.foldl_addKey_of_nodup h]

/-- The attention backend's name is a text in either spelling. -/
theorem attention_mem_iff {env : Dict EnvKey EnvValue} (h : EnvKey.sortable env.keys) :
    "VLLM_ATTENTION_BACKEND" ∈ env.keys.map EnvKey.str ↔
      "VLLM_ATTENTION_BACKEND" ∈ (storedEnv env).keys.map EnvKey.str := by
  have hperm := (Dict.sortEntries_perm (env.rows.map fun kv => (kv.1.json, kv.2))).map Prod.fst
  rw [names_storedEnv h, hperm.mem_iff, List.map_map]
  have hspell : ∀ k : EnvKey, k.str = "VLLM_ATTENTION_BACKEND" ↔
      k.json = "VLLM_ATTENTION_BACKEND" := by
    intro k
    cases k with
    | text s => exact Iff.rfl
    | bool b => cases b <;> decide
    | null => decide
  unfold Table.keys
  simp only [List.map_map, List.mem_map, Function.comp, hspell]

/-- The environment of a `Model` survives exactly when its names were written
in order. -/
theorem modelEnv_survives_iff (svc : ServiceDict) (h : EnvKey.sortable svc.env.keys) :
    modelEnv K { svc with env := storedEnv svc.env } = modelEnv K svc ↔ SortedNames svc.env := by
  constructor
  · intro heq
    apply sortedNames_of_names h
    have hnames := (nodup_of_sortable h).2
    have hstored : ((storedEnv svc.env).keys.map EnvKey.str).Nodup := by
      have hperm := (Dict.sortEntries_perm (svc.env.rows.map fun kv => (kv.1.json, kv.2))).map
        Prod.fst
      rw [names_storedEnv h, hperm.nodup_iff, List.map_map]
      have hjson := (nodup_of_sortable h).1
      unfold Table.keys at hjson
      rwa [List.map_map] at hjson
    have hkeys := congrArg Table.keys heq
    have hfill : fill K.py { svc with env := storedEnv svc.env } = fill K.py svc := rfl
    unfold modelEnv at hkeys
    rw [hfill] at hkeys
    cases hattention : truthy svc.attentionBackend with
    | none =>
        simp only [hattention] at hkeys
        rw [keys_envTable hstored fun v => fill K.py svc v.envString,
          keys_envTable hnames fun v => fill K.py svc v.envString] at hkeys
        exact hkeys.symm
    | some backend =>
        simp only [hattention, Dict.set, Table.keys_put] at hkeys
        rw [keys_envTable hstored fun v => fill K.py svc v.envString,
          keys_envTable hnames fun v => fill K.py svc v.envString] at hkeys
        exact (addKey_injective (attention_mem_iff h).symm hkeys).symm
  · intro hsorted
    rw [storedEnv_of_sortedNames hsorted]

/-- The documents of one deployment. -/
theorem manifests_singleton (d : Deployment) :
    manifests K [d] = (renderModel K {} (K.enrichMinVram d)).map RenderedModels.docs := by
  unfold manifests renderModels
  have hsort : sortedDeployments ([d].map K.enrichMinVram) = [K.enrichMinVram d] := rfl
  rw [hsort, List.foldlM_cons]
  cases renderModel K {} (K.enrichMinVram d) with
  | error e => rfl
  | ok out => rfl

/-- A measurement reads nothing that JSON changes. -/
theorem enrichMinVram_stored (d : Deployment) :
    K.enrichMinVram d.stored = (K.enrichMinVram d).stored := by
  unfold KubeaiBackend.enrichMinVram
  show (if d.engine ≠ .vllm ∨ (d.spec.placement.minVramGib.filter (· ≠ 0)).isSome then _ else
    match K.measured d.spec.hfModelId d.spec.runtime.image d.spec.dtype
      d.spec.runtime.maxModelLen with
    | none => _
    | some vram => _) = _
  by_cases hdone : d.engine ≠ .vllm ∨ (d.spec.placement.minVramGib.filter (· ≠ 0)).isSome
  · rw [if_pos hdone, if_pos hdone]
  · rw [if_neg hdone, if_neg hdone]
    cases K.measured d.spec.hfModelId d.spec.runtime.image d.spec.dtype
      d.spec.runtime.maxModelLen with
    | none => rfl
    | some vram => rfl

theorem unsupportedRuntimeField_stored (s : Spec) :
    unsupportedRuntimeField s.stored.runtime = unsupportedRuntimeField s.runtime := by
  have hmounts : s.runtime.mounts.sorted.rows = [] ↔ s.runtime.mounts.rows = [] := by
    constructor
    · intro h
      have hperm := Dict.sortEntries_perm s.runtime.mounts.rows
      have hnil : Dict.sortEntries s.runtime.mounts.rows = [] := h
      rw [hnil] at hperm
      exact hperm.nil_eq.symm
    · intro h
      show Dict.sortEntries s.runtime.mounts.rows = []
      rw [h]
      rfl
  unfold unsupportedRuntimeField
  show (if (truthy s.runtime.image).isSome then some "image"
    else if s.runtime.command ≠ [] then some "command"
    else if s.runtime.mounts.sorted.rows ≠ [] then some "mounts" else none) = _
  simp only [ne_eq, hmounts]

/-- The settings a `Model` is written from. -/
def modelService (d : Deployment) : ServiceDict :=
  { vllmServiceDict d with servedModelName := modelName K d }

/-- A document through the ledger: only its environment may change. -/
theorem modelDoc_stored {d : Deployment} {profile : String} {doc : ModelDoc}
    (h : modelDoc K d profile (modelName K d) = .ok doc) :
    doc.env = (modelEnv K (modelService K d)).rows ∧
      modelDoc K d.stored profile (modelName K d.stored) = .ok { doc with
        env := (modelEnv K { modelService K d with
          env := storedEnv (modelService K d).env }).rows } := by
  have hname : modelName K d.stored = modelName K d := rfl
  have hgpus : requiredGpuCount d.stored = requiredGpuCount d := by
    show (if d.spec.reservedGpuCount ≠ 0 then _ else
      if (d.spec.runtime.simulator.map _).isSome || d.spec.runtime.cpuOnly then 0 else _) = _
    rw [Option.isSome_map]
    rfl
  have hid : d.stored.id = d.id := rfl
  have hmodel : d.stored.spec.hfModelId = d.spec.hfModelId := rfl
  unfold modelDoc at h ⊢
  rw [hname, hgpus, hid, hmodel]
  cases hf : d.spec.hfModelId with
  | none => rw [hf] at h; contradiction
  | some model =>
      rw [hf] at h
      obtain rfl := Except.ok.inj h
      -- nothing but the environment reads what JSON changes
      have hargs : vllmArgs K.py { vllmServiceDict d.stored with
          servedModelName := modelName K d } false =
            vllmArgs K.py { vllmServiceDict d with servedModelName := modelName K d } false := by
        unfold vllmArgs
        rfl
      have henv : modelEnv K { vllmServiceDict d.stored with servedModelName := modelName K d } =
          modelEnv K { modelService K d with env := storedEnv (modelService K d).env } := by
        unfold modelEnv fill templateValues
        rfl
      have hmin : d.stored.spec.runtime.minReplicas = d.spec.runtime.minReplicas := rfl
      have hmax : d.stored.spec.runtime.maxReplicas = d.spec.runtime.maxReplicas := rfl
      refine ⟨rfl, ?_⟩
      simp only [hargs, henv, hmin, hmax]

/-- One deployment through the ledger: what could be rendered still can, and
only the environment may change. -/
theorem manifests_stored {d : Deployment} {doc : ModelDoc} (h : manifests K [d] = .ok [doc]) :
    doc.env = (modelEnv K (modelService K d)).rows ∧
      manifests K [d.stored] = .ok [{ doc with
        env := (modelEnv K { modelService K d with
          env := storedEnv (modelService K d).env }).rows }] := by
  have hservice : modelService K (K.enrichMinVram d) = modelService K d := by
    unfold KubeaiBackend.enrichMinVram
    by_cases hdone : d.engine ≠ .vllm ∨ (d.spec.placement.minVramGib.filter (· ≠ 0)).isSome
    · rw [if_pos hdone]
    · rw [if_neg hdone]
      cases K.measured d.spec.hfModelId d.spec.runtime.image d.spec.dtype
        d.spec.runtime.maxModelLen with
      | none => rfl
      | some vram => rfl
  rw [manifests_singleton] at h ⊢
  rw [enrichMinVram_stored, ← hservice]
  generalize K.enrichMinVram d = e at h
  have hengine : e.stored.engine = e.engine := rfl
  have hprofile : e.stored.spec.runtime.resourceProfile = e.spec.runtime.resourceProfile := rfl
  have hvram : e.stored.spec.placement.minVramGib = e.spec.placement.minVramGib := rfl
  have hfield : unsupportedRuntimeField e.stored.spec.runtime =
      unsupportedRuntimeField e.spec.runtime := unsupportedRuntimeField_stored e.spec
  unfold renderModel at h ⊢
  rw [hengine, hfield, hprofile, hvram]
  by_cases hvllm : e.engine ≠ .vllm
  · rw [if_pos hvllm] at h
    simp [Except.map] at h
  · rw [if_neg hvllm] at h ⊢
    cases hf : unsupportedRuntimeField e.spec.runtime with
    | some field => simp [hf, Except.map] at h
    | none =>
        simp only [hf] at h ⊢
        cases hp : (pickProfile K e.spec.runtime.resourceProfile e.spec.placement.minVramGib).filter
            (fun p => ¬ p.toList.all isSpace) with
        | none => rw [hp] at h; simp [Except.map] at h
        | some profile =>
            rw [hp] at h
            simp only [Dict.get?_empty] at h ⊢
            cases hdoc : modelDoc K e profile (modelName K e) with
            | error err => rw [hdoc] at h; contradiction
            | ok doc' =>
                rw [hdoc] at h
                have hsame : doc' = doc := by simpa [Except.map] using h
                subst hsame
                obtain ⟨henv, hstored⟩ := modelDoc_stored K hdoc
                refine ⟨henv, ?_⟩
                rw [hstored]
                rfl

/-- Two manifests of one deployment are the same when their environments are. -/
theorem manifests_stored_eq_iff {d : Deployment} {doc : ModelDoc}
    (hsortable : EnvKey.sortable d.spec.runtime.env.keys) (h : manifests K [d] = .ok [doc]) :
    manifests K [d.stored] = manifests K [d] ↔ SortedNames d.spec.runtime.env := by
  obtain ⟨henv, hstored⟩ := manifests_stored K h
  have hsurvives : _ ↔ SortedNames d.spec.runtime.env :=
    modelEnv_survives_iff K (modelService K d) hsortable
  rw [h, hstored, ← hsurvives]
  constructor
  · intro heq
    have hdocs := Except.ok.inj heq
    have hrows := congrArg ModelDoc.env (List.cons.inj hdocs).1
    apply Table.ext
    rw [← henv]
    exact hrows
  · intro heq
    rw [heq, ← henv]

end Survive

/-- The manifest previewed for a planned deployment is the one rendered from its
stored row exactly when the names of `runtime.env` are texts, written in order. -/
theorem manifests_survive_iff (K : KubeaiBackend) (s s' : Store π δ)
    (requests : List EndpointRequest) (resident : String → Bool) (now : Int)
    (newId : Nat → String) {d d' : Deployment} {doc : ModelDoc}
    (hplanned : d ∈ (planAcquire s requests resident now newId).created)
    (hinserted : s.insertDeployments (planAcquire s requests resident now newId).created.rows =
      some s')
    (hreloaded : s'.getDeployment d.id = some d') (hpreview : manifests K [d] = .ok [doc]) :
    manifests K [d'] = manifests K [d] ↔ SortedNames d.spec.runtime.env := by
  have hsortable : EnvKey.sortable d.spec.runtime.env.keys := by
    unfold Store.insertDeployments at hinserted
    by_cases hall : (planAcquire s requests resident now newId).created.rows.all
        (fun d => EnvKey.sortable d.spec.runtime.env.keys)
    · exact List.all_eq_true.mp hall d hplanned
    · rw [if_neg hall] at hinserted
      contradiction
  have hrow : d' = d.stored := by
    obtain ⟨t, ht, hins, rfl⟩ := Store.insertDeployments_eq_some hinserted
    have hmem : d.stored ∈ t := by
      rw [Table.mem_def, Table.rows_insertAll? hins]
      exact List.mem_append_right _ (List.mem_map_of_mem hplanned)
    have hfind : t.find? d.id = some d.stored := Table.mem_iff_find?.mp hmem
    exact Option.some.inj (hreloaded.symm.trans hfind)
  rw [hrow]
  exact manifests_stored_eq_iff K hsortable hpreview

/-! ## two names, in either order -/

/-- A backend with one resource profile, and the text functions at the inputs below. -/
def smolKubeai : KubeaiBackend where
  py :=
    { float := fun _ => "0.9"
      lower := fun s => String.ofList (s.toList.map Char.toLower)
      sha256 := fun _ => "" }
  kubeNamespace := "kubeai"
  defaultResourceProfile := some "nvidia-gpu"
  uniqueNames := false
  sized := []
  measured := fun _ _ _ _ => none

/-- A catalog whose one endpoint sets two variables. -/
def twoNamesCatalog (first second : String) : Catalog where
  models := ⟨[{ name := "smol", source := "hf://org/smol" }], List.nodup_singleton _⟩
  endpoints := ⟨[{ name := "smol", model := "smol", runtime :=
    { env := Table.ofList [(.text first, .int 1), (.text second, .int 2)] } }],
    List.nodup_singleton _⟩

/-- The request of its endpoint. -/
def twoNamesRequest (first second : String) : EndpointRequest :=
  resolveVllm { name := "smol", source := "hf://org/smol" }
    { name := "smol", model := "smol", runtime :=
      { env := Table.ofList [(.text first, .int 1), (.text second, .int 2)] } } .shared

theorem twoNames_fromVllm (first second : String) : FromVllm (twoNamesRequest first second) :=
  ⟨twoNamesCatalog first second, "smol", none, none, _, rfl, rfl, rfl⟩

/-- The deployment planned for it on an empty ledger. -/
def twoNamesDeployment (first second : String) : Deployment :=
  newDeployment "g1" 0 (twoNamesRequest first second)

/-- Its manifest, with the given environment. -/
def twoNamesDoc (env : List (String × String)) : ModelDoc where
  name := "smol"
  kubeNamespace := "kubeai"
  labels := [("infer-stack/managed", "true"), ("infer-stack/deployment", "g1")]
  url := "hf://" ++ { name := "smol", source := "hf://org/smol" : ModelSpec}.hfModelId
  resourceProfile := "nvidia-gpu:1"
  minReplicas := 1
  maxReplicas := 1
  args := ["--tensor-parallel-size=1", "--pipeline-parallel-size=1", "--data-parallel-size=1",
    "--max-model-len=8192", "--gpu-memory-utilization=0.9", "--max-num-batched-tokens=8192",
    "--max-num-seqs=256"]
  env := env

/-- Two variables written in order: the stored row renders the same manifest. -/
theorem inOrder_survives : ∃ (s' : Store Unit Unit) (d' : Deployment),
    Store.empty.insertDeployments [twoNamesDeployment "A" "B"] = some s' ∧
      s'.getDeployment "g1" = some d' ∧
      manifests smolKubeai [d'] = manifests smolKubeai [twoNamesDeployment "A" "B"] := by
  have hplanned : twoNamesDeployment "A" "B" ∈ (planAcquire (Store.empty : Store Unit Unit)
      [twoNamesRequest "A" "B"] (fun _ => false) 0 (fun _ => "g1")).created :=
    List.mem_singleton_self _
  have hpreview : manifests smolKubeai [twoNamesDeployment "A" "B"] =
      .ok [twoNamesDoc [("A", "1"), ("B", "2")]] := rfl
  refine ⟨_, _, rfl, rfl, (manifests_survive_iff smolKubeai Store.empty _ [twoNamesRequest "A" "B"]
    (fun _ => false) 0 (fun _ => "g1") hplanned rfl rfl hpreview).mpr ?_⟩
  exact ⟨by decide, by decide⟩

/-- Written the other way round, it does not. -/
theorem outOfOrder_changes :
    ¬ ∀ (K : KubeaiBackend) (s s' : Store Unit Unit) (requests : List EndpointRequest)
      (resident : String → Bool) (now : Int) (newId : Nat → String) (d d' : Deployment)
      (doc : ModelDoc), (∀ r ∈ requests, FromVllm r) →
        d ∈ (planAcquire s requests resident now newId).created →
        s.insertDeployments (planAcquire s requests resident now newId).created.rows = some s' →
        s'.getDeployment d.id = some d' → manifests K [d] = .ok [doc] →
        manifests K [d'] = manifests K [d] := by
  intro h
  have hplanned : twoNamesDeployment "B" "A" ∈ (planAcquire (Store.empty : Store Unit Unit)
      [twoNamesRequest "B" "A"] (fun _ => false) 0 (fun _ => "g1")).created :=
    List.mem_singleton_self _
  have hpreview : manifests smolKubeai [twoNamesDeployment "B" "A"] =
      .ok [twoNamesDoc [("B", "1"), ("A", "2")]] := rfl
  have hcommitted : manifests smolKubeai [(twoNamesDeployment "B" "A").stored] =
      .ok [twoNamesDoc [("A", "2"), ("B", "1")]] := rfl
  have hsame := h smolKubeai Store.empty _ [twoNamesRequest "B" "A"] (fun _ => false) 0
    (fun _ => "g1") (twoNamesDeployment "B" "A") (twoNamesDeployment "B" "A").stored _
    (fun r hr => List.mem_singleton.mp hr ▸ twoNames_fromVllm "B" "A") hplanned rfl rfl hpreview
  rw [hcommitted, hpreview] at hsame
  have henv := congrArg ModelDoc.env (List.cons.inj (Except.ok.inj hsame)).1
  contradiction

end InferStack
