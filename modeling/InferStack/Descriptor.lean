import InferStack.EnvRoundTrip
import InferStack.Kit.Words
import InferStack.Launch
import InferStack.Ledger

/-!
# InferStack.Descriptor

The descriptor of a lease and the env file that carries it to a job.

Every endpoint gets a variable that is named by a slug of its alias.  Two aliases
with the same words in capitals share the slug, and the file keeps the model name
of the later one only; `survivesEnvFile_iff` says that nothing else is lost.
-/

namespace InferStack

open Kit

/-! ## the descriptor -/

/-- A lease with the endpoints it is for. -/
structure LeaseRecord extends Lease where
  endpoints : List String

/-- What a caller adds to a lease and its deployments. -/
structure DescriptorOptions where
  baseUrl : Option String
  apiKeyEnv : Option String := some "LITELLM_MASTER_KEY"
  apiKey : Option String := none
  requestNames : Dict String String := ∅
  cudaVisibleDevices : Option String := none
  endpoints : Option (List String) := none

structure Descriptor where
  leaseId : Option String
  baseUrl : Option String
  apiKeyEnv : Option String
  apiKey : Option String
  endpoints : Dict String String
  models : List String
  cudaVisibleDevices : Option String

/-- The name a client must pass as `model` to reach an endpoint. -/
def requestModelName (payload : Served) (endpoint : String) : String :=
  ((truthy payload.servedModelName).or (truthy payload.model)).getD endpoint

/-- Note the name of a served endpoint that is wanted. -/
def noteServed (wanted : List String) (requestNames names : Dict String String)
    (row : String × Served) : Dict String String :=
  if row.1 ∈ wanted then
    names.set row.1 ((requestNames.get? row.1).getD (requestModelName row.2 row.1))
  else names

/-- Note the name of an endpoint that no deployment serves. -/
def noteExternal (requestNames names : Dict String String) (endpoint : String) :
    Dict String String :=
  match names.get? endpoint, requestNames.get? endpoint with
  | none, some name => names.set endpoint name
  | _, _ => names

/-- Copy the name of an endpoint. -/
def copyName (names ordered : Dict String String) (endpoint : String) : Dict String String :=
  match names.get? endpoint with
  | none => ordered
  | some name => ordered.set endpoint name

/-- The endpoints to describe: those asked for, or the lease's. -/
def wantedEndpoints (lease : Option LeaseRecord) (o : DescriptorOptions) : List String :=
  match o.endpoints, lease with
  | some endpoints, _ => endpoints
  | none, some lease => lease.endpoints
  | none, none => []

/-- Build the descriptor of a lease, or of an access without one. -/
def buildDescriptor (lease : Option LeaseRecord) (deployments : List Deployment)
    (o : DescriptorOptions) : Descriptor :=
  let wanted := wantedEndpoints lease o
  let names := deployments.foldl
    (fun names d => d.served.rows.foldl (noteServed wanted o.requestNames) names) ∅
  let names := wanted.foldl (noteExternal o.requestNames) names
  let ordered := wanted.foldl (copyName names) ∅
  { leaseId := lease.map (·.id)
    baseUrl := o.baseUrl
    apiKeyEnv := o.apiKeyEnv
    apiKey := truthy o.apiKey
    endpoints := ordered
    models := ordered.rows.map Prod.snd
    cudaVisibleDevices := o.cudaVisibleDevices }

/-! ## the env file -/

def leaseEnv : String := "INFER_STACK_LEASE_ID"

/-- The capital form of a character.  Outside of ASCII only that of these few has a letter
from A to Z in it; the others have no other effect on a slug than the character itself. -/
def upperChar (c : Char) : List Char :=
  match c with
  | 'ß' => ['S', 'S']
  | 'ı' => ['I']
  | 'ŉ' => ['ʼ', 'N']
  | 'ſ' => ['S']
  | 'ǰ' => ['J', '\u030c']
  | 'ẖ' => ['H', '\u0331']
  | 'ẗ' => ['T', '\u0308']
  | 'ẘ' => ['W', '\u030a']
  | 'ẙ' => ['Y', '\u030a']
  | 'ẚ' => ['A', 'ʾ']
  | 'ﬀ' => ['F', 'F']
  | 'ﬁ' => ['F', 'I']
  | 'ﬂ' => ['F', 'L']
  | 'ﬃ' => ['F', 'F', 'I']
  | 'ﬄ' => ['F', 'F', 'L']
  | 'ﬅ' => ['S', 'T']
  | 'ﬆ' => ['S', 'T']
  | c => [c.toUpper]

/-- What a slug keeps. -/
def isSlugChar (c : Char) : Bool := ('A' ≤ c ∧ c ≤ 'Z') ∨ ('0' ≤ c ∧ c ≤ '9')

/-- The variable of an endpoint. -/
@[irreducible]
def endpointVar (endpoint : String) : String :=
  String.ofList ("INFER_STACK_ENDPOINT_".toList ++
    slug isSlugChar '_' (endpoint.toList.flatMap upperChar))

/-- Assign a variable that may have no value. -/
def setIf (env : Dict String String) (k : String) (v : Option String) : Dict String String :=
  match v with
  | none => env
  | some v => env.set k v

/-- The variables that a job should see. -/
def descriptorEnv (d : Descriptor) : Dict String String :=
  let env := setIf ∅ leaseEnv (truthy d.leaseId)
  let env := setIf env "OPENAI_BASE_URL" (truthy d.baseUrl)
  let env := setIf env "OPENAI_API_KEY" (truthy d.apiKey)
  let env := setIf env "INFER_STACK_API_KEY_ENV" (truthy d.apiKeyEnv)
  let env := d.endpoints.rows.foldl (fun env row => env.set (endpointVar row.1) row.2) env
  let env := setIf env "INFER_STACK_MODELS"
    (if d.models = [] then none
      else some (String.ofList (joinWords ',' (d.models.map String.toList))))
  setIf env "CUDA_VISIBLE_DEVICES" d.cudaVisibleDevices

/-- The line that exports a variable. -/
def exportLine (k v : String) : List Char := "export ".toList ++ (k.toList ++ '=' :: v.toList)

/-- The env file of a descriptor. -/
def renderEnvFile (d : Descriptor) : List Char :=
  (descriptorEnv d).rows.flatMap fun row => exportLine row.1 row.2 ++ ['\n']

/-- Text without one kind of quote around it. -/
def stripQuotes (q : Char) (l : List Char) : List Char := stripEnds q l

/-- The lease id that a line names. -/
def lineLeaseId (line : List Char) : Option String :=
  let line := stripped line
  let value := fun l => String.ofList (stripQuotes '\'' (stripQuotes '"' (stripped l)))
  if ("export ".toList ++ (leaseEnv.toList ++ ['='])).isPrefixOf line then
    some (value (line.drop ("export ".toList ++ (leaseEnv.toList ++ ['='])).length))
  else if (leaseEnv.toList ++ ['=']).isPrefixOf line then
    some (value (line.dropWhile (· ≠ '=')).tail)
  else none

/-- Recover the lease id from an env file. -/
def readLeaseId (text : List Char) : Option String := (splitLines text).findSome? lineLeaseId

/-! ## sourcing the file -/

/-- What a shell does with a line that exports a plain value. -/
def sourceLine (env : Dict String String) (line : List Char) : Dict String String :=
  if "export ".toList.isPrefixOf line ∧ '=' ∈ line then
    let rest := line.drop "export ".length
    env.set (String.ofList (rest.takeWhile (· ≠ '='))) (String.ofList (rest.dropWhile (· ≠ '=')).tail)
  else env

/-- The variables after the file was sourced. -/
def sourced (text : List Char) : Dict String String := (splitLines text).foldl sourceLine ∅

/-- What a shell does not take literally. -/
def metacharacters : List Char := "\"'\\$`;&|<>()*?[]#~!\x7b\x7d".toList

/-- A value without shell metacharacters and whitespace, line breaks among it. -/
def PlainValue (v : String) : Prop := ∀ c ∈ v.toList, isSpace c = false ∧ c ∉ metacharacters

/-! ## the names of the endpoints -/

/-- What some deployments say of an endpoint: the last row wins. -/
def servedRow (deployments : List Deployment) (endpoint : String) : Option Served :=
  ((deployments.flatMap (·.served.rows)).filter (·.1 = endpoint)).getLast?.map Prod.snd

/-- The request model name of an endpoint: that of the front door, or of its deployment. -/
def ownName (deployments : List Deployment) (requestNames : Dict String String)
    (endpoint : String) : Option String :=
  (requestNames.get? endpoint).or
    ((servedRow deployments endpoint).map fun payload => requestModelName payload endpoint)

theorem get?_noteServed {wanted : List String} {requestNames names : Dict String String}
    (rows : List (String × Served)) (e : String) :
    (rows.foldl (noteServed wanted requestNames) names).get? e =
      if e ∈ wanted then
        ((rows.filter (·.1 = e)).getLast?.map fun row =>
          (requestNames.get? e).getD (requestModelName row.2 e)).or (names.get? e)
      else names.get? e := by
  induction rows generalizing names with
  | nil => simp
  | cons row rows ih =>
      have hone : (noteServed wanted requestNames names row).get? e =
          if row.1 = e ∧ e ∈ wanted then
            some ((requestNames.get? e).getD (requestModelName row.2 e))
          else names.get? e := by
        unfold noteServed
        by_cases hwanted : row.1 ∈ wanted
        · rw [if_pos hwanted, Dict.get?_set]
          by_cases heq : row.1 = e
          · subst heq
            rw [if_pos rfl, if_pos ⟨rfl, hwanted⟩]
          · rw [if_neg heq, if_neg fun h => heq h.1]
        · rw [if_neg hwanted, if_neg]
          rintro ⟨rfl, hin⟩
          exact hwanted hin
      rw [List.foldl_cons, ih, hone]
      by_cases hwanted : e ∈ wanted
      · by_cases heq : row.1 = e
        · rw [if_pos hwanted, if_pos hwanted, if_pos ⟨heq, hwanted⟩,
            List.filter_cons_of_pos (by simpa using heq), List.getLast?_cons]
          cases (rows.filter (·.1 = e)).getLast? <;> simp
        · rw [if_pos hwanted, if_pos hwanted, if_neg fun h => heq h.1,
            List.filter_cons_of_neg (by simpa using heq)]
      · rw [if_neg hwanted, if_neg hwanted, if_neg fun h => hwanted h.2]

theorem get?_noteExternal {requestNames names : Dict String String} (wanted : List String)
    (e : String) : (wanted.foldl (noteExternal requestNames) names).get? e =
      (names.get? e).or (if e ∈ wanted then requestNames.get? e else none) := by
  induction wanted generalizing names with
  | nil => simp
  | cons w wanted ih =>
      have hone : (noteExternal requestNames names w).get? e =
          (names.get? e).or (if w = e then requestNames.get? e else none) := by
        unfold noteExternal
        by_cases heq : w = e
        · subst heq
          cases hname : names.get? w with
          | some n => simp [hname]
          | none =>
              cases hrequest : requestNames.get? w with
              | none => simp [hname]
              | some n => simp
        · rw [if_neg heq, Option.or_none]
          split
          · rw [Dict.get?_set, if_neg heq]
          · rfl
      rw [List.foldl_cons, ih, hone, Option.or_assoc]
      congr 1
      by_cases heq : w = e
      · subst heq
        cases requestNames.get? w <;> simp
      · have hne : ¬ e = w := fun h => heq h.symm
        simp [heq, hne]

theorem get?_copyName {names ordered : Dict String String} (wanted : List String) (e : String) :
    (wanted.foldl (copyName names) ordered).get? e =
      if e ∈ wanted then (names.get? e).or (ordered.get? e) else ordered.get? e := by
  induction wanted generalizing ordered with
  | nil => simp
  | cons w wanted ih =>
      have hone : (copyName names ordered w).get? e =
          if w = e then (names.get? e).or (ordered.get? e) else ordered.get? e := by
        unfold copyName
        cases hname : names.get? w with
        | none =>
            by_cases heq : w = e
            · subst heq
              simp [hname]
            · simp [heq]
        | some n =>
            rw [Dict.get?_set]
            by_cases heq : w = e
            · subst heq
              simp [hname]
            · simp [heq]
      rw [List.foldl_cons, ih, hone]
      by_cases heq : w = e
      · subst heq
        cases names.get? w <;> simp
      · have hne : ¬ e = w := fun h => heq h.symm
        simp [heq, hne]

/-- The descriptor gives each endpoint asked for its own name. -/
theorem get?_endpoints (lease : Option LeaseRecord) (deployments : List Deployment)
    (o : DescriptorOptions) (e : String) :
    (buildDescriptor lease deployments o).endpoints.get? e =
      if e ∈ wantedEndpoints lease o then ownName deployments o.requestNames e else none := by
  unfold buildDescriptor ownName servedRow
  dsimp only
  rw [get?_copyName, get?_noteExternal, ← List.foldl_flatMap, get?_noteServed, Dict.get?_empty,
    Option.or_none, Option.or_none]
  by_cases hwanted : e ∈ wantedEndpoints lease o
  · rw [if_pos hwanted, if_pos hwanted, if_pos hwanted, if_pos hwanted, Option.map_map]
    cases ((deployments.flatMap (·.served.rows)).filter (·.1 = e)).getLast? with
    | none => simp
    | some row => cases o.requestNames.get? e <;> simp
  · rw [if_neg hwanted, if_neg hwanted]

/-! ## variables -/

theorem slug_chars (l : List Char) : ∀ c ∈ slug isSlugChar '_' l, isSlugChar c = true ∨ c = '_' := by
  have hjoin : ∀ ws : List (List Char), Wordly isSlugChar ws →
      ∀ c ∈ joinWords '_' ws, isSlugChar c = true ∨ c = '_' := by
    intro ws hws c hc
    obtain ⟨w, hw, hin⟩ | rfl := mem_joinWords hc
    · exact .inl ((hws w hw).2 c hin)
    · exact .inr rfl
  rw [slug_eq_join (by decide)]
  exact hjoin _ (wordly_words l)

theorem toList_endpointVar (e : String) : (endpointVar e).toList =
    "INFER_STACK_ENDPOINT_".toList ++ slug isSlugChar '_' (e.toList.flatMap upperChar) := by
  unfold endpointVar
  exact String.toList_ofList

/-- A variable name that the file can hold. -/
structure VarName (k : String) : Prop where
  noSpace : ∀ c ∈ k.toList, isSpace c = false
  noAssign : '=' ∉ k.toList

/-- The variables of the file that are no endpoint's. -/
def fixedVars : List String :=
  [leaseEnv, "OPENAI_BASE_URL", "OPENAI_API_KEY", "INFER_STACK_API_KEY_ENV", "INFER_STACK_MODELS",
    "CUDA_VISIBLE_DEVICES"]

theorem varName_fixed {k : String} (h : k ∈ fixedVars) : VarName k := by
  have hall : ∀ k ∈ fixedVars, (k.toList.all fun c => isSpace c = false) = true ∧
      '=' ∉ k.toList := by decide +kernel
  exact ⟨noSpace_of_all (hall k h).1, (hall k h).2⟩

theorem isSlugChar_plain {c : Char} (h : isSlugChar c = true) : isSpace c = false ∧ c ≠ '=' := by
  constructor
  · have hrange : ('0'.val.toNat ≤ c.val.toNat ∧ c.val.toNat ≤ '9'.val.toNat) ∨
        ('A'.val.toNat ≤ c.val.toNat ∧ c.val.toNat ≤ 'Z'.val.toNat) := by
      simpa [isSlugChar, Char.le_def, UInt32.le_iff_toNat_le, or_comm] using h
    have hbounds : 32 < c.val.toNat ∧ c.val.toNat < 133 := by
      simp only [Char.reduceVal, UInt32.reduceToNat] at hrange
      omega
    simp only [isSpace, UInt32.le_iff_toNat_le, ← UInt32.toNat_inj, UInt32.reduceToNat,
      List.mem_cons, List.not_mem_nil, or_false, Bool.or_eq_false_iff, Bool.and_eq_false_iff,
      decide_eq_false_iff_not]
    omega
  · rintro rfl
    contradiction

theorem varName_endpointVar (e : String) : VarName (endpointVar e) := by
  have hplain : ∀ c ∈ (endpointVar e).toList, isSpace c = false ∧ c ≠ '=' := by
    intro c hc
    rw [toList_endpointVar] at hc
    cases List.mem_append.mp hc with
    | inl hin =>
        have hall : ∀ text ∈ ["INFER_STACK_ENDPOINT_"],
            (text.toList.all fun c => isSpace c = false) = true ∧ '=' ∉ text.toList := by
          decide +kernel
        obtain ⟨hspace, hassign⟩ := hall _ List.mem_cons_self
        exact ⟨noSpace_of_all hspace c hin, fun heq => hassign (heq ▸ hin)⟩
    | inr hin =>
        cases slug_chars _ c hin with
        | inl h => exact isSlugChar_plain h
        | inr h => exact h ▸ ⟨by decide, by decide⟩
  exact ⟨fun c hc => (hplain c hc).1, fun hin => (hplain _ hin).2 rfl⟩

theorem endpointVar_not_fixed (e : String) : endpointVar e ∉ fixedVars := by
  intro hin
  have hall : ∀ text ∈ ["INFER_STACK_ENDPOINT_"], ∀ k ∈ fixedVars, ¬ text.toList <+: k.toList := by
    decide +kernel
  apply hall _ List.mem_cons_self _ hin
  rw [toList_endpointVar]
  exact List.prefix_append _ _

/-- Two endpoints share a variable exactly if they have the same words in capitals. -/
theorem endpointVar_eq_iff (e e' : String) : endpointVar e = endpointVar e' ↔
    words isSlugChar (e.toList.flatMap upperChar) =
      words isSlugChar (e'.toList.flatMap upperChar) := by
  rw [← @slug_eq_iff Char isSlugChar '_' _ (by decide)]
  unfold endpointVar
  rw [String.ofList_inj, List.append_cancel_left_eq]

/-! ## the variables of a descriptor -/

theorem get?_setIf (env : Dict String String) (k : String) (v : Option String) (x : String) :
    (setIf env k v).get? x = (if k = x then v else none).or (env.get? x) := by
  unfold setIf
  cases v with
  | none => simp
  | some v =>
      rw [Dict.get?_set]
      by_cases heq : k = x <;> simp [heq]

theorem get?_endpointVars (rows : List (String × String)) (env : Dict String String) (x : String) :
    (rows.foldl (fun env row => env.set (endpointVar row.1) row.2) env).get? x =
      ((rows.filter (endpointVar ·.1 = x)).getLast?.map Prod.snd).or (env.get? x) := by
  induction rows generalizing env with
  | nil => simp
  | cons row rows ih =>
      rw [List.foldl_cons, ih, Dict.get?_set]
      by_cases heq : endpointVar row.1 = x
      · rw [if_pos heq, List.filter_cons_of_pos (by simpa using heq), List.getLast?_cons]
        cases (rows.filter (endpointVar ·.1 = x)).getLast? <;> simp
      · rw [if_neg heq, List.filter_cons_of_neg (by simpa using heq)]

/-- The only row with its value is the last of those with that value. -/
theorem getLast?_filter_of_unique {α β : Type} [DecidableEq β] {f : α → β} {rows : List α} {r : α}
    (hr : r ∈ rows) (hunique : ∀ a ∈ rows, f a = f r → a = r) :
    (rows.filter (f · = f r)).getLast? = some r := by
  have hin : r ∈ rows.filter (f · = f r) := List.mem_filter.mpr ⟨hr, by simp⟩
  cases hlast : (rows.filter (f · = f r)).getLast? with
  | none =>
      rw [List.getLast?_eq_none_iff.mp hlast] at hin
      contradiction
  | some a =>
      obtain ⟨hmem, heq⟩ := List.mem_filter.mp (List.mem_of_mem_getLast? hlast)
      rw [hunique a hmem (by simpa using heq)]

/-- An endpoint's variable has the endpoint's name, if no other endpoint shares it. -/
theorem get?_descriptorEnv_endpoint {d : Descriptor} {e m : String}
    (hget : d.endpoints.get? e = some m)
    (hown : ∀ e' ∈ d.endpoints.keys, endpointVar e' = endpointVar e → e' = e) :
    (descriptorEnv d).get? (endpointVar e) = some m := by
  have hfixed : ∀ k ∈ fixedVars, k ≠ endpointVar e :=
    fun k hk heq => endpointVar_not_fixed e (heq ▸ hk)
  have hmodels := hfixed "INFER_STACK_MODELS" (by simp [fixedVars])
  have hcuda := hfixed "CUDA_VISIBLE_DEVICES" (by simp [fixedVars])
  have hrow : (e, m) ∈ d.endpoints.rows := Dict.get?_eq_some.mp hget
  have hlast : (d.endpoints.rows.filter (endpointVar ·.1 = endpointVar e)).getLast? = some (e, m) :=
    getLast?_filter_of_unique (f := fun row : String × String => endpointVar row.1) hrow
      fun row hmem hvar => d.endpoints.eq_of_key_eq hmem hrow
        (hown row.1 (Table.mem_keys.mpr ⟨row, hmem, rfl⟩) hvar)
  have hvars := get?_endpointVars d.endpoints.rows
  unfold descriptorEnv
  dsimp only
  rw [get?_setIf, if_neg hcuda, Option.none_or, get?_setIf, if_neg hmodels, Option.none_or, hvars,
    hlast, Option.map_some, Option.some_or]

/-- The lease variable has the id of the lease. -/
theorem get?_descriptorEnv_lease (d : Descriptor) :
    (descriptorEnv d).get? leaseEnv = truthy d.leaseId := by
  have hnone : d.endpoints.rows.filter (endpointVar ·.1 = leaseEnv) = [] := by
    refine List.filter_eq_nil_iff.mpr fun row _ heq => endpointVar_not_fixed row.1 ?_
    have hvar : endpointVar row.1 = leaseEnv := by simpa using heq
    rw [hvar]
    simp [fixedVars]
  unfold descriptorEnv
  dsimp only
  simp only [get?_setIf, get?_endpointVars, hnone]
  simp [leaseEnv]

/-- The values of a descriptor are plain. -/
structure PlainDescriptor (d : Descriptor) : Prop where
  leaseId : ∀ v ∈ d.leaseId, PlainValue v
  baseUrl : ∀ v ∈ d.baseUrl, PlainValue v
  apiKey : ∀ v ∈ d.apiKey, PlainValue v
  apiKeyEnv : ∀ v ∈ d.apiKeyEnv, PlainValue v
  endpoints : ∀ e m, d.endpoints.get? e = some m → PlainValue m
  models : ∀ m ∈ d.models, PlainValue m
  cudaVisibleDevices : ∀ v ∈ d.cudaVisibleDevices, PlainValue v

/-- A variable with its value, as a line can hold them. -/
def PlainEntry (k v : String) : Prop := VarName k ∧ PlainValue v

theorem plain_setIf {env : Dict String String} {k : String} {v : Option String}
    (henv : ∀ k v, env.get? k = some v → PlainEntry k v) (hk : k ∈ fixedVars)
    (hv : ∀ x ∈ v, PlainValue x) : ∀ k' v', (setIf env k v).get? k' = some v' → PlainEntry k' v' := by
  intro k' v' hget
  rw [get?_setIf] at hget
  by_cases heq : k = k'
  · rw [if_pos heq] at hget
    cases v with
    | none => exact henv k' v' hget
    | some x =>
        obtain rfl := Option.some.inj hget
        exact ⟨heq ▸ varName_fixed hk, hv x rfl⟩
  · rw [if_neg heq] at hget
    exact henv k' v' hget

theorem plain_truthy {v : Option String} (hv : ∀ x ∈ v, PlainValue x) :
    ∀ x ∈ truthy v, PlainValue x := by
  intro x hx
  exact hv x (Option.filter_eq_some_iff.mp hx).1

theorem plain_models {models : List String} (h : ∀ m ∈ models, PlainValue m) :
    PlainValue (String.ofList (joinWords ',' (models.map String.toList))) := by
  intro c hc
  rw [String.toList_ofList] at hc
  obtain ⟨w, hw, hin⟩ | rfl := mem_joinWords hc
  · obtain ⟨m, hm, rfl⟩ := List.mem_map.mp hw
    exact h m hm c hin
  · decide +kernel

theorem plain_endpointVars {endpoints env : Dict String String}
    (hendpoints : ∀ e m, endpoints.get? e = some m → PlainValue m)
    (henv : ∀ k v, env.get? k = some v → PlainEntry k v) : ∀ k v,
    (endpoints.rows.foldl (fun env row => env.set (endpointVar row.1) row.2) env).get? k = some v →
      PlainEntry k v := by
  intro k v hget
  rw [get?_endpointVars] at hget
  cases hlast : (endpoints.rows.filter (endpointVar ·.1 = k)).getLast? with
  | none =>
      rw [hlast] at hget
      exact henv k v hget
  | some row =>
      rw [hlast] at hget
      obtain rfl := Option.some.inj hget
      obtain ⟨hmem, hvar⟩ := List.mem_filter.mp (List.mem_of_mem_getLast? hlast)
      obtain rfl : endpointVar row.1 = k := by simpa using hvar
      exact ⟨varName_endpointVar row.1, hendpoints row.1 row.2 (Dict.get?_eq_some.mpr hmem)⟩

/-- The variables of a plain descriptor are plain. -/
theorem plain_descriptorEnv {d : Descriptor} (h : PlainDescriptor d) :
    ∀ k v, (descriptorEnv d).get? k = some v → PlainEntry k v := by
  have hempty : ∀ k v, (∅ : Dict String String).get? k = some v → PlainEntry k v := by simp
  have hlease := plain_setIf (k := leaseEnv) hempty (by simp [fixedVars]) (plain_truthy h.leaseId)
  have hurl := plain_setIf (k := "OPENAI_BASE_URL") hlease (by simp [fixedVars])
    (plain_truthy h.baseUrl)
  have hkey := plain_setIf (k := "OPENAI_API_KEY") hurl (by simp [fixedVars]) (plain_truthy h.apiKey)
  have hkeyEnv := plain_setIf (k := "INFER_STACK_API_KEY_ENV") hkey (by simp [fixedVars])
    (plain_truthy h.apiKeyEnv)
  have hvars := plain_endpointVars h.endpoints hkeyEnv
  have hmodels := plain_setIf (k := "INFER_STACK_MODELS")
    (v := if d.models = [] then none
      else some (String.ofList (joinWords ',' (d.models.map String.toList))))
    hvars (by simp [fixedVars]) (by
      intro x hx
      by_cases hnil : d.models = []
      · rw [if_pos hnil] at hx
        contradiction
      · rw [if_neg hnil] at hx
        exact Option.some.inj hx ▸ plain_models h.models)
  exact plain_setIf (k := "CUDA_VISIBLE_DEVICES") hmodels (by simp [fixedVars]) h.cudaVisibleDevices

/-! ## reading the file -/

section Read

variable {k v : String}

theorem isLineBreak_of_isSpace {c : Char} (h : isSpace c = false) : isLineBreak c = false := by
  cases hb : isLineBreak c with
  | false => rfl
  | true =>
      rw [isSpace_of_isLineBreak hb] at h
      contradiction

theorem unbroken_exportLine (h : PlainEntry k v) : Unbroken (exportLine k v) := by
  have hstart : ∀ text ∈ ["export "], (text.toList.all fun c => isLineBreak c = false) = true := by
    decide +kernel
  intro c hc
  unfold exportLine at hc
  cases List.mem_append.mp hc with
  | inl hin => exact unbroken_of_all (hstart _ List.mem_cons_self) c hin
  | inr hin =>
      cases List.mem_append.mp hin with
      | inl hname => exact isLineBreak_of_isSpace (h.1.noSpace c hname)
      | inr hvalue =>
          cases List.mem_cons.mp hvalue with
          | inl heq => exact heq ▸ by decide
          | inr hv => exact isLineBreak_of_isSpace (h.2 c hv).1

/-- The lines of the file are those of its variables. -/
theorem splitLines_renderEnvFile {d : Descriptor} (h : PlainDescriptor d) :
    splitLines (renderEnvFile d) =
      (descriptorEnv d).rows.map fun row => exportLine row.1 row.2 := by
  have hlines : renderEnvFile d =
      terminated ((descriptorEnv d).rows.map fun row => exportLine row.1 row.2) := by
    unfold renderEnvFile terminated
    rw [List.flatMap_map]
  rw [hlines]
  apply splitLines_terminated
  intro line hline
  obtain ⟨row, hrow, rfl⟩ := List.mem_map.mp hline
  exact unbroken_exportLine (plain_descriptorEnv h row.1 row.2 (Dict.get?_eq_some.mpr hrow))

theorem cut_assign {name rest : List Char} (h : '=' ∉ name) :
    (name ++ '=' :: rest).takeWhile (· ≠ '=') = name ∧
      (name ++ '=' :: rest).dropWhile (· ≠ '=') = '=' :: rest := by
  have hpos : ∀ c ∈ name, decide (c ≠ '=') = true := by
    intro c hc
    have hne : c ≠ '=' := fun heq => h (heq ▸ hc)
    simpa using hne
  rw [List.takeWhile_append_of_pos hpos, List.dropWhile_append_of_pos hpos]
  simp

theorem sourceLine_exportLine (env : Dict String String) (h : VarName k) :
    sourceLine env (exportLine k v) = env.set k v := by
  obtain ⟨htake, hdrop⟩ := @cut_assign k.toList v.toList h.noAssign
  have hcond : "export ".toList.isPrefixOf (exportLine k v) ∧ '=' ∈ exportLine k v := by
    refine ⟨List.isPrefixOf_iff_prefix.mpr (List.prefix_append _ _), ?_⟩
    unfold exportLine
    simp
  have hrest : (exportLine k v).drop "export ".length = k.toList ++ '=' :: v.toList := by
    unfold exportLine
    rw [← String.length_toList, List.drop_left]
  unfold sourceLine
  rw [if_pos hcond]
  dsimp only
  rw [hrest, htake, hdrop, List.tail_cons, String.ofList_toList, String.ofList_toList]

/-- Sourcing the file assigns the variables of the descriptor. -/
theorem get?_sourced {d : Descriptor} (h : PlainDescriptor d) (k : String) :
    (sourced (renderEnvFile d)).get? k = (descriptorEnv d).get? k := by
  have hfold : ∀ (rows : List (String × String)) (env : Dict String String),
      (∀ row ∈ rows, VarName row.1) →
      (rows.map fun row => exportLine row.1 row.2).foldl sourceLine env = env.putAll rows := by
    intro rows
    induction rows with
    | nil => intro env _; rfl
    | cons row rows ih =>
        intro env hrows
        rw [List.map_cons, List.foldl_cons, sourceLine_exportLine env (hrows row List.mem_cons_self),
          ih _ fun r hr => hrows r (List.mem_cons_of_mem _ hr)]
        rfl
  have hnames : ∀ row ∈ (descriptorEnv d).rows, VarName row.1 := fun row hrow =>
    (plain_descriptorEnv h row.1 row.2 (Dict.get?_eq_some.mpr hrow)).1
  unfold sourced
  rw [splitLines_renderEnvFile h, hfold _ _ hnames]
  unfold Dict.get?
  rw [Table.find?_putAll (descriptorEnv d).nodup, Table.find?_empty, Option.or_none]
  rfl

theorem varName_leaseEnv : VarName leaseEnv := varName_fixed (by simp [fixedVars])

/-- A plain text has nothing to strip. -/
theorem stripped_plain {v : String} (h : PlainValue v) : stripped v.toList = v.toList :=
  stripped_of_ends (fun c hc => (h c (List.mem_of_mem_head? hc)).1)
    fun c hc => (h c (List.mem_of_mem_getLast? hc)).1

theorem stripQuotes_plain {v : String} (h : PlainValue v) {q : Char} (hq : q ∈ metacharacters) :
    stripQuotes q v.toList = v.toList := by
  have hne : ∀ c ∈ v.toList, c ≠ q := fun c hc heq => (h c hc).2 (heq ▸ hq)
  have hstrip := @stripEnds_eq Char q _ [] [] v.toList (.inl rfl)
    (.inl rfl) (fun _ => rfl) (fun c hc => hne c (List.mem_of_mem_head? hc))
    fun c hc => hne c (List.mem_of_mem_getLast? hc)
  simpa [stripQuotes] using hstrip

/-- Two names before an assignment, one text a start of the other. -/
theorem prefix_assign {name name' rest : List Char} (h : '=' ∉ name) (h' : '=' ∉ name') :
    name ++ ['='] <+: name' ++ '=' :: rest ↔ name = name' := by
  constructor
  · rintro ⟨more, heq⟩
    have htake := (@cut_assign name more h).1
    have htake' := (@cut_assign name' rest h').1
    have hsame : name ++ '=' :: more = name' ++ '=' :: rest := by simpa using heq
    rw [hsame, htake'] at htake
    exact htake.symm
  · rintro rfl
    exact ⟨rest, by simp⟩

theorem exportLine_split (k v : String) :
    exportLine k v = "export ".toList ++ (k.toList ++ ['=']) ++ v.toList := by
  unfold exportLine
  rw [List.append_assoc, List.append_assoc, List.singleton_append]

/-- A line of the file names a lease if it exports the lease variable. -/
theorem lineLeaseId_exportLine (h : PlainEntry k v) :
    lineLeaseId (exportLine k v) = if k = leaseEnv then some v else none := by
  obtain ⟨hk, hv⟩ := h
  have hstart : ∀ text ∈ ["export "], text.toList.head? = some 'e' := by decide +kernel
  have hhead : (exportLine k v).head? = some 'e' := by
    unfold exportLine
    rw [List.head?_append, hstart _ List.mem_cons_self]
    rfl
  have hstrip : stripped (exportLine k v) = exportLine k v := by
    refine stripped_of_ends (fun c hc => ?_) fun c hc => ?_
    · rw [hhead] at hc
      exact Option.some.inj hc ▸ by decide
    · unfold exportLine at hc
      rw [← List.append_assoc, List.getLast?_append_of_ne_nil _ (by simp)] at hc
      cases List.mem_cons.mp (List.mem_of_mem_getLast? hc) with
      | inl heq => exact heq ▸ by decide
      | inr hin => exact (hv c hin).1
  have hexport : ("export ".toList ++ (leaseEnv.toList ++ ['='])).isPrefixOf (exportLine k v) =
      decide (k = leaseEnv) := by
    rw [Bool.eq_iff_iff, List.isPrefixOf_iff_prefix, decide_eq_true_eq]
    unfold exportLine
    rw [List.prefix_append_right_inj, prefix_assign varName_leaseEnv.noAssign hk.noAssign,
      String.toList_inj, eq_comm]
  have hbare : (leaseEnv.toList ++ ['=']).isPrefixOf (exportLine k v) = false := by
    have hlease : (leaseEnv.toList ++ ['=']).head? = some 'I' := by decide +kernel
    rw [Bool.eq_false_iff, ne_eq, List.isPrefixOf_iff_prefix]
    rintro ⟨more, hsame⟩
    have hfirst := congrArg List.head? hsame
    rw [List.head?_append, hlease, hhead] at hfirst
    have hchar : 'I' = 'e' := Option.some.inj hfirst
    contradiction
  have hquote : '"' ∈ metacharacters ∧ '\'' ∈ metacharacters := by decide +kernel
  have hdrop : k = leaseEnv → (exportLine k v).drop
      ("export ".toList ++ (leaseEnv.toList ++ ['='])).length = v.toList := by
    intro heq
    rw [← heq, exportLine_split, List.drop_left]
  unfold lineLeaseId
  dsimp only
  rw [hstrip, hexport, hbare]
  by_cases heq : k = leaseEnv
  · rw [hdrop heq, stripped_plain hv, stripQuotes_plain hv hquote.1, stripQuotes_plain hv hquote.2]
    simp [heq]
  · simp [heq]

/-- The file names the lease of its descriptor. -/
theorem readLeaseId_renderEnvFile {d : Descriptor} (h : PlainDescriptor d) :
    readLeaseId (renderEnvFile d) = truthy d.leaseId := by
  have hfind : ∀ rows : List (String × String), (∀ row ∈ rows, PlainEntry row.1 row.2) →
      (rows.map fun row => exportLine row.1 row.2).findSome? lineLeaseId =
        (rows.find? fun row => row.1 = leaseEnv).map Prod.snd := by
    intro rows
    induction rows with
    | nil => intro _; rfl
    | cons row rows ih =>
        intro hrows
        have hline := lineLeaseId_exportLine (hrows row List.mem_cons_self)
        rw [List.map_cons, List.findSome?_cons, hline, List.find?_cons]
        by_cases heq : row.1 = leaseEnv
        · simp [heq]
        · simpa [heq] using ih fun r hr => hrows r (List.mem_cons_of_mem _ hr)
  unfold readLeaseId
  rw [splitLines_renderEnvFile h, hfind _ fun row hrow =>
    plain_descriptorEnv h row.1 row.2 (Dict.get?_eq_some.mpr hrow), ← get?_descriptorEnv_lease]
  rfl

end Read

/-! ## a lease survives its env file -/

instance (v : String) : Decidable (PlainValue v) :=
  decidable_of_iff ((v.toList.all fun c => isSpace c = false ∧ c ∉ metacharacters) = true) (by
    rw [List.all_eq_true]
    exact forall₂_congr fun c _ => decide_eq_true_iff)

/-- Distinct endpoints of the descriptor have variables of their own, which are none of the
fixed ones; from each its name is read back, and the file names the lease. -/
structure SurvivesEnvFile (lease : LeaseRecord) (deployments : List Deployment)
    (o : DescriptorOptions) : Prop where
  distinct : ∀ e ∈ (buildDescriptor (some lease) deployments o).endpoints.keys,
    ∀ e' ∈ (buildDescriptor (some lease) deployments o).endpoints.keys,
      e ≠ e' → endpointVar e ≠ endpointVar e'
  notFixed : ∀ e ∈ (buildDescriptor (some lease) deployments o).endpoints.keys,
    endpointVar e ∉ fixedVars
  readBack : ∀ e ∈ wantedEndpoints (some lease) o, ∀ m,
    ownName deployments o.requestNames e = some m →
      (sourced (renderEnvFile (buildDescriptor (some lease) deployments o))).get?
        (endpointVar e) = some m
  leaseId : readLeaseId (renderEnvFile (buildDescriptor (some lease) deployments o)) = some lease.id

/-- The capital words of an alias. -/
def aliasWords (e : String) : List (List Char) :=
  words isSlugChar (e.toList.flatMap upperChar)

/-- The lease has an id, and no two endpoints that have a name have the same capital words. -/
structure WordsApart (lease : LeaseRecord) (deployments : List Deployment)
    (o : DescriptorOptions) : Prop where
  id_ne : lease.id ≠ ""
  apart : ∀ e ∈ wantedEndpoints (some lease) o, ∀ e' ∈ wantedEndpoints (some lease) o,
    ownName deployments o.requestNames e ≠ none → ownName deployments o.requestNames e' ≠ none →
      e ≠ e' → aliasWords e ≠ aliasWords e'

section Survives

variable {lease : LeaseRecord} {deployments : List Deployment} {o : DescriptorOptions}

theorem mem_endpoints {e : String} :
    e ∈ (buildDescriptor (some lease) deployments o).endpoints.keys ↔
      e ∈ wantedEndpoints (some lease) o ∧ ownName deployments o.requestNames e ≠ none := by
  rw [Dict.mem_keys, get?_endpoints]
  by_cases hwanted : e ∈ wantedEndpoints (some lease) o
  · rw [if_pos hwanted, Option.ne_none_iff_exists']
    simp [hwanted]
  · simp [hwanted]

/-- Aliases with the same capital words share their variable. -/
theorem apart_of_distinct
    (h : ∀ e ∈ (buildDescriptor (some lease) deployments o).endpoints.keys,
      ∀ e' ∈ (buildDescriptor (some lease) deployments o).endpoints.keys,
        e ≠ e' → endpointVar e ≠ endpointVar e') :
    ∀ e ∈ wantedEndpoints (some lease) o, ∀ e' ∈ wantedEndpoints (some lease) o,
      ownName deployments o.requestNames e ≠ none → ownName deployments o.requestNames e' ≠ none →
        e ≠ e' → aliasWords e ≠ aliasWords e' := by
  intro e he e' he' hname hname' hne hwords
  exact h e (mem_endpoints.mpr ⟨he, hname⟩) e' (mem_endpoints.mpr ⟨he', hname'⟩) hne
    ((endpointVar_eq_iff e e').mpr hwords)

end Survives

/-- An env file of plain values gives back every endpoint's own model name and the lease
exactly if the lease has an id and no two endpoints have the same capital words. -/
theorem survivesEnvFile_iff {lease : LeaseRecord} {deployments : List Deployment}
    {o : DescriptorOptions} (hplain : PlainDescriptor (buildDescriptor (some lease) deployments o)) :
    SurvivesEnvFile lease deployments o ↔ WordsApart lease deployments o := by
  have hid := readLeaseId_renderEnvFile hplain
  have htruthy : truthy (buildDescriptor (some lease) deployments o).leaseId =
      if lease.id = "" then none else some lease.id := by
    have hlease : (buildDescriptor (some lease) deployments o).leaseId = some lease.id := rfl
    rw [hlease]
    by_cases hempty : lease.id = "" <;> simp [truthy, Option.filter_some, hempty]
  rw [htruthy] at hid
  constructor
  · intro h
    refine ⟨fun hempty => ?_, apart_of_distinct h.distinct⟩
    have hread := h.leaseId
    rw [hid, if_pos hempty] at hread
    contradiction
  · intro h
    have hdistinct : ∀ e ∈ (buildDescriptor (some lease) deployments o).endpoints.keys,
        ∀ e' ∈ (buildDescriptor (some lease) deployments o).endpoints.keys,
          e ≠ e' → endpointVar e ≠ endpointVar e' := by
      intro e he e' he' hne hvar
      obtain ⟨hwanted, hname⟩ := mem_endpoints.mp he
      obtain ⟨hwanted', hname'⟩ := mem_endpoints.mp he'
      exact h.apart e hwanted e' hwanted' hname hname' hne ((endpointVar_eq_iff e e').mp hvar)
    refine ⟨hdistinct, fun e _ => endpointVar_not_fixed e, fun e he m hm => ?_, ?_⟩
    · have hget : (buildDescriptor (some lease) deployments o).endpoints.get? e = some m := by
        rw [get?_endpoints, if_pos he, hm]
      have hin := Dict.mem_keys.mpr ⟨m, hget⟩
      rw [get?_sourced hplain]
      refine get?_descriptorEnv_endpoint hget fun e' he' hvar => ?_
      by_contra hne
      exact hdistinct e' he' e hin hne hvar
    · rw [hid, if_neg h.id_ne]

/-- A lease of two endpoints. -/
def tagsLease (first second : String) : LeaseRecord where
  id := "lease-1"
  owner := "me"
  state := .active
  createdAt := 0
  ttlSeconds := none
  expiresAt := none
  heartbeatAt := 0
  endpoints := [first, second]

/-- A daemon that serves a model for each. -/
def tagsDaemon (first second : String) : Deployment :=
  { newDeployment "dep-box" 0
      { endpoint := first, engine := .ollama, structural := .ollama "box" [] none none none none } with
    served := Table.ofList [(first, { model := some "small" }), (second, { model := some "large" })] }

def localOptions : DescriptorOptions := { baseUrl := some "http://h:1/v1" }

theorem survivesEnvFile_iff_tags :
    SurvivesEnvFile (tagsLease "qwen-7b" "llama-8b") [tagsDaemon "qwen-7b" "llama-8b"] localOptions := by
  have hendpoints : ∀ row ∈ (buildDescriptor (some (tagsLease "qwen-7b" "llama-8b"))
      [tagsDaemon "qwen-7b" "llama-8b"] localOptions).endpoints.rows, PlainValue row.2 := by
    decide +kernel
  have hplain : PlainDescriptor (buildDescriptor (some (tagsLease "qwen-7b" "llama-8b"))
      [tagsDaemon "qwen-7b" "llama-8b"] localOptions) :=
    ⟨by decide +kernel, by decide +kernel, by decide +kernel, by decide +kernel,
      fun e m hget => hendpoints (e, m) (Dict.get?_eq_some.mp hget), by decide +kernel,
      by decide +kernel⟩
  refine (survivesEnvFile_iff hplain).mpr ⟨by decide +kernel, ?_⟩
  decide +kernel

/-- `qwen-7b` and `qwen_7b` share their variable. -/
theorem not_survivesEnvFile :
    ¬ SurvivesEnvFile (tagsLease "qwen-7b" "qwen_7b") [tagsDaemon "qwen-7b" "qwen_7b"] localOptions := by
  intro h
  have happart := apart_of_distinct h.distinct
  revert happart
  decide +kernel

end InferStack
