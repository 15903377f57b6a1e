import InferStack.Kit.Ranked
import InferStack.Launch

/-!
# InferStack.Gateway.Routes

Where the gateway sends an alias: the routes of placed deployments, and the rows
the registry keeps of them past their release.

* `deploymentRoutes`, `routeTable` — a route per placed deployment and alias, a
  later one winning;
* `rememberedRows`, `registryRoute` — the row stored for an alias, and the route
  it is read back to;
* `routesAgree_iff` — when both give an alias one route from one deployment.
-/

namespace InferStack

open Kit

/-! ## routes -/

inductive RouteKind where
  | openai
  | ollama
  deriving DecidableEq

/-- Which owner produced a route. -/
inductive RouteOrigin where
  | registry
  | catalog
  | external
  | deployment
  | upstream
  deriving DecidableEq

/-- One alias the gateway serves, and where it sends it. -/
structure GatewayRoute where
  alias_ : String
  kind : RouteKind
  model : String
  apiBase : String
  keyEnv : Option String := none
  routeId : Option String := none
  origin : RouteOrigin := .catalog
  maxInputTokens : Option Int := none
  deriving DecidableEq

/-- What two routes are compared by: everything but their origin. -/
def GatewayRoute.compared (r : GatewayRoute) : GatewayRoute := { r with origin := .catalog }

/-- One route per alias, a later layer winning, sorted by alias. -/
def routeTable (layers : List (List GatewayRoute)) : List GatewayRoute :=
  (Table.ofList layers.flatten : Table GatewayRoute GatewayRoute.alias_).rows.insertionSort
    fun a b => a.alias_ ≤ b.alias_

/-! ## windows -/

/-- The window the catalog's own request for an endpoint would run with. -/
def catalogWindow (c : Catalog) (endpoint : String) : Option Int :=
  match c.resolveEndpoint endpoint none with
  | .error _ => none
  | .ok resolved =>
      match resolved.toRequest none with
      | .error _ => none
      | .ok request =>
          if request.engine = .vllm then some (effectiveMaxModelLen request.spec.runtime) else none

/-- The context window to advertise for one alias of a deployment. -/
def deploymentRouteMaxInputTokens (d : Deployment) (endpoint : String)
    (catalog : Option Catalog) : Int :=
  match (d.served.get? endpoint).bind fun payload => payload.maxInputTokens.filter (0 < ·) with
  | some value => value
  | none =>
      match catalog.bind fun c =>
        if endpoint ∈ c.endpoints.keys then catalogWindow c endpoint else none with
      | some value => value
      | none => effectiveMaxModelLen d.spec.runtime

/-- The aliases a published catalog defines. -/
def definedAliases (catalog : Option Catalog) : List String :=
  catalog.elim [] fun c => c.endpoints.keys

/-- The catalog has no say in the window of an alias it does not define. -/
theorem deploymentRouteMaxInputTokens_undefined {catalog : Option Catalog} {endpoint : String}
    (h : endpoint ∉ definedAliases catalog) (d : Deployment) :
    deploymentRouteMaxInputTokens d endpoint catalog =
      deploymentRouteMaxInputTokens d endpoint none := by
  have hnone : (catalog.bind fun c =>
      if endpoint ∈ c.endpoints.keys then catalogWindow c endpoint else none) = none := by
    cases catalog with
    | none => rfl
    | some c => exact if_neg h
  rw [deploymentRouteMaxInputTokens, hnone]
  rfl

/-! ## names -/

section Render

variable (py : Python)

def vllmServiceNameFor (served : String) : String := "vllm-" ++ dnsSlug py served

def vllmServiceName (d : Deployment) (unique : Bool) : String :=
  if unique then vllmServiceNameFor py (servedName d) ++ "-" ++ deploymentTail py d.id
  else vllmServiceNameFor py (servedName d)

def ollamaServiceNameFor (host : String) : String := "ollama-" ++ dnsSlug py host

/-- The Ollama host of a deployment: its spec's, else its own id. -/
def ollamaHost (d : Deployment) : String := (truthy d.spec.host).getD d.id

/-- The managed id of one logical route. -/
def routeIdFor (owner endpoint : String) : String :=
  "isr-" ++ String.ofList ((py.sha256 (owner ++ "|" ++ endpoint)).toList.take 32)

/-! ## the static path -/

/-- The route of one alias of a vLLM deployment. -/
def vllmRoute (dynamic : Bool) (catalog : Option Catalog) (d : Deployment) (endpoint : String) :
    GatewayRoute where
  alias_ := endpoint
  kind := .openai
  model := servedName d
  apiBase := "http://" ++ vllmServiceName py d dynamic ++ ":8000/v1"
  origin := .deployment
  routeId := if dynamic then some (routeIdFor py d.id endpoint) else none
  maxInputTokens := some (deploymentRouteMaxInputTokens d endpoint catalog)

/-- The route of one alias of an Ollama deployment. -/
def ollamaRoute (dynamic : Bool) (d : Deployment) (endpoint : String) (payload : Served) :
    GatewayRoute where
  alias_ := endpoint
  kind := .ollama
  model := payload.model.getD endpoint
  apiBase := "http://" ++ ollamaServiceNameFor py (ollamaHost d) ++ ":11434"
  origin := .deployment
  routeId := if dynamic then some (routeIdFor py d.id endpoint) else none

/-- The routes of one deployment: none when it is not placed, or has no service. -/
def routesOf (assignments : Dict String (List Nat)) (dynamic : Bool) (catalog : Option Catalog)
    (d : Deployment) : List GatewayRoute :=
  if d.id ∉ assignments.keys then []
  else match d.engine with
    | .vllm => d.served.sorted.keys.map (vllmRoute py dynamic catalog d)
    | .ollama => d.served.sorted.rows.map fun kv => ollamaRoute py dynamic d kv.1 kv.2
    | .reserved => []

/-- One route per placed deployment and served alias, in creation order. -/
def deploymentRoutes (deployments : List Deployment) (assignments : Dict String (List Nat))
    (dynamic : Bool) (catalog : Option Catalog) : List GatewayRoute :=
  (sortedDeployments deployments).flatMap (routesOf py assignments dynamic catalog)

end Render

/-! ## the registry -/

/-- What a row may hold as its window. -/
inductive RowValue where
  | int (n : Int)
  | float (q : ℚ)
  | bool (b : Bool)
  | other (text : String)
  deriving DecidableEq

/-- A row of the route registry; a missing key is `none`. -/
structure RegistryRow where
  engine : Option String := none
  served : Option String := none
  model : Option String := none
  host : Option String := none
  apiBase : Option String := none
  maxInputTokens : Option RowValue := none
  deriving DecidableEq

def vllmRow (d : Deployment) (endpoint : String) : RegistryRow where
  engine := some "vllm"
  served := some (servedName d)
  maxInputTokens := some (.int (deploymentRouteMaxInputTokens d endpoint none))

def ollamaRow (d : Deployment) (endpoint : String) (payload : Served) : RegistryRow where
  engine := some "ollama"
  model := some (payload.model.getD endpoint)
  host := some (ollamaHost d)

/-- The rows of one deployment. -/
def rowsOf (assignments : Dict String (List Nat)) (d : Deployment) :
    List (String × RegistryRow) :=
  if d.id ∉ assignments.keys then []
  else match d.engine with
    | .vllm => d.served.sorted.keys.map fun endpoint => (endpoint, vllmRow d endpoint)
    | .ollama => d.served.sorted.rows.map fun kv => (kv.1, ollamaRow d kv.1 kv.2)
    | .reserved => []

/-- The row of a Model another backend runs. -/
def upstreamRow (route : GatewayRoute) : Option (String × RegistryRow) :=
  if route.origin = .upstream ∧ route.kind = .openai then
    some (route.alias_,
      { engine := some "upstream"
        served := some route.model
        apiBase := some route.apiBase
        maxInputTokens := route.maxInputTokens.map .int })
  else none

/-- The rows the registry keeps: of every placed deployment's alias and of every
upstream route that `defined` does not cover, a later one winning. -/
def rememberedRows (deployments : List Deployment) (assignments : Dict String (List Nat))
    (defined : List String) (extra : List GatewayRoute) : Dict String RegistryRow :=
  (Table.ofList (deployments.flatMap (rowsOf assignments) ++ extra.filterMap upstreamRow) :
    Dict String RegistryRow).filter fun kv => decide (kv.1 ∉ defined)

/-- The window a row remembers: a positive whole number. -/
def rememberedContext (row : RegistryRow) : Option Int :=
  match row.maxInputTokens with
  | some (.int n) => if n ≤ 0 then none else some n
  | some (.float q) => if q ≤ 0 ∨ q.den ≠ 1 then none else some q.num
  | _ => none

section Render

variable (py : Python)

/-- The route one row renders to. -/
def registryRoute (name : String) (row : RegistryRow) : Option GatewayRoute :=
  if row.engine = some "vllm" then
    let served := (truthy row.served).getD name
    some
      { alias_ := name
        kind := .openai
        model := served
        apiBase := "http://" ++ vllmServiceNameFor py served ++ ":8000/v1"
        origin := .registry
        maxInputTokens := rememberedContext row }
  else if row.engine = some "ollama" then
    let host := (truthy row.host).getD name
    some
      { alias_ := name
        kind := .ollama
        model := (truthy row.model).getD name
        apiBase := "http://" ++ ollamaServiceNameFor py host ++ ":11434"
        origin := .registry }
  else if row.engine = some "upstream" then
    (truthy row.apiBase).map fun apiBase =>
      { alias_ := name
        kind := .openai
        model := (truthy row.served).getD name
        apiBase := apiBase
        origin := .registry
        maxInputTokens := rememberedContext row }
  else none

/-- The route the static path gives an alias. -/
def staticRoute (deployments : List Deployment) (assignments : Dict String (List Nat))
    (catalog : Option Catalog) (alias_ : String) : Option GatewayRoute :=
  (routeTable [deploymentRoutes py deployments assignments false catalog]).find?
    fun r => r.alias_ = alias_

/-- The route the row stored for an alias is read back to. -/
def rememberedRoute (deployments : List Deployment) (assignments : Dict String (List Nat))
    (defined : List String) (extra : List GatewayRoute)
    (alias_ : String) : Option GatewayRoute :=
  ((rememberedRows deployments assignments defined extra).get? alias_).bind (registryRoute py alias_)

end Render

/-! ## what stays under an alias -/

section Agreement

variable {py : Python} {assignments : Dict String (List Nat)} {alias_ : String}

/-- Whether a deployment is placed, has a service, and serves an alias. -/
def routesAlias (assignments : Dict String (List Nat)) (alias_ : String) (d : Deployment) : Bool :=
  decide (d.id ∈ assignments.keys) && decide (d.engine ≠ .reserved) &&
    (d.served.get? alias_).isSome

/-- The route of an alias some deployment serves. -/
def routeFor (py : Python) (dynamic : Bool) (catalog : Option Catalog) (alias_ : String)
    (d : Deployment) : GatewayRoute :=
  match d.engine with
  | .ollama => ollamaRoute py dynamic d alias_ ((d.served.get? alias_).getD {})
  | _ => vllmRoute py dynamic catalog d alias_

/-- The row of an alias some deployment serves. -/
def rowFor (alias_ : String) (d : Deployment) : RegistryRow :=
  match d.engine with
  | .ollama => ollamaRow d alias_ ((d.served.get? alias_).getD {})
  | _ => vllmRow d alias_

/-- A placed deployment has one route under each of its aliases. -/
theorem filter_routesOf (dynamic : Bool) (catalog : Option Catalog) (d : Deployment) :
    (routesOf py assignments dynamic catalog d).filter (fun r => r.alias_ = alias_) =
      if routesAlias assignments alias_ d then [routeFor py dynamic catalog alias_ d] else [] := by
  unfold routesOf routesAlias routeFor
  by_cases hplaced : d.id ∈ assignments.keys
  · rw [if_neg (not_not_intro hplaced)]
    cases hengine : d.engine with
    | reserved => simp
    | vllm =>
        have hone := Dict.filter_map_sorted (g := fun e (_ : Served) => vllmRoute py dynamic catalog d e)
          (f := GatewayRoute.alias_) (fun _ _ => rfl) d.served alias_
        dsimp only
        rw [Table.keys, List.map_map]
        refine hone.trans ?_
        cases hget : d.served.get? alias_ <;> simp [hplaced]
    | ollama =>
        have hone := Dict.filter_map_sorted (g := ollamaRoute py dynamic d)
          (f := GatewayRoute.alias_) (fun _ _ => rfl) d.served alias_
        refine hone.trans ?_
        cases hget : d.served.get? alias_ <;> simp [hplaced]
  · simp [hplaced]

/-- A placed deployment has one row under each of its aliases. -/
theorem filter_rowsOf (d : Deployment) :
    (rowsOf assignments d).filter (fun kv => kv.1 = alias_) =
      if routesAlias assignments alias_ d then [(alias_, rowFor alias_ d)] else [] := by
  unfold rowsOf routesAlias rowFor
  by_cases hplaced : d.id ∈ assignments.keys
  · rw [if_neg (not_not_intro hplaced)]
    cases hengine : d.engine with
    | reserved => simp
    | vllm =>
        have hone := Dict.filter_map_sorted (g := fun e (_ : Served) => (e, vllmRow d e))
          (f := Prod.fst) (fun _ _ => rfl) d.served alias_
        dsimp only
        rw [Table.keys, List.map_map]
        refine hone.trans ?_
        cases hget : d.served.get? alias_ <;> simp [hplaced]
    | ollama =>
        have hone := Dict.filter_map_sorted (g := fun e p => (e, ollamaRow d e p))
          (f := Prod.fst) (fun _ _ => rfl) d.served alias_
        refine hone.trans ?_
        cases hget : d.served.get? alias_ <;> simp [hplaced]
  · simp [hplaced]


/-- The deployment whose entry stays under an alias when every deployment's
entries are assigned in turn. -/
def winner {β : Type} (entries : Deployment → List β) (key : β → String)
    (deployments : List Deployment) (alias_ : String) : Option Deployment :=
  ((Table.ofList (deployments.flatMap fun d => (entries d).map fun e => (d, e)) :
    Table (Deployment × β) fun entry => key entry.2).find? alias_).map Prod.fst

/-- The winner is the last deployment that serves the alias. -/
theorem winner_eq {β : Type} {entries : Deployment → List β} {key : β → String}
    {one : Deployment → β} {p : Deployment → Bool}
    (h : ∀ d, (entries d).filter (fun e => key e = alias_) = if p d then [one d] else [])
    (deployments : List Deployment) :
    winner entries key deployments alias_ = (deployments.filter p).getLast? := by
  have htagged : ∀ d, ((entries d).map fun e => (d, e)).filter (fun entry => key entry.2 = alias_) =
      if p d then [(d, one d)] else [] := by
    intro d
    have hcomp : (fun entry : Deployment × β => decide (key entry.2 = alias_)) ∘ (fun e => (d, e)) =
        fun e => decide (key e = alias_) := rfl
    rw [List.filter_map, hcomp, h d]
    cases p d <;> rfl
  rw [winner, Table.find?_ofList_flatMap htagged, Option.map_map]
  exact congrFun Option.map_id _

/-- The static path keeps the route of the newest server. -/
theorem staticRoute_eq (deployments : List Deployment) (catalog : Option Catalog) :
    staticRoute py deployments assignments catalog alias_ =
      ((sortedDeployments deployments).filter (routesAlias assignments alias_)).getLast?.map
        (routeFor py false catalog alias_) := by
  rw [staticRoute, routeTable, Table.find?_of_perm (List.perm_insertionSort _ _)]
  rw [show [deploymentRoutes py deployments assignments false catalog].flatten =
    deploymentRoutes py deployments assignments false catalog by simp]
  exact Table.find?_ofList_flatMap (filter_routesOf false catalog) _

/-- The registry keeps the row of the server listed last. -/
theorem rememberedRoute_eq {defined : List String} {extra : List GatewayRoute}
    (hdefined : alias_ ∉ defined) (hextra : ∀ route ∈ extra, route.alias_ ≠ alias_)
    (deployments : List Deployment) :
    rememberedRoute py deployments assignments defined extra alias_ =
      (deployments.filter (routesAlias assignments alias_)).getLast?.bind fun d =>
        registryRoute py alias_ (rowFor alias_ d) := by
  have hupstream : (extra.filterMap upstreamRow).filter (fun kv => kv.1 = alias_) = [] := by
    rw [List.filter_eq_nil_iff]
    intro kv hkv
    obtain ⟨route, hroute, hrow⟩ := List.mem_filterMap.mp hkv
    have hkey : kv.1 = route.alias_ := by
      unfold upstreamRow at hrow
      split at hrow
      · obtain rfl := Option.some.inj hrow
        rfl
      · contradiction
    simpa [hkey] using hextra route hroute
  have hrow : (rememberedRows deployments assignments defined extra).get? alias_ =
      (deployments.filter (routesAlias assignments alias_)).getLast?.map (rowFor alias_) := by
    rw [rememberedRows, Dict.get?_filter _ (fun k => decide (k ∉ defined)), if_pos (by simpa using hdefined),
      Dict.get?, Table.find?_ofList_last, List.filter_append, hupstream, List.append_nil,
      Table.filter_flatMap filter_rowsOf, List.getLast?_map, Option.map_map]
    rfl
  rw [rememberedRoute, hrow, Option.bind_map]
  rfl

/-- The tag an Ollama deployment serves an alias with. -/
def ollamaTag (d : Deployment) (alias_ : String) : String :=
  ((d.served.get? alias_).bind Served.model).getD alias_

/-- Nothing of a deployment's route for an alias is lost in a row: its window is
positive and its names are not empty, or an empty name is read back as itself. -/
def ReadsBack (py : Python) (alias_ : String) (d : Deployment) : Prop :=
  match d.engine with
  | .vllm => (servedName d = "" → alias_ = "") ∧ 0 < deploymentRouteMaxInputTokens d alias_ none
  | .ollama => (ollamaTag d alias_ = "" → alias_ = "") ∧
      (ollamaHost d = "" → ollamaServiceNameFor py alias_ = ollamaServiceNameFor py "")
  | .reserved => True

/-- A name written and read back, with a name that stands in for an empty one. -/
theorem truthy_getD (s name : String) :
    (truthy (some s)).getD name = if s = "" then name else s := by
  by_cases h : s = "" <;> simp [truthy, Option.filter_some, h]

/-- A name is read back when it is not empty, or the alias that stands in for it
is empty too. -/
theorem nameOr_eq_iff {s name : String} :
    (if s = "" then name else s) = s ↔ (s = "" → name = "") := by
  by_cases h : s = "" <;> simp [h]

/-- What stands around a service name in its address is the same for all. -/
theorem address_inj {start tail a b : String} : start ++ a ++ tail = start ++ b ++ tail ↔ a = b := by
  constructor
  · intro h
    have hlist := congrArg String.toList h
    simp only [String.toList_append, List.append_cancel_right_eq, List.append_cancel_left_eq] at hlist
    exact String.toList_inj.mp hlist
  · exact fun h => h ▸ rfl

/-- The row of an alias is read back to the route it was made from exactly when
nothing is lost in it. -/
theorem readsBack_iff {catalog : Option Catalog} {d : Deployment}
    (hundefined : alias_ ∉ definedAliases catalog) (hserves : routesAlias assignments alias_ d) :
    (registryRoute py alias_ (rowFor alias_ d)).map GatewayRoute.compared =
        some (routeFor py false catalog alias_ d).compared ↔ ReadsBack py alias_ d := by
  unfold rowFor routeFor ReadsBack
  cases hengine : d.engine with
  | reserved => simp [routesAlias, hengine] at hserves
  | vllm =>
      have hcontext : rememberedContext (vllmRow d alias_) =
          some (deploymentRouteMaxInputTokens d alias_ catalog) ↔
          0 < deploymentRouteMaxInputTokens d alias_ none := by
        rw [deploymentRouteMaxInputTokens_undefined hundefined]
        show (if _ ≤ (0 : Int) then none else some _) = _ ↔ _
        split
        · simp; omega
        · simp; omega
      simp only [registryRoute, vllmRow, if_true, truthy_getD, Option.map_some,
        Option.some.injEq, GatewayRoute.compared, vllmRoute, vllmServiceName, GatewayRoute.mk.injEq,
        address_inj, true_and, nameOr_eq_iff]
      constructor
      · rintro ⟨hname, -, -, hwindow⟩
        exact ⟨hname, hcontext.mp hwindow⟩
      · rintro ⟨hname, hwindow⟩
        refine ⟨hname, ?_, rfl, hcontext.mpr hwindow⟩
        rw [nameOr_eq_iff.mpr hname]
        rfl
  | ollama =>
      obtain ⟨payload, hget⟩ : ∃ payload, d.served.get? alias_ = some payload := by
        have hsome : (d.served.get? alias_).isSome := by
          simp only [routesAlias, Bool.and_eq_true] at hserves
          exact hserves.2
        exact Option.isSome_iff_exists.mp hsome
      have hne : (some "ollama" : Option String) ≠ some "vllm" := by decide
      simp only [registryRoute, ollamaRow, hne, if_false, if_true, truthy_getD, Option.map_some,
        Option.some.injEq, GatewayRoute.compared, ollamaRoute, GatewayRoute.mk.injEq,
        address_inj, true_and, nameOr_eq_iff, ollamaTag, hget, Option.getD_some, Option.bind_some]
      by_cases hhost : ollamaHost d = ""
      · simp [hhost]
      · simp [hhost]

/-! ## one route from one deployment -/

/-- Both paths give an alias one route, from one deployment. -/
def RoutesAgree (py : Python) (deployments : List Deployment)
    (assignments : Dict String (List Nat)) (catalog : Option Catalog) (extra : List GatewayRoute)
    (alias_ : String) : Prop :=
  (rememberedRoute py deployments assignments (definedAliases catalog) extra alias_).map
      GatewayRoute.compared =
    (staticRoute py deployments assignments catalog alias_).map GatewayRoute.compared ∧
  winner (rowsOf assignments) Prod.fst deployments alias_ =
    winner (routesOf py assignments false catalog) GatewayRoute.alias_
      (sortedDeployments deployments) alias_

/-- The two paths agree on an alias exactly when the deployment listed last among
those that serve it is also the newest, and its route survives the row. -/
theorem routesAgree_iff (py : Python) (deployments : List Deployment)
    (assignments : Dict String (List Nat)) (catalog : Option Catalog) (extra : List GatewayRoute)
    (alias_ : String) (hundefined : alias_ ∉ definedAliases catalog)
    (hextra : ∀ route ∈ extra, route.alias_ ≠ alias_) :
    RoutesAgree py deployments assignments catalog extra alias_ ↔
      ∀ d, (deployments.filter (routesAlias assignments alias_)).getLast? = some d →
        Greatest Deployment.before (deployments.filter (routesAlias assignments alias_)) d ∧
          ReadsBack py alias_ d := by
  unfold RoutesAgree
  rw [rememberedRoute_eq hundefined hextra, staticRoute_eq, winner_eq filter_rowsOf,
    winner_eq (filter_routesOf false catalog), sortedDeployments, filter_insertionSort]
  have hserves : ∀ {d}, (deployments.filter (routesAlias assignments alias_)).getLast? = some d →
      routesAlias assignments alias_ d := fun hd =>
    (List.mem_filter.mp (List.mem_of_getLast? hd)).2
  cases hlast : (deployments.filter (routesAlias assignments alias_)).getLast? with
  | none =>
      have hnil : deployments.filter (routesAlias assignments alias_) = [] :=
        List.getLast?_eq_none_iff.mp hlast
      simp [hnil]
  | some d =>
      have hback := @readsBack_iff py assignments alias_ catalog d hundefined (hserves hlast)
      constructor
      · rintro ⟨hroute, hwinner⟩ d' hd'
        obtain rfl := Option.some.inj hd'
        rw [← hwinner] at hroute
        exact ⟨getLast?_insertionSort.mp hwinner.symm, hback.mp hroute⟩
      · intro h
        obtain ⟨hgreatest, hreads⟩ := h d rfl
        have hwinner := getLast?_insertionSort.mpr hgreatest
        rw [hwinner]
        exact ⟨hback.mpr hreads, rfl⟩

end Agreement

/-! ## two deployments of one moment -/

/-- A model of one window, placed on its own GPU, under the alias `chat`. -/
def chatServer (id : String) (maxModelLen : Int) : Deployment where
  id := id
  compatKey := ⟨.vllm, .reserved 1⟩
  engine := .vllm
  sharing := .dedicated
  capacity := ∅
  spec := { servedModelName := some "chat", runtime := { maxModelLen := some maxModelLen } }
  served := Table.ofList [("chat", { maxInputTokens := some maxModelLen })]
  state := .live
  createdAt := 0
  updatedAt := 0

/-- Text functions for names in lower case. -/
def plainPython : Python where
  float := fun _ => ""
  lower := fun s => s
  sha256 := fun _ => ""

def chatAssignments : Dict String (List Nat) := Table.ofList [("grp-a", [0]), ("grp-b", [1])]

/-- Listed in creation order, ids and all, the two paths agree. -/
theorem chat_agrees : RoutesAgree plainPython [chatServer "grp-a" 8192, chatServer "grp-b" 65536]
    chatAssignments none [] "chat" :=
  (routesAgree_iff plainPython _ chatAssignments none [] "chat" (by simp [definedAliases])
    (by simp)).mpr (by
      have hserving : [chatServer "grp-a" 8192, chatServer "grp-b" 65536].filter
          (routesAlias chatAssignments "chat") =
            [chatServer "grp-a" 8192, chatServer "grp-b" 65536] := by decide +kernel
      rw [hserving]
      intro d hd
      obtain rfl := Option.some.inj hd
      have horder : Deployment.before (chatServer "grp-a" 8192) (chatServer "grp-b" 65536) := by
        decide +kernel
      refine ⟨⟨[chatServer "grp-a" 8192], [], rfl, by simpa using horder, by simp⟩, ?_, ?_⟩
      · decide +kernel
      · decide +kernel)

/-- Listed in creation order, with the ids of one moment the other way round: the
row remembers the window of one, the route shows that of the other. -/
theorem chat_disagrees : ¬ ∀ (py : Python) (deployments : List Deployment)
    (assignments : Dict String (List Nat)) (catalog : Option Catalog) (alias_ : String),
    alias_ ∉ definedAliases catalog →
      RoutesAgree py deployments assignments catalog [] alias_ := by
  intro h
  have hroutes := (h plainPython [chatServer "grp-b" 8192, chatServer "grp-a" 65536] chatAssignments
    none "chat" (by simp [definedAliases])).1
  have hremembered : (rememberedRoute plainPython
      [chatServer "grp-b" 8192, chatServer "grp-a" 65536] chatAssignments [] [] "chat").map
        GatewayRoute.maxInputTokens = some (some 65536) := by decide +kernel
  have hstatic : (staticRoute plainPython
      [chatServer "grp-b" 8192, chatServer "grp-a" 65536] chatAssignments none "chat").map
        GatewayRoute.maxInputTokens = some (some 8192) := by decide +kernel
  have hwindows := congrArg (Option.map GatewayRoute.maxInputTokens) hroutes
  rw [Option.map_map, Option.map_map] at hwindows
  have hsame : some (some (65536 : Int)) = some (some 8192) :=
    (hremembered.symm.trans hwindows).trans hstatic
  exact absurd hsame (by decide)

end InferStack
