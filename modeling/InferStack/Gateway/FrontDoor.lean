import InferStack.Kit.Layered
import InferStack.Compose.Interchange
import InferStack.Gateway.Seeding
import InferStack.Ledger.Serving

/-!
# InferStack.Gateway.FrontDoor

The route table of the static front door, and what it is a function of.

It is four layers: the registry, the published catalogs, the placed deployments,
and the routes another backend supplies.  `front_door_published` says that the
third layer never shows: over any run of the ledger, whatever is acquired and
released, the gateway is configured as if nothing were deployed, as long as what
is claimed is what is published.
-/

namespace InferStack

open Kit

/-! ## entries -/

/-- A LiteLLM `model_list` entry. -/
structure LitellmEntry where
  modelName : String
  model : String
  apiBase : String
  apiKey : Option String
  id : Option String
  keyEnv : Option String
  maxInputTokens : Option Int
  deriving DecidableEq

def RouteKind.text : RouteKind → String
  | .openai => "openai"
  | .ollama => "ollama"

/-- The one rendering of a route. -/
def GatewayRoute.entry (r : GatewayRoute) : LitellmEntry where
  modelName := r.alias_
  model := r.kind.text ++ "/" ++ r.model
  apiBase := r.apiBase
  apiKey := match r.kind with
    | .openai => some (((truthy r.keyEnv).map ("os.environ/" ++ ·)).getD "EMPTY")
    | .ollama => none
  id := truthy r.routeId
  keyEnv := if (truthy r.routeId).isSome then truthy r.keyEnv else none
  maxInputTokens := r.maxInputTokens

/-- Where a route came from is not rendered. -/
theorem entry_compared (r : GatewayRoute) : r.compared.entry = r.entry := rfl

theorem modelName_entry (r : GatewayRoute) : r.entry.modelName = r.alias_ := rfl

/-! ## the layers -/

section Layers

variable (py : Python)

/-- The routes of one deployment under a published union: the window of an alias
is asked of the catalog that owns it. -/
def publishedRoutesOf (assignments : Dict String (List Nat)) (u : CatalogUnion) (d : Deployment) :
    List GatewayRoute :=
  if d.id ∉ assignments.keys then []
  else match d.engine with
    | .vllm => d.served.sorted.keys.map fun e => vllmRoute py false (u.owner.get? e) d e
    | .ollama => d.served.sorted.rows.map fun kv => ollamaRoute py false d kv.1 kv.2
    | .reserved => []

/-- The routes a registry's rows render to, sorted by alias. -/
def registryRoutes (entries : Dict String RegistryRow) : List GatewayRoute :=
  entries.sorted.rows.filterMap fun row => registryRoute py row.1 row.2

/-- The layers below the deployments. -/
def sharedLayers (u : CatalogUnion) (entries : Dict String RegistryRow) : List GatewayRoute :=
  registryRoutes py entries ++ catalogRoutes (composeCatalogRoute py) u

/-- The routes of the placed deployments, in creation order. -/
def placedRoutes (deployments : List Deployment) (assignments : Dict String (List Nat))
    (u : CatalogUnion) : List GatewayRoute :=
  (sortedDeployments deployments).flatMap (publishedRoutesOf py assignments u)

/-- The static route table: registry, catalogs, placed deployments, `extra`. -/
def frontDoorRoutes (deployments : List Deployment) (assignments : Dict String (List Nat))
    (u : CatalogUnion) (entries : Dict String RegistryRow) (extra : List GatewayRoute) :
    List GatewayRoute :=
  routeTable [registryRoutes py entries, catalogRoutes (composeCatalogRoute py) u,
    placedRoutes py deployments assignments u, extra]

end Layers

section Lookup

variable {py : Python} {assignments : Dict String (List Nat)} {u : CatalogUnion} {alias_ : String}

theorem frontDoorRoutes_eq (deployments : List Deployment) (entries : Dict String RegistryRow)
    (extra : List GatewayRoute) : frontDoorRoutes py deployments assignments u entries extra =
      layered GatewayRoute.alias_ (sharedLayers py u entries ++
        (placedRoutes py deployments assignments u ++ extra)) := by
  simp [frontDoorRoutes, routeTable, layered, sharedLayers]

/-- A placed deployment has one route under each of its aliases. -/
theorem filter_publishedRoutesOf (d : Deployment) :
    (publishedRoutesOf py assignments u d).filter (fun r => r.alias_ = alias_) =
      if routesAlias assignments alias_ d then [routeFor py false (u.owner.get? alias_) alias_ d]
      else [] := by
  unfold publishedRoutesOf routesAlias routeFor
  by_cases hplaced : d.id ∈ assignments.keys
  · rw [if_neg (not_not_intro hplaced)]
    cases hengine : d.engine with
    | reserved => simp
    | vllm =>
        have hone := Dict.filter_map_sorted
          (g := fun e (_ : Served) => vllmRoute py false (u.owner.get? e) d e)
          (f := GatewayRoute.alias_) (fun _ _ => rfl) d.served alias_
        dsimp only
        rw [Table.keys, List.map_map]
        refine hone.trans ?_
        cases hget : d.served.get? alias_ <;> simp [hplaced]
    | ollama =>
        have hone := Dict.filter_map_sorted (g := ollamaRoute py false d)
          (f := GatewayRoute.alias_) (fun _ _ => rfl) d.served alias_
        refine hone.trans ?_
        cases hget : d.served.get? alias_ <;> simp [hplaced]
  · simp [hplaced]

theorem filter_placedRoutes (deployments : List Deployment) :
    (placedRoutes py deployments assignments u).filter (fun r => r.alias_ = alias_) =
      ((sortedDeployments deployments).filter (routesAlias assignments alias_)).map
        (routeFor py false (u.owner.get? alias_) alias_) :=
  Table.filter_flatMap (fun d => filter_publishedRoutesOf d) _

theorem alias_catalogRoute {managed : String → EndpointRequest → Option GatewayRoute}
    (hmanaged : ∀ n q route, managed n q = some route → route.alias_ = n) {n : String}
    {resolved : ResolvedEndpoint} {route : GatewayRoute}
    (h : catalogRoute managed n resolved = some route) : route.alias_ = n := by
  unfold catalogRoute at h
  split at h
  · obtain rfl := Option.some.inj h
    rfl
  · exact hmanaged n _ route h

/-- A published alias has one catalog route. -/
theorem filter_catalogRoutes {managed : String → EndpointRequest → Option GatewayRoute}
    (hmanaged : ∀ n q route, managed n q = some route → route.alias_ = n)
    (n : String) : (catalogRoutes managed u).filter (fun r => r.alias_ = n) =
      ((u.resolveEndpoint n).bind (catalogRoute managed n)).toList := by
  have hfilter : ∀ keys : List String, keys.Nodup →
      (keys.filterMap fun m => (u.resolveEndpoint m).bind (catalogRoute managed m)).filter
        (fun r => r.alias_ = n) =
      if n ∈ keys then ((u.resolveEndpoint n).bind (catalogRoute managed n)).toList else [] := by
    intro keys hnodup
    induction keys with
    | nil => rfl
    | cons m keys ih =>
        obtain ⟨hm, hkeys⟩ := List.nodup_cons.mp hnodup
        rw [List.filterMap_cons]
        cases hroute : (u.resolveEndpoint m).bind (catalogRoute managed m) with
        | none =>
            by_cases hmn : n = m
            · subst hmn
              simp [ih hkeys, hm, hroute]
            · simp [ih hkeys, hmn]
        | some route =>
            obtain ⟨resolved, -, hresolved⟩ := Option.bind_eq_some_iff.mp hroute
            have hname := alias_catalogRoute hmanaged hresolved
            by_cases hmn : n = m
            · subst hmn
              simp [ih hkeys, hm, hroute, hname]
            · simp [ih hkeys, hmn, hname, Ne.symm hmn]
  have hkeys := hfilter u.owner.sorted.keys u.owner.sorted.nodup
  unfold catalogRoutes
  rw [hkeys]
  by_cases hn : n ∈ u.owner.sorted.keys
  · rw [if_pos hn]
  · rw [if_neg hn]
    have hnone : u.owner.get? n = none := by
      rw [Dict.mem_keys_sorted, Dict.mem_keys] at hn
      cases hget : u.owner.get? n with
      | none => rfl
      | some c => exact absurd ⟨c, hget⟩ hn
    simp [CatalogUnion.resolveEndpoint, hnone]

theorem alias_composeCatalogRoute {n : String} {q : EndpointRequest} {route : GatewayRoute}
    (h : composeCatalogRoute py n q = some route) : route.alias_ = n := by
  unfold composeCatalogRoute at h
  split at h
  · obtain rfl := Option.some.inj h
    rfl
  · obtain rfl := Option.some.inj h
    rfl
  · contradiction

end Lookup

/-! ## what is published of a request -/

/-- A request for an endpoint of a catalog, whose names are not empty. -/
structure Requestable (r : EndpointRequest) : Prop where
  resolved : FromCatalog r
  endpoint : r.endpoint ≠ ""
  model : r.served.model ≠ some ""
  host : r.spec.host ≠ some ""

/-- The union defines the request's endpoint as the request has it. -/
def PublishedAs (u : CatalogUnion) (r : EndpointRequest) : Prop :=
  ∃ resolved share q, u.resolveEndpoint r.endpoint = some resolved ∧
    resolved.toRequest share = .ok q ∧ q.semantic = r.semantic

/-- A catalog endpoint has a server. -/
theorem Requestable.engine_ne {r : EndpointRequest} (h : Requestable r) : r.engine ≠ .reserved := by
  intro hreserved
  cases h.resolved.cases with
  | inl hvllm =>
      obtain ⟨m, e, s, rfl⟩ := hvllm
      contradiction
  | inr hollama =>
      obtain ⟨host, e, s, rfl⟩ := hollama
      contradiction

theorem EndpointSpec.upstreamName_ne {e : EndpointSpec} (h : e.name ≠ "") : e.upstreamName ≠ "" := by
  unfold EndpointSpec.upstreamName
  cases e.servedName with
  | none => exact h
  | some name => by_cases hn : name = "" <;> simp [hn, h]

theorem truthy_of_ne {s : String} (h : s ≠ "") : truthy (some s) = some s := by
  simp [truthy, h]

section Published

variable {py : Python} {u : CatalogUnion} {r : EndpointRequest} {d : Deployment}

/-- What two requests for one endpoint must share to be routed alike. -/
structure AsksAlike (q r : EndpointRequest) : Prop where
  endpoint : q.endpoint = r.endpoint
  compatKey : q.compatKey = r.compatKey
  served : q.served = r.served
  host : q.spec.host = r.spec.host

theorem AsksAlike.of_semantic {q r : EndpointRequest} (h : q.semantic = r.semantic) :
    AsksAlike q r := by
  have hendpoint := congrArg EndpointRequest.endpoint h
  have hengine := congrArg EndpointRequest.engine h
  have hstruct := congrArg EndpointRequest.structural h
  have hserved := congrArg EndpointRequest.served h
  have hhost := congrArg (fun x : EndpointRequest => x.spec.host) h
  exact ⟨hendpoint, congrArg₂ CompatKey.mk hengine hstruct, hserved, hhost⟩

/-- What the union defines for a published request. -/
theorem PublishedAs.definition (h : PublishedAs u r) :
    ∃ resolved q c, u.owner.get? r.endpoint = some c ∧
      c.resolveEndpoint r.endpoint none = .ok resolved ∧ resolved.target = .managed q ∧
      AsksAlike q r := by
  obtain ⟨resolved, share, q', hresolve, hrequest, hsame⟩ := h
  obtain ⟨c, hc, hok⟩ := Option.bind_eq_some_iff.mp hresolve
  have hfound : c.resolveEndpoint r.endpoint none = .ok resolved := by
    cases hres : c.resolveEndpoint r.endpoint none with
    | ok e =>
        rw [hres] at hok
        exact congrArg Except.ok (Option.some.inj hok)
    | error e =>
        rw [hres] at hok
        contradiction
  cases htarget : resolved.target with
  | external target => simp [ResolvedEndpoint.toRequest, htarget] at hrequest
  | managed q =>
      simp only [ResolvedEndpoint.toRequest, htarget, Except.ok.injEq] at hrequest
      subst hrequest
      have hasks := AsksAlike.of_semantic hsame
      exact ⟨resolved, q, c, hc, hfound, htarget,
        ⟨hasks.endpoint, hasks.compatKey, hasks.served, hasks.host⟩⟩

/-- A managed endpoint is a vLLM or an Ollama one. -/
theorem managed_cases {c : Catalog} {name : String} {resolved : ResolvedEndpoint}
    {q : EndpointRequest} (h : c.resolveEndpoint name none = .ok resolved)
    (htarget : resolved.target = .managed q) :
    (∃ model ep sharing, q = resolveVllm model ep sharing) ∨
      ∃ host ep sharing, q = resolveOllama host ep sharing :=
  FromCatalog.cases ⟨c, name, none, none, resolved, h, by
    simp [ResolvedEndpoint.toRequest, htarget]⟩

/-- The window the owner's definition would run with. -/
theorem catalogWindow_of_resolved {c : Catalog} {name : String} {resolved : ResolvedEndpoint}
    {q : EndpointRequest} (h : c.resolveEndpoint name none = .ok resolved)
    (htarget : resolved.target = .managed q) (hengine : q.engine = .vllm) :
    name ∈ c.endpoints.keys ∧ catalogWindow c name = some (effectiveMaxModelLen q.spec.runtime) := by
  constructor
  · rw [Table.mem_keys_iff]
    unfold Catalog.resolveEndpoint at h
    cases hfind : c.endpoints.find? name with
    | none => simp [hfind] at h
    | some ep => rfl
  · unfold catalogWindow
    rw [h]
    simp [ResolvedEndpoint.toRequest, htarget, hengine]

/-- A deployment advertises for a published alias the window published for it. -/
theorem window_of_published {c : Catalog} {name : String} {resolved : ResolvedEndpoint}
    {m : ModelSpec} {e : EndpointSpec} {s : Sharing}
    (h : c.resolveEndpoint name none = .ok resolved)
    (htarget : resolved.target = .managed (resolveVllm m e s))
    (hserved : d.served.get? name = some (resolveVllm m e s).served) :
    deploymentRouteMaxInputTokens d name (some c) = effectiveMaxModelLen e.runtime := by
  obtain ⟨hdefined, hwindow⟩ := catalogWindow_of_resolved h htarget rfl
  have hrun : (resolveVllm m e s).spec.runtime = e.runtime := rfl
  have hpayload : (resolveVllm m e s).served.maxInputTokens = some (effectiveMaxModelLen e.runtime) :=
    rfl
  unfold deploymentRouteMaxInputTokens
  rw [hserved, Option.bind_some, hpayload, Option.filter_some]
  by_cases hpos : 0 < effectiveMaxModelLen e.runtime
  · simp [hpos]
  · simp [hpos, hdefined, hwindow, hrun]

/-- Two requests of one key are served under one name. -/
theorem upstreamName_of_key {m m' : ModelSpec} {e e' : EndpointSpec} {s s' : Sharing}
    (hkey : (resolveVllm m e s).compatKey = (resolveVllm m' e' s').compatKey) (hname : e.name ≠ "")
    (hname' : e'.name ≠ "") : e.upstreamName = e'.upstreamName :=
  (sameKey hkey).name
    ⟨fun h => absurd h (EndpointSpec.upstreamName_ne hname),
      fun h => absurd h (EndpointSpec.upstreamName_ne hname')⟩

/-- Two requests of one key run on one host. -/
theorem hostName_of_key {host host' : RuntimeHostSpec} {e e' : EndpointSpec} {s s' : Sharing}
    (hkey : (resolveOllama host e s).compatKey = (resolveOllama host' e' s').compatKey) :
    host.name = host'.name := by
  have hstruct : Structural.ollama host.name host.gpuIndices host.settings.keepAlive
      host.settings.numParallel host.settings.maxLoadedModels host.modelStore =
      Structural.ollama host'.name host'.gpuIndices host'.settings.keepAlive
      host'.settings.numParallel host'.settings.maxLoadedModels host'.modelStore :=
    congrArg CompatKey.structural hkey
  injection hstruct

/-- A deployment that serves an alias as a published request asks, launched as a
request of the same key, is routed as the catalog routes the alias. -/
theorem entry_routeFor_of_published (hr : Requestable r) (hpublished : PublishedAs u r)
    (hlaunched : Launched Requestable d) (hkey : d.compatKey = r.compatKey)
    (hserved : d.served.get? r.endpoint = some r.served) :
    ((u.resolveEndpoint r.endpoint).bind
        (catalogRoute (composeCatalogRoute py) r.endpoint)).map GatewayRoute.entry =
      some (routeFor py false (u.owner.get? r.endpoint) r.endpoint d).entry := by
  obtain ⟨resolved, q, c, howner, hfound, htarget, hasks⟩ := hpublished.definition
  obtain ⟨creator, hcreator, hlaunch⟩ := hlaunched
  have hkeys : creator.compatKey = q.compatKey := by
    rw [← hlaunch.compatKey, hkey, hasks.compatKey]
  have hengine : d.engine = q.engine := hlaunch.engine.trans (congrArg CompatKey.engine hkeys)
  have hresolve : u.resolveEndpoint r.endpoint = some resolved := by
    simp [CatalogUnion.resolveEndpoint, howner, hfound, Except.toOption]
  rw [← hasks.served] at hserved
  rw [howner, hresolve, Option.bind_some, catalogRoute, htarget]
  cases managed_cases hfound htarget with
  | inl hvllm =>
      obtain ⟨m, e, s, rfl⟩ := hvllm
      cases hcreator.resolved.cases with
      | inr hother =>
          obtain ⟨host, e', s', rfl⟩ := hother
          have hne := congrArg CompatKey.engine hkeys
          contradiction
      | inl hsame =>
          obtain ⟨m', e', s', rfl⟩ := hsame
          have hname : e.name ≠ "" := by
            have hne := hr.endpoint
            rwa [← hasks.endpoint] at hne
          have hupstream := upstreamName_of_key hkeys hcreator.endpoint hname
          have hwindow := window_of_published hfound htarget hserved
          have hserves : servedName d = e.upstreamName := by
            have hne : e'.upstreamName ≠ "" := EndpointSpec.upstreamName_ne hcreator.endpoint
            unfold servedName
            rw [hlaunch.servedModelName]
            show (if e'.upstreamName = "" then _ else e'.upstreamName) = _
            rw [if_neg hne, hupstream]
          have htruthy : truthy (resolveVllm m e s).served.servedModelName = some e.upstreamName :=
            truthy_of_ne (EndpointSpec.upstreamName_ne hname)
          have hroute : routeFor py false (some c) r.endpoint d =
              vllmRoute py false (some c) d r.endpoint := by
            simp [routeFor, hengine, resolveVllm]
          have hcatalog : composeCatalogRoute py r.endpoint (resolveVllm m e s) = some
              { alias_ := r.endpoint
                kind := .openai
                model := e.upstreamName
                apiBase := "http://" ++ vllmServiceNameFor py e.upstreamName ++ ":8000/v1"
                maxInputTokens := some (effectiveMaxModelLen e.runtime) } := by
            show some _ = some _
            rw [htruthy]
            rfl
          rw [hroute]
          dsimp only
          rw [hcatalog, Option.map_some]
          simp [GatewayRoute.entry, vllmRoute, vllmServiceName, hserves, hwindow]
  | inr hollama =>
      obtain ⟨host, e, s, rfl⟩ := hollama
      cases hcreator.resolved.cases with
      | inl hother =>
          obtain ⟨m, e', s', rfl⟩ := hother
          have hne := congrArg CompatKey.engine hkeys
          contradiction
      | inr hsame =>
          obtain ⟨host', e', s', rfl⟩ := hsame
          have hname : host'.name = host.name := hostName_of_key hkeys
          have hhost : host.name ≠ "" := by
            intro hempty
            exact hr.host (hasks.host.symm.trans (congrArg some hempty))
          have hmodel : e.model ≠ "" := by
            intro hempty
            have hserves := hasks.served.symm
            exact hr.model ((congrArg Served.model hserves).trans (congrArg some hempty))
          have hruns : ollamaHost d = host.name := by
            unfold ollamaHost
            rw [hlaunch.host]
            show (truthy (some host'.name)).getD d.id = _
            rw [hname, truthy_of_ne hhost]
            rfl
          have hroute : routeFor py false (some c) r.endpoint d =
              ollamaRoute py false d r.endpoint (resolveOllama host e s).served := by
            simp [routeFor, hengine, resolveOllama, hserved]
          have hcatalog : composeCatalogRoute py r.endpoint (resolveOllama host e s) = some
              { alias_ := r.endpoint
                kind := .ollama
                model := e.model
                apiBase := "http://" ++ ollamaServiceNameFor py host.name ++ ":11434" } := by
            show some _ = some _
            have htag : truthy (resolveOllama host e s).served.model = some e.model :=
              truthy_of_ne hmodel
            have hdaemon : truthy (resolveOllama host e s).spec.host = some host.name :=
              truthy_of_ne hhost
            rw [htag, hdaemon]
            rfl
          rw [hroute]
          dsimp only
          rw [hcatalog, Option.map_some]
          simp [GatewayRoute.entry, ollamaRoute, resolveOllama, hruns]

end Published

/-! ## the table -/

/-- What an acquire may ask for: a catalog endpoint, or GPUs without a server. -/
def Leasable (r : EndpointRequest) : Prop := r.engine = .reserved ∨ Requestable r

section Served

variable {π δ : Type} {u : CatalogUnion} {t : TracedState π δ} {d : Deployment}
  {assignments : Dict String (List Nat)} {alias_ : String}

/-- A routed deployment serves the alias as a request on record of its key asked. -/
theorem ServingInv.request (h : ServingInv Leasable t) (hd : d ∈ t.ledger.store.deployments)
    (hroutes : routesAlias assignments alias_ d) :
    ∃ rec ∈ t.history, rec.request.endpoint = alias_ ∧ Requestable rec.request ∧
      Launched Requestable d ∧ d.compatKey = rec.request.compatKey ∧
      d.served.get? alias_ = some rec.request.served := by
  simp only [routesAlias, Bool.and_eq_true, decide_eq_true_eq] at hroutes
  obtain ⟨⟨-, hengine⟩, hserves⟩ := hroutes
  obtain ⟨payload, hpayload⟩ := Option.isSome_iff_exists.mp hserves
  have hget : t.ledger.store.getDeployment d.id = some d := Table.mem_iff_find?.mp hd
  obtain ⟨rec, hrec, hid, hendpoint, hserved⟩ := h.asked d.id d hget alias_ payload hpayload
  obtain ⟨d', hd', hfits, -⟩ := h.claims.fits rec hrec
  obtain rfl : d' = d := Option.some.inj ((hid ▸ hd').symm.trans hget)
  obtain ⟨creator, hcreator, hlaunch⟩ := h.rows.rows.of_mem hd
  have hasked : Requestable creator := by
    refine hcreator.resolve_left fun hreserved => hengine ?_
    rw [hlaunch.engine, hreserved]
  have hrequest : Requestable rec.request := by
    refine (h.records.history rec hrec).resolve_left fun hreserved => hengine ?_
    have hkey : creator.compatKey = rec.request.compatKey :=
      hlaunch.compatKey.symm.trans hfits.compatKey
    rw [hlaunch.engine, ← hreserved]
    exact congrArg CompatKey.engine hkey
  exact ⟨rec, hrec, hendpoint, hrequest, ⟨creator, hasked, hlaunch⟩, hfits.compatKey,
    by rw [hpayload, hserved]⟩

end Served

/-- The gateway is configured as if nothing were deployed.  After any run of the
ledger, whichever of its deployments a render places, and wherever, the static
route table renders to what the registry, the published catalogs and `extra`
alone give, if every claim on record is for an endpoint as it is published. -/
theorem front_door_published {π δ : Type} (py : Python) (u : CatalogUnion) (start : Int)
    (calls : List (LedgerCall π δ))
    (hcalls : AllSteps tracedStep (fun t c => FreshPlans t c ∧ CallAsks Leasable t c)
      (TracedState.init start) calls)
    (hpublished : ∀ rec ∈ (run tracedStep (TracedState.init start) calls).history,
      rec.request.engine ≠ .reserved → PublishedAs u rec.request)
    (deployments : List Deployment)
    (hledger : ∀ d ∈ deployments,
      d ∈ (run tracedStep (TracedState.init start) calls).ledger.store.deployments)
    (assignments : Dict String (List Nat)) (entries : Dict String RegistryRow)
    (extra : List GatewayRoute) :
    (frontDoorRoutes py deployments assignments u entries extra).map GatewayRoute.entry =
      (frontDoorRoutes py [] assignments u entries extra).map GatewayRoute.entry := by
  have hinv : ServingInv Leasable (run tracedStep (TracedState.init start) calls) :=
    .run start hcalls
  rw [frontDoorRoutes_eq, frontDoorRoutes_eq]
  refine layered_map_congr modelName_entry fun x => ?_
  have hnone : placedRoutes py [] assignments u = [] := rfl
  rw [hnone, List.nil_append, List.filter_append, List.filter_append, List.filter_append,
    List.getLast?_append, List.getLast?_append, List.getLast?_append, filter_placedRoutes]
  cases hlast : ((sortedDeployments deployments).filter (routesAlias assignments x)).getLast? with
  | none => rw [List.getLast?_map, hlast, Option.map_none, Option.or_none]
  | some d =>
      obtain ⟨hmem, hroutes⟩ := List.mem_filter.mp (List.mem_of_getLast? hlast)
      have hd : d ∈ deployments := (List.mem_insertionSort _).mp hmem
      obtain ⟨rec, hrec, rfl, hrequest, hlaunched, hkey, hserved⟩ :=
        hinv.request (hledger d hd) hroutes
      have hentry := @entry_routeFor_of_published py u _ d hrequest
        (hpublished rec hrec hrequest.engine_ne) hlaunched hkey hserved
      -- the catalogs already route the alias as the deployment does
      have hcatalog : ((sharedLayers py u entries).filter
          fun r => r.alias_ = rec.request.endpoint).getLast?.map GatewayRoute.entry =
            some (routeFor py false (u.owner.get? rec.request.endpoint)
              rec.request.endpoint d).entry := by
        obtain ⟨route, hroute, hshown⟩ := Option.map_eq_some_iff.mp hentry
        rw [sharedLayers, List.filter_append, List.getLast?_append,
          filter_catalogRoutes fun _ _ _ => alias_composeCatalogRoute, hroute]
        exact congrArg some hshown
      rw [List.getLast?_map, hlast, Option.map_some]
      cases (extra.filter fun r => r.alias_ = rec.request.endpoint).getLast? with
      | some route => rfl
      | none =>
          rw [Option.none_or, Option.some_or, Option.none_or, hcatalog]
          rfl

/-! ## two windows of one model -/

/-- The catalog of the two windows, published. -/
def smolUnion : CatalogUnion where
  owner := Table.ofList [("small", smolCatalog), ("large", smolCatalog), ("simulated", smolCatalog)]

/-- The larger window is acquired, and the smaller one joins it. -/
def smolJoined : List (LedgerCall Unit Unit) :=
  [.op 0 (.acquire "l1" "ann" none none [smolRequest "large" 8192 none] (tagId 'p') ∅ none none),
   .op 1 (.acquire "l2" "bob" none none [smolRequest "small" 4096 none] (tagId 'q') ∅ none none)]

theorem smolJoined_asks {Q : EndpointRequest → Prop} (hlarge : Q (smolRequest "large" 8192 none))
    (hsmall : Q (smolRequest "small" 4096 none)) :
    AllSteps tracedStep (fun t c => FreshPlans t c ∧ CallAsks Q t c) (TracedState.init 0)
      smolJoined := by
  refine ⟨⟨?_, ?_⟩, ⟨?_, ?_⟩, trivial⟩
  · intro requests newId heq
    obtain ⟨rfl, rfl⟩ := Prod.mk.inj (Option.some.inj heq)
    exact freshIds_tagId (by decide)
  · intro requests newId heq r hr
    obtain ⟨rfl, rfl⟩ := Prod.mk.inj (Option.some.inj heq)
    exact List.mem_singleton.mp hr ▸ hlarge
  · intro requests newId heq
    obtain ⟨rfl, rfl⟩ := Prod.mk.inj (Option.some.inj heq)
    exact freshIds_tagId (by decide)
  · intro requests newId heq r hr
    obtain ⟨rfl, rfl⟩ := Prod.mk.inj (Option.some.inj heq)
    exact List.mem_singleton.mp hr ▸ hsmall

/-- One deployment serves both, and the gateway shows the published windows. -/
theorem smolJoined_published :
    (frontDoorRoutes plainPython
        (run tracedStep (TracedState.init 0) smolJoined).ledger.store.deployments.rows
        (Table.ofList [("p", [0])]) smolUnion ∅ []).map GatewayRoute.entry =
      (frontDoorRoutes plainPython [] (Table.ofList [("p", [0])]) smolUnion ∅ []).map
        GatewayRoute.entry := by
  have hcalls : AllSteps tracedStep (fun t c => FreshPlans t c ∧ CallAsks Leasable t c)
      (TracedState.init 0) smolJoined :=
    smolJoined_asks (.inr ⟨large_fromCatalog, by decide, by decide, by decide⟩)
      (.inr ⟨small_fromCatalog, by decide, by decide, by decide⟩)
  have hinv : ServingInv (fun r => r = smolRequest "large" 8192 none ∨
      r = smolRequest "small" 4096 none) (run tracedStep (TracedState.init 0) smolJoined) :=
    .run 0 (smolJoined_asks (.inl rfl) (.inr rfl))
  refine front_door_published plainPython smolUnion 0 smolJoined hcalls (fun rec hrec _ => ?_)
    _ (fun _ hd => hd) _ ∅ []
  cases hinv.records.history rec hrec with
  | inl h => exact ⟨_, none, _, by rw [h]; rfl, rfl, by rw [h]; rfl⟩
  | inr h => exact ⟨_, none, _, by rw [h]; rfl, rfl, by rw [h]; rfl⟩

end InferStack
