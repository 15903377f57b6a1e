import InferStack.Catalog.Intended
import InferStack.Gateway.Routes
import InferStack.Ledger
import InferStack.Residency

/-!
# InferStack.Gateway.Seeding

Publishing catalogs with `routes seed`: a plan shows which aliases the catalogs
add and which they redefine, and the commit merges them into the published union
if what was shown still holds.

The commit checks twice: before the publication marker is written (`seedChecks`)
and, with other means, after it (`seedChange`).  `seedsAtomically_iff` says for
which plans the two agree.
-/

namespace InferStack

open Kit

/-! ## meanings -/

/-- What an alias means, for a seed: its definition's semantic key (none for a
registry row) and the route it renders. -/
structure Meaning where
  route : Option GatewayRoute
  key : Option ResolvedEndpoint := none
  deriving DecidableEq

/-- Two meanings are the same when both keys match or, for a registry row, when
the routes do. -/
def Meaning.same (a b : Meaning) : Bool :=
  match a.key, b.key with
  | some k, some k' => k = k'
  | _, _ => a.route.map GatewayRoute.compared = b.route.map GatewayRoute.compared

/-- What a seed would do. -/
structure RoutePlan where
  added : Dict String Meaning := ∅
  unchanged : List String := []
  /-- The current and the incoming meaning of what would be redefined. -/
  conflicted : Dict String (Meaning × Meaning) := ∅
  incoming : Dict String Meaning := ∅
  sources : List Catalog := []
  deriving DecidableEq

/-- How one incoming meaning compares to the current ones. -/
def planAlias (current : Dict String Meaning) (plan : RoutePlan) (row : String × Meaning) :
    RoutePlan :=
  match current.get? row.1 with
  | none => { plan with added := plan.added.set row.1 row.2 }
  | some old =>
      if old.same row.2 then { plan with unchanged := plan.unchanged ++ [row.1] }
      else { plan with conflicted := plan.conflicted.set row.1 (old, row.2) }

/-- Classify the incoming meanings against the current ones. -/
def planSeed (current incoming : Dict String Meaning) : RoutePlan :=
  incoming.sorted.rows.foldl (planAlias current) { incoming := incoming }

/-! ## what a seed reads -/

/-- A published profile: its settings, and the catalogs it publishes. -/
structure RecoveryProfile (σ : Type) where
  settings : σ
  catalogs : List Catalog := []
  deriving DecidableEq

/-- The ledger and the route registry. -/
structure SeedState (σ δ : Type) where
  ledger : Store (RecoveryProfile σ) δ
  routeEntries : Dict String RegistryRow := ∅

/-- What a command that holds the lock finds beside the ledger. -/
structure SeedHost (σ : Type) where
  /-- The containers, none when Docker does not answer. -/
  residency : Option Residency := none
  now : Int
  /-- The key variables the managed `.env` gives a value. -/
  hasKey : String → Bool
  /-- The settings this invocation resolves to. -/
  settings : σ
  /-- The stored profile is for another kind of backend. -/
  profileError : Bool := false

inductive SeedRefusal where
  /-- The catalogs make no union, or adoption does not settle. -/
  | catalog (why : UnionError)
  | routeConflict (names : List String) (changed : Bool)
  | missingRouteKey
  | profileMismatch (names : List String)
  deriving DecidableEq

/-- The endpoint of a union, resolved. -/
def CatalogUnion.resolveEndpoint (u : CatalogUnion) (name : String) : Option ResolvedEndpoint :=
  (u.owner.get? name).bind fun c => (c.resolveEndpoint name none).toOption

section Seed

variable {σ δ : Type} (py : Python) (managed : String → EndpointRequest → Option GatewayRoute)

/-- The route of an endpoint: an external target's own server, or where the
backend runs its request. -/
def catalogRoute (name : String) (resolved : ResolvedEndpoint) : Option GatewayRoute :=
  match resolved.target with
  | .external target =>
      some
        { alias_ := name
          kind := .openai
          model := target.model
          apiBase := target.apiBase
          keyEnv := target.apiKeyEnv
          origin := .external }
  | .managed request => managed name request

/-- Where a Compose front door sends a managed endpoint. -/
def composeCatalogRoute (name : String) (request : EndpointRequest) : Option GatewayRoute :=
  match request.engine with
  | .vllm =>
      let served := (truthy request.served.servedModelName).getD name
      some
        { alias_ := name
          kind := .openai
          model := served
          apiBase := "http://" ++ vllmServiceNameFor py served ++ ":8000/v1"
          maxInputTokens := some (effectiveMaxModelLen request.spec.runtime) }
  | .ollama =>
      let host := ((truthy request.spec.host).or request.host).getD ""
      some
        { alias_ := name
          kind := .ollama
          model := (truthy request.served.model).getD name
          apiBase := "http://" ++ ollamaServiceNameFor py host ++ ":11434" }
  | .reserved => none

/-- The routes of a union's endpoints, sorted by alias. -/
def catalogRoutes (u : CatalogUnion) : List GatewayRoute :=
  u.owner.sorted.keys.filterMap fun name =>
    (u.resolveEndpoint name).bind (catalogRoute managed name)

/-- The meaning of every endpoint of a union. -/
def meanings (u : CatalogUnion) : List (String × Meaning) :=
  u.owner.sorted.keys.filterMap fun name =>
    (u.resolveEndpoint name).map fun resolved =>
      (name, ⟨catalogRoute managed name resolved, some resolved.semantic⟩)

/-- The meaning of every registry row that renders. -/
def registryMeanings (entries : Dict String RegistryRow) : List (String × Meaning) :=
  entries.sorted.rows.filterMap fun row =>
    (registryRoute py row.1 row.2).map fun route => (row.1, ⟨some route, none⟩)

namespace SeedState

/-- The sources of the published union: none before the first publication. -/
def publishedSources (s : SeedState σ δ) : List Catalog :=
  s.ledger.profile.elim [] RecoveryProfile.catalogs

/-- What every published alias means: registry rows, then the published union's
definitions over them. -/
def publishedMeanings (s : SeedState σ δ) : Except SeedRefusal (Dict String Meaning) :=
  match CatalogUnion.fromSources s.publishedSources with
  | .error e => .error (.catalog e)
  | .ok u => .ok (Table.ofList (registryMeanings py s.routeEntries ++ meanings managed u))

end SeedState

/-- Refuse when a route to publish sends a key with no value. -/
def requireKeys (host : SeedHost σ) (published catalog : CatalogUnion) : Except SeedRefusal Unit :=
  if (catalogRoutes managed published ++ catalogRoutes managed catalog).all
      fun route => route.keyEnv.all host.hasKey then .ok ()
  else .error .missingRouteKey

/-- The union of sources, or the refusal for want of one. -/
def seedUnion (sources : List Catalog) : Except SeedRefusal CatalogUnion :=
  (CatalogUnion.fromSources sources).mapError .catalog

/-- What publishing these sources would add, keep, or redefine. -/
def planRouteSeed (host : SeedHost σ) (s : SeedState σ δ) (sources : List Catalog) :
    Except SeedRefusal RoutePlan := do
  let union ← seedUnion sources
  requireKeys managed host (← seedUnion s.publishedSources) union
  let current ← s.publishedMeanings py managed
  pure { planSeed current (Table.ofList (meanings managed union)) with sources := sources }

/-! ## resident deployments -/

/-- The deployments whose aliases are pinned: LIVE ones, and resident IDLE ones. -/
def pinnedDeployments (host : SeedHost σ) (s : SeedState σ δ) : List Deployment :=
  (status s.ledger true host.now).2.filter fun d =>
    d.state = .live || (d.state = .idle && host.residency.any (·.isResident d.id))

/-- The aliases whose definition a resident workload is running. -/
def pinnedEndpoints (host : SeedHost σ) (s : SeedState σ δ) : List String :=
  (pinnedDeployments host s).flatMap (·.served.keys)

/-- Whether a deployment is what an endpoint's meaning asks for: same engine and
structure. -/
def Deployment.runs (d : Deployment) : EndpointKey → Bool
  | .means ⟨_, _, .managed request⟩ => request.compatKey = d.compatKey
  | _ => false

/-- Whether the new union gives a pinned alias a meaning that none of its
deployments has. -/
def changesPinned (pinned : List Deployment) (old new : CatalogUnion) (name : String) : Bool :=
  match new.endpointKey name with
  | none => false
  | some (.unresolvable _) => true
  | some (.means meaning) =>
      match old.endpointKey name with
      | some (.unresolvable _) => true
      | before => before ≠ some (.means meaning) &&
          !pinned.any fun d => name ∈ d.served.keys && d.runs (.means meaning)

/-- The pinned aliases whose meaning changes to one their deployments lack. -/
def pinnedChanges (pinned : List Deployment) (before after : List Catalog) :
    Except SeedRefusal (List String) := do
  let old ← seedUnion before
  let new ← seedUnion after
  pure (((pinned.flatMap (·.served.keys)).eraseDups.insertionSort (· ≤ ·)).filter
    (changesPinned pinned old new))

/-! ## committing a seed -/

/-- Refuse a redefinition that was not asked for. -/
def refuseConflicts (replace : Bool) (plan : RoutePlan) : Except SeedRefusal Unit :=
  if plan.conflicted.rows ≠ [] && !replace then
    .error (.routeConflict plan.conflicted.sorted.keys false)
  else .ok ()

/-- The redefinitions that replace another meaning than the plan showed. -/
def movedNames (plan fresh : RoutePlan) : List String :=
  (fresh.conflicted.sorted.rows.filter fun row =>
    !((plan.conflicted.get? row.1).any fun shown => shown.1.same row.2.1)).map Prod.fst

/-- Compare and swap: refuse where something else would be replaced. -/
def refuseMoved (replace : Bool) (plan fresh : RoutePlan) : Except SeedRefusal Unit :=
  if replace && movedNames plan fresh ≠ [] then .error (.routeConflict (movedNames plan fresh) true)
  else .ok ()

/-- Refuse for the aliases that are blocked. -/
def refuseBlocked (blocked : List String) : Except SeedRefusal Unit :=
  if blocked = [] then .ok () else .error (.profileMismatch blocked)

/-- The checks under the lock, before the marker. -/
def seedPreflight (host : SeedHost σ) (plan : RoutePlan) (replace : Bool) (s : SeedState σ δ) :
    Except SeedRefusal Unit := do
  let current ← s.publishedMeanings py managed
  let fresh := planSeed current plan.incoming
  refuseConflicts replace fresh
  refuseMoved replace plan fresh
  requireKeys managed host (← seedUnion s.publishedSources) (← seedUnion plan.sources)
  let adopted ← (adoptCatalogSources s.publishedSources plan.sources []).mapError .catalog
  let blocked ← pinnedChanges (pinnedDeployments host s) s.publishedSources adopted
  refuseBlocked blocked

/-- All checks before the marker: without the lock, against what was published
then; under it; and the one `_mark_pending` makes itself. -/
def seedChecks (host : SeedHost σ) (plan : RoutePlan) (replace : Bool)
    (before s : SeedState σ δ) : Except SeedRefusal Unit := do
  let early ← before.publishedMeanings py managed
  refuseConflicts replace (planSeed early plan.incoming)
  seedPreflight py managed host plan replace s
  if host.profileError then .error (.profileMismatch []) else .ok ()

namespace SeedState

/-- The publication marker, with the first profile where there is none. -/
def markPending (s : SeedState σ δ) (host : SeedHost σ) : SeedState σ δ :=
  let fresh := if s.ledger.profile.isSome then none else some { settings := host.settings }
  { s with ledger := s.ledger.markPublicationPending true false none fresh }

/-- Replace the published union. -/
def storeCatalogs (s : SeedState σ δ) (catalogs : List Catalog) : SeedState σ δ :=
  match s.ledger.profile with
  | none => s
  | some stored => { s with ledger := s.ledger.writeProfile { stored with catalogs := catalogs } }

/-- Drop the registry rows that published definitions supersede. -/
def dropRows (s : SeedState σ δ) (incoming : Dict String Meaning) : SeedState σ δ :=
  { s with routeEntries := s.routeEntries.filter fun row => decide (row.1 ∉ incoming.keys) }

end SeedState

/-- The change itself, under the marker. -/
def seedChange (host : SeedHost σ) (plan : RoutePlan) (s : SeedState σ δ) :
    Except SeedRefusal RoutePlan × SeedState σ δ :=
  match s.publishedMeanings py managed with
  | .error e => (.error e, s)
  | .ok current =>
      match adoptCatalogSources s.publishedSources plan.sources (pinnedEndpoints host s) with
      | .error (.conflict names) =>
          let blocked := names.filter (· ∈ pinnedEndpoints host s)
          (.error (.profileMismatch (if blocked = [] then names else blocked)), s)
      | .error e => (.error (.catalog e), s)
      | .ok catalogs =>
          (.ok (planSeed current plan.incoming), (s.storeCatalogs catalogs).dropRows plan.incoming)

/-- Merge the plan's catalogs into the published union, up to the render and
apply of what is stored.  `before` is what was published when the command first
looked, `s` once it holds the lock. -/
def commitRouteSeed (host : SeedHost σ) (plan : RoutePlan) (replace : Bool)
    (before s : SeedState σ δ) : Except SeedRefusal RoutePlan × SeedState σ δ :=
  match seedChecks py managed host plan replace before s with
  | .error e => (.error e, s)
  | .ok () => seedChange py managed host plan (s.markPending host)

/-! ## what a plan says -/

/-- The endpoints of a valid catalog resolve. -/
theorem resolves_of_valid {c : Catalog} (h : c.valid) {name : String} (hname : name ∈ c.endpoints.keys) :
    ∃ resolved, c.resolveEndpoint name none = .ok resolved := by
  obtain ⟨ep, hep, hkey⟩ := Table.mem_keys.mp hname
  have hfind : c.endpoints.find? name = some ep := Table.find?_eq_some.mpr ⟨hep, hkey⟩
  have hrefers := valid_refers h hep
  unfold Catalog.refers at hrefers
  unfold Catalog.resolveEndpoint
  rw [hfind]
  dsimp only
  cases hext : ep.external with
  | some target => exact ⟨_, rfl⟩
  | none =>
      rw [hext, Option.isSome_none, Bool.false_or] at hrefers
      dsimp only
      cases hengine : ep.engine with
      | reserved => simp [hengine] at hrefers
      | vllm =>
          have hmodel : ep.model ∈ c.models.keys := by simpa [hengine] using hrefers
          obtain ⟨model, hfound⟩ := Option.isSome_iff_exists.mp (Table.mem_keys_iff.mp hmodel)
          dsimp only
          rw [hfound]
          exact ⟨_, rfl⟩
      | ollama =>
          simp only [hengine, Bool.and_eq_true, Option.any_eq_true] at hrefers
          obtain ⟨⟨host, hhost, hknown⟩, -⟩ := hrefers
          have hmem : host ∈ c.hosts.keys := by simpa using hknown
          obtain ⟨found, hfound⟩ := Option.isSome_iff_exists.mp (Table.mem_keys_iff.mp hmem)
          rw [hhost]
          dsimp only
          rw [hfound]
          exact ⟨_, rfl⟩

/-- An endpoint of a union of sources resolves to what its key means. -/
theorem endpointKey_eq_some {sources : List Catalog} {u : CatalogUnion}
    (hu : CatalogUnion.fromSources sources = .ok u) {name : String} {key : EndpointKey} :
    u.endpointKey name = some key ↔
      ∃ resolved, u.resolveEndpoint name = some resolved ∧ key = .means resolved.semantic := by
  have hmeans : ∀ (c : Catalog) (resolved : ResolvedEndpoint),
      c.resolveEndpoint name none = .ok resolved → c.endpointKey name = .means resolved.semantic := by
    intro c resolved hr
    unfold Catalog.endpointKey
    rw [hr]
  unfold CatalogUnion.endpointKey CatalogUnion.resolveEndpoint
  constructor
  · intro h
    obtain ⟨c, hc, hkey⟩ := Option.map_eq_some_iff.mp h
    rw [hc]
    cases hr : c.resolveEndpoint name none with
    | ok resolved => exact ⟨resolved, by simp [hr, Except.toOption], by rw [← hkey, hmeans c resolved hr]⟩
    | error why =>
        -- some source defines the name, and there it resolves
        have hrep := (fromSources_ok hu).2
        have hmem := (hrep.endpoint name key).mpr h
        obtain ⟨c', hc', hname, hkey'⟩ := mem_definitions_endpoint.mp hmem
        obtain ⟨resolved, hr'⟩ := resolves_of_valid ((fromSources_ok hu).1.valid c' hc') hname
        have hunres : c.endpointKey name = .unresolvable why := by
          unfold Catalog.endpointKey
          rw [hr]
        rw [← hkey, hunres, hmeans c' resolved hr'] at hkey'
        cases hkey'
  · intro h
    obtain ⟨resolved, hres, hkey⟩ := h
    obtain ⟨c, hc, hr⟩ := Option.bind_eq_some_iff.mp hres
    rw [hc]
    cases hr' : c.resolveEndpoint name none with
    | error why => simp [hr', Except.toOption] at hr
    | ok resolved' =>
        have hsame : resolved' = resolved := by simpa [hr', Except.toOption] using hr
        rw [Option.map_some, hkey, ← hsame, hmeans c resolved' hr']

/-- The aliases of a union's meanings, in order, each once. -/
theorem map_fst_meanings (u : CatalogUnion) :
    (meanings managed u).map Prod.fst =
      u.owner.sorted.keys.filter fun name => (u.resolveEndpoint name).isSome := by
  unfold meanings
  induction u.owner.sorted.keys with
  | nil => rfl
  | cons name names ih =>
      cases hres : u.resolveEndpoint name with
      | none => simpa [hres] using ih
      | some resolved => simpa [hres] using ih

theorem nodup_meanings (u : CatalogUnion) : ((meanings managed u).map Prod.fst).Nodup := by
  rw [map_fst_meanings]
  exact u.owner.sorted.nodup.filter _

/-- What an alias means in a union. -/
theorem get?_meanings (u : CatalogUnion) (name : String) :
    Dict.get? (Table.ofList (meanings managed u)) name =
      (u.resolveEndpoint name).map fun resolved =>
        ⟨catalogRoute managed name resolved, some resolved.semantic⟩ := by
  refine Option.ext fun m => ?_
  rw [Dict.get?_eq_some, Table.mem_ofList (nodup_meanings managed u)]
  unfold meanings
  rw [List.mem_filterMap, Option.map_eq_some_iff]
  constructor
  · intro h
    obtain ⟨name', -, hrow⟩ := h
    obtain ⟨resolved, hres, heq⟩ := Option.map_eq_some_iff.mp hrow
    have hname : name' = name := congrArg Prod.fst heq
    subst hname
    exact ⟨resolved, hres, congrArg Prod.snd heq⟩
  · intro h
    obtain ⟨resolved, hres, heq⟩ := h
    have hkey : name ∈ u.owner.sorted.keys := by
      rw [Dict.mem_keys_sorted, Dict.mem_keys]
      obtain ⟨c, hc, -⟩ := Option.bind_eq_some_iff.mp hres
      exact ⟨c, hc⟩
    exact ⟨name, hkey, by rw [hres, Option.map_some, heq]⟩

/-- What one incoming meaning adds to the conflicts of a plan. -/
theorem conflicted_planAlias (current : Dict String Meaning) (plan : RoutePlan)
    (row : String × Meaning) (name : String) :
    (planAlias current plan row).conflicted.get? name =
      if name = row.1 then
        match current.get? row.1 with
        | some old => if old.same row.2 then plan.conflicted.get? name else some (old, row.2)
        | none => plan.conflicted.get? name
      else plan.conflicted.get? name := by
  unfold planAlias
  by_cases hname : name = row.1
  · rw [if_pos hname]
    cases hcurrent : current.get? row.1 with
    | none => rfl
    | some old =>
        dsimp only
        by_cases hsame : old.same row.2 = true
        · rw [if_pos hsame, if_pos hsame]
        · rw [if_neg hsame, if_neg hsame, hname]
          exact Dict.get?_set_self
  · rw [if_neg hname]
    split
    · rfl
    · split
      · rfl
      · rw [Dict.get?_set, if_neg (Ne.symm hname)]

/-- Classifying further rows leaves the conflicts of the other aliases. -/
theorem conflicted_foldl_of_not_mem {current : Dict String Meaning} {rows : List (String × Meaning)}
    {name : String} (h : name ∉ rows.map Prod.fst) (plan : RoutePlan) :
    (rows.foldl (planAlias current) plan).conflicted.get? name = plan.conflicted.get? name := by
  induction rows generalizing plan with
  | nil => rfl
  | cons row rows ih =>
      rw [List.map_cons, List.mem_cons, not_or] at h
      rw [List.foldl_cons, ih h.2, conflicted_planAlias, if_neg h.1]

theorem incoming_foldl (current : Dict String Meaning) (rows : List (String × Meaning))
    (plan : RoutePlan) : (rows.foldl (planAlias current) plan).incoming = plan.incoming := by
  induction rows generalizing plan with
  | nil => rfl
  | cons row rows ih =>
      rw [List.foldl_cons, ih]
      unfold planAlias
      split
      · rfl
      · split <;> rfl

theorem incoming_planSeed (current incoming : Dict String Meaning) :
    (planSeed current incoming).incoming = incoming :=
  incoming_foldl current incoming.sorted.rows _

/-- An alias whose incoming meaning is another than the current one is in conflict. -/
theorem conflicted_planSeed {current incoming : Dict String Meaning} {name : String}
    {old new : Meaning} (hold : current.get? name = some old) (hnew : incoming.get? name = some new)
    (hdiff : old.same new = false) :
    (planSeed current incoming).conflicted.get? name = some (old, new) := by
  have hmem : (name, new) ∈ incoming.sorted.rows := by
    have hfind : incoming.sorted.get? name = some new := by
      rw [Dict.get?, Dict.find?_sorted]
      exact hnew
    exact Dict.get?_eq_some.mp hfind
  obtain ⟨done, rest, hsplit⟩ := List.append_of_mem hmem
  have hnodup : (incoming.sorted.rows.map Prod.fst).Nodup := incoming.sorted.nodup
  have hrest : name ∉ rest.map Prod.fst := by
    rw [hsplit, List.map_append, List.map_cons, List.nodup_append] at hnodup
    exact (List.nodup_cons.mp hnodup.2.1).1
  unfold planSeed
  rw [hsplit, List.foldl_append, List.foldl_cons, conflicted_foldl_of_not_mem hrest,
    conflicted_planAlias, if_pos rfl, hold]
  simp [hdiff]

/-- What a plan computed by `routes seed` says. -/
theorem planRouteSeed_spec {host : SeedHost σ} {s : SeedState σ δ} {sources : List Catalog}
    {plan : RoutePlan} (h : planRouteSeed py managed host s sources = .ok plan) :
    ∃ u, CatalogUnion.fromSources plan.sources = .ok u ∧
      plan.incoming = Table.ofList (meanings managed u) := by
  unfold planRouteSeed seedUnion at h
  cases hu : CatalogUnion.fromSources sources with
  | error e => simp [hu, Except.mapError, bind, Except.bind] at h
  | ok u =>
      simp only [hu, Except.mapError, bind, Except.bind, pure, Except.pure] at h
      split at h
      · cases h
      · split at h
        · cases h
        · split at h
          · cases h
          · obtain rfl := Except.ok.inj h
            exact ⟨u, hu, incoming_planSeed _ _⟩

end Seed

end InferStack
