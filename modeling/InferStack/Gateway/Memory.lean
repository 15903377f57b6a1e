import InferStack.Gateway.FrontDoor
import InferStack.Gateway.Pruning
import InferStack.Kit.Machine

/-!
# InferStack.Gateway.Memory

What the gateway is configured with over a run of converges.

An approved render adds to the registry the routes of its deployments that no
published catalog defines; nothing is removed there.  `front_door_grows` says
that the rendered configuration only ever grows: whatever is released in between,
a later render keeps every entry of an earlier one, and adds none but for an
alias that a deployment placed since has brought.
-/

namespace InferStack

open Kit

/-! ## the registry file -/

/-- `litellm_registry.json`. -/
structure Registry where
  version : Int := 1
  entries : Dict String RegistryRow := ∅
  deriving DecidableEq

/-- Add or update rows.  A newer binary's file is read, never rewritten, and one
that has the rows is left alone. -/
def Registry.remember (r : Registry) (rows : Dict String RegistryRow) : Registry :=
  if rows.rows = [] then r
  else if r.version ≠ 1 then r
  else if rows.rows.all fun kv => r.entries.get? kv.1 = some kv.2 then r
  else { r with entries := r.entries.putAll rows.rows }

@[simp] theorem Registry.version_remember (r : Registry) (rows : Dict String RegistryRow) :
    (r.remember rows).version = r.version := by
  unfold Registry.remember
  split
  · rfl
  · split
    · rfl
    · split <;> rfl

/-- A row is what was remembered last. -/
theorem Registry.get?_remember {r : Registry} (hversion : r.version = 1)
    (rows : Dict String RegistryRow) (k : String) :
    (r.remember rows).entries.get? k = (rows.get? k).or (r.entries.get? k) := by
  have hfind : rows.rows.find? (fun kv => kv.1 = k) = rows.find? k := rfl
  unfold Registry.remember
  by_cases hnil : rows.rows = []
  · rw [if_pos hnil]
    simp [Dict.get?, Table.find?, hnil]
  · rw [if_neg hnil, if_neg (not_not.mpr hversion)]
    by_cases hall : rows.rows.all fun kv => r.entries.get? kv.1 = some kv.2
    · rw [if_pos hall]
      cases hget : rows.get? k with
      | none => rfl
      | some row =>
          have hrow := List.all_eq_true.mp hall (k, row) (Dict.get?_eq_some.mp hget)
          simpa using hrow
    · rw [if_neg hall]
      show ((r.entries.putAll rows.rows).find? k).map Prod.snd = _
      rw [Table.find?_putAll rows.nodup, hfind, Option.map_or]
      rfl

/-! ## converges -/

/-- The deployments of an approved render, and where it places them. -/
structure Converge where
  deployments : List Deployment
  assignments : Dict String (List Nat) := ∅

section Converges

variable (py : Python) (u : CatalogUnion)

/-- The configuration a render writes. -/
def Registry.config (r : Registry) (cv : Converge) : List LitellmEntry :=
  (frontDoorRoutes py cv.deployments cv.assignments u r.entries []).map GatewayRoute.entry

/-- The registry after an approved render. -/
def Registry.converge (r : Registry) (cv : Converge) : Registry :=
  r.remember (rememberedRows cv.deployments cv.assignments u.owner.keys [])

/-- The aliases the placed deployments of a render bring. -/
def Converge.brings (cv : Converge) (alias_ : String) : Prop :=
  ∃ d ∈ cv.deployments, routesAlias cv.assignments alias_ d

/-- Every alias has one entry, whoever serves it, and none is lost in a row. -/
structure Converge.Obeys (book : String → LitellmEntry) (cv : Converge) : Prop where
  placed : ∀ d ∈ cv.deployments, ∀ a, routesAlias cv.assignments a d →
    (routeFor py false (u.owner.get? a) a d).entry = book a
  readsBack : ∀ d ∈ cv.deployments, ∀ a, routesAlias cv.assignments a d →
    a ∉ u.owner.keys → ReadsBack py a d

/-- The registry has a row for the alias that renders. -/
def Registry.Routes (r : Registry) (alias_ : String) : Prop :=
  ∃ row, r.entries.get? alias_ = some row ∧ (registryRoute py alias_ row).isSome

/-- A registry whose rows render to the book. -/
structure Registry.Obeys (book : String → LitellmEntry) (r : Registry) : Prop where
  version : r.version = 1
  rows : ∀ a row route, r.entries.get? a = some row → registryRoute py a row = some route →
    route.entry = book a

end Converges

section Book

variable {py : Python} {u : CatalogUnion} {book : String → LitellmEntry} {r : Registry}
  {cv : Converge}

/-- What is remembered of an alias reads back to its entry. -/
theorem Converge.Obeys.row (h : cv.Obeys py u book) {a : String} {row : RegistryRow}
    (hrow : (rememberedRows cv.deployments cv.assignments u.owner.keys []).get? a = some row) :
    ∃ route, registryRoute py a row = some route ∧ route.entry = book a := by
  unfold rememberedRows at hrow
  rw [Dict.get?_filter _ (fun k => decide (k ∉ u.owner.keys))] at hrow
  by_cases ha : a ∈ u.owner.keys
  · simp [ha] at hrow
  · rw [if_pos (by simpa using ha), Dict.get?, Table.find?_ofList_last, List.filterMap_nil,
      List.append_nil, Table.filter_flatMap filter_rowsOf, List.getLast?_map, Option.map_map] at hrow
    obtain ⟨d, hd, rfl⟩ := Option.map_eq_some_iff.mp hrow
    obtain ⟨hmem, hroutes⟩ := List.mem_filter.mp (List.mem_of_getLast? hd)
    have hundefined : a ∉ definedAliases none := by simp [definedAliases]
    have hback := (readsBack_iff hundefined hroutes).mpr (h.readsBack d hmem a hroutes ha)
    obtain ⟨route, hroute, hsame⟩ := Option.map_eq_some_iff.mp hback
    refine ⟨route, hroute, ?_⟩
    have hnone : u.owner.get? a = none := by
      cases hget : u.owner.get? a with
      | none => rfl
      | some c => exact absurd (Dict.mem_keys.mpr ⟨c, hget⟩) ha
    have hentry := h.placed d hmem a hroutes
    rw [hnone] at hentry
    rw [← hentry, ← entry_compared, hsame, entry_compared]

theorem mem_registryRoutes {entries : Dict String RegistryRow} {route : GatewayRoute} :
    route ∈ registryRoutes py entries ↔
      ∃ a row, entries.get? a = some row ∧ registryRoute py a row = some route := by
  unfold registryRoutes
  rw [List.mem_filterMap]
  constructor
  · rintro ⟨⟨a, row⟩, hmem, hroute⟩
    refine ⟨a, row, ?_, hroute⟩
    have hget : entries.sorted.get? a = some row := Dict.get?_eq_some.mpr hmem
    rwa [Dict.get?, Dict.find?_sorted] at hget
  · rintro ⟨a, row, hget, hroute⟩
    refine ⟨(a, row), ?_, hroute⟩
    have hsorted : entries.sorted.get? a = some row := by
      rw [Dict.get?, Dict.find?_sorted]
      exact hget
    exact Dict.get?_eq_some.mp hsorted

/-- A row renders to a route under its own alias. -/
theorem alias_registryRoute {a : String} {row : RegistryRow} {route : GatewayRoute}
    (h : registryRoute py a row = some route) : route.alias_ = a := by
  unfold registryRoute at h
  split at h
  · obtain rfl := Option.some.inj h
    rfl
  · split at h
    · obtain rfl := Option.some.inj h
      rfl
    · split at h
      · obtain ⟨base, -, rfl⟩ := Option.map_eq_some_iff.mp h
        rfl
      · contradiction

theorem mem_placedRoutes {route : GatewayRoute} {deployments : List Deployment}
    {assignments : Dict String (List Nat)} (h : route ∈ placedRoutes py deployments assignments u) :
    ∃ d ∈ deployments, routesAlias assignments route.alias_ d ∧
      route = routeFor py false (u.owner.get? route.alias_) route.alias_ d := by
  have hmem : route ∈ (placedRoutes py deployments assignments u).filter
      fun r => r.alias_ = route.alias_ := List.mem_filter.mpr ⟨h, by simp⟩
  rw [filter_placedRoutes] at hmem
  obtain ⟨d, hd, heq⟩ := List.mem_map.mp hmem
  obtain ⟨hin, hroutes⟩ := List.mem_filter.mp hd
  exact ⟨d, (List.mem_insertionSort _).mp hin, hroutes, heq.symm⟩

/-- The catalogs give an alias a route. -/
def PublishesAlias (py : Python) (u : CatalogUnion) (alias_ : String) : Prop :=
  ((u.resolveEndpoint alias_).bind (catalogRoute (composeCatalogRoute py) alias_)).isSome

/-- The catalogs' routes render to the book. -/
def PublishesBook (py : Python) (u : CatalogUnion) (book : String → LitellmEntry) : Prop :=
  ∀ a route, (u.resolveEndpoint a).bind (catalogRoute (composeCatalogRoute py) a) = some route →
    route.entry = book a

theorem mem_catalogRoutes {route : GatewayRoute} :
    route ∈ catalogRoutes (composeCatalogRoute py) u ↔
      (u.resolveEndpoint route.alias_).bind
        (catalogRoute (composeCatalogRoute py) route.alias_) = some route := by
  have hfilter := @filter_catalogRoutes u (composeCatalogRoute py)
    (fun _ _ _ => alias_composeCatalogRoute) route.alias_
  have hmem : route ∈ (catalogRoutes (composeCatalogRoute py) u).filter
      (fun r => r.alias_ = route.alias_) ↔ route ∈ catalogRoutes (composeCatalogRoute py) u := by
    simp
  rw [← hmem, hfilter, Option.mem_toList]

/-- Every route of a render is the book's. -/
theorem entry_of_mem (hcatalog : PublishesBook py u book) (hreg : r.Obeys py book)
    (hcv : cv.Obeys py u book) {route : GatewayRoute}
    (h : route ∈ sharedLayers py u r.entries ++
      (placedRoutes py cv.deployments cv.assignments u ++ [])) :
    route.entry = book route.alias_ := by
  rw [List.append_nil, sharedLayers, List.mem_append, List.mem_append] at h
  cases h with
  | inl hshared =>
      cases hshared with
      | inl hregistry =>
          obtain ⟨a, row, hget, hroute⟩ := mem_registryRoutes.mp hregistry
          rw [alias_registryRoute hroute]
          exact hreg.rows a row route hget hroute
      | inr hpublished => exact hcatalog _ route (mem_catalogRoutes.mp hpublished)
  | inr hplaced =>
      obtain ⟨d, hd, hroutes, heq⟩ := mem_placedRoutes hplaced
      exact (congrArg GatewayRoute.entry heq).trans (hcv.placed d hd route.alias_ hroutes)

/-- What a render configures: the book, for every alias that the registry, the
catalogs or a placed deployment routes. -/
theorem mem_config (hcatalog : PublishesBook py u book) (hreg : r.Obeys py book)
    (hcv : cv.Obeys py u book) {e : LitellmEntry} : e ∈ r.config py u cv ↔
      e = book e.modelName ∧
        (r.Routes py e.modelName ∨ PublishesAlias py u e.modelName ∨ cv.brings e.modelName) := by
  have hbook := fun route => @entry_of_mem py u book r cv hcatalog hreg hcv route
  rw [Registry.config, frontDoorRoutes_eq, mem_map_layered_of_book hbook]
  constructor
  · rintro ⟨route, hroute, rfl⟩
    have hname : (book route.alias_).modelName = route.alias_ := by
      rw [← hbook route hroute]
      rfl
    rw [hname]
    refine ⟨rfl, ?_⟩
    rw [List.append_nil, sharedLayers, List.mem_append, List.mem_append] at hroute
    cases hroute with
    | inl hshared =>
        cases hshared with
        | inl hregistry =>
            obtain ⟨a, row, hget, hrow⟩ := mem_registryRoutes.mp hregistry
            rw [alias_registryRoute hrow]
            exact .inl ⟨row, hget, by rw [hrow]; rfl⟩
        | inr hpublished =>
            refine .inr (.inl ?_)
            unfold PublishesAlias
            rw [mem_catalogRoutes.mp hpublished]
            rfl
    | inr hplaced =>
        obtain ⟨d, hd, hroutes, -⟩ := mem_placedRoutes hplaced
        exact .inr (.inr ⟨d, hd, hroutes⟩)
  · rintro ⟨heq, hrouted⟩
    have hroute : ∃ route ∈ sharedLayers py u r.entries ++
        (placedRoutes py cv.deployments cv.assignments u ++ []), route.alias_ = e.modelName := by
      rw [List.append_nil]
      cases hrouted with
      | inl hregistry =>
          obtain ⟨row, hget, hrow⟩ := hregistry
          obtain ⟨route, hroute⟩ := Option.isSome_iff_exists.mp hrow
          refine ⟨route, ?_, alias_registryRoute hroute⟩
          exact List.mem_append_left _ (List.mem_append_left _
            (mem_registryRoutes.mpr ⟨_, row, hget, hroute⟩))
      | inr hother =>
          cases hother with
          | inl hpublished =>
              obtain ⟨route, hroute⟩ := Option.isSome_iff_exists.mp hpublished
              obtain ⟨resolved, -, hcat⟩ := Option.bind_eq_some_iff.mp hroute
              have halias : route.alias_ = e.modelName :=
                alias_catalogRoute (fun _ _ _ => alias_composeCatalogRoute) hcat
              refine ⟨route, ?_, halias⟩
              refine List.mem_append_left _ (List.mem_append_right _ (mem_catalogRoutes.mpr ?_))
              rw [halias]
              exact hroute
          | inr hplaced =>
              obtain ⟨d, hd, hroutes⟩ := hplaced
              have hmem : routeFor py false (u.owner.get? e.modelName) e.modelName d ∈
                  (placedRoutes py cv.deployments cv.assignments u).filter
                    fun r => r.alias_ = e.modelName := by
                rw [filter_placedRoutes]
                refine List.mem_map.mpr ⟨d, List.mem_filter.mpr ⟨?_, hroutes⟩, rfl⟩
                exact (List.mem_insertionSort _).mpr hd
              obtain ⟨hin, hname⟩ := List.mem_filter.mp hmem
              exact ⟨_, List.mem_append_right _ hin, by simpa using hname⟩
    obtain ⟨route, hmem, halias⟩ := hroute
    exact ⟨route, hmem, by rw [halias]; exact heq⟩

/-! ## one converge -/

theorem Registry.get?_converge (hreg : r.Obeys py book) (a : String) :
    (r.converge u cv).entries.get? a =
      ((rememberedRows cv.deployments cv.assignments u.owner.keys []).get? a).or
        (r.entries.get? a) :=
  get?_remember hreg.version _ a

theorem Registry.Obeys.converge (hreg : r.Obeys py book) (hcv : cv.Obeys py u book) :
    (r.converge u cv).Obeys py book := by
  refine ⟨(Registry.version_remember r _).trans hreg.version, fun a row route hget hroute => ?_⟩
  rw [Registry.get?_converge hreg] at hget
  cases Option.or_eq_some_iff.mp hget with
  | inl hnew =>
      obtain ⟨route', hroute', hentry⟩ := hcv.row hnew
      obtain rfl := Option.some.inj (hroute'.symm.trans hroute)
      exact hentry
  | inr hold => exact hreg.rows a row route hold.2 hroute

/-- A converge routes what the registry routed, and what it remembers. -/
theorem Registry.routes_converge (hreg : r.Obeys py book) (hcv : cv.Obeys py u book) (a : String) :
    (r.converge u cv).Routes py a ↔
      r.Routes py a ∨ (a ∉ u.owner.keys ∧ cv.brings a) := by
  have hbrings : ((rememberedRows cv.deployments cv.assignments u.owner.keys []).get? a).isSome ↔
      a ∉ u.owner.keys ∧ cv.brings a := by
    unfold rememberedRows
    rw [Dict.get?_filter _ (fun k => decide (k ∉ u.owner.keys))]
    by_cases ha : a ∈ u.owner.keys
    · simp [ha]
    · rw [if_pos (by simpa using ha), Dict.get?, Table.find?_ofList_last, List.filterMap_nil,
        List.append_nil, Table.filter_flatMap filter_rowsOf, List.getLast?_map, Option.map_map,
        Option.isSome_map, List.getLast?_isSome]
      constructor
      · intro hne
        obtain ⟨d, hd⟩ := List.exists_mem_of_ne_nil _ hne
        obtain ⟨hmem, hroutes⟩ := List.mem_filter.mp hd
        exact ⟨ha, d, hmem, hroutes⟩
      · rintro ⟨-, d, hmem, hroutes⟩
        exact List.ne_nil_of_mem (List.mem_filter.mpr ⟨hmem, hroutes⟩)
  unfold Registry.Routes
  rw [Registry.get?_converge hreg, ← hbrings]
  cases hnew : (rememberedRows cv.deployments cv.assignments u.owner.keys []).get? a with
  | none => simp
  | some row =>
      obtain ⟨route, hroute, -⟩ := hcv.row hnew
      simp [hroute]

/-! ## runs -/

/-- An endpoint whose references are in its catalog is routed. -/
theorem catalogRoute_of_refers {c : Catalog} {a : String} {ep : EndpointSpec}
    (hep : c.endpoints.find? a = some ep) (hrefers : c.refers ep) :
    ∃ resolved, c.resolveEndpoint a none = .ok resolved ∧
      (catalogRoute (composeCatalogRoute py) a resolved).isSome := by
  unfold Catalog.refers at hrefers
  cases hexternal : ep.external with
  | some target =>
      refine ⟨⟨ep.name, ep.protocol, .external target⟩, ?_, rfl⟩
      simp [Catalog.resolveEndpoint, hep, hexternal]
  | none =>
      rw [hexternal] at hrefers
      cases hengine : ep.engine with
      | reserved => simp [hengine] at hrefers
      | vllm =>
          simp only [hengine, Option.isSome_none, Bool.false_or, decide_eq_true_eq] at hrefers
          rw [Table.mem_keys_iff] at hrefers
          obtain ⟨model, hmodel⟩ := Option.isSome_iff_exists.mp hrefers
          refine ⟨⟨ep.name, ep.protocol, .managed (resolveVllm model ep ep.sharing)⟩, ?_, rfl⟩
          simp [Catalog.resolveEndpoint, hep, hexternal, hengine, hmodel]
      | ollama =>
          simp only [hengine, Option.isSome_none, Bool.false_or, Bool.and_eq_true,
            Option.any_eq_true, decide_eq_true_eq] at hrefers
          obtain ⟨⟨host, hhost, hknown⟩, -⟩ := hrefers
          rw [Table.mem_keys_iff] at hknown
          obtain ⟨row, hrow⟩ := Option.isSome_iff_exists.mp hknown
          refine ⟨⟨ep.name, ep.protocol, .managed (resolveOllama row ep ep.sharing)⟩, ?_, rfl⟩
          simp [Catalog.resolveEndpoint, hep, hexternal, hengine, hhost, hrow]

/-- Every endpoint of published catalogs is routed. -/
theorem publishesAlias_of_sources {sources : List Catalog}
    (hu : CatalogUnion.fromSources sources = .ok u) {a : String} (ha : a ∈ u.owner.keys) :
    PublishesAlias py u a := by
  obtain ⟨c, hc⟩ := Dict.mem_keys.mp ha
  have hfind := owner_get? hu a
  rw [hc] at hfind
  have hdefines : a ∈ c.endpoints.keys := by simpa using List.find?_some hfind.symm
  have hvalid : c.valid := by
    have hall : sources.all Catalog.valid = true := by
      by_contra hnot
      simp [CatalogUnion.fromSources, hnot] at hu
    exact List.all_eq_true.mp hall c (List.mem_of_find?_eq_some hfind.symm)
  rw [Table.mem_keys_iff] at hdefines
  obtain ⟨ep, hep⟩ := Option.isSome_iff_exists.mp hdefines
  obtain ⟨resolved, hresolved, hroute⟩ := @catalogRoute_of_refers py c a ep hep
    (valid_refers hvalid (Table.find?_eq_some.mp hep).1)
  unfold PublishesAlias CatalogUnion.resolveEndpoint
  rw [hc, Option.bind_some, hresolved]
  exact hroute

/-- The registry after some approved renders. -/
def registryAfter (u : CatalogUnion) (r : Registry) (cvs : List Converge) : Registry :=
  run (Registry.converge u) r cvs

theorem Registry.Obeys.run {cvs : List Converge} (hreg : r.Obeys py book)
    (hcvs : ∀ cv ∈ cvs, cv.Obeys py u book) : (registryAfter u r cvs).Obeys py book := by
  induction cvs generalizing r with
  | nil => exact hreg
  | cons cv cvs ih =>
      have hcv := hcvs cv List.mem_cons_self
      exact ih (hreg.converge hcv) fun c hc => hcvs c (List.mem_cons_of_mem cv hc)

/-- What the registry routes after a run: what it did, and what was brought. -/
theorem Registry.routes_run {cvs : List Converge} (hreg : r.Obeys py book)
    (hcvs : ∀ cv ∈ cvs, cv.Obeys py u book) (a : String) :
    (registryAfter u r cvs).Routes py a ↔
      r.Routes py a ∨ (a ∉ u.owner.keys ∧ ∃ cv ∈ cvs, cv.brings a) := by
  induction cvs generalizing r with
  | nil => simp [registryAfter]
  | cons cv cvs ih =>
      have hcv := hcvs cv List.mem_cons_self
      have hrest := ih (hreg.converge hcv) fun c hc => hcvs c (List.mem_cons_of_mem cv hc)
      have hstep := Registry.routes_converge hreg hcv a
      simp only [registryAfter, run_cons] at hrest ⊢
      rw [hrest, hstep]
      simp only [List.mem_cons, exists_eq_or_imp]
      tauto

end Book

/-- The configuration of the gateway only grows.  Under one published union whose
aliases, and those of its deployments, each have one entry: whatever a later
render places, it keeps every entry of an earlier one, and adds none but for an
alias that a render since has brought. -/
theorem front_door_grows (py : Python) {sources : List Catalog} {u : CatalogUnion}
    (hu : CatalogUnion.fromSources sources = .ok u) (book : String → LitellmEntry)
    (hcatalog : PublishesBook py u book) (r : Registry) (hreg : r.Obeys py book)
    (earlier : Converge) (between : List Converge) (later : Converge)
    (hearlier : earlier.Obeys py u book) (hbetween : ∀ cv ∈ between, cv.Obeys py u book)
    (hlater : later.Obeys py u book) :
    let after := registryAfter u r (earlier :: between)
    (∀ e ∈ r.config py u earlier, e ∈ after.config py u later) ∧
      ∀ e ∈ after.config py u later, e ∈ r.config py u earlier ∨
        ∃ cv ∈ between ++ [later], cv.brings e.modelName := by
  intro after
  have hall : ∀ cv ∈ earlier :: between, cv.Obeys py u book := by
    intro cv hcv
    cases List.mem_cons.mp hcv with
    | inl heq => exact heq ▸ hearlier
    | inr hin => exact hbetween cv hin
  have hafter : after.Obeys py book := hreg.run hall
  have hroutes := fun a => @Registry.routes_run py u book r (earlier :: between) hreg hall a
  constructor
  · intro e he
    obtain ⟨heq, hrouted⟩ := (mem_config hcatalog hreg hearlier).mp he
    refine (mem_config hcatalog hafter hlater).mpr ⟨heq, ?_⟩
    cases hrouted with
    | inl hregistry => exact .inl ((hroutes e.modelName).mpr (.inl hregistry))
    | inr hother =>
        cases hother with
        | inl hpublished => exact .inr (.inl hpublished)
        | inr hbrings =>
            by_cases hdefined : e.modelName ∈ u.owner.keys
            · exact .inr (.inl (publishesAlias_of_sources hu hdefined))
            · refine .inl ((hroutes e.modelName).mpr (.inr ⟨hdefined, earlier, ?_, hbrings⟩))
              exact List.mem_cons_self
  · intro e he
    obtain ⟨heq, hrouted⟩ := (mem_config hcatalog hafter hlater).mp he
    have hkeep : r.Routes py e.modelName ∨ PublishesAlias py u e.modelName ∨
        earlier.brings e.modelName → e ∈ r.config py u earlier :=
      fun h => (mem_config hcatalog hreg hearlier).mpr ⟨heq, h⟩
    cases hrouted with
    | inl hregistry =>
        cases (hroutes e.modelName).mp hregistry with
        | inl hold => exact .inl (hkeep (.inl hold))
        | inr hbrought =>
            obtain ⟨-, cv, hcv, hbrings⟩ := hbrought
            cases List.mem_cons.mp hcv with
            | inl hfirst => exact .inl (hkeep (.inr (.inr (hfirst ▸ hbrings))))
            | inr hin => exact .inr ⟨cv, List.mem_append_left _ hin, hbrings⟩
    | inr hother =>
        cases hother with
        | inl hpublished => exact .inl (hkeep (.inr (.inl hpublished)))
        | inr hbrings => exact .inr ⟨later, by simp, hbrings⟩

/-! ## an alias no catalog defines -/

/-- What the catalog routes, and the one entry of `chat`. -/
def smolBook (alias_ : String) : LitellmEntry :=
  (((smolUnion.resolveEndpoint alias_).bind
    (catalogRoute (composeCatalogRoute plainPython) alias_)).map GatewayRoute.entry).getD
      (vllmRoute plainPython false none (chatServer "grp-a" 8192) "chat").entry

/-- `chat` is placed. -/
def chatPlaced : Converge := ⟨[chatServer "grp-a" 8192], chatAssignments⟩

theorem chatPlaced_obeys : chatPlaced.Obeys plainPython smolUnion smolBook := by
  have halias : ∀ d ∈ chatPlaced.deployments, ∀ a, routesAlias chatPlaced.assignments a d →
      d = chatServer "grp-a" 8192 ∧ a = "chat" := by
    intro d hd a hroutes
    obtain rfl := List.mem_singleton.mp hd
    have hserves : a ∈ (chatServer "grp-a" 8192).served.keys := by
      simp only [routesAlias, Bool.and_eq_true] at hroutes
      rw [Table.mem_keys_iff, ← Option.isSome_map]
      exact hroutes.2
    exact ⟨rfl, List.mem_singleton.mp hserves⟩
  constructor
  · intro d hd a hroutes
    obtain ⟨rfl, rfl⟩ := halias d hd a hroutes
    decide +kernel
  · intro d hd a hroutes _
    obtain ⟨rfl, rfl⟩ := halias d hd a hroutes
    exact ⟨by decide +kernel, by decide +kernel⟩

/-- Released, `chat` is still routed as it was. -/
theorem chat_stays_routed :
    let after := registryAfter smolUnion {} [chatPlaced]
    (∀ e ∈ Registry.config plainPython smolUnion {} chatPlaced,
      e ∈ after.config plainPython smolUnion ⟨[], ∅⟩) ∧
      ∀ e ∈ after.config plainPython smolUnion ⟨[], ∅⟩,
        e ∈ Registry.config plainPython smolUnion {} chatPlaced ∨
          ∃ cv ∈ [] ++ [(⟨[], ∅⟩ : Converge)], cv.brings e.modelName := by
  have hsources : CatalogUnion.fromSources [smolCatalog] = .ok smolUnion := by rfl
  have hcatalog : PublishesBook plainPython smolUnion smolBook := by
    intro a route hroute
    simp only [smolBook, hroute, Option.map_some, Option.getD_some]
  have hempty : Registry.Obeys plainPython smolBook {} :=
    ⟨rfl, fun a row route hget => by simp [Dict.get?, Table.find?] at hget⟩
  exact front_door_grows plainPython hsources smolBook hcatalog {} hempty chatPlaced [] ⟨[], ∅⟩
    chatPlaced_obeys (by simp) ⟨by simp, by simp⟩

end InferStack
