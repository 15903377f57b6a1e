import InferStack.Admission
import InferStack.Gateway.SeedCommit

/-!
# InferStack.Gateway.Pruning

Unpublishing with `routes prune`: a plan shows which aliases nothing needs, and
the commit drops those of them that are still unneeded.

* `owner_get?` — which source of a union an alias is resolved in;
* `dropCatalogNames_spec` — what a union is without some names;
* `commitRoutePrune_exact` — a prune drops exactly what was confirmed and is not
  needed, every other alias keeps its meaning, and pruning again changes nothing.
-/

namespace InferStack

open Kit

/-! ## pruning -/

/-- What a `routes prune` finds beside the ledger: its own catalogs, too. -/
structure PruneHost (σ : Type) extends SeedHost σ where
  catalogs : List Catalog := []

/-- Which of the `current` aliases a prune drops: all not in `keep`, sorted. -/
def planPrune (current keep : List String) : List String :=
  (current.filter (· ∉ keep)).eraseDups.insertionSort (· ≤ ·)

/-- Drop the registry rows of some aliases. -/
def SeedState.dropEntries {σ δ : Type} (s : SeedState σ δ) (names : List String) :
    SeedState σ δ :=
  { s with routeEntries := s.routeEntries.filter fun row => decide (row.1 ∉ names) }

section Prune

variable {σ δ φ : Type} (B : Backend (RecoveryProfile σ) δ φ)

/-- Aliases a prune keeps: the invocation's catalogs', and every one that a
deployment the next render places, or a resident one, serves. -/
def pruneKeep (host : PruneHost σ) (s : SeedState σ δ) : Except SeedRefusal (List String) := do
  let mine ← seedUnion host.catalogs
  let desired := (admissionView B (status s.ledger true host.now).2 host.residency none).1
  pure (mine.owner.keys ++ desired.flatMap (·.served.keys) ++ pinnedEndpoints host.toSeedHost s)

/-- The published aliases that nothing needs. -/
def prunable (host : PruneHost σ) (s : SeedState σ δ) : Except SeedRefusal (List String) := do
  let published ← seedUnion s.publishedSources
  let keep ← pruneKeep B host s
  pure (planPrune (s.routeEntries.keys ++ published.owner.keys) keep)

/-- The change itself: unpublish what was confirmed and is still unneeded. -/
def pruneChange (host : PruneHost σ) (confirmed : List String) (s : SeedState σ δ) :
    Except SeedRefusal (List String) × SeedState σ δ :=
  match prunable B host s with
  | .error e => (.error e, s)
  | .ok unneeded =>
      let drop := unneeded.filter (· ∈ confirmed)
      if drop = [] then (.ok drop, s)
      else (.ok drop,
        (s.dropEntries drop).storeCatalogs (dropCatalogNames s.publishedSources drop))

/-- Unpublish the plan's aliases, up to the render and apply of what is left. -/
def commitRoutePrune (host : PruneHost σ) (confirmed : List String) (s : SeedState σ δ) :
    Except SeedRefusal (List String) × SeedState σ δ :=
  if host.profileError then (.error (.profileMismatch []), s)
  else pruneChange B host confirmed (s.markPending host.toSeedHost)

end Prune

/-! ## where a union resolves an alias -/

section Owner

variable {c : Catalog} {u u' : CatalogUnion}

theorem owner_addEndpoint {ep : EndpointSpec} (h : CatalogUnion.addEndpoint c u ep = .ok u')
    (n : String) :
    u'.owner.get? n = (u.owner.get? n).or (if n = ep.name then some c else none) := by
  unfold CatalogUnion.addEndpoint at h
  cases howner : u.owner.get? ep.name with
  | some c' =>
      rw [howner] at h
      dsimp only at h
      split at h
      · cases h
      · obtain rfl := Except.ok.inj h
        by_cases hn : n = ep.name
        · rw [hn, howner, Option.some_or]
        · rw [if_neg hn, Option.or_none]
  | none =>
      rw [howner] at h
      obtain rfl := Except.ok.inj h
      show (u.owner.set ep.name c).get? n = _
      rw [Dict.get?_set]
      by_cases hn : ep.name = n
      · rw [if_pos hn, ← hn, howner, if_pos rfl, Option.none_or]
      · rw [if_neg hn, if_neg (Ne.symm hn), Option.or_none]

theorem owner_addEndpoints {eps : List EndpointSpec}
    (h : eps.foldlM (CatalogUnion.addEndpoint c) u = .ok u') (n : String) :
    u'.owner.get? n =
      (u.owner.get? n).or (if n ∈ eps.map EndpointSpec.name then some c else none) := by
  induction eps generalizing u with
  | nil =>
      obtain rfl : u = u' := Except.ok.inj h
      simp
  | cons ep eps ih =>
      rw [List.foldlM_cons] at h
      obtain ⟨u₁, hstep, hrest⟩ := bind_eq_ok.mp h
      rw [ih hrest, owner_addEndpoint hstep, Option.or_assoc]
      by_cases hn : n = ep.name
      · simp [hn]
      · simp [hn]

theorem owner_addBundles {bs : List (String × List String)}
    (h : bs.foldlM CatalogUnion.addBundle u = .ok u') : u'.owner = u.owner := by
  induction bs generalizing u with
  | nil =>
      obtain rfl : u = u' := Except.ok.inj h
      rfl
  | cons b bs ih =>
      rw [List.foldlM_cons] at h
      obtain ⟨u₁, hstep, hrest⟩ := bind_eq_ok.mp h
      rw [ih hrest]
      unfold CatalogUnion.addBundle at hstep
      split at hstep
      · cases hstep
      · obtain rfl := Except.ok.inj hstep
        rfl

theorem owner_addCatalogs {cs : List Catalog} (h : cs.foldlM CatalogUnion.addCatalog u = .ok u')
    (n : String) :
    u'.owner.get? n = (u.owner.get? n).or (cs.find? fun c => n ∈ c.endpoints.keys) := by
  induction cs generalizing u with
  | nil =>
      obtain rfl : u = u' := Except.ok.inj h
      simp
  | cons c cs ih =>
      rw [List.foldlM_cons] at h
      obtain ⟨u₁, hstep, hrest⟩ := bind_eq_ok.mp h
      unfold CatalogUnion.addCatalog at hstep
      obtain ⟨u₂, hends, hbundles⟩ := bind_eq_ok.mp hstep
      rw [ih hrest, owner_addBundles hbundles, owner_addEndpoints hends, Option.or_assoc,
        List.find?_cons]
      by_cases hn : n ∈ c.endpoints.keys
      · have hmem : n ∈ c.endpoints.rows.map EndpointSpec.name := hn
        simp [hn, hmem]
      · have hmem : n ∉ c.endpoints.rows.map EndpointSpec.name := hn
        simp [hn, hmem]

/-- An alias is resolved in the first source that defines it. -/
theorem owner_get? {cs : List Catalog} (h : CatalogUnion.fromSources cs = .ok u) (n : String) :
    u.owner.get? n = cs.find? fun c => n ∈ c.endpoints.keys := by
  unfold CatalogUnion.fromSources CatalogUnion.ofCatalogs at h
  split at h
  · obtain ⟨u₁, hfold, hlast⟩ := bind_eq_ok.mp h
    split at hlast
    · obtain rfl : u₁ = u := Except.ok.inj hlast
      rw [owner_addCatalogs hfold]
      simp
    · cases hlast
  · cases h

end Owner

/-! ## a union without some names -/

theorem keys_drop {c : Catalog} {names : List String} {n : String} :
    n ∈ (c.drop names).endpoints.keys ↔ n ∈ c.endpoints.keys ∧ n ∉ names := by
  rw [Table.mem_keys, Table.mem_keys]
  constructor
  · rintro ⟨ep, hep, rfl⟩
    obtain ⟨hin, hnot⟩ := mem_endpoints_drop.mp hep
    exact ⟨⟨ep, hin, rfl⟩, hnot⟩
  · rintro ⟨⟨ep, hep, rfl⟩, hnot⟩
    exact ⟨ep, mem_endpoints_drop.mpr ⟨hep, hnot⟩, rfl⟩

theorem resolveEndpoint_drop {c : Catalog} {names : List String} {n : String} (hn : n ∉ names) :
    (c.drop names).resolveEndpoint n none = c.resolveEndpoint n none := by
  have hfind : (c.drop names).endpoints.find? n = c.endpoints.find? n := by
    unfold Catalog.drop
    rw [Table.find?_filter]
    cases hget : c.endpoints.find? n with
    | none => rfl
    | some ep =>
        have hname : ep.name = n := (Table.find?_eq_some.mp hget).2
        simp [Option.filter, hname, hn]
  unfold Catalog.resolveEndpoint
  rw [hfind]
  rfl

/-- The first source that defines an alias still does, if the alias stays. -/
theorem find?_dropCatalogNames (cs : List Catalog) {names : List String} {n : String}
    (hn : n ∉ names) :
    ((dropCatalogNames cs names).find? fun c => n ∈ c.endpoints.keys) =
      (cs.find? fun c => n ∈ c.endpoints.keys).map (·.drop names) := by
  induction cs with
  | nil => rfl
  | cons c cs ih =>
      have hkeys : decide (n ∈ (c.drop names).endpoints.keys) = decide (n ∈ c.endpoints.keys) := by
        simp [keys_drop, hn]
      unfold dropCatalogNames at ih ⊢
      rw [List.map_cons, List.filter_cons, List.find?_cons]
      split
      · rw [List.find?_cons, hkeys, ih]
        split <;> rfl
      · rename_i hempty
        have hnot : n ∉ c.endpoints.keys := by
          intro hin
          have hrows : (c.drop names).endpoints.rows = [] := by
            simp only [Bool.or_eq_true, decide_eq_true_eq, not_or, not_not] at hempty
            exact hempty.1
          have hmem : n ∈ (c.drop names).endpoints.keys := keys_drop.mpr ⟨hin, hn⟩
          rw [Table.keys, hrows] at hmem
          cases hmem
        rw [ih]
        simp [hnot]

/-- What is left of a union once some names are dropped from its sources. -/
structure UnionLess (names : List String) (u u' : CatalogUnion) : Prop where
  endpoints : ∀ n, u'.endpointKey n = if n ∈ names then none else u.endpointKey n
  /-- A bundle goes with an endpoint it names. -/
  bundles : ∀ n ms, u'.bundles.get? n = some ms ↔
    u.bundles.get? n = some ms ∧ n ∉ names ∧ ∀ m ∈ ms, m ∉ names
  resolved : ∀ n, u'.resolveEndpoint n = if n ∈ names then none else u.resolveEndpoint n

/-- Dropping names from the sources of a union leaves a union without them. -/
theorem dropCatalogNames_spec {cs : List Catalog} {u : CatalogUnion}
    (h : CatalogUnion.fromSources cs = .ok u) (names : List String) :
    ∃ u', CatalogUnion.fromSources (dropCatalogNames cs names) = .ok u' ∧ UnionLess names u u' := by
  obtain ⟨hconsistent, hrep⟩ := fromSources_ok h
  have hdefs := definitions_dropCatalogNames names hconsistent.valid
  have hleft : Consistent (dropCatalogNames cs names) := by
    refine ⟨valid_dropCatalogNames hconsistent.valid, ?_, fun n hclash => ?_⟩
    · rw [hdefs]
      exact hconsistent.agree.subset fun d hd => List.mem_of_mem_filter hd
    · rw [hdefs] at hclash
      exact hconsistent.apart n (hclash.mono fun d hd => List.mem_of_mem_filter hd)
  obtain ⟨u', hu', hrep'⟩ := hleft.union
  rw [hdefs] at hrep'
  refine ⟨u', hu', ?_, ?_, ?_⟩
  · intro n
    refine Option.ext fun key => ?_
    rw [← hrep'.endpoint n key, List.mem_filter, hrep.endpoint n key, Definition.avoids_iff]
    by_cases hn : n ∈ names
    · rw [if_pos hn]
      refine iff_of_false (fun hboth => hboth.2.1 hn) (by simp)
    · rw [if_neg hn]
      exact ⟨fun hboth => hboth.1, fun hkey => ⟨hkey, hn, fun m hm => by cases hm⟩⟩
  · intro n ms
    rw [← hrep'.bundle n ms, List.mem_filter, hrep.bundle n ms, Definition.avoids_iff]
    exact Iff.rfl
  · intro n
    unfold CatalogUnion.resolveEndpoint
    rw [owner_get? hu' n, owner_get? h n]
    by_cases hn : n ∈ names
    · have hnone : ((dropCatalogNames cs names).find? fun c => n ∈ c.endpoints.keys) = none := by
        refine List.find?_eq_none.mpr fun c' hc' => ?_
        obtain ⟨c, -, rfl⟩ := mem_dropCatalogNames hc'
        simp [keys_drop, hn]
      rw [if_pos hn, hnone]
      rfl
    · rw [if_neg hn, find?_dropCatalogNames cs hn]
      cases cs.find? fun c => n ∈ c.endpoints.keys with
      | none => rfl
      | some c =>
          show ((c.drop names).resolveEndpoint n none).toOption = _
          rw [resolveEndpoint_drop hn]
          rfl

/-! ## what every alias means -/

section Meanings

variable {σ δ : Type} {py : Python} {managed : String → EndpointRequest → Option GatewayRoute}
  {s s' : SeedState σ δ} {u u' : CatalogUnion}

theorem filter_filterMap_eq {α β : Type} {f : α → Option β} {p : β → Bool} {q : α → Bool}
    (h : ∀ a b, f a = some b → p b = q a) (l : List α) :
    (l.filterMap f).filter p = (l.filter q).filterMap f := by
  induction l with
  | nil => rfl
  | cons a l ih =>
      rw [List.filterMap_cons, List.filter_cons]
      cases hf : f a with
      | none =>
          dsimp only
          rw [ih]
          split
          · rw [List.filterMap_cons, hf]
          · rfl
      | some b =>
          dsimp only
          rw [List.filter_cons, h a b hf, ih]
          split
          · rw [List.filterMap_cons, hf]
          · rfl

/-- The meaning of one registry row. -/
def rowMeaning (py : Python) (n : String) (row : RegistryRow) : Option Meaning :=
  (registryRoute py n row).map fun route => ⟨some route, none⟩

theorem getLast?_registryMeanings (entries : Dict String RegistryRow) (n : String) :
    ((registryMeanings py entries).filter fun kv => kv.1 = n).getLast?.map Prod.snd =
      (entries.get? n).bind (rowMeaning py n) := by
  have hkey : ∀ (row : String × RegistryRow) (kv : String × Meaning),
      (registryRoute py row.1 row.2).map (fun route => (row.1, (⟨some route, none⟩ : Meaning))) =
        some kv → decide (kv.1 = n) = decide (row.1 = n) := by
    intro row kv hkv
    obtain ⟨route, -, rfl⟩ := Option.map_eq_some_iff.mp hkv
    rfl
  have hone := Dict.filter_map_sorted (g := fun (k : String) (row : RegistryRow) => (k, row))
    (f := Prod.fst) (fun _ _ => rfl) entries n
  rw [List.map_id'' (fun _ => rfl)] at hone
  unfold registryMeanings
  rw [filter_filterMap_eq hkey, hone]
  cases entries.get? n with
  | none => rfl
  | some row =>
      unfold rowMeaning
      cases hroute : registryRoute py n row <;> simp [hroute]

/-- An alias means its published definition, else its registry row. -/
theorem get?_publishedMeanings (hu : CatalogUnion.fromSources s.publishedSources = .ok u)
    {current : Dict String Meaning} (h : s.publishedMeanings py managed = .ok current) (n : String) :
    current.get? n = ((u.resolveEndpoint n).map fun resolved =>
        (⟨catalogRoute managed n resolved, some resolved.semantic⟩ : Meaning)).or
      ((s.routeEntries.get? n).bind (rowMeaning py n)) := by
  unfold SeedState.publishedMeanings at h
  rw [hu] at h
  obtain rfl := Except.ok.inj h
  have hdefined := get?_meanings managed u n
  rw [Dict.get?, Table.find?_ofList_last] at hdefined
  rw [Dict.get?, Table.find?_ofList_last, List.filter_append, List.getLast?_append, Option.map_or,
    hdefined, getLast?_registryMeanings]

/-- Once some names are gone from the sources and the registry, every other alias
means what it did. -/
theorem meanings_less {names : List String}
    (hu : CatalogUnion.fromSources s.publishedSources = .ok u)
    (hu' : CatalogUnion.fromSources s'.publishedSources = .ok u') (hless : UnionLess names u u')
    (hrows : ∀ n, s'.routeEntries.get? n = if n ∈ names then none else s.routeEntries.get? n)
    {current : Dict String Meaning} (h : s.publishedMeanings py managed = .ok current) :
    ∃ current', s'.publishedMeanings py managed = .ok current' ∧
      ∀ n, current'.get? n = if n ∈ names then none else current.get? n := by
  have hok : ∃ current', s'.publishedMeanings py managed = .ok current' := by
    unfold SeedState.publishedMeanings
    rw [hu']
    exact ⟨_, rfl⟩
  obtain ⟨current', hcurrent'⟩ := hok
  refine ⟨current', hcurrent', fun n => ?_⟩
  rw [get?_publishedMeanings hu' hcurrent' n, get?_publishedMeanings hu h n, hless.resolved, hrows]
  split <;> rfl

end Meanings

/-! ## what a prune leaves -/

section Commit

variable {σ δ φ : Type} {B : Backend (RecoveryProfile σ) δ φ} {host : PruneHost σ}
  {s : SeedState σ δ} {u : CatalogUnion} {keep : List String}

theorem mem_planPrune {current keep : List String} {n : String} :
    n ∈ planPrune current keep ↔ n ∈ current ∧ n ∉ keep := by
  unfold planPrune
  rw [List.mem_insertionSort, List.mem_eraseDups, List.mem_filter, decide_eq_true_eq]

/-- What a prune keeps does not depend on what is published, or pending. -/
theorem pruneKeep_congr {s' : SeedState σ δ}
    (h : status s'.ledger true host.now = status s.ledger true host.now) :
    pruneKeep B host s' = pruneKeep B host s := by
  unfold pruneKeep pinnedEndpoints pinnedDeployments
  rw [h]

theorem prunable_ok (hu : CatalogUnion.fromSources s.publishedSources = .ok u)
    (hkeep : pruneKeep B host s = .ok keep) :
    prunable B host s = .ok (planPrune (s.routeEntries.keys ++ u.owner.keys) keep) := by
  unfold prunable seedUnion
  rw [hu, hkeep]
  rfl

theorem mem_owner_keys {n : String} : n ∈ u.owner.keys ↔ u.endpointKey n ≠ none := by
  rw [Dict.mem_keys]
  unfold CatalogUnion.endpointKey
  cases u.owner.get? n <;> simp

/-- What is published, and remembered, after a prune that drops `names`. -/
structure PrunedTo (names : List String) (s s' : SeedState σ δ) : Prop where
  sources : s'.publishedSources =
    if names = [] then s.publishedSources else dropCatalogNames s.publishedSources names
  rows : ∀ n, s'.routeEntries.get? n = if n ∈ names then none else s.routeEntries.get? n
  status : ∀ now, status s'.ledger true now = status s.ledger true now

theorem status_markPending (now : Int) :
    status (s.markPending host.toSeedHost).ledger true now = status s.ledger true now := rfl

theorem prunedTo_commit (confirmed : List String) (hprofile : host.profileError = false)
    (hu : CatalogUnion.fromSources s.publishedSources = .ok u)
    (hkeep : pruneKeep B host s = .ok keep) :
    ∃ drop s', commitRoutePrune B host confirmed s = (.ok drop, s') ∧
      (∀ n, n ∈ drop ↔ n ∈ confirmed ∧ n ∉ keep ∧
        (n ∈ s.routeEntries.keys ∨ u.endpointKey n ≠ none)) ∧ PrunedTo drop s s' := by
  have hmarked : CatalogUnion.fromSources (s.markPending host.toSeedHost).publishedSources =
      .ok u := by rw [publishedSources_markPending, hu]
  have hkeep' : pruneKeep B host (s.markPending host.toSeedHost) = .ok keep :=
    (pruneKeep_congr (status_markPending host.now)).trans hkeep
  have hprunable := prunable_ok hmarked hkeep'
  have hrows : (s.markPending host.toSeedHost).routeEntries = s.routeEntries := rfl
  rw [hrows] at hprunable
  have hmem : ∀ n, n ∈ (planPrune (s.routeEntries.keys ++ u.owner.keys) keep).filter
      (· ∈ confirmed) ↔ n ∈ confirmed ∧ n ∉ keep ∧
        (n ∈ s.routeEntries.keys ∨ u.endpointKey n ≠ none) := by
    intro n
    rw [List.mem_filter, mem_planPrune, List.mem_append, mem_owner_keys, decide_eq_true_eq]
    tauto
  unfold commitRoutePrune pruneChange
  rw [hprofile, hprunable]
  dsimp only
  by_cases hnil : (planPrune (s.routeEntries.keys ++ u.owner.keys) keep).filter
      (· ∈ confirmed) = []
  · rw [if_pos hnil]
    refine ⟨_, _, rfl, hmem, ?_, fun n => ?_, status_markPending⟩
    · rw [if_pos hnil]
      exact publishedSources_markPending
    · rw [hnil]
      rfl
  · rw [if_neg hnil, publishedSources_markPending]
    refine ⟨_, _, rfl, hmem, ?_, fun n => ?_, fun now => ?_⟩
    · rw [if_neg hnil]
      have hsome : ∃ stored, (s.markPending host.toSeedHost).ledger.profile = some stored := by
        unfold SeedState.markPending Store.markPublicationPending
        cases hp : s.ledger.profile with
        | none => exact ⟨_, rfl⟩
        | some stored => exact ⟨stored, by simp [Store.writeMarker]⟩
      obtain ⟨stored, hstored⟩ := hsome
      unfold SeedState.storeCatalogs SeedState.dropEntries
      dsimp only
      rw [hstored]
      rfl
    · have hfilter := Dict.get?_filter s.routeEntries (fun k => decide (k ∉
        (planPrune (s.routeEntries.keys ++ u.owner.keys) keep).filter (· ∈ confirmed))) n
      unfold SeedState.storeCatalogs
      split
      · refine hfilter.trans ?_
        by_cases hn : n ∈ (planPrune (s.routeEntries.keys ++ u.owner.keys) keep).filter
          (· ∈ confirmed) <;> simp [hn]
      · refine hfilter.trans ?_
        by_cases hn : n ∈ (planPrune (s.routeEntries.keys ++ u.owner.keys) keep).filter
          (· ∈ confirmed) <;> simp [hn]
    · unfold SeedState.storeCatalogs
      split <;> rfl

/-- A union after a prune is the union before it less what was dropped. -/
theorem PrunedTo.union {names : List String} {s' : SeedState σ δ} (h : PrunedTo names s s')
    (hu : CatalogUnion.fromSources s.publishedSources = .ok u) :
    ∃ u', CatalogUnion.fromSources s'.publishedSources = .ok u' ∧ UnionLess names u u' := by
  rw [h.sources]
  by_cases hnil : names = []
  · rw [if_pos hnil, hnil]
    exact ⟨u, hu, ⟨by simp, by simp, by simp⟩⟩
  · rw [if_neg hnil]
    exact dropCatalogNames_spec hu names

/-- Exactly the confirmed aliases that nothing needs are unpublished; every other
alias, with every bundle of others, means what it did. -/
structure RoutesPruned (py : Python) (managed : String → EndpointRequest → Option GatewayRoute)
    (confirmed keep drop : List String) (u : CatalogUnion) (s s' : SeedState σ δ) : Prop where
  exact : ∀ n, n ∈ drop ↔ n ∈ confirmed ∧ n ∉ keep ∧
    (n ∈ s.routeEntries.keys ∨ u.endpointKey n ≠ none)
  union : ∃ u', CatalogUnion.fromSources s'.publishedSources = .ok u' ∧ UnionLess drop u u'
  meanings : ∀ current, s.publishedMeanings py managed = .ok current →
    ∃ current', s'.publishedMeanings py managed = .ok current' ∧
      ∀ n, current'.get? n = if n ∈ drop then none else current.get? n

/-- A prune, whenever its plan was made, drops exactly the confirmed aliases that
are unneeded when it commits, and nothing when it is committed again. -/
theorem routePrune_exact (py : Python) (managed : String → EndpointRequest → Option GatewayRoute)
    (B : Backend (RecoveryProfile σ) δ φ) (host : PruneHost σ) (confirmed : List String)
    (s : SeedState σ δ) (u : CatalogUnion) (keep : List String)
    (hprofile : host.profileError = false)
    (hu : CatalogUnion.fromSources s.publishedSources = .ok u)
    (hkeep : pruneKeep B host s = .ok keep) :
    ∃ drop s', commitRoutePrune B host confirmed s = (.ok drop, s') ∧
      RoutesPruned py managed confirmed keep drop u s s' ∧
      ∃ s'', commitRoutePrune B host confirmed s' = (.ok [], s'') ∧
        s''.publishedSources = s'.publishedSources ∧
        ∀ n, s''.routeEntries.get? n = s'.routeEntries.get? n := by
  obtain ⟨drop, s', hcommit, hexact, hpruned⟩ := prunedTo_commit confirmed hprofile
    hu hkeep
  obtain ⟨u', hu', hless⟩ := hpruned.union hu
  refine ⟨drop, s', hcommit, ⟨hexact, ⟨u', hu', hless⟩, fun current hcurrent =>
    meanings_less hu hu' hless hpruned.rows hcurrent⟩, ?_⟩
  have hkeep' : pruneKeep B host s' = .ok keep := (pruneKeep_congr (hpruned.status _)).trans hkeep
  obtain ⟨drop', s'', hcommit', hexact', hpruned'⟩ := prunedTo_commit confirmed
    hprofile hu' hkeep'
  -- what is still there and unneeded was not confirmed
  have hnone : drop' = [] := by
    refine List.eq_nil_iff_forall_not_mem.mpr fun n hn => ?_
    obtain ⟨hconfirmed, hunneeded, hcurrent⟩ := (hexact' n).mp hn
    have hgone : n ∉ drop := by
      intro hdrop
      cases hcurrent with
      | inl hrow =>
          obtain ⟨row, hget⟩ := Dict.mem_keys.mp hrow
          rw [hpruned.rows, if_pos hdrop] at hget
          cases hget
      | inr hkey => exact hkey (by rw [hless.endpoints, if_pos hdrop])
    refine hgone ((hexact n).mpr ⟨hconfirmed, hunneeded, ?_⟩)
    cases hcurrent with
    | inl hrow =>
        obtain ⟨row, hget⟩ := Dict.mem_keys.mp hrow
        rw [hpruned.rows, if_neg hgone] at hget
        exact .inl (Dict.mem_keys.mpr ⟨row, hget⟩)
    | inr hkey =>
        rw [hless.endpoints, if_neg hgone] at hkey
        exact .inr hkey
  subst hnone
  exact ⟨s'', hcommit', hpruned'.sources, fun n => hpruned'.rows n⟩

end Commit

/-! ## a row that nothing serves -/

/-- A backend without a GPU. -/
def cpuBox : Backend (RecoveryProfile Unit) Unit Unit where
  host := {}
  reclaimDefault := "keep-warm"
  compatible _ := true
  settingsOnly profile := { profile with catalogs := [] }
  acquireProfile _ _ _ _ := .ok none
  validateRequests _ _ := true
  secretNames _ := []
  enrichPlacement spec := spec.placement
  render _ := .ok { digest := () }
  remember _ := ()

/-- A leased endpoint, and the row of an alias that is gone. -/
def chatAndOld : SeedState Unit Unit :=
  { leasedChat with
    routeEntries := Table.ofList [("old", { engine := some "ollama", model := some "tiny" })] }

/-- Both are confirmed; the lease keeps the first. -/
theorem routePrune_old :
    ∃ drop s', commitRoutePrune cpuBox ⟨seedingHost, []⟩ ["chat", "old"] chatAndOld =
        (.ok drop, s') ∧ "old" ∈ drop ∧ "chat" ∉ drop := by
  obtain ⟨u, hu⟩ : ∃ u, CatalogUnion.fromSources chatAndOld.publishedSources = .ok u :=
    ⟨{ owner := Table.ofList [("chat", tagged "tiny")] }, by decide +kernel⟩
  obtain ⟨drop, s', hcommit, hpruned, -⟩ := routePrune_exact plainPython
    (composeCatalogRoute plainPython) cpuBox ⟨seedingHost, []⟩ ["chat", "old"] chatAndOld u
    ["chat"] rfl hu (by decide +kernel)
  refine ⟨drop, s', hcommit, ?_, fun hchat => ?_⟩
  · exact (hpruned.exact "old").mpr ⟨by simp, by simp, .inl (by decide +kernel)⟩
  · have hunneeded := ((hpruned.exact "chat").mp hchat).2.1
    simp at hunneeded

end InferStack
