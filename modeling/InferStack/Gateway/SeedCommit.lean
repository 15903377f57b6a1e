import InferStack.Gateway.Seeding

/-!
# InferStack.Gateway.SeedCommit

Whether committing a seed is an atomic compare-and-set.

The checks before the marker ask whether a resident deployment has the structure
of an alias's new meaning; the adoption after it refuses every redefinition of
a pinned alias, also one of equal structure.  `seedsAtomically_iff` is the exact
condition.
-/

namespace InferStack

open Kit

section

variable {σ δ : Type} (py : Python) (managed : String → EndpointRequest → Option GatewayRoute)

/-! ## what a seed should leave -/

/-- What a seed that goes through leaves of the unions published before (`uP`)
and by its sources (`uI`). -/
structure Seeded (plan : RoutePlan) (replace : Bool) (residents : List Deployment)
    (current : Dict String Meaning) (uP uI u : CatalogUnion)
    (rows rows' : Dict String RegistryRow) : Prop where
  /-- All of the plan's aliases are published with the plan's meaning. -/
  endpoints : ∀ n new, plan.incoming.get? n = some new →
    ∃ meaning, new.key = some meaning ∧ u.endpointKey n = some (.means meaning)
  bundles : ∀ n ms, uI.bundles.get? n = some ms → u.bundles.get? n = some ms
  /-- Only what the plan showed is redefined. -/
  shown : ∀ n old new, current.get? n = some old → plan.incoming.get? n = some new →
    old.same new = false → replace = true ∧
      ∃ shown, plan.conflicted.get? n = some shown ∧ shown.1.same old = true
  /-- No resident deployment's alias is given a meaning it does not have. -/
  pinned : ∀ d ∈ residents, ∀ n ∈ d.served.keys, ∀ key, u.endpointKey n = some key →
    uP.endpointKey n = some key ∨ d.runs key = true
  keptEndpoints : ∀ n, n ∉ plan.incoming.keys → u.endpointKey n = uP.endpointKey n
  /-- A bundle may go only if it names a redefined endpoint. -/
  keptBundles : ∀ n ms, uP.bundles.get? n = some ms → (∀ m ∈ ms, KeepsMeaning uP uI m) →
    u.bundles.get? n = some ms
  keptRows : ∀ n, n ∉ plan.incoming.keys → rows'.get? n = rows.get? n

/-- A seed that is refused leaves the profile, the registry and the marker as they
are; one that goes through leaves what it should. -/
structure SeedsAtomically (host : SeedHost σ) (plan : RoutePlan) (replace : Bool)
    (s : SeedState σ δ) (outcome : Except SeedRefusal RoutePlan × SeedState σ δ) : Prop where
  refused : ∀ e, outcome.1 = .error e →
    outcome.2.ledger.profile = s.ledger.profile ∧ outcome.2.routeEntries = s.routeEntries ∧
      outcome.2.ledger.publicationPending = s.ledger.publicationPending
  published : ∀ done, outcome.1 = .ok done →
    ∃ current uP uI u, s.publishedMeanings py managed = .ok current ∧
      CatalogUnion.fromSources s.publishedSources = .ok uP ∧
      CatalogUnion.fromSources plan.sources = .ok uI ∧
      CatalogUnion.fromSources outcome.2.publishedSources = .ok u ∧
      Seeded plan replace (pinnedDeployments host s) current uP uI u
        s.routeEntries outcome.2.routeEntries

/-- What the checks before the marker do not see. -/
structure SeedFits (host : SeedHost σ) (plan : RoutePlan) (s : SeedState σ δ)
    (uP uI : CatalogUnion) : Prop where
  /-- No name that adoption drops is pinned. -/
  unpinned : ∀ n ∈ (adoptionDrops (definitions s.publishedSources)
    (definitions plan.sources)).flatten, n ∉ pinnedEndpoints host s
  /-- A published bundle none of whose members is redefined is defined as it is,
  or neither it nor a member is. -/
  bundles : ∀ n ms, uP.bundles.get? n = some ms → (∀ m ∈ ms, KeepsMeaning uP uI m) →
    uI.bundles.get? n = some ms ∨ (uI.Lacks n ∧ ∀ m ∈ ms, uI.endpointKey m = none)
  /-- No incoming bundle is named like a published endpoint. -/
  apart : ∀ n, uP.endpointKey n ≠ none → uI.bundles.get? n = none
  /-- The residents of an alias that only the plan defines have one structure. -/
  agree : ∀ d ∈ pinnedDeployments host s, ∀ d' ∈ pinnedDeployments host s, ∀ n,
    n ∈ d.served.keys → n ∈ d'.served.keys → uP.endpointKey n = none → uI.endpointKey n ≠ none →
      d.compatKey = d'.compatKey

/-! ## the checks -/

/-- What holds once the checks before the marker pass. -/
structure SeedPasses (host : SeedHost σ) (plan : RoutePlan) (replace : Bool) (s : SeedState σ δ)
    (current : Dict String Meaning) (uP uI : CatalogUnion) (adopted : List Catalog) : Prop where
  published : s.publishedMeanings py managed = .ok current
  unionP : CatalogUnion.fromSources s.publishedSources = .ok uP
  unionI : CatalogUnion.fromSources plan.sources = .ok uI
  asked : (planSeed current plan.incoming).conflicted.rows ≠ [] → replace = true
  unmoved : replace = true → movedNames plan (planSeed current plan.incoming) = []
  adopts : adoptCatalogSources s.publishedSources plan.sources [] = .ok adopted
  unchanged : pinnedChanges (pinnedDeployments host s) s.publishedSources adopted = .ok []

variable {py managed}
variable {host : SeedHost σ} {plan : RoutePlan} {replace : Bool} {before s : SeedState σ δ}

theorem refuseConflicts_ok {fresh : RoutePlan} (h : refuseConflicts replace fresh = .ok ()) :
    fresh.conflicted.rows ≠ [] → replace = true := by
  intro hne
  unfold refuseConflicts at h
  split at h
  · cases h
  · rename_i hcond
    simpa [hne] using hcond

theorem mapError_eq_ok {ε ε' α : Type} {x : Except ε α} {f : ε → ε'} {a : α} :
    x.mapError f = .ok a ↔ x = .ok a := by
  cases x <;> simp [Except.mapError]

/-- A computation that succeeds, and what comes of its result. -/
theorem bind_eq_ok {ε α β : Type} {x : Except ε α} {f : α → Except ε β} {b : β} :
    (x >>= f) = .ok b ↔ ∃ a, x = .ok a ∧ f a = .ok b := by
  cases x <;> simp [bind, Except.bind]

theorem seedPreflight_ok (h : seedPreflight py managed host plan replace s = .ok ()) :
    ∃ current uP uI adopted, SeedPasses py managed host plan replace s current uP uI adopted := by
  unfold seedPreflight at h
  obtain ⟨current, hcurrent, h⟩ := bind_eq_ok.mp h
  obtain ⟨_, hasked, h⟩ := bind_eq_ok.mp h
  obtain ⟨_, hmoved, h⟩ := bind_eq_ok.mp h
  obtain ⟨uP, hP, h⟩ := bind_eq_ok.mp h
  obtain ⟨uI, hI, h⟩ := bind_eq_ok.mp h
  obtain ⟨-, -, h⟩ := bind_eq_ok.mp h
  obtain ⟨adopted, hadopt, h⟩ := bind_eq_ok.mp h
  obtain ⟨blocked, hblocked, h⟩ := bind_eq_ok.mp h
  have hnone : blocked = [] := by
    unfold refuseBlocked at h
    split at h
    · assumption
    · cases h
  refine ⟨current, uP, uI, adopted, ⟨hcurrent, mapError_eq_ok.mp hP, mapError_eq_ok.mp hI,
    refuseConflicts_ok hasked, fun hreplace => ?_, mapError_eq_ok.mp hadopt, hnone ▸ hblocked⟩⟩
  unfold refuseMoved at hmoved
  split at hmoved
  · cases hmoved
  · rename_i hcond
    simpa [hreplace] using hcond

theorem seedChecks_ok (h : seedChecks py managed host plan replace before s = .ok ()) :
    ∃ current uP uI adopted, SeedPasses py managed host plan replace s current uP uI adopted := by
  unfold seedChecks at h
  obtain ⟨early, -, h⟩ := bind_eq_ok.mp h
  obtain ⟨-, -, h⟩ := bind_eq_ok.mp h
  obtain ⟨_, hpre, _⟩ := bind_eq_ok.mp h
  exact seedPreflight_ok hpre

/-- Deployments that run one meaning have one structure. -/
theorem Deployment.compatKey_eq {d d' : Deployment} {key : EndpointKey} (h : d.runs key = true)
    (h' : d'.runs key = true) : d.compatKey = d'.compatKey := by
  unfold Deployment.runs at h h'
  split at h
  · have hd := of_decide_eq_true h
    have hd' := of_decide_eq_true h'
    exact hd.symm.trans hd'
  · cases h

theorem Deployment.runs_congr {d d' : Deployment} (h : d.compatKey = d'.compatKey)
    (key : EndpointKey) : d.runs key = d'.runs key := by
  unfold Deployment.runs
  rw [h]

theorem SeedPasses.adoption {current : Dict String Meaning} {uP uI : CatalogUnion}
    {adopted : List Catalog} (h : SeedPasses py managed host plan replace s current uP uI adopted)
    (htext : ∀ c ∈ s.publishedSources ++ plan.sources, c.textNames = true) :
    Adoption s.publishedSources plan.sources uP uI := ⟨h.unionP, h.unionI, htext⟩

/-! ## the change under the marker -/

/-- Writing the marker changes nothing that the change reads. -/
theorem publishedSources_markPending :
    (s.markPending host).publishedSources = s.publishedSources := by
  unfold SeedState.markPending SeedState.publishedSources Store.markPublicationPending
  cases s.ledger.profile <;> rfl

theorem publishedMeanings_markPending :
    (s.markPending host).publishedMeanings py managed = s.publishedMeanings py managed := by
  unfold SeedState.publishedMeanings
  rw [publishedSources_markPending]
  rfl

theorem pinnedEndpoints_markPending :
    pinnedEndpoints host (s.markPending host) = pinnedEndpoints host s := rfl

theorem marker_markPending :
    (s.markPending host).ledger.publicationPending ≠ s.ledger.publicationPending := by
  have hmarker : ∃ m, (s.markPending host).ledger.publicationPending = some m ∧
      ∀ m₀, s.ledger.publicationPending = some m₀ → m.version = m₀.version + 1 := by
    refine ⟨_, rfl, fun m₀ hm₀ => ?_⟩
    dsimp only
    rw [hm₀]
  obtain ⟨m, hm, hversion⟩ := hmarker
  rw [hm]
  intro hsame
  have hnext := hversion m hsame.symm
  omega

/-- What is published once the catalogs are stored under the marker. -/
theorem publishedSources_stored (catalogs : List Catalog) (incoming : Dict String Meaning) :
    (((s.markPending host).storeCatalogs catalogs).dropRows incoming).publishedSources =
      catalogs := by
  have hsome : ∃ stored, (s.markPending host).ledger.profile = some stored := by
    unfold SeedState.markPending Store.markPublicationPending
    cases hp : s.ledger.profile with
    | none => exact ⟨_, rfl⟩
    | some stored => exact ⟨stored, by simp [Store.writeMarker]⟩
  obtain ⟨stored, hstored⟩ := hsome
  unfold SeedState.dropRows SeedState.storeCatalogs
  rw [hstored]
  rfl

theorem routeEntries_stored (catalogs : List Catalog) (incoming : Dict String Meaning) :
    (((s.markPending host).storeCatalogs catalogs).dropRows incoming).routeEntries =
      s.routeEntries.filter fun row => decide (row.1 ∉ incoming.keys) := by
  unfold SeedState.dropRows SeedState.storeCatalogs
  split <;> rfl

/-- The names that adoption drops are pinned: the change is refused, under the marker. -/
theorem commit_refused {current : Dict String Meaning} {uP uI : CatalogUnion}
    {adopted : List Catalog} (hchecks : seedChecks py managed host plan replace before s = .ok ())
    (h : SeedPasses py managed host plan replace s current uP uI adopted)
    (htext : ∀ c ∈ s.publishedSources ++ plan.sources, c.textNames = true)
    (hpinned : ∃ n ∈ (adoptionDrops (definitions s.publishedSources)
      (definitions plan.sources)).flatten, n ∈ pinnedEndpoints host s) :
    ∃ e, commitRouteSeed py managed host plan replace before s = (.error e, s.markPending host) := by
  have hspec := adopt_spec (fromSources_ok h.unionP).1 (fromSources_ok h.unionI).1 htext
    (pinnedEndpoints host s)
  rw [if_pos (.inl hpinned)] at hspec
  obtain ⟨names, hconflict⟩ := hspec
  unfold commitRouteSeed
  rw [hchecks]
  dsimp only
  unfold seedChange
  rw [publishedMeanings_markPending, h.published, publishedSources_markPending,
    pinnedEndpoints_markPending, hconflict]
  exact ⟨_, rfl⟩

/-- No dropped name is pinned: the adopted catalogs are stored. -/
theorem commit_ok {current : Dict String Meaning} {uP uI : CatalogUnion} {adopted : List Catalog}
    (hchecks : seedChecks py managed host plan replace before s = .ok ())
    (h : SeedPasses py managed host plan replace s current uP uI adopted)
    (htext : ∀ c ∈ s.publishedSources ++ plan.sources, c.textNames = true)
    (hfree : ∀ n ∈ (adoptionDrops (definitions s.publishedSources)
      (definitions plan.sources)).flatten, n ∉ pinnedEndpoints host s) :
    ∃ done out u, commitRouteSeed py managed host plan replace before s =
        (.ok done, ((s.markPending host).storeCatalogs out).dropRows plan.incoming) ∧
      CatalogUnion.fromSources out = .ok u ∧
      Represents u (leftover (definitions s.publishedSources) (definitions plan.sources) ++
        definitions plan.sources) := by
  have hrounds := adopt_spec (fromSources_ok h.unionP).1 (fromSources_ok h.unionI).1 htext []
  have hspec := adopt_spec (fromSources_ok h.unionP).1 (fromSources_ok h.unionI).1 htext
    (pinnedEndpoints host s)
  have hmany : ¬ 64 ≤ (adoptionDrops (definitions s.publishedSources)
      (definitions plan.sources)).length := by
    intro hmany
    rw [if_pos (.inr hmany), h.adopts] at hrounds
    obtain ⟨ns, herr⟩ := hrounds
    cases herr
  rw [if_neg] at hspec
  · obtain ⟨out, u, hadopt, hunion, hrep, -⟩ := hspec.settles
    unfold commitRouteSeed
    rw [hchecks]
    dsimp only
    unfold seedChange
    rw [publishedMeanings_markPending, h.published, publishedSources_markPending,
      pinnedEndpoints_markPending, hadopt]
    exact ⟨_, out, u, rfl, hunion, hrep⟩
  · rintro (hpin | hmany')
    · obtain ⟨n, hn, hpin⟩ := hpin
      exact hfree n hn hpin
    · exact hmany hmany'

/-- What the adoption without pins, in the checks, settles to. -/
theorem SeedPasses.adopted_union {current : Dict String Meaning} {uP uI : CatalogUnion}
    {adopted : List Catalog} (h : SeedPasses py managed host plan replace s current uP uI adopted)
    (htext : ∀ c ∈ s.publishedSources ++ plan.sources, c.textNames = true) :
    ∃ u, CatalogUnion.fromSources adopted = .ok u ∧
      Represents u (leftover (definitions s.publishedSources) (definitions plan.sources) ++
        definitions plan.sources) := by
  have hspec := adopt_spec (fromSources_ok h.unionP).1 (fromSources_ok h.unionI).1 htext []
  split at hspec
  · obtain ⟨ns, herr⟩ := hspec
    rw [h.adopts] at herr
    cases herr
  · obtain ⟨out, u, hadopt, hunion, hrep, -⟩ := hspec.settles
    rw [h.adopts] at hadopt
    obtain rfl := Except.ok.inj hadopt
    exact ⟨u, hunion, hrep⟩

/-! ## what it leaves -/

section Leaves

variable {current : Dict String Meaning} {uP uI u : CatalogUnion} {adopted : List Catalog}

/-- A pinned alias is published with its old meaning, or with one that some resident has. -/
theorem SeedPasses.resident_runs
    (h : SeedPasses py managed host plan replace s current uP uI adopted)
    {u₀ : CatalogUnion} (hu₀ : CatalogUnion.fromSources adopted = .ok u₀) {d : Deployment}
    (hd : d ∈ pinnedDeployments host s) {n : String} (hn : n ∈ d.served.keys) {key : EndpointKey}
    (hkey : u₀.endpointKey n = some key) (hnew : uP.endpointKey n = none) :
    ∃ d' ∈ pinnedDeployments host s, n ∈ d'.served.keys ∧ d'.runs key = true := by
  have hblocked := h.unchanged
  unfold pinnedChanges seedUnion at hblocked
  rw [h.unionP, hu₀] at hblocked
  have hnone : (((pinnedDeployments host s).flatMap (·.served.keys)).eraseDups.insertionSort
      (· ≤ ·)).filter (changesPinned (pinnedDeployments host s) uP u₀) = [] := by
    simpa [Except.mapError, bind, Except.bind, pure, Except.pure] using hblocked
  have hmem : n ∈ ((pinnedDeployments host s).flatMap (·.served.keys)).eraseDups.insertionSort
      (· ≤ ·) := by
    rw [List.mem_insertionSort, List.mem_eraseDups, List.mem_flatMap]
    exact ⟨d, hd, hn⟩
  have hnot := List.filter_eq_nil_iff.mp hnone n hmem
  obtain ⟨resolved, -, rfl⟩ := (endpointKey_eq_some hu₀).mp hkey
  unfold changesPinned at hnot
  rw [hkey, hnew] at hnot
  dsimp only at hnot
  have hany : (pinnedDeployments host s).any
      (fun d => n ∈ d.served.keys && d.runs (.means resolved.semantic)) = true := by
    simpa using hnot
  obtain ⟨d', hd', hboth⟩ := List.any_eq_true.mp hany
  have hsplit := Bool.and_eq_true_iff.mp hboth
  exact ⟨d', hd', by simpa using hsplit.1, hsplit.2⟩

/-- A redefined endpoint is among the names that adoption drops. -/
theorem Adoption.dropped_of_redefined {published incoming : List Catalog}
    (h : Adoption published incoming uP uI) {n : String} {old new : EndpointKey}
    (hold : uP.endpointKey n = some old) (hnew : uI.endpointKey n = some new) (hne : new ≠ old) :
    n ∈ (adoptionDrops (definitions published) (definitions incoming)).flatten := by
  have hbundle : ∀ m ∈ [n], uP.bundles.get? m = none := by
    intro m hm
    rw [List.mem_singleton.mp hm]
    by_contra hsome
    obtain ⟨ms, hms⟩ := Option.ne_none_iff_exists'.mp hsome
    exact (fromSources_ok h.unionP).1.apart n ⟨⟨old, h.endpointP.mp hold⟩, ms, h.bundleP.mp hms⟩
  obtain ⟨m, hm, hmn⟩ := (h.redefines_iff hbundle).mp
    ⟨n, List.mem_singleton_self n, old, hold, .inl ⟨new, hnew, hne⟩⟩
  rwa [List.mem_singleton.mp hmn] at hm

variable (h : SeedPasses py managed host plan replace s current uP uI adopted)
  (htext : ∀ c ∈ s.publishedSources ++ plan.sources, c.textNames = true)
  (hincoming : plan.incoming = Table.ofList (meanings managed uI))
  (hfree : ∀ n ∈ (adoptionDrops (definitions s.publishedSources)
    (definitions plan.sources)).flatten, n ∉ pinnedEndpoints host s)
  (hrep : Represents u (leftover (definitions s.publishedSources) (definitions plan.sources) ++
    definitions plan.sources))

include h hincoming in
/-- The plan's aliases are the endpoints of its sources. -/
theorem SeedPasses.mem_incoming {n : String} :
    n ∈ plan.incoming.keys ↔ uI.endpointKey n ≠ none := by
  rw [Dict.mem_keys, hincoming]
  simp only [get?_meanings, Option.map_eq_some_iff]
  constructor
  · intro hex
    obtain ⟨-, resolved, hres, -⟩ := hex
    have hkey := (endpointKey_eq_some h.unionI).mpr ⟨resolved, hres, rfl⟩
    simp [hkey]
  · intro hne
    obtain ⟨key, hkey⟩ := Option.ne_none_iff_exists'.mp hne
    obtain ⟨resolved, hres, -⟩ := (endpointKey_eq_some h.unionI).mp hkey
    exact ⟨_, resolved, hres, rfl⟩

include h in
/-- Only what was shown is redefined, and only when asked to. -/
theorem SeedPasses.shown {n : String} {old new : Meaning} (hold : current.get? n = some old)
    (hnew : plan.incoming.get? n = some new) (hdiff : old.same new = false) :
    replace = true ∧ ∃ shown, plan.conflicted.get? n = some shown ∧ shown.1.same old = true := by
  have hget := conflicted_planSeed hold hnew hdiff
  have hrow : (n, (old, new)) ∈ (planSeed current plan.incoming).conflicted.rows :=
    Dict.get?_eq_some.mp hget
  have hreplace := h.asked (List.ne_nil_of_mem hrow)
  refine ⟨hreplace, ?_⟩
  have hnone := h.unmoved hreplace
  unfold movedNames at hnone
  have hsorted : (n, (old, new)) ∈ (planSeed current plan.incoming).conflicted.sorted.rows :=
    (Dict.sortEntries_perm _).mem_iff.mpr hrow
  have hshown := List.filter_eq_nil_iff.mp (List.map_eq_nil_iff.mp hnone) _ hsorted
  cases hget' : plan.conflicted.get? n with
  | none => simp [hget'] at hshown
  | some shown => exact ⟨shown, rfl, by simpa [hget'] using hshown⟩

include h htext hfree hrep in
/-- A resident's alias with a meaning that is not the old one is new. -/
theorem SeedPasses.new_of_pinned {d : Deployment} (hd : d ∈ pinnedDeployments host s) {n : String}
    (hn : n ∈ d.served.keys) {key : EndpointKey} (hkey : u.endpointKey n = some key)
    (hold : uP.endpointKey n ≠ some key) :
    uP.endpointKey n = none ∧ uI.endpointKey n = some key := by
  have hA := h.adoption htext
  have hin : uI.endpointKey n = some key := by
    cases List.mem_append.mp ((hrep.endpoint n key).mpr hkey) with
    | inl hleft => exact absurd (hA.endpointP.mpr (Adoption.mem_leftover.mp hleft).1) hold
    | inr hI => exact hA.endpointI.mpr hI
  refine ⟨?_, hin⟩
  cases hP : uP.endpointKey n with
  | none => rfl
  | some old =>
      have hne : key ≠ old := by
        intro heq
        rw [hP, heq] at hold
        exact hold rfl
      have hpin : n ∈ pinnedEndpoints host s := List.mem_flatMap.mpr ⟨d, hd, hn⟩
      exact absurd hpin (hfree n (hA.dropped_of_redefined hP hin hne))

include h htext hincoming hrep in
/-- An endpoint outside the plan keeps its meaning. -/
theorem SeedPasses.endpoint_kept
    (hapart : ∀ n, uP.endpointKey n ≠ none → uI.bundles.get? n = none) {n : String}
    (hn : n ∉ plan.incoming.keys) : u.endpointKey n = uP.endpointKey n := by
  have hA := h.adoption htext
  have hnone : uI.endpointKey n = none := by
    by_contra hne
    exact hn ((h.mem_incoming hincoming).mpr hne)
  refine Option.ext fun key => ?_
  rw [← hrep.endpoint n key, List.mem_append, hA.endpointP]
  constructor
  · intro hmem
    cases hmem with
    | inl hleft => exact (Adoption.mem_leftover.mp hleft).1
    | inr hI =>
        have hkey := hA.endpointI.mpr hI
        rw [hnone] at hkey
        cases hkey
  · intro hP
    have hkeeps : KeepsMeaning uP uI n := by
      refine ⟨hapart n ?_, fun key' hkey' => ?_⟩
      · rw [hA.endpointP.mpr hP]
        exact Option.some_ne_none key
      · rw [hnone] at hkey'
        cases hkey'
    refine .inl (Adoption.mem_leftover.mpr ⟨hP, ?_, ?_⟩)
    · refine Definition.avoids_iff.mpr ⟨fun hmem => ?_, fun m hm => by cases hm⟩
      obtain ⟨key', -, hI⟩ := mem_repeats.mp hmem
      have hkey : uI.endpointKey n = some key' := hA.endpointI.mpr hI
      rw [hnone] at hkey
      cases hkey
    · exact Definition.avoids_iff.mpr
        ⟨hA.not_dropped (hA.endpointP.mpr hP) hkeeps, fun m hm => by cases hm⟩

/-- No name of a union is an endpoint and a bundle. -/
theorem CatalogUnion.apart {sources : List Catalog}
    (hu : CatalogUnion.fromSources sources = .ok u) {n : String} {key : EndpointKey}
    (hkey : u.endpointKey n = some key) : u.bundles.get? n = none := by
  obtain ⟨hconsistent, hrep⟩ := fromSources_ok hu
  by_contra hsome
  obtain ⟨ms, hms⟩ := Option.ne_none_iff_exists'.mp hsome
  exact hconsistent.apart n ⟨⟨key, (hrep.endpoint n key).mpr hkey⟩, ms, (hrep.bundle n ms).mpr hms⟩

include h htext hrep in
/-- Which published bundles stay. -/
theorem SeedPasses.bundle_iff {out : List Catalog} (hu : CatalogUnion.fromSources out = .ok u)
    {n : String} {ms : List String} (hms : uP.bundles.get? n = some ms)
    (hkeeps : ∀ m ∈ ms, KeepsMeaning uP uI m) :
    u.bundles.get? n = some ms ↔
      uI.bundles.get? n = some ms ∨ (uI.Lacks n ∧ ∀ m ∈ ms, uI.endpointKey m = none) := by
  have hA := h.adoption htext
  have hincoming : ∀ ms', uI.bundles.get? n = some ms' → u.bundles.get? n = some ms' :=
    fun ms' hms' => (hrep.bundle n ms').mp (List.mem_append_right _ (hA.bundleI.mp hms'))
  constructor
  · intro hget
    cases hI : uI.bundles.get? n with
    | some ms' =>
        left
        rw [← hget, hincoming ms' hI]
    | none =>
        have hlacks : uI.Lacks n := by
          refine ⟨?_, hI⟩
          by_contra hsome
          obtain ⟨key, hkey⟩ := Option.ne_none_iff_exists'.mp hsome
          have hpub := (hrep.endpoint n key).mp (List.mem_append_right _ (hA.endpointI.mp hkey))
          rw [CatalogUnion.apart hu hpub] at hget
          cases hget
        refine .inr ⟨hlacks, fun m hm => ?_⟩
        by_contra hsome
        obtain ⟨key, hkey⟩ := Option.ne_none_iff_exists'.mp hsome
        exact hA.bundle_shed hrep hlacks hm (hkeeps m hm) hkey hget
  · intro hcases
    cases hcases with
    | inl hsame => exact hincoming ms hsame
    | inr hnone => exact hA.bundle_kept hrep hms hnone.1 hkeeps hnone.2

include h htext hincoming hfree hrep in
/-- What the change leaves is what it should leave exactly under the condition. -/
theorem SeedPasses.seeded_iff {out : List Catalog} (hu : CatalogUnion.fromSources out = .ok u) :
    Seeded plan replace (pinnedDeployments host s) current uP uI u s.routeEntries
        (s.routeEntries.filter fun row => decide (row.1 ∉ plan.incoming.keys)) ↔
      SeedFits host plan s uP uI := by
  have hA := h.adoption htext
  have hendpoint : ∀ {n key}, uI.endpointKey n = some key → u.endpointKey n = some key :=
    fun hkey => (hrep.endpoint _ _).mp (List.mem_append_right _ (hA.endpointI.mp hkey))
  have hbundle : ∀ {n ms}, uI.bundles.get? n = some ms → u.bundles.get? n = some ms :=
    fun hms => (hrep.bundle _ _).mp (List.mem_append_right _ (hA.bundleI.mp hms))
  constructor
  · intro hseeded
    constructor
    case unpinned => exact hfree
    case bundles =>
      intro n ms hms hkeeps
      exact (h.bundle_iff htext hrep hu hms hkeeps).mp (hseeded.keptBundles n ms hms hkeeps)
    case apart =>
      intro n hP
      by_contra hsome
      obtain ⟨ms, hms⟩ := Option.ne_none_iff_exists'.mp hsome
      have hnot : n ∉ plan.incoming.keys := by
        rw [h.mem_incoming hincoming, not_not]
        by_contra hne
        obtain ⟨key, hkey⟩ := Option.ne_none_iff_exists'.mp hne
        rw [CatalogUnion.apart h.unionI hkey] at hms
        cases hms
      obtain ⟨key, hkey⟩ := Option.ne_none_iff_exists'.mp hP
      have hkept := (hseeded.keptEndpoints n hnot).trans hkey
      have hnone := CatalogUnion.apart hu hkept
      rw [hbundle hms] at hnone
      cases hnone
    case agree =>
      intro d hd d' hd' n hn hn' hP hI
      obtain ⟨key, hkey⟩ := Option.ne_none_iff_exists'.mp hI
      have hruns : ∀ d ∈ pinnedDeployments host s, n ∈ d.served.keys → d.runs key = true := by
        intro d hd hn
        refine (hseeded.pinned d hd n hn key (hendpoint hkey)).resolve_left fun hold => ?_
        rw [hP] at hold
        cases hold
      exact Deployment.compatKey_eq (hruns d hd hn) (hruns d' hd' hn')
  · intro hfits
    constructor
    case endpoints =>
      intro n new hnew
      rw [hincoming, get?_meanings] at hnew
      obtain ⟨resolved, hres, rfl⟩ := Option.map_eq_some_iff.mp hnew
      exact ⟨resolved.semantic, rfl,
        hendpoint ((endpointKey_eq_some h.unionI).mpr ⟨resolved, hres, rfl⟩)⟩
    case bundles => exact fun n ms hms => hbundle hms
    case shown => exact fun n old new hold hnew hdiff => h.shown hold hnew hdiff
    case pinned =>
      intro d hd n hn key hkey
      by_cases hold : uP.endpointKey n = some key
      · exact .inl hold
      · right
        obtain ⟨hP, hI⟩ := h.new_of_pinned htext hfree hrep hd hn hkey hold
        obtain ⟨u₀, hu₀, hrep₀⟩ := h.adopted_union htext
        have hkey₀ : u₀.endpointKey n = some key :=
          (hrep₀.endpoint n key).mp ((hrep.endpoint n key).mpr hkey)
        obtain ⟨d', hd', hn', hruns⟩ := h.resident_runs hu₀ hd hn hkey₀ hP
        have hsome : uI.endpointKey n ≠ none := by
          rw [hI]
          exact Option.some_ne_none key
        have hsame := hfits.agree d hd d' hd' n hn hn' hP hsome
        rw [Deployment.runs_congr hsame]
        exact hruns
    case keptEndpoints => exact fun n hn => h.endpoint_kept htext hincoming hrep hfits.apart hn
    case keptBundles =>
      intro n ms hms hkeeps
      exact (h.bundle_iff htext hrep hu hms hkeeps).mpr (hfits.bundles n ms hms hkeeps)
    case keptRows =>
      intro n hn
      have hfilter := Dict.get?_filter s.routeEntries (fun k => decide (k ∉ plan.incoming.keys)) n
      rw [hfilter, if_pos (by simpa using hn)]

end Leaves

/-! ## the commit -/

/-- A seed is refused with nothing changed, or leaves what it should, exactly if the checks before
the marker refuse it or nothing escapes them. -/
theorem seedsAtomically_iff {host₀ : SeedHost σ} {s₀ : SeedState σ δ} {sources : List Catalog}
    (hplan : planRouteSeed py managed host₀ s₀ sources = .ok plan)
    (htext : ∀ c ∈ s.publishedSources ++ plan.sources, c.textNames = true) :
    SeedsAtomically py managed host plan replace s
        (commitRouteSeed py managed host plan replace before s) ↔
      (∃ e, seedChecks py managed host plan replace before s = .error e) ∨
        ∃ uP uI, CatalogUnion.fromSources s.publishedSources = .ok uP ∧
          CatalogUnion.fromSources plan.sources = .ok uI ∧ SeedFits host plan s uP uI := by
  cases hchecks : seedChecks py managed host plan replace before s with
  | error e =>
      have hcommit : commitRouteSeed py managed host plan replace before s = (.error e, s) := by
        unfold commitRouteSeed
        rw [hchecks]
      rw [hcommit]
      exact ⟨fun _ => .inl ⟨e, rfl⟩, fun _ => ⟨fun _ _ => ⟨rfl, rfl, rfl⟩, fun _ hok => by cases hok⟩⟩
  | ok _ =>
      obtain ⟨current, uP, uI, adopted, h⟩ := seedChecks_ok hchecks
      obtain ⟨uI', hI', hincoming⟩ := planRouteSeed_spec py managed hplan
      rw [h.unionI] at hI'
      obtain rfl := Except.ok.inj hI'
      have hcond : ((∃ e, (Except.ok () : Except SeedRefusal Unit) = .error e) ∨
          ∃ uP uI, CatalogUnion.fromSources s.publishedSources = .ok uP ∧
            CatalogUnion.fromSources plan.sources = .ok uI ∧ SeedFits host plan s uP uI) ↔
          SeedFits host plan s uP uI := by
        constructor
        · rintro (⟨e, he⟩ | ⟨uP', uI', hP', hI', hfits⟩)
          · cases he
          · rw [h.unionP] at hP'
            rw [h.unionI] at hI'
            obtain rfl := Except.ok.inj hP'
            obtain rfl := Except.ok.inj hI'
            exact hfits
        · exact fun hfits => .inr ⟨uP, uI, h.unionP, h.unionI, hfits⟩
      rw [hcond]
      by_cases hpinned : ∃ n ∈ (adoptionDrops (definitions s.publishedSources)
          (definitions plan.sources)).flatten, n ∈ pinnedEndpoints host s
      · -- refused under the marker, which stays
        obtain ⟨e, hcommit⟩ := commit_refused hchecks h htext hpinned
        rw [hcommit]
        constructor
        · intro hseeds
          exact absurd (hseeds.refused e rfl).2.2 marker_markPending
        · intro hfits
          obtain ⟨n, hn, hpin⟩ := hpinned
          exact absurd hpin (hfits.unpinned n hn)
      · have hfree : ∀ n ∈ (adoptionDrops (definitions s.publishedSources)
            (definitions plan.sources)).flatten, n ∉ pinnedEndpoints host s :=
          fun n hn hpin => hpinned ⟨n, hn, hpin⟩
        obtain ⟨done, out, u, hcommit, hu, hrep⟩ := commit_ok hchecks h htext hfree
        have hseeded := h.seeded_iff htext hincoming hfree hrep hu
        rw [hcommit]
        constructor
        · intro hseeds
          obtain ⟨current', uP', uI', u', hcurrent', hP', hI', hu', hleft⟩ :=
            hseeds.published done rfl
          rw [h.published] at hcurrent'
          rw [h.unionP] at hP'
          rw [h.unionI] at hI'
          dsimp only at hu'
          rw [publishedSources_stored, hu] at hu'
          rw [routeEntries_stored] at hleft
          obtain rfl := Except.ok.inj hcurrent'
          obtain rfl := Except.ok.inj hP'
          obtain rfl := Except.ok.inj hI'
          obtain rfl := Except.ok.inj hu'
          exact hseeded.mp hleft
        · intro hfits
          constructor
          case refused =>
            intro e he
            cases he
          case published =>
            intro done' _
            refine ⟨current, uP, uI, u, h.published, h.unionP, h.unionI, ?_, ?_⟩
            · rw [publishedSources_stored, hu]
            · rw [routeEntries_stored]
              exact hseeded.mpr hfits

end

/-! ## a resident alias with another tag -/

/-- An Ollama endpoint with a model tag. -/
def tagged (tag : String) : Catalog where
  hosts := Table.ofList [{ name := "box" }]
  endpoints := Table.ofList [{ name := "chat", engine := .ollama, model := tag, host := some "box" }]

/-- The daemon that serves it. -/
def chatDaemon : Deployment where
  id := "grp-1"
  compatKey := ⟨.ollama, .ollama "box" [] none none none none⟩
  engine := .ollama
  sharing := .shared
  capacity := ∅
  spec := { engine := .ollama, host := some "box" }
  served := Table.ofList [("chat", { model := some "tiny" })]
  state := .live
  createdAt := 0
  updatedAt := 0

/-- The endpoint is published, and its daemon leased. -/
def leasedChat : SeedState Unit Unit where
  ledger :=
    { leases := Table.ofList [⟨"lse-1", "me", .active, 0, none, none, 0⟩]
      deployments := Table.ofList [chatDaemon]
      claims := [⟨"lse-1", "chat", "grp-1"⟩]
      profile := some { settings := (), catalogs := [tagged "tiny"] }
      publicationPending := none
      desiredGen := 1
      admissionStateVersion := 1
      serviceAddresses := ∅
      networkConfig := none
      claim_lease := by decide +kernel
      claim_deployment := by decide +kernel }

def seedingHost : SeedHost Unit where
  now := 1
  hasKey := fun _ => true
  settings := ()

/-- What seeding the endpoint with another tag would do. -/
def retag : RoutePlan :=
  (planRouteSeed plainPython (composeCatalogRoute plainPython) seedingHost leasedChat
    [tagged "large"]).toOption.getD {}

/-- The exact condition, for this plan. -/
theorem seedsAtomically_retag :
    SeedsAtomically plainPython (composeCatalogRoute plainPython) seedingHost retag true leasedChat
        (commitRouteSeed plainPython (composeCatalogRoute plainPython) seedingHost retag true
          leasedChat leasedChat) ↔
      (∃ e, seedChecks plainPython (composeCatalogRoute plainPython) seedingHost retag true
        leasedChat leasedChat = .error e) ∨
        ∃ uP uI, CatalogUnion.fromSources leasedChat.publishedSources = .ok uP ∧
          CatalogUnion.fromSources retag.sources = .ok uI ∧
          SeedFits seedingHost retag leasedChat uP uI :=
  seedsAtomically_iff
    (show planRouteSeed plainPython (composeCatalogRoute plainPython) seedingHost leasedChat
      [tagged "large"] = .ok retag by decide +kernel)
    (by decide +kernel)

/-- With `--replace`, a plan that gives a resident alias another tag passes the checks, and is
refused once the marker is written. -/
theorem retag_leaves_marker :
    planRouteSeed plainPython (composeCatalogRoute plainPython) seedingHost leasedChat
        [tagged "large"] = .ok retag ∧
      ¬ SeedsAtomically plainPython (composeCatalogRoute plainPython) seedingHost retag true
        leasedChat (commitRouteSeed plainPython (composeCatalogRoute plainPython) seedingHost retag
          true leasedChat leasedChat) := by
  refine ⟨by decide +kernel, fun h => ?_⟩
  have hrefused : (commitRouteSeed plainPython (composeCatalogRoute plainPython) seedingHost retag
      true leasedChat leasedChat).1 = .error (.profileMismatch ["chat"]) := by decide +kernel
  have hmarker := (h.refused _ hrefused).2.2
  have hpending : (commitRouteSeed plainPython (composeCatalogRoute plainPython) seedingHost retag
      true leasedChat leasedChat).2.ledger.publicationPending ≠ none := by decide +kernel
  exact hpending hmarker

end InferStack
