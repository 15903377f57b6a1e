import InferStack.Gateway.Pruning
import InferStack.Kit.Machine

/-!
# InferStack.Gateway.Residents

What is published of an alias that a resident deployment serves.

Four commands write the published catalogs: an acquire that adopts its own
(`acquireProfileCandidate`), `routes seed`, `routes prune` and `config publish`.
Each looks for residents in its own way.  `resident_meaning_stands` says that no
sequence of them, with anything else happening to the ledger in between, gives
such an alias another meaning, or unpublishes it.
-/

namespace InferStack

open Kit

/-! ## the commands -/

section Commands

variable {σ δ : Type} [DecidableEq σ] (backendOf : σ → String)

/-- Whether every endpoint that `want` defines, `have_` defines identically. -/
def catalogsWithin (want have_ : List Catalog) : Except UnionError Bool := do
  let digest := fun c => match canonicalDigest c with
    | none => Except.error UnionError.unsortable
    | some d => .ok d
  let published ← have_.mapM digest
  if ← want.allM fun c => do pure (decide ((← digest c) ∈ published)) then pure true
  else match CatalogUnion.fromSources want, CatalogUnion.fromSources have_ with
    | .ok mine, .ok theirs =>
        pure <| mine.owner.keys.all fun name =>
          match mine.resolveEndpoint name, theirs.resolveEndpoint name with
          | some a, some b => a.semantic = b.semantic
          | _, _ => false
    | _, _ => pure false

/-- No active lease and no deployment's container; unknown is not quiescent. -/
def profileQuiescent (host : SeedHost σ) (s : SeedState σ δ) : Bool :=
  !((status s.ledger true host.now).1.any fun l => l.state = .active) &&
    host.residency.any fun r => !r.containers.rows.any fun c => c.deploymentId ≠ ""

/-- How an acquire advances the published profile, if at all.  Settings are
adopted from the invocation when the stack is quiescent; catalogs always merge,
and what a resident runs is not redefined. -/
def SeedState.acquireProfileCandidate (s : SeedState σ δ) (host : SeedHost σ)
    (invocation : RecoveryProfile σ) : Except SeedRefusal (Option (RecoveryProfile σ)) :=
  match s.ledger.profile with
  | none => .ok (some invocation)
  | some stored =>
      if stored.settings = invocation.settings ∧ stored.catalogs = invocation.catalogs then .ok none
      else if backendOf stored.settings ≠ backendOf invocation.settings then
        .error (.profileMismatch [])
      else do
        let within ← (catalogsWithin invocation.catalogs stored.catalogs).mapError .catalog
        if stored.settings = invocation.settings ∧ within then .ok none
        else
          let quiescent := profileQuiescent host s
          let pinned := if quiescent then [] else pinnedEndpoints host s
          match adoptCatalogSources stored.catalogs invocation.catalogs pinned with
          | .error (.conflict names) =>
              let blocked := names.filter (· ∈ pinned)
              .error (.profileMismatch (if blocked = [] then names else blocked))
          | .error e => .error (.catalog e)
          | .ok catalogs => do
              let changed ← pinnedChanges (pinnedDeployments host s) stored.catalogs catalogs
              refuseBlocked changed
              let candidate : RecoveryProfile σ :=
                { settings := if quiescent then invocation.settings else stored.settings
                  catalogs := catalogs }
              if candidate.settings = stored.settings ∧ candidate.catalogs = stored.catalogs
              then .ok none else .ok (some candidate)

/-- The profile as an acquire leaves it, or the refusal. -/
def acquirePublishes (s : SeedState σ δ) (host : SeedHost σ) (invocation : RecoveryProfile σ) :
    Except SeedRefusal Unit × SeedState σ δ :=
  match s.acquireProfileCandidate backendOf host invocation with
  | .error e => (.error e, s)
  | .ok none => (.ok (), s)
  | .ok (some candidate) => (.ok (), { s with ledger := s.ledger.writeProfile candidate })

/-- Replace the published profile, while the stack is quiescent; `previewed` is
the digest of its approved render, none when it failed or was declined. -/
def configPublish (s : SeedState σ δ) (host : SeedHost σ) (profile : RecoveryProfile σ)
    (previewed : Option δ) : Except SeedRefusal Unit × SeedState σ δ :=
  if s.ledger.profile.any fun stored => backendOf stored.settings ≠ backendOf profile.settings then
    (.error (.profileMismatch []), s)
  else if !profileQuiescent host s then (.error (.profileMismatch []), s)
  else match previewed with
    | none => (.error (.profileMismatch []), s)
    | some digest => (.ok (), { s with ledger := s.ledger.publishProfile profile (some digest) })

end Commands

/-! ## a run of commands -/

/-- A command that writes what is published, or anything else that happens. -/
inductive PublicationOp (σ δ : Type) where
  | acquire (host : SeedHost σ) (invocation : RecoveryProfile σ)
  | seed (host : SeedHost σ) (plan : RoutePlan) (replace : Bool) (before : SeedState σ δ)
  | prune (host : PruneHost σ) (confirmed : List String)
  | publish (host : SeedHost σ) (profile : RecoveryProfile σ) (previewed : Option δ)
  /-- Anything that leaves the published catalogs as they are. -/
  | elsewhere (s' : SeedState σ δ)

section Step

variable {σ δ φ : Type} [DecidableEq σ] (py : Python)
  (managed : String → EndpointRequest → Option GatewayRoute)
  (B : Backend (RecoveryProfile σ) δ φ) (backendOf : σ → String)

def publicationStep (s : SeedState σ δ) : PublicationOp σ δ → SeedState σ δ
  | .acquire host invocation => (acquirePublishes backendOf s host invocation).2
  | .seed host plan replace before => (commitRouteSeed py managed host plan replace before s).2
  | .prune host confirmed => (commitRoutePrune B host confirmed s).2
  | .publish host profile previewed => (configPublish backendOf s host profile previewed).2
  | .elsewhere s' => s'

end Step

/-- Sources that present one union. -/
structure Presents (sources : List Catalog) (u : CatalogUnion) : Prop where
  union : CatalogUnion.fromSources sources = .ok u
  text : ∀ c ∈ sources, c.textNames = true

/-- What a command brings is catalogs as they are loaded. -/
def PublicationOp.Loaded {σ δ : Type} (s : SeedState σ δ) : PublicationOp σ δ → Prop
  | .acquire _ invocation => ∃ u, Presents invocation.catalogs u
  | .seed _ plan _ _ => ∀ c ∈ plan.sources, c.textNames = true
  | .prune _ _ => True
  | .publish _ profile _ => ∃ u, Presents profile.catalogs u
  | .elsewhere s' => s'.publishedSources = s.publishedSources

/-- A resident deployment serves the alias: LIVE, or idle with its container. -/
def ServedBy {σ δ : Type} (n : String) (host : SeedHost σ) (s : SeedState σ δ) : Prop :=
  ∃ d ∈ pinnedDeployments host s, d.id ≠ "" ∧ n ∈ d.served.keys

/-- The command finds the alias served by a resident. -/
def PublicationOp.Finds {σ δ : Type} (n : String) (s : SeedState σ δ) : PublicationOp σ δ → Prop
  | .acquire host _ => ServedBy n host s
  | .seed host _ _ _ => ServedBy n host s
  | .prune host _ => ServedBy n host.toSeedHost s
  | .publish host _ _ => ServedBy n host s
  | .elsewhere _ => True

/-! ## what each command keeps -/

section Keeps

variable {σ δ φ : Type} {py : Python}
  {managed : String → EndpointRequest → Option GatewayRoute}
  {B : Backend (RecoveryProfile σ) δ φ} {backendOf : σ → String} {s : SeedState σ δ}
  {u : CatalogUnion}

theorem ServedBy.pinned {n : String} {host : SeedHost σ} (h : ServedBy n host s) :
    n ∈ pinnedEndpoints host s := by
  obtain ⟨d, hd, -, hn⟩ := h
  exact List.mem_flatMap.mpr ⟨d, hd, hn⟩

/-- Nothing is served while the stack is quiescent. -/
theorem not_servedBy_of_quiescent {n : String} {host : SeedHost σ}
    (h : profileQuiescent host s = true) : ¬ ServedBy n host s := by
  rintro ⟨d, hd, hid, -⟩
  unfold profileQuiescent at h
  obtain ⟨hleases, hcontainers⟩ := Bool.and_eq_true_iff.mp h
  obtain ⟨hrow, hresident⟩ := List.mem_filter.mp hd
  rw [Bool.or_eq_true, decide_eq_true_eq] at hresident
  cases hresident with
  | inl hlive =>
      -- a row that still shows LIVE is protected by a lease that shows ACTIVE
      unfold status at hrow
      rw [if_pos rfl] at hrow
      obtain ⟨g, hg, hshown⟩ := List.mem_map.mp hrow
      have hdemand : s.ledger.demand g.id host.now ≠ 0 := by
        intro hzero
        by_cases hidled : g.state = .live ∧ s.ledger.demand g.id host.now = 0
        · rw [if_pos hidled] at hshown
          rw [← hshown] at hlive
          cases hlive
        · rw [if_neg hidled] at hshown
          exact hidled ⟨hshown ▸ hlive, hzero⟩
      rw [Ne, Store.demand_eq_zero] at hdemand
      push Not at hdemand
      obtain ⟨l, hl, -, hprotects⟩ := hdemand
      have hactive : l.state = .active := by
        simp only [Lease.isProtecting, Bool.and_eq_true, decide_eq_true_eq] at hprotects
        exact hprotects.1
      have hany : ((status s.ledger true host.now).1.any fun l => l.state = .active) = true := by
        refine List.any_eq_true.mpr ⟨l, ?_, by simpa using hactive⟩
        unfold status
        rw [if_pos rfl]
        refine List.mem_map.mpr ⟨l, Store.mem_listLeases.mpr hl, ?_⟩
        rw [if_neg (fun hlapsed => hlapsed.2 hprotects)]
      rw [hany] at hleases
      contradiction
  | inr hidle =>
      -- an idle one is resident through a container that carries its id
      obtain ⟨-, hwarm⟩ := Bool.and_eq_true_iff.mp hidle
      obtain ⟨r, hr⟩ : ∃ r, host.residency = some r := by
        cases hres : host.residency with
        | none => simp [hres] at hwarm
        | some r => exact ⟨r, rfl⟩
      rw [hr, Option.any_some] at hwarm hcontainers
      have hres := hwarm
      unfold Residency.isResident at hres
      obtain ⟨-, hunits⟩ := Bool.and_eq_true_iff.mp hres
      have hne : r.warmUnits d.id ≠ [] := by simpa using hunits
      obtain ⟨c, hc⟩ := List.exists_mem_of_ne_nil _ hne
      obtain ⟨hrows, hname⟩ := List.mem_filter.mp (List.mem_filter.mp hc).1
      have hnamed : c.deploymentId = d.id := by simpa using hname
      have hany : (r.containers.rows.any fun c => c.deploymentId ≠ "") = true :=
        List.any_eq_true.mpr ⟨c, hrows, by simp [hnamed, hid]⟩
      rw [hany] at hcontainers
      contradiction

/-- Adoption keeps the meaning of what is pinned. -/
theorem adopt_keeps {published incoming : List Catalog} {uP uI : CatalogUnion}
    (hP : Presents published uP) (hI : Presents incoming uI) {pinned : List String}
    {out : List Catalog} (h : adoptCatalogSources published incoming pinned = .ok out) :
    ∃ u, Presents out u ∧ ∀ n ∈ pinned, ∀ key, uP.endpointKey n = some key →
      u.endpointKey n = some key := by
  have htext : ∀ c ∈ published ++ incoming, c.textNames = true := by
    intro c hc
    cases List.mem_append.mp hc with
    | inl hin => exact hP.text c hin
    | inr hin => exact hI.text c hin
  have hA : Adoption published incoming uP uI := ⟨hP.union, hI.union, htext⟩
  have hspec := adopt_spec (fromSources_ok hP.union).1 (fromSources_ok hI.union).1 htext pinned
  split at hspec
  · obtain ⟨ns, herr⟩ := hspec
    rw [h] at herr
    cases herr
  · rename_i hfree
    obtain ⟨out', u, hout, hunion, hrep, houtText⟩ := hspec.settles
    rw [h] at hout
    obtain rfl := Except.ok.inj hout
    refine ⟨u, ⟨hunion, houtText⟩, fun n hn key hkey => ?_⟩
    have hmem := hA.endpointP.mp hkey
    refine (hrep.endpoint n key).mp ?_
    by_cases hrepeat : n ∈ repeats (definitions published) (definitions incoming)
    · obtain ⟨key', hP', hI'⟩ := mem_repeats.mp hrepeat
      have hsame : key' = key := Option.some.inj ((hA.endpointP.mpr hP').symm.trans hkey)
      exact List.mem_append_right _ (hsame ▸ hI')
    · refine List.mem_append_left _ (Adoption.mem_leftover.mpr ⟨hmem, ?_, ?_⟩)
      · exact Definition.avoids_iff.mpr ⟨hrepeat, fun m hm => by cases hm⟩
      · exact Definition.avoids_iff.mpr
          ⟨fun hdrop => hfree (.inl ⟨n, hdrop, hn⟩), fun m hm => by cases hm⟩

/-- What one command leaves: some union, in which the alias means what it did. -/
structure KeepsServed (n : String → Prop) (u : CatalogUnion) (s' : SeedState σ δ) : Prop where
  presents : ∃ u', Presents s'.publishedSources u' ∧ ∀ m, n m → ∀ key,
    u.endpointKey m = some key → u'.endpointKey m = some key

theorem KeepsServed.same {n : String → Prop} (h : Presents s.publishedSources u) {s' : SeedState σ δ}
    (hsame : s'.publishedSources = s.publishedSources) : KeepsServed n u s' :=
  ⟨u, hsame ▸ h, fun _ _ _ hkey => hkey⟩

/-- Nothing is published before the first profile. -/
theorem endpointKey_of_no_profile (h : Presents s.publishedSources u) (hnone : s.ledger.profile = none)
    (n : String) : u.endpointKey n = none := by
  have hnil : s.publishedSources = [] := by
    unfold SeedState.publishedSources
    rw [hnone]
    rfl
  have hu := h.union
  rw [hnil] at hu
  obtain rfl : ({} : CatalogUnion) = u := Except.ok.inj hu
  rfl

theorem seed_stands (h : Presents s.publishedSources u) {host : SeedHost σ} {plan : RoutePlan}
    (htext : ∀ c ∈ plan.sources, c.textNames = true) (replace : Bool) (before : SeedState σ δ) :
    KeepsServed (ServedBy · host s) u (commitRouteSeed py managed host plan replace before s).2 := by
  unfold commitRouteSeed
  cases hchecks : seedChecks py managed host plan replace before s with
  | error e => exact .same h rfl
  | ok _ =>
      obtain ⟨current, uP, uI, adopted, hpasses⟩ := seedChecks_ok hchecks
      dsimp only
      unfold seedChange
      rw [publishedMeanings_markPending, hpasses.published, publishedSources_markPending,
        pinnedEndpoints_markPending]
      dsimp only
      cases hadopt : adoptCatalogSources s.publishedSources plan.sources (pinnedEndpoints host s) with
      | error e =>
          cases e <;> exact .same h publishedSources_markPending
      | ok out =>
          obtain ⟨u', hu', hkept⟩ := adopt_keeps h ⟨hpasses.unionI, htext⟩ hadopt
          refine ⟨u', ?_, fun m hm key hkey => hkept m hm.pinned key hkey⟩
          rw [publishedSources_stored]
          exact hu'

theorem prune_stands (h : Presents s.publishedSources u) (host : PruneHost σ)
    (confirmed : List String) :
    KeepsServed (ServedBy · host.toSeedHost s) u (commitRoutePrune B host confirmed s).2 := by
  cases hprofile : host.profileError with
  | true =>
      unfold commitRoutePrune
      rw [hprofile]
      exact .same h rfl
  | false =>
      cases hkeep : pruneKeep B host s with
      | error e =>
          unfold commitRoutePrune pruneChange
          have hmarked : CatalogUnion.fromSources
              (s.markPending host.toSeedHost).publishedSources = .ok u := by
            rw [publishedSources_markPending, h.union]
          have hkeep' : pruneKeep B host (s.markPending host.toSeedHost) = .error e :=
            (pruneKeep_congr (status_markPending host.now)).trans hkeep
          have hprunable : prunable B host (s.markPending host.toSeedHost) = .error e := by
            unfold prunable seedUnion
            rw [hmarked, hkeep']
            rfl
          rw [hprofile, hprunable]
          exact .same h publishedSources_markPending
      | ok keep =>
          obtain ⟨drop, s', hcommit, hexact, hpruned⟩ :=
            prunedTo_commit confirmed hprofile h.union hkeep
          rw [hcommit]
          obtain ⟨u', hu', hless⟩ := hpruned.union h.union
          refine ⟨u', ⟨hu', ?_⟩, fun m hm key hkey => ?_⟩
          · intro c hc
            rw [hpruned.sources] at hc
            split at hc
            · exact h.text c hc
            · exact textNames_dropCatalogNames h.text c hc
          · have hneeded : m ∈ keep := by
              unfold pruneKeep at hkeep
              obtain ⟨mine, -, hrest⟩ := bind_eq_ok.mp hkeep
              obtain rfl := Except.ok.inj hrest
              exact List.mem_append_right _ hm.pinned
            have hstays : m ∉ drop := fun hdrop => ((hexact m).mp hdrop).2.1 hneeded
            rw [hless.endpoints, if_neg hstays]
            exact hkey

/-- The candidate of an acquire adopts the invocation's catalogs into the stored
ones, with the residents' aliases pinned unless the stack is quiescent. -/
theorem acquireProfileCandidate_catalogs [DecidableEq σ] {host : SeedHost σ}
    {stored invocation candidate : RecoveryProfile σ} (hstored : s.ledger.profile = some stored)
    (h : s.acquireProfileCandidate backendOf host invocation = .ok (some candidate)) :
    ∃ pinned, (profileQuiescent host s = true ∨ pinned = pinnedEndpoints host s) ∧
      adoptCatalogSources stored.catalogs invocation.catalogs pinned = .ok candidate.catalogs := by
  unfold SeedState.acquireProfileCandidate at h
  rw [hstored] at h
  dsimp only at h
  split at h
  · cases h
  · split at h
    · cases h
    · obtain ⟨within, -, h⟩ := bind_eq_ok.mp h
      split at h
      · cases h
      · split at h
        · cases h
        · cases h
        · rename_i catalogs hadopt
          obtain ⟨changed, -, h⟩ := bind_eq_ok.mp h
          obtain ⟨-, -, h⟩ := bind_eq_ok.mp h
          have hcatalogs : candidate.catalogs = catalogs := by
            cases hquiescent : profileQuiescent host s with
            | true =>
                rw [hquiescent, if_pos rfl] at h
                split at h
                · cases h
                · rw [← Option.some.inj (Except.ok.inj h)]
            | false =>
                rw [hquiescent, if_neg Bool.false_ne_true] at h
                split at h
                · cases h
                · rw [← Option.some.inj (Except.ok.inj h)]
          refine ⟨_, ?_, hcatalogs ▸ hadopt⟩
          cases profileQuiescent host s with
          | true => exact .inl rfl
          | false => exact .inr rfl

theorem acquire_stands [DecidableEq σ] (h : Presents s.publishedSources u) (host : SeedHost σ)
    {invocation : RecoveryProfile σ} {uI : CatalogUnion} (hI : Presents invocation.catalogs uI) :
    KeepsServed (ServedBy · host s) u (acquirePublishes backendOf s host invocation).2 := by
  unfold acquirePublishes
  cases hcandidate : s.acquireProfileCandidate backendOf host invocation with
  | error e => exact .same h rfl
  | ok result =>
      cases result with
      | none => exact .same h rfl
      | some candidate =>
          cases hprofile : s.ledger.profile with
          | none =>
              have hfirst : candidate = invocation := by
                unfold SeedState.acquireProfileCandidate at hcandidate
                rw [hprofile] at hcandidate
                exact (Option.some.inj (Except.ok.inj hcandidate)).symm
              refine ⟨uI, hfirst ▸ hI, fun m _ key hkey => ?_⟩
              rw [endpointKey_of_no_profile h hprofile] at hkey
              cases hkey
          | some stored =>
              have hsources : s.publishedSources = stored.catalogs := by
                unfold SeedState.publishedSources
                rw [hprofile]
                rfl
              obtain ⟨pinned, hpinned, hadopt⟩ :=
                acquireProfileCandidate_catalogs hprofile hcandidate
              rw [hsources] at h
              obtain ⟨u', hu', hkept⟩ := adopt_keeps h hI hadopt
              refine ⟨u', hu', fun m hm key hkey => ?_⟩
              cases hpinned with
              | inl hquiescent => exact absurd hm (not_servedBy_of_quiescent hquiescent)
              | inr hpins => exact hkept m (hpins ▸ hm.pinned) key hkey

theorem publish_stands (h : Presents s.publishedSources u) (host : SeedHost σ)
    {profile : RecoveryProfile σ} {uI : CatalogUnion} (hI : Presents profile.catalogs uI)
    (previewed : Option δ) :
    KeepsServed (ServedBy · host s) u (configPublish backendOf s host profile previewed).2 := by
  unfold configPublish
  split
  · exact .same h rfl
  · split
    · exact .same h rfl
    · rename_i hquiet
      cases previewed with
      | none => exact .same h rfl
      | some digest =>
          have hquiescent : profileQuiescent host s = true := by simpa using hquiet
          exact ⟨uI, hI, fun m hm => absurd hm (not_servedBy_of_quiescent hquiescent)⟩

/-- Every command leaves a union, and keeps the meaning of what it finds served. -/
theorem command_stands [DecidableEq σ] (h : Presents s.publishedSources u)
    {op : PublicationOp σ δ} (hop : op.Loaded s) :
    KeepsServed (fun n => op.Finds n s) u (publicationStep py managed B backendOf s op) := by
  cases op with
  | acquire host invocation =>
      obtain ⟨uI, hI⟩ := hop
      exact acquire_stands h host hI
  | seed host plan replace before => exact seed_stands h hop replace before
  | prune host confirmed => exact prune_stands h host confirmed
  | publish host profile previewed =>
      obtain ⟨uI, hI⟩ := hop
      exact publish_stands h host hI previewed
  | elsewhere s' => exact .same h hop

/-- A resident's alias keeps its meaning.  Over any sequence of acquires, seeds,
prunes and config publishes, with anything else in between, what is published is
always a union; and an alias that each of these commands finds served by a
resident is published with the meaning it had. -/
theorem resident_meaning_stands [DecidableEq σ] (py : Python)
    (managed : String → EndpointRequest → Option GatewayRoute)
    (B : Backend (RecoveryProfile σ) δ φ) (backendOf : σ → String) (s : SeedState σ δ)
    (u : CatalogUnion) (hs : Presents s.publishedSources u) (ops : List (PublicationOp σ δ))
    (hloaded : AllSteps (publicationStep py managed B backendOf) (fun s op => op.Loaded s) s ops) :
    ∃ u', Presents (run (publicationStep py managed B backendOf) s ops).publishedSources u' ∧
      ∀ n, AllSteps (publicationStep py managed B backendOf) (fun s op => op.Finds n s) s ops →
        ∀ key, u.endpointKey n = some key → u'.endpointKey n = some key := by
  induction ops generalizing s u with
  | nil => exact ⟨u, hs, fun _ _ _ hkey => hkey⟩
  | cons op ops ih =>
      have hstands : KeepsServed (fun n => op.Finds n s) u
          (publicationStep py managed B backendOf s op) := command_stands hs hloaded.1
      obtain ⟨u₁, hu₁, hone⟩ := hstands.presents
      obtain ⟨u', hu', hrest⟩ := ih _ u₁ hu₁ hloaded.2
      exact ⟨u', hu', fun n hfinds key hkey =>
        hrest n hfinds.2 key (hone n hfinds.1 key hkey)⟩

end Keeps

/-! ## a leased model, and commands that would redefine it -/

/-- A seed with `--replace` gives the alias another tag, a prune confirms it, an
acquire brings the other tag and `config publish` an empty profile. -/
def chatCommands : List (PublicationOp Unit Unit) :=
  [.seed seedingHost retag true leasedChat,
    .prune ⟨seedingHost, []⟩ ["chat"],
    .acquire seedingHost { settings := (), catalogs := [tagged "large"] },
    .publish seedingHost { settings := () } (some ())]

theorem resident_meaning_chat :
    ∃ u, Presents (run (publicationStep plainPython (composeCatalogRoute plainPython) cpuBox
        (fun _ => "compose")) leasedChat chatCommands).publishedSources u ∧
      u.endpointKey "chat" = some ((tagged "tiny").endpointKey "chat") := by
  have hlarge : ∃ u, Presents [tagged "large"] u :=
    ⟨{ owner := Table.ofList [("chat", tagged "large")] }, by decide +kernel, by decide +kernel⟩
  have hserved : ∀ s : SeedState Unit Unit, chatDaemon ∈ pinnedDeployments seedingHost s →
      ServedBy "chat" seedingHost s := fun s hs => ⟨chatDaemon, hs, by decide, by decide⟩
  obtain ⟨u, hu, hkept⟩ := resident_meaning_stands plainPython (composeCatalogRoute plainPython)
    cpuBox (fun _ => "compose") leasedChat
    { owner := Table.ofList [("chat", tagged "tiny")] } ⟨by decide +kernel, by decide +kernel⟩
    chatCommands
    ⟨show ∀ c ∈ retag.sources, c.textNames = true by decide +kernel, trivial, hlarge,
      ⟨{}, rfl, by simp⟩, trivial⟩
  exact ⟨u, hu, hkept "chat" ⟨hserved _ (by decide +kernel), hserved _ (by decide +kernel),
    hserved _ (by decide +kernel), hserved _ (by decide +kernel), trivial⟩ _ (by decide +kernel)⟩

end InferStack
