import InferStack.Catalog.Adoption

/-!
# InferStack.Catalog.Intended

Whether adoption settles to the union it should.

The incoming meanings hold, and what is published and not redefined stays.
`adoption_iff`: this is so unless an endpoint is merely repeated that a published
bundle names, since the bundle is shed with it, or the names to drop outnumber
the rounds.
-/

namespace InferStack

open Kit

/-! ## the intended union -/

/-- Some incoming definition changes the meaning of a pinned endpoint. -/
def RedefinesPinned (published incoming : CatalogUnion) (pinned : List String) : Prop :=
  ∃ n ∈ pinned, ∃ key, published.endpointKey n = some key ∧
    ((∃ key', incoming.endpointKey n = some key' ∧ key' ≠ key) ∨
      ∃ ms, incoming.bundles.get? n = some ms)

/-- Nothing of a union has the name. -/
def CatalogUnion.Lacks (u : CatalogUnion) (n : String) : Prop :=
  u.endpointKey n = none ∧ u.bundles.get? n = none

/-- The incoming union does not change what a published endpoint means. -/
def KeepsMeaning (published incoming : CatalogUnion) (n : String) : Prop :=
  incoming.bundles.get? n = none ∧
    ∀ key, incoming.endpointKey n = some key → published.endpointKey n = some key

/-- What is incoming, and what it leaves of the published union. -/
structure IntendedUnion (published incoming u : CatalogUnion) : Prop where
  endpoints : ∀ n key, incoming.endpointKey n = some key → u.endpointKey n = some key
  bundles : ∀ n ms, incoming.bundles.get? n = some ms → u.bundles.get? n = some ms
  keptEndpoints : ∀ n key, published.endpointKey n = some key → incoming.Lacks n →
    u.endpointKey n = some key
  keptBundles : ∀ n ms, published.bundles.get? n = some ms → incoming.Lacks n →
    (∀ m ∈ ms, KeepsMeaning published incoming m) → u.bundles.get? n = some ms

/-- Adoption refuses exactly what redefines a pinned endpoint, and otherwise settles to the
intended union; adopting once more changes no meaning. -/
structure AdoptionSettles (published incoming : List Catalog) (pinned : List String)
    (uP uI : CatalogUnion) : Prop where
  refuses : (∃ ns, adoptCatalogSources published incoming pinned = .error (.conflict ns)) ↔
    RedefinesPinned uP uI pinned
  settles : ¬ RedefinesPinned uP uI pinned →
    ∃ out u, adoptCatalogSources published incoming pinned = .ok out ∧
      CatalogUnion.fromSources out = .ok u ∧ IntendedUnion uP uI u ∧
      ∃ out' u', adoptCatalogSources out incoming pinned = .ok out' ∧
        CatalogUnion.fromSources out' = .ok u' ∧
        (∀ n, u'.endpointKey n = u.endpointKey n) ∧ ∀ n, u'.bundles.get? n = u.bundles.get? n

/-- A published bundle that is not redefined and none of whose members changes meaning names an
endpoint that the incoming sources repeat. -/
def LosesBundle (published incoming : CatalogUnion) : Prop :=
  ∃ n ms, published.bundles.get? n = some ms ∧ incoming.Lacks n ∧
    (∀ m ∈ ms, KeepsMeaning published incoming m) ∧ ∃ m ∈ ms, ∃ key, incoming.endpointKey m = some key

/-! ## adoption settles -/

section

variable {published incoming : List Catalog} {uP uI : CatalogUnion} {pinned : List String}

/-- Published and incoming sources that each make a union. -/
structure Adoption (published incoming : List Catalog) (uP uI : CatalogUnion) : Prop where
  unionP : CatalogUnion.fromSources published = .ok uP
  unionI : CatalogUnion.fromSources incoming = .ok uI
  text : ∀ c ∈ published ++ incoming, c.textNames = true

namespace Adoption

variable (h : Adoption published incoming uP uI)
include h

theorem representsP : Represents uP (definitions published) := (fromSources_ok h.unionP).2

theorem representsI : Represents uI (definitions incoming) := (fromSources_ok h.unionI).2

theorem endpointP {n : String} {key : EndpointKey} :
    uP.endpointKey n = some key ↔ (.endpoint n, .inl key) ∈ definitions published :=
  (h.representsP.endpoint n key).symm

theorem endpointI {n : String} {key : EndpointKey} :
    uI.endpointKey n = some key ↔ (.endpoint n, .inl key) ∈ definitions incoming :=
  (h.representsI.endpoint n key).symm

theorem bundleP {n : String} {ms : List String} :
    uP.bundles.get? n = some ms ↔ (.bundle n, .inr ms) ∈ definitions published :=
  (h.representsP.bundle n ms).symm

theorem bundleI {n : String} {ms : List String} :
    uI.bundles.get? n = some ms ↔ (.bundle n, .inr ms) ∈ definitions incoming :=
  (h.representsI.bundle n ms).symm

/-- What the incoming union lacks, no incoming definition names. -/
theorem not_named {n : String} (hlacks : uI.Lacks n) {d : Definition}
    (hd : d ∈ definitions incoming) : d.1.name ≠ n := by
  intro hname
  cases h.representsI.shape d hd with
  | inl hend =>
      obtain ⟨n', key, rfl⟩ := hend
      have hkey := h.endpointI.mpr hd
      have hn : n' = n := hname
      rw [hn, hlacks.1] at hkey
      cases hkey
  | inr hbun =>
      obtain ⟨n', ms, rfl⟩ := hbun
      have hms := h.bundleI.mpr hd
      have hn : n' = n := hname
      rw [hn, hlacks.2] at hms
      cases hms

/-- A name that the rounds drop has an incoming definition. -/
theorem named_of_dropped {n : String}
    (hn : n ∈ (adoptionDrops (definitions published) (definitions incoming)).flatten) :
    (∃ d ∈ definitions incoming, d.1.name = n ∧ ∃ d' ∈ definitions published, d'.1 = d.1 ∧ d'.2 ≠ d.2) ∨
      (∃ key ms, (.endpoint n, .inl key) ∈ definitions published ∧
        (.bundle n, .inr ms) ∈ definitions incoming) ∨
      ∃ key ms, (.endpoint n, .inl key) ∈ definitions incoming ∧
        (.bundle n, .inr ms) ∈ definitions published := by
  cases of_mem_drops hn with
  | inl hconf =>
      obtain ⟨d, hd, hname, d', hd', heq, hne⟩ := hconf
      exact .inl ⟨d, hd, hname, d', List.mem_of_mem_filter hd', heq, hne⟩
  | inr hclash =>
      obtain ⟨⟨key, hkey⟩, ms, hms⟩ := hclash
      have hP := (fromSources_ok h.unionP).1.apart n
      have hI := (fromSources_ok h.unionI).1.apart n
      refine .inr ?_
      cases List.mem_append.mp hkey with
      | inl hkP =>
          cases List.mem_append.mp hms with
          | inl hmP =>
              exact absurd ⟨⟨key, List.mem_of_mem_filter hkP⟩, ms, List.mem_of_mem_filter hmP⟩ hP
          | inr hmI => exact .inl ⟨key, ms, List.mem_of_mem_filter hkP, hmI⟩
      | inr hkI =>
          cases List.mem_append.mp hms with
          | inl hmP => exact .inr ⟨key, ms, hkI, List.mem_of_mem_filter hmP⟩
          | inr hmI => exact absurd ⟨⟨key, hkI⟩, ms, hmI⟩ hI

/-- An endpoint whose meaning stays is not dropped. -/
theorem not_dropped {m : String} {key : EndpointKey} (hkey : uP.endpointKey m = some key)
    (hkeeps : KeepsMeaning uP uI m) :
    m ∉ (adoptionDrops (definitions published) (definitions incoming)).flatten := by
  intro hm
  rcases h.named_of_dropped hm with hconf | hbundle | hbundle
  · obtain ⟨d, hd, hname, d', hd', heq, hne⟩ := hconf
    cases h.representsI.shape d hd with
    | inl hend =>
        obtain ⟨n, k, rfl⟩ := hend
        have hn : n = m := hname
        subst hn
        have hsame := hkeeps.2 k (h.endpointI.mpr hd)
        have hagree := h.representsP.agree d' hd' _ (h.endpointP.mp hsame) heq
        exact hne hagree
    | inr hbun =>
        obtain ⟨n, ms, rfl⟩ := hbun
        have hn : n = m := hname
        subst hn
        have hms := h.bundleI.mpr hd
        rw [hkeeps.1] at hms
        cases hms
  · obtain ⟨k, ms, -, hms⟩ := hbundle
    have hbun := h.bundleI.mpr hms
    rw [hkeeps.1] at hbun
    cases hbun
  · obtain ⟨k, ms, -, hms⟩ := hbundle
    exact (fromSources_ok h.unionP).1.apart m ⟨⟨key, h.endpointP.mp hkey⟩, ms, hms⟩

/-- A name the incoming union lacks is not dropped. -/
theorem not_dropped_of_lacks {n : String} (hlacks : uI.Lacks n) :
    n ∉ (adoptionDrops (definitions published) (definitions incoming)).flatten := by
  intro hn
  rcases h.named_of_dropped hn with hconf | hbundle | hbundle
  · obtain ⟨d, hd, hname, -⟩ := hconf
    exact h.not_named hlacks hd hname
  · obtain ⟨k, ms, -, hms⟩ := hbundle
    exact h.not_named hlacks hms rfl
  · obtain ⟨k, ms, hk, -⟩ := hbundle
    exact h.not_named hlacks hk rfl

omit h in
theorem mem_leftover {d : Definition} :
    d ∈ leftover (definitions published) (definitions incoming) ↔
      d ∈ definitions published ∧
        d.avoids (repeats (definitions published) (definitions incoming)) = true ∧
        d.avoids (adoptionDrops (definitions published) (definitions incoming)).flatten = true := by
  unfold leftover shed
  rw [List.mem_filter, List.mem_filter, and_assoc]

/-- A pinned endpoint is redefined exactly if the rounds drop a pinned name. -/
theorem redefines_iff (hpins : ∀ n ∈ pinned, uP.bundles.get? n = none) :
    RedefinesPinned uP uI pinned ↔
      ∃ n ∈ (adoptionDrops (definitions published) (definitions incoming)).flatten, n ∈ pinned := by
  constructor
  · intro hredef
    obtain ⟨n, hpin, key, hkey, hchange⟩ := hredef
    have hmem := h.endpointP.mp hkey
    have hnot : n ∉ repeats (definitions published) (definitions incoming) := by
      intro hrep
      obtain ⟨key', hP, hI⟩ := mem_repeats.mp hrep
      cases hchange with
      | inl hother =>
          obtain ⟨key'', hkey'', hne⟩ := hother
          have hsame : key' = key := by
            have hk := (h.endpointP.mpr hP).symm.trans hkey
            simpa using hk
          have hin : key' = key'' := by
            have hk := (h.endpointI.mpr hI).symm.trans hkey''
            simpa using hk
          exact hne (hin.symm.trans hsame)
      | inr hbundle =>
          obtain ⟨ms, hms⟩ := hbundle
          exact (fromSources_ok h.unionI).1.apart n ⟨⟨key', hI⟩, ms, h.bundleI.mp hms⟩
    have hshed : (DefName.endpoint n, Sum.inl key) ∈
        shed (definitions published) (definitions incoming) :=
      List.mem_filter.mpr ⟨hmem, Definition.avoids_iff.mpr ⟨hnot, fun m hm => by cases hm⟩⟩
    refine ⟨n, mem_drops hshed ?_, hpin⟩
    cases hchange with
    | inl hother =>
        obtain ⟨key', hkey', hne⟩ := hother
        exact .inl ⟨_, h.endpointI.mp hkey', rfl, by simpa using hne⟩
    | inr hbundle =>
        obtain ⟨ms, hms⟩ := hbundle
        exact .inr ⟨ms, h.bundleI.mp hms⟩
  · intro hdropped
    obtain ⟨n, hn, hpin⟩ := hdropped
    have hbundleP := hpins n hpin
    rcases h.named_of_dropped hn with hconf | hbundle | hbundle
    · obtain ⟨d, hd, hname, d', hd', heq, hne⟩ := hconf
      cases h.representsP.shape d' hd' with
      | inl hend =>
          obtain ⟨n', key, rfl⟩ := hend
          have hn' : n' = n := by
            rw [← hname, ← heq]
            rfl
          subst hn'
          cases h.representsI.shape d hd with
          | inl hend' =>
              obtain ⟨n'', key', rfl⟩ := hend'
              have hn'' : n'' = n' := hname
              subst hn''
              refine ⟨n'', hpin, key, h.endpointP.mpr hd', .inl ⟨key', h.endpointI.mpr hd, ?_⟩⟩
              intro hsame
              exact hne (by rw [hsame])
          | inr hbun' =>
              obtain ⟨n'', ms, rfl⟩ := hbun'
              cases heq
      | inr hbun =>
          obtain ⟨n', ms, rfl⟩ := hbun
          have hn' : n' = n := by
            rw [← hname, ← heq]
            rfl
          subst hn'
          have hms := h.bundleP.mpr hd'
          rw [hbundleP] at hms
          cases hms
    · obtain ⟨key, ms, hkey, hms⟩ := hbundle
      exact ⟨n, hpin, key, h.endpointP.mpr hkey, .inr ⟨ms, h.bundleI.mpr hms⟩⟩
    · obtain ⟨key, ms, -, hms⟩ := hbundle
      have hbun := h.bundleP.mpr hms
      rw [hbundleP] at hbun
      cases hbun

/-- Where adoption settles, it settles to the definitions it leaves and the incoming ones. -/
theorem settlesTo (hpins : ∀ n ∈ pinned, uP.bundles.get? n = none)
    (hfree : ¬ RedefinesPinned uP uI pinned)
    (hrounds : (adoptionDrops (definitions published) (definitions incoming)).length < 64) :
    SettlesTo (adoptCatalogSources published incoming pinned)
      (leftover (definitions published) (definitions incoming) ++ definitions incoming) := by
  have hspec := adopt_spec (fromSources_ok h.unionP).1 (fromSources_ok h.unionI).1 h.text pinned
  rwa [if_neg] at hspec
  rintro (hpin | hmany)
  · exact hfree ((h.redefines_iff hpins).mpr hpin)
  · omega

/-- A published bundle that the incoming union lacks, with every member, stays. -/
theorem bundle_kept {u : CatalogUnion}
    (hu : Represents u
      (leftover (definitions published) (definitions incoming) ++ definitions incoming))
    {n : String} {ms : List String} (hms : uP.bundles.get? n = some ms) (hlacks : uI.Lacks n)
    (hkeeps : ∀ m ∈ ms, KeepsMeaning uP uI m) (hfree : ∀ m ∈ ms, uI.endpointKey m = none) :
    u.bundles.get? n = some ms := by
  have hP := h.bundleP.mp hms
  refine (hu.bundle n ms).mp (List.mem_append_left _ (mem_leftover.mpr ⟨hP, ?_, ?_⟩))
  · refine Definition.avoids_iff.mpr ⟨fun hrep => ?_, fun m hm hrep => ?_⟩
    · obtain ⟨key', -, hI⟩ := mem_repeats.mp hrep
      exact h.not_named hlacks hI rfl
    · obtain ⟨key, -, hI⟩ := mem_repeats.mp hrep
      have hkey := h.endpointI.mpr hI
      rw [hfree m hm] at hkey
      cases hkey
  · refine Definition.avoids_iff.mpr ⟨h.not_dropped_of_lacks hlacks, fun m hm => ?_⟩
    obtain ⟨key, hkey⟩ := member_defined (fromSources_ok h.unionP).1.valid hP hm
    exact h.not_dropped (h.endpointP.mpr hkey) (hkeeps m hm)

/-- A published bundle with a member that the incoming union repeats is gone. -/
theorem bundle_shed {u : CatalogUnion}
    (hu : Represents u
      (leftover (definitions published) (definitions incoming) ++ definitions incoming))
    {n : String} {ms : List String} (hlacks : uI.Lacks n) {m : String} (hm : m ∈ ms)
    (hkeeps : KeepsMeaning uP uI m) {key : EndpointKey} (hkey : uI.endpointKey m = some key) :
    u.bundles.get? n ≠ some ms := by
  intro hget
  cases List.mem_append.mp ((hu.bundle n ms).mpr hget) with
  | inl hleft =>
      have havoids := Definition.avoids_iff.mp (mem_leftover.mp hleft).2.1
      have hrep : m ∈ repeats (definitions published) (definitions incoming) :=
        mem_repeats.mpr ⟨key, h.endpointP.mp (hkeeps.2 key hkey), h.endpointI.mp hkey⟩
      exact havoids.2 m hm hrep
  | inr hin => exact h.not_named hlacks hin rfl

/-- What adoption settles to is the intended union if it loses no bundle. -/
theorem intended (hkept : ¬ LosesBundle uP uI) {u : CatalogUnion}
    (hu : Represents u
      (leftover (definitions published) (definitions incoming) ++ definitions incoming)) :
    IntendedUnion uP uI u where
  endpoints := by
    intro n key hkey
    exact (hu.endpoint n key).mp (List.mem_append_right _ (h.endpointI.mp hkey))
  bundles := by
    intro n ms hms
    exact (hu.bundle n ms).mp (List.mem_append_right _ (h.bundleI.mp hms))
  keptEndpoints := by
    intro n key hkey hlacks
    refine (hu.endpoint n key).mp (List.mem_append_left _ (mem_leftover.mpr ?_))
    have hnot : n ∉ repeats (definitions published) (definitions incoming) := by
      intro hrep
      obtain ⟨key', -, hI⟩ := mem_repeats.mp hrep
      exact h.not_named hlacks hI rfl
    refine ⟨h.endpointP.mp hkey, ?_, ?_⟩
    · exact Definition.avoids_iff.mpr ⟨hnot, fun m hm => by cases hm⟩
    · exact Definition.avoids_iff.mpr ⟨h.not_dropped_of_lacks hlacks, fun m hm => by cases hm⟩
  keptBundles := by
    intro n ms hms hlacks hkeeps
    refine h.bundle_kept hu hms hlacks hkeeps fun m hm => ?_
    by_contra hsome
    obtain ⟨key, hkey⟩ := Option.ne_none_iff_exists'.mp hsome
    exact hkept ⟨n, ms, hms, hlacks, hkeeps, m, hm, key, hkey⟩

/-- A bundle that is lost is in no union adoption settles to. -/
theorem not_intended (hlost : LosesBundle uP uI) {u : CatalogUnion}
    (hu : Represents u
      (leftover (definitions published) (definitions incoming) ++ definitions incoming)) :
    ¬ IntendedUnion uP uI u := by
  intro hintended
  obtain ⟨n, ms, hms, hlacks, hkeeps, m, hm, key, hkey⟩ := hlost
  have hget := hintended.keptBundles n ms hms hlacks hkeeps
  exact h.bundle_shed hu hlacks hm (hkeeps m hm) hkey hget

/-- What an adoption left of a bundle is not named by the incoming sources. -/
theorem leftover_not_incoming {u : CatalogUnion}
    (hu : Represents u
      (leftover (definitions published) (definitions incoming) ++ definitions incoming))
    {n : String} {ms : List String}
    (hleft : (.bundle n, .inr ms) ∈ leftover (definitions published) (definitions incoming))
    {m : String} (hm : m ∈ ms) (key : EndpointKey) :
    (.endpoint m, .inl key) ∉ definitions incoming := by
  intro hI
  obtain ⟨hP, hrep, hdrop⟩ := mem_leftover.mp hleft
  obtain ⟨keyP, hkeyP⟩ := member_defined (fromSources_ok h.unionP).1.valid hP hm
  have hnotRep := (Definition.avoids_iff.mp hrep).2 m hm
  have hnotDrop := (Definition.avoids_iff.mp hdrop).2 m hm
  have hinLeft : (DefName.endpoint m, Sum.inl keyP) ∈
      leftover (definitions published) (definitions incoming) := by
    refine mem_leftover.mpr ⟨hkeyP, ?_, ?_⟩
    · exact Definition.avoids_iff.mpr ⟨hnotRep, fun m' hm' => by cases hm'⟩
    · exact Definition.avoids_iff.mpr ⟨hnotDrop, fun m' hm' => by cases hm'⟩
  have hsame := hu.agree _ (List.mem_append_left _ hinLeft) _ (List.mem_append_right _ hI) rfl
  have hkey : keyP = key := by simpa using hsame
  exact hnotRep (mem_repeats.mpr ⟨keyP, hkeyP, hkey ▸ hI⟩)

/-- Adopting the incoming sources into what they settled to changes no definition. -/
theorem again {out : List Catalog} {u : CatalogUnion} (hout : CatalogUnion.fromSources out = .ok u)
    (htext : ∀ c ∈ out, c.textNames = true)
    (hu : Represents u
      (leftover (definitions published) (definitions incoming) ++ definitions incoming)) :
    ∃ out' u', adoptCatalogSources out incoming pinned = .ok out' ∧
      CatalogUnion.fromSources out' = .ok u' ∧ (∀ n, u'.endpointKey n = u.endpointKey n) ∧
      ∀ n, u'.bundles.get? n = u.bundles.get? n := by
  obtain ⟨hconsistent, hrep⟩ := fromSources_ok hout
  have hsame : ∀ d, d ∈ definitions out ↔
      d ∈ leftover (definitions published) (definitions incoming) ++ definitions incoming := by
    intro d
    constructor
    · intro hd
      cases hrep.shape d hd with
      | inl hend =>
          obtain ⟨n, key, rfl⟩ := hend
          exact (hu.endpoint n key).mpr ((hrep.endpoint n key).mp hd)
      | inr hbun =>
          obtain ⟨n, ms, rfl⟩ := hbun
          exact (hu.bundle n ms).mpr ((hrep.bundle n ms).mp hd)
    · intro hd
      cases hu.shape d hd with
      | inl hend =>
          obtain ⟨n, key, rfl⟩ := hend
          exact (hrep.endpoint n key).mpr ((hu.endpoint n key).mp hd)
      | inr hbun =>
          obtain ⟨n, ms, rfl⟩ := hbun
          exact (hrep.bundle n ms).mpr ((hu.bundle n ms).mp hd)
  have hsub : ∀ d ∈ definitions incoming, d ∈ definitions out := fun d hd =>
    (hsame d).mpr (List.mem_append_right _ hd)
  have hshed : ∀ d ∈ shed (definitions out) (definitions incoming) ++ definitions incoming,
      d ∈ definitions out := by
    intro d hd
    cases List.mem_append.mp hd with
    | inl hbase => exact List.mem_of_mem_filter hbase
    | inr hin => exact hsub d hin
  have hdrops : adoptionDrops (definitions out) (definitions incoming) = [] := by
    refine drops_eq_nil (fun d hd hc => ?_) fun n hn => hconsistent.apart n (hn.mono hshed)
    exact hconsistent.agree.not_conflicts (hsub d hd)
      (hc.mono fun d' hd' => List.mem_of_mem_filter hd')
  have hspec := adopt_spec hconsistent (fromSources_ok h.unionI).1
    (fun c hc => (List.mem_append.mp hc).elim (htext c)
      fun hin => h.text c (List.mem_append_right _ hin)) pinned
  rw [hdrops, if_neg (by simp)] at hspec
  obtain ⟨out', u', hadopt, hunion, hrep', -⟩ := hspec.settles
  refine ⟨out', u', hadopt, hunion, ?_⟩
  have hleft : ∀ d, d ∈ leftover (definitions out) (definitions incoming) ↔
      d ∈ definitions out ∧
        d.avoids (repeats (definitions out) (definitions incoming)) = true := by
    intro d
    unfold leftover shed
    rw [hdrops, List.flatten_nil, List.mem_filter, List.mem_filter]
    simp [avoids_nil]
  have hboth : ∀ d, d ∈ leftover (definitions out) (definitions incoming) ++ definitions incoming ↔
      d ∈ definitions out := by
    intro d
    constructor
    · intro hd
      cases List.mem_append.mp hd with
      | inl hbase => exact ((hleft d).mp hbase).1
      | inr hin => exact hsub d hin
    · intro hd
      rw [List.mem_append]
      by_cases hin : d ∈ definitions incoming
      · exact .inr hin
      · refine .inl ((hleft d).mpr ⟨hd, ?_⟩)
        have hold : d ∈ leftover (definitions published) (definitions incoming) :=
          (List.mem_append.mp ((hsame d).mp hd)).resolve_right hin
        cases hrep.shape d hd with
        | inl hend =>
            obtain ⟨n, key, rfl⟩ := hend
            refine Definition.avoids_iff.mpr ⟨fun hmem => hin ?_, fun m hm => by cases hm⟩
            obtain ⟨key', hO, hI⟩ := mem_repeats.mp hmem
            have hkey : key = key' := by simpa using hconsistent.agree _ hd _ hO rfl
            rw [hkey]
            exact hI
        | inr hbun =>
            obtain ⟨n, ms, rfl⟩ := hbun
            refine Definition.avoids_iff.mpr ⟨fun hmem => ?_, fun m hm hmem => ?_⟩
            · obtain ⟨key', hO, -⟩ := mem_repeats.mp hmem
              exact hconsistent.apart n ⟨⟨key', hO⟩, ms, hd⟩
            · obtain ⟨key', -, hI⟩ := mem_repeats.mp hmem
              exact h.leftover_not_incoming hu hold hm key' hI
  have hrep'' := hrep'.congr hboth
  constructor
  · intro n
    refine Option.ext fun key => ?_
    rw [← hrep''.endpoint n key, ← hrep.endpoint n key]
  · intro n
    refine Option.ext fun ms => ?_
    rw [← hrep''.bundle n ms, ← hrep.bundle n ms]

end Adoption

/-- Adoption settles to the intended union exactly if a pinned endpoint is redefined, which it
refuses, or the names to drop do not outnumber the rounds and no bundle is lost. -/
theorem adoption_iff (hP : CatalogUnion.fromSources published = .ok uP)
    (hI : CatalogUnion.fromSources incoming = .ok uI)
    (htext : ∀ c ∈ published ++ incoming, c.textNames = true)
    (hpins : ∀ n ∈ pinned, uP.bundles.get? n = none) :
    AdoptionSettles published incoming pinned uP uI ↔
      RedefinesPinned uP uI pinned ∨
        ((adoptionDrops (definitions published) (definitions incoming)).length < 64 ∧
          ¬ LosesBundle uP uI) := by
  have h : Adoption published incoming uP uI := ⟨hP, hI, htext⟩
  have hspec := adopt_spec (fromSources_ok hP).1 (fromSources_ok hI).1 htext pinned
  constructor
  · intro hsettles
    by_cases hredef : RedefinesPinned uP uI pinned
    · exact .inl hredef
    · right
      obtain ⟨out, u, hadopt, hunion, hintended, -⟩ := hsettles.settles hredef
      split_ifs at hspec with hcond
      · obtain ⟨ns, herr⟩ := hspec
        rw [hadopt] at herr
        cases herr
      · rw [not_or, not_le] at hcond
        refine ⟨hcond.2, fun hlost => ?_⟩
        obtain ⟨out', u', hadopt', hunion', hrep, -⟩ := hspec.settles
        rw [hadopt] at hadopt'
        obtain rfl := Except.ok.inj hadopt'
        rw [hunion] at hunion'
        obtain rfl := Except.ok.inj hunion'
        exact h.not_intended hlost hrep hintended
  · intro hcond
    constructor
    · constructor
      · intro herr
        obtain ⟨ns, herr⟩ := herr
        by_contra hredef
        have hgood := hcond.resolve_left hredef
        obtain ⟨out, u, hadopt, -⟩ := (h.settlesTo hpins hredef hgood.1).settles
        rw [hadopt] at herr
        cases herr
      · intro hredef
        rw [if_pos (.inl ((h.redefines_iff hpins).mp hredef))] at hspec
        exact hspec
    · intro hredef
      obtain ⟨hrounds, hkept⟩ := hcond.resolve_left hredef
      obtain ⟨out, u, hadopt, hunion, hrep, hout⟩ := (h.settlesTo hpins hredef hrounds).settles
      exact ⟨out, u, hadopt, hunion, h.intended hkept hrep, h.again hunion hout hrep⟩

end

/-! ## a bundle that is lost -/

/-- An external endpoint. -/
def remote (name : String) : EndpointSpec where
  name := name
  model := ""
  external := some ⟨"http://gpu-box:8000/v1", "Qwen/Qwen3-32B", none⟩

/-- Two endpoints and their bundle. -/
def pairSource : Catalog where
  endpoints := Table.ofList [remote "draft", remote "verify"]
  bundles := Table.ofList [("draft-and-verify", ["draft", "verify"])]

/-- One of the endpoints, as it is. -/
def draftSource : Catalog where
  endpoints := Table.ofList [remote "draft"]

/-- The unions of the two. -/
def pairUnion : CatalogUnion where
  owner := Table.ofList [("draft", pairSource), ("verify", pairSource)]
  bundles := pairSource.bundles

def draftUnion : CatalogUnion where
  owner := Table.ofList [("draft", draftSource)]

/-- The exact condition, for these sources. -/
theorem adoption_iff_pair :
    AdoptionSettles [pairSource] [draftSource] ["verify"] pairUnion draftUnion ↔
      RedefinesPinned pairUnion draftUnion ["verify"] ∨
        ((adoptionDrops (definitions [pairSource]) (definitions [draftSource])).length < 64 ∧
          ¬ LosesBundle pairUnion draftUnion) :=
  adoption_iff (by decide +kernel) (by decide +kernel) (by decide +kernel) (by decide +kernel)

/-- An acquire whose catalog repeats an endpoint takes the bundle with it. -/
theorem adoption_loses_bundle :
    CatalogUnion.fromSources [pairSource] = .ok pairUnion ∧
      CatalogUnion.fromSources [draftSource] = .ok draftUnion ∧
      ¬ AdoptionSettles [pairSource] [draftSource] [] pairUnion draftUnion := by
  refine ⟨by decide +kernel, by decide +kernel, fun h => ?_⟩
  have hfree : ¬ RedefinesPinned pairUnion draftUnion [] := by
    intro hredef
    obtain ⟨n, hn, -⟩ := hredef
    cases hn
  obtain ⟨out, u, hadopt, hunion, hintended, -⟩ := h.settles hfree
  have hresult : (adoptCatalogSources [pairSource] [draftSource] []).toOption.bind
      (fun out => (CatalogUnion.fromSources out).toOption.map
        (·.bundles.get? "draft-and-verify")) = some none := by
    decide +kernel
  have hlost : u.bundles.get? "draft-and-verify" = none := by
    rw [hadopt] at hresult
    simpa [Except.toOption, hunion] using hresult
  have hkept := hintended.keptBundles "draft-and-verify" ["draft", "verify"] (by decide +kernel)
    ⟨by decide +kernel, by decide +kernel⟩ fun m hm => ?_
  · rw [hlost] at hkept
    cases hkept
  · have hdraft : draftUnion.endpointKey "draft" = pairUnion.endpointKey "draft" := by decide +kernel
    have hverify : draftUnion.endpointKey "verify" = none := by decide +kernel
    have hnobundle : ∀ m, draftUnion.bundles.get? m = none := fun _ => rfl
    refine ⟨hnobundle m, fun key hkey => ?_⟩
    have hcases : m = "draft" ∨ m = "verify" := by simpa using hm
    cases hcases with
    | inl hm =>
        rw [hm, ← hdraft, ← hm]
        exact hkey
    | inr hm =>
        rw [hm, hverify] at hkey
        cases hkey

end InferStack
