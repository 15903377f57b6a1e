import InferStack.Catalog.Union
import InferStack.Kit.Definitions

/-!
# InferStack.Catalog.Definitions

A list of catalogs as the list of their definitions.

A union is built from its definitions alone: it means what they say
(`Represents`), and the conflict it reports is the first one
(`fromSources_spec`); it exists when they agree and no name is an endpoint here
and a bundle there (`Consistent.union`).  Dropping names filters the definitions
(`definitions_drop`).
-/

namespace InferStack

open Kit

/-! ## definitions -/

/-- What is defined: an endpoint or a bundle. -/
inductive DefName where
  | endpoint (name : String)
  | bundle (name : String)
  deriving DecidableEq

def DefName.name : DefName → String
  | .endpoint name => name
  | .bundle name => name

/-- A definition: an endpoint's meaning, or a bundle's members. -/
abbrev Definition := DefName × (EndpointKey ⊕ List String)

/-- The endpoints a definition mentions. -/
def Definition.members : Definition → List String
  | (_, .inl _) => []
  | (_, .inr members) => members

/-- The definition and what it mentions are none of the names. -/
def Definition.avoids (names : List String) (d : Definition) : Bool :=
  d.1.name ∉ names && d.members.all (· ∉ names)

def endpointDef (c : Catalog) (ep : EndpointSpec) : Definition :=
  (.endpoint ep.name, .inl (c.endpointKey ep.name))

def bundleDef (b : String × List String) : Definition := (.bundle b.1, .inr b.2)

theorem Definition.avoids_iff {names : List String} {d : Definition} :
    d.avoids names = true ↔ d.1.name ∉ names ∧ ∀ m ∈ d.members, m ∉ names := by
  unfold Definition.avoids
  rw [Bool.and_eq_true, List.all_eq_true, decide_eq_true_eq]
  simp only [decide_eq_true_eq]

theorem avoids_endpointDef {names : List String} {c : Catalog} {ep : EndpointSpec} :
    (endpointDef c ep).avoids names = true ↔ ep.name ∉ names := by
  rw [Definition.avoids_iff]
  exact ⟨fun h => h.1, fun h => ⟨h, fun m hm => absurd hm List.not_mem_nil⟩⟩

theorem avoids_bundleDef {names : List String} {b : String × List String} :
    (bundleDef b).avoids names = true ↔ b.1 ∉ names ∧ ∀ m ∈ b.2, m ∉ names :=
  Definition.avoids_iff

/-- What a catalog defines. -/
def Catalog.definitions (c : Catalog) : List Definition :=
  c.endpoints.rows.map (endpointDef c) ++ c.bundles.rows.map bundleDef

/-- What the catalogs define, in order. -/
def definitions (cs : List Catalog) : List Definition := cs.flatMap Catalog.definitions

@[simp] theorem definitions_nil : definitions [] = [] := rfl

@[simp] theorem definitions_cons (c : Catalog) (cs : List Catalog) :
    definitions (c :: cs) = c.definitions ++ definitions cs := rfl

@[simp] theorem definitions_append (cs cs' : List Catalog) :
    definitions (cs ++ cs') = definitions cs ++ definitions cs' := by
  simp [definitions]

/-! ## the union of definitions -/

/-- A union means what the definitions say. -/
structure Represents (u : CatalogUnion) (seen : List Definition) : Prop where
  endpoint : ∀ n key, (DefName.endpoint n, Sum.inl key) ∈ seen ↔ u.endpointKey n = some key
  bundle : ∀ n members, (DefName.bundle n, Sum.inr members) ∈ seen ↔
    u.bundles.get? n = some members
  shape : ∀ d ∈ seen, (∃ n key, d = (.endpoint n, .inl key)) ∨ ∃ n ms, d = (.bundle n, .inr ms)

namespace Represents

variable {u : CatalogUnion} {seen : List Definition}

theorem empty : Represents {} [] where
  endpoint := by
    intro n key
    simp [CatalogUnion.endpointKey]
  bundle := by
    intro n members
    simp
  shape := by simp

theorem congr (h : Represents u seen) {seen' : List Definition} (hseen : ∀ d, d ∈ seen ↔ d ∈ seen') :
    Represents u seen' where
  endpoint := fun n key => (hseen _).symm.trans (h.endpoint n key)
  bundle := fun n members => (hseen _).symm.trans (h.bundle n members)
  shape := fun d hd => h.shape d ((hseen d).mpr hd)

/-- The definitions agree. -/
theorem agree (h : Represents u seen) : Agree seen := by
  intro d hd d' hd' heq
  cases h.shape d hd with
  | inl hend =>
      obtain ⟨n, key, rfl⟩ := hend
      cases h.shape d' hd' with
      | inl hend' =>
          obtain ⟨n', key', rfl⟩ := hend'
          simp only [DefName.endpoint.injEq] at heq
          subst heq
          have hkey := ((h.endpoint n key).mp hd).symm.trans ((h.endpoint n key').mp hd')
          simpa using hkey
      | inr hbun =>
          obtain ⟨n', ms, rfl⟩ := hbun
          simp at heq
  | inr hbun =>
      obtain ⟨n, ms, rfl⟩ := hbun
      cases h.shape d' hd' with
      | inl hend' =>
          obtain ⟨n', key', rfl⟩ := hend'
          simp at heq
      | inr hbun' =>
          obtain ⟨n', ms', rfl⟩ := hbun'
          simp only [DefName.bundle.injEq] at heq
          subst heq
          have hms := ((h.bundle n ms).mp hd).symm.trans ((h.bundle n ms').mp hd')
          simpa using hms

theorem conflicts_endpoint (h : Represents u seen) (n : String) (key : EndpointKey) :
    Conflicts seen (.endpoint n, .inl key) ↔ ∃ key', u.endpointKey n = some key' ∧ key' ≠ key := by
  constructor
  · intro hc
    obtain ⟨d, hd, heq, hne⟩ := hc
    cases h.shape d hd with
    | inl hend =>
        obtain ⟨n', key', rfl⟩ := hend
        simp only [DefName.endpoint.injEq] at heq
        subst heq
        exact ⟨key', (h.endpoint n' key').mp hd, fun hkey => hne (by rw [hkey])⟩
    | inr hbun =>
        obtain ⟨n', ms, rfl⟩ := hbun
        simp at heq
  · intro hkey
    obtain ⟨key', hget, hne⟩ := hkey
    exact ⟨(.endpoint n, .inl key'), (h.endpoint n key').mpr hget, rfl, by simpa using hne⟩

theorem conflicts_bundle (h : Represents u seen) (n : String) (ms : List String) :
    Conflicts seen (.bundle n, .inr ms) ↔ ∃ ms', u.bundles.get? n = some ms' ∧ ms' ≠ ms := by
  constructor
  · intro hc
    obtain ⟨d, hd, heq, hne⟩ := hc
    cases h.shape d hd with
    | inl hend =>
        obtain ⟨n', key', rfl⟩ := hend
        simp at heq
    | inr hbun =>
        obtain ⟨n', ms', rfl⟩ := hbun
        simp only [DefName.bundle.injEq] at heq
        subst heq
        exact ⟨ms', (h.bundle n' ms').mp hd, fun hms => hne (by rw [hms])⟩
  · intro hms
    obtain ⟨ms', hget, hne⟩ := hms
    exact ⟨(.bundle n, .inr ms'), (h.bundle n ms').mpr hget, rfl, by simpa using hne⟩

/-- An endpoint is added unless it differs. -/
theorem addEndpoint (h : Represents u seen) (c : Catalog) (ep : EndpointSpec) :
    (Conflicts seen (endpointDef c ep) →
      u.addEndpoint c ep = .error (.conflict [ep.name])) ∧
    (¬ Conflicts seen (endpointDef c ep) →
      ∃ u', u.addEndpoint c ep = .ok u' ∧ Represents u' (seen ++ [endpointDef c ep])) := by
  rw [endpointDef, h.conflicts_endpoint]
  unfold CatalogUnion.addEndpoint CatalogUnion.endpointKey
  cases howner : u.owner.get? ep.name with
  | some owner =>
      simp only [Option.map_some, Option.some.injEq, exists_eq_left']
      by_cases hkey : owner.endpointKey ep.name = c.endpointKey ep.name
      · have hin : (DefName.endpoint ep.name, Sum.inl (c.endpointKey ep.name)) ∈ seen := by
          rw [h.endpoint, CatalogUnion.endpointKey, howner, ← hkey]
          rfl
        refine ⟨fun hne => absurd hkey hne, fun _ => ⟨u, by simp [hkey], h.congr fun d => ?_⟩⟩
        simp only [List.mem_append, List.mem_singleton]
        constructor
        · exact .inl
        · rintro (hd | rfl)
          · exact hd
          · exact hin
      · refine ⟨fun _ => by simp [hkey], fun hnot => absurd hkey (by simpa using hnot)⟩
  | none =>
      refine ⟨fun hc => by simp at hc, fun _ => ⟨_, rfl, ?_⟩⟩
      constructor
      · intro n key
        simp only [List.mem_append, List.mem_singleton, Prod.mk.injEq, DefName.endpoint.injEq,
          Sum.inl.injEq, CatalogUnion.endpointKey, Dict.get?_set]
        by_cases hn : ep.name = n
        · subst hn
          rw [h.endpoint, CatalogUnion.endpointKey, howner]
          simp [eq_comm]
        · rw [h.endpoint, CatalogUnion.endpointKey]
          simp [hn, Ne.symm hn]
      · intro n ms
        simp [h.bundle]
      · intro d hd
        simp only [List.mem_append, List.mem_singleton] at hd
        cases hd with
        | inl hd => exact h.shape d hd
        | inr hd => exact .inl ⟨_, _, hd⟩

/-- A bundle is added unless it differs. -/
theorem addBundle (h : Represents u seen) (b : String × List String) :
    (Conflicts seen (bundleDef b) → u.addBundle b = .error (.conflict [b.1])) ∧
    (¬ Conflicts seen (bundleDef b) →
      ∃ u', u.addBundle b = .ok u' ∧ Represents u' (seen ++ [bundleDef b])) := by
  rw [bundleDef, h.conflicts_bundle]
  have hany : (u.bundles.get? b.1).any (· ≠ b.2) = true ↔
      ∃ ms', u.bundles.get? b.1 = some ms' ∧ ms' ≠ b.2 := by
    simp [Option.any_eq_true]
  unfold CatalogUnion.addBundle
  refine ⟨fun hc => if_pos (hany.mpr hc), fun hc => ?_⟩
  rw [if_neg fun hpos => hc (hany.mp hpos)]
  refine ⟨_, rfl, ?_⟩
  constructor
  · intro n key
    simp [h.endpoint, CatalogUnion.endpointKey]
  · intro n ms
    simp only [List.mem_append, List.mem_singleton, Prod.mk.injEq, DefName.bundle.injEq,
      Sum.inr.injEq, Dict.get?_set]
    by_cases hn : b.1 = n
    · subst hn
      rw [h.bundle]
      constructor
      · rintro (hold | hnew)
        · by_contra hne
          exact hc ⟨ms, hold, fun heq => hne (by simp [heq])⟩
        · simp [hnew.2]
      · intro heq
        simp only [if_true, Option.some.injEq] at heq
        exact .inr ⟨rfl, heq.symm⟩
    · rw [h.bundle]
      simp [hn, Ne.symm hn]
  · intro d hd
    simp only [List.mem_append, List.mem_singleton] at hd
    cases hd with
    | inl hd => exact h.shape d hd
    | inr hd => exact .inr ⟨_, _, hd⟩

end Represents

/-- Building on `seen` adds the definitions `ds`, or stops at the first that differs. -/
def Adds (r : Except UnionError CatalogUnion) (seen ds : List Definition) : Prop :=
  match firstConflict seen ds with
  | some d => r = .error (.conflict [d.1.name])
  | none => ∃ u, r = .ok u ∧ Represents u (seen ++ ds)

namespace Adds

variable {seen as bs : List Definition} {r : Except UnionError CatalogUnion}

theorem pure {u : CatalogUnion} (h : Represents u seen) : Adds (.ok u) seen [] := by
  have happ : Represents u (seen ++ []) := by simpa using h
  exact ⟨u, rfl, happ⟩

theorem one {d : Definition} (herr : Conflicts seen d → r = .error (.conflict [d.1.name]))
    (hok : ¬ Conflicts seen d → ∃ u, r = .ok u ∧ Represents u (seen ++ [d])) : Adds r seen [d] := by
  unfold Adds
  by_cases hc : Conflicts seen d
  · simpa [firstConflict, hc] using herr hc
  · simpa [firstConflict, hc] using hok hc

theorem bind {k : CatalogUnion → Except UnionError CatalogUnion} (h : Adds r seen as)
    (hk : ∀ u, Represents u (seen ++ as) → Adds (k u) (seen ++ as) bs) :
    Adds (r >>= k) seen (as ++ bs) := by
  unfold Adds at h ⊢
  rw [firstConflict_append]
  cases hfirst : firstConflict seen as with
  | some d =>
      rw [hfirst] at h
      have hr : r = .error (.conflict [d.1.name]) := h
      rw [hr]
      rfl
  | none =>
      rw [hfirst] at h
      obtain ⟨u, rfl, hu⟩ := h
      have hrest := hk u hu
      unfold Adds at hrest
      rw [Option.none_or, ← List.append_assoc]
      exact hrest

/-- Definitions added one after another. -/
theorem fold {α : Type} {f : CatalogUnion → α → Except UnionError CatalogUnion} {g : α → Definition}
    (hstep : ∀ u seen x, Represents u seen → Adds (f u x) seen [g x]) (xs : List α)
    {u : CatalogUnion} (hu : Represents u seen) : Adds (xs.foldlM f u) seen (xs.map g) := by
  induction xs generalizing u seen with
  | nil => exact pure hu
  | cons x xs ih => exact (hstep u seen x hu).bind fun u' hu' => ih hu'

end Adds

theorem addCatalog_adds (c : Catalog) {u : CatalogUnion} {seen : List Definition}
    (h : Represents u seen) : Adds (u.addCatalog c) seen c.definitions := by
  have hendpoints : Adds (c.endpoints.rows.foldlM (CatalogUnion.addEndpoint c) u) seen
      (c.endpoints.rows.map (endpointDef c)) :=
    Adds.fold (fun _ _ ep hu => .one (hu.addEndpoint c ep).1 (hu.addEndpoint c ep).2) _ h
  exact hendpoints.bind fun u' hu' =>
    Adds.fold (fun _ _ b hb => .one (hb.addBundle b).1 (hb.addBundle b).2) _ hu'

theorem addCatalogs_adds (cs : List Catalog) {u : CatalogUnion} {seen : List Definition}
    (h : Represents u seen) : Adds (cs.foldlM CatalogUnion.addCatalog u) seen (definitions cs) := by
  induction cs generalizing u seen with
  | nil => exact .pure h
  | cons c cs ih => exact (addCatalog_adds c h).bind fun u' hu' => ih hu'

/-! ## when there is a union -/

/-- Names that are an endpoint here and a bundle there. -/
def Clashes (seen : List Definition) (n : String) : Prop :=
  (∃ key, (DefName.endpoint n, Sum.inl key) ∈ seen) ∧ ∃ ms, (DefName.bundle n, Sum.inr ms) ∈ seen

theorem Represents.mem_clash {u : CatalogUnion} {seen : List Definition} (h : Represents u seen)
    (n : String) : n ∈ u.clash ↔ Clashes seen n := by
  unfold CatalogUnion.clash Clashes
  rw [List.mem_insertionSort, List.mem_filter, decide_eq_true_eq, Dict.mem_keys, Dict.mem_keys]
  simp only [h.endpoint, h.bundle, CatalogUnion.endpointKey, Option.map_eq_some_iff]
  constructor
  · rintro ⟨⟨ms, hms⟩, c, hc⟩
    exact ⟨⟨_, c, hc, rfl⟩, ms, hms⟩
  · rintro ⟨⟨key, c, hc, -⟩, ms, hms⟩
    exact ⟨⟨ms, hms⟩, c, hc⟩

/-- Sources that make a union. -/
structure Consistent (cs : List Catalog) : Prop where
  valid : ∀ c ∈ cs, c.valid
  agree : Agree (definitions cs)
  apart : ∀ n, ¬ Clashes (definitions cs) n

/-- The union of sources, or why there is none. -/
theorem fromSources_spec {cs : List Catalog} (hvalid : ∀ c ∈ cs, c.valid) :
    match firstConflict [] (definitions cs) with
    | some d => CatalogUnion.fromSources cs = .error (.conflict [d.1.name])
    | none => ∃ u, Represents u (definitions cs) ∧
        CatalogUnion.fromSources cs = if u.clash = [] then .ok u else .error (.conflict u.clash) := by
  have hadds := addCatalogs_adds cs Represents.empty
  have hall : cs.all Catalog.valid = true := List.all_eq_true.mpr hvalid
  unfold CatalogUnion.fromSources CatalogUnion.ofCatalogs
  unfold Adds at hadds
  rw [if_pos hall]
  cases hfirst : firstConflict [] (definitions cs) with
  | some d =>
      rw [hfirst] at hadds
      have hr : cs.foldlM CatalogUnion.addCatalog {} = .error (.conflict [d.1.name]) := hadds
      rw [hr]
      rfl
  | none =>
      rw [hfirst] at hadds
      obtain ⟨u, hu, hrep⟩ := hadds
      refine ⟨u, by simpa using hrep, ?_⟩
      rw [hu]
      rfl

/-- What a union of sources says about them. -/
theorem fromSources_ok {cs : List Catalog} {u : CatalogUnion}
    (h : CatalogUnion.fromSources cs = .ok u) : Consistent cs ∧ Represents u (definitions cs) := by
  have hvalid : ∀ c ∈ cs, c.valid := by
    by_contra hnot
    have hall : ¬ cs.all Catalog.valid = true := fun hall => hnot (List.all_eq_true.mp hall)
    rw [CatalogUnion.fromSources, if_neg hall] at h
    contradiction
  have hspec := fromSources_spec hvalid
  cases hfirst : firstConflict [] (definitions cs) with
  | some d =>
      rw [hfirst] at hspec
      simp [hspec] at h
  | none =>
      rw [hfirst] at hspec
      obtain ⟨u', hrep, heq⟩ := hspec
      rw [h] at heq
      split at heq
      · rename_i hclash
        obtain rfl := Except.ok.inj heq
        refine ⟨⟨hvalid, hrep.agree, fun n hn => ?_⟩, hrep⟩
        have hmem := (hrep.mem_clash n).mpr hn
        rw [hclash] at hmem
        contradiction
      · contradiction

/-- Consistent sources make a union. -/
theorem Consistent.union {cs : List Catalog} (h : Consistent cs) :
    ∃ u, CatalogUnion.fromSources cs = .ok u ∧ Represents u (definitions cs) := by
  have hspec := fromSources_spec h.valid
  rw [h.agree.firstConflict_eq_none] at hspec
  obtain ⟨u, hrep, heq⟩ := hspec
  have hclash : u.clash = [] := by
    rw [List.eq_nil_iff_forall_not_mem]
    exact fun n hn => h.apart n ((hrep.mem_clash n).mp hn)
  rw [if_pos hclash] at heq
  exact ⟨u, heq, hrep⟩

/-! ## dropping names -/

section Drop

variable {c : Catalog} {names : List String}

theorem valid_refers (h : c.valid) {ep : EndpointSpec} (hep : ep ∈ c.endpoints) : c.refers ep :=
  List.all_eq_true.mp (Bool.and_eq_true_iff.mp h).1 ep hep

theorem valid_members (h : c.valid) {b : String × List String} (hb : b ∈ c.bundles) {m : String}
    (hm : m ∈ b.2) : m ∈ c.endpoints.keys := by
  have hmembers := List.all_eq_true.mp (Bool.and_eq_true_iff.mp h).2 b hb
  exact of_decide_eq_true (List.all_eq_true.mp hmembers m hm)

/-- What is not dropped means what it did. -/
theorem endpointKey_drop {n : String} (hn : n ∉ names) :
    (c.drop names).endpointKey n = c.endpointKey n := by
  have hfind : (c.drop names).endpoints.find? n = c.endpoints.find? n := by
    unfold Catalog.drop
    rw [Table.find?_filter]
    cases hget : c.endpoints.find? n with
    | none => rfl
    | some ep =>
        have hname : ep.name = n := (Table.find?_eq_some.mp hget).2
        simp [Option.filter, hname, hn]
  have hresolve : (c.drop names).resolveEndpoint n none = c.resolveEndpoint n none := by
    unfold Catalog.resolveEndpoint
    rw [hfind]
    rfl
  unfold Catalog.endpointKey
  rw [hresolve]

theorem mem_dropped (h : c.valid) {b : String × List String} (hb : b ∈ c.bundles) :
    (∀ m ∈ b.2, m ∉ c.endpoints.keys.filter (· ∈ names)) ↔ ∀ m ∈ b.2, m ∉ names := by
  constructor
  · intro hall m hm hin
    exact hall m hm (List.mem_filter.mpr ⟨valid_members h hb hm, by simpa using hin⟩)
  · intro hall m hm hin
    exact hall m hm (by simpa using (List.mem_filter.mp hin).2)

theorem mem_endpoints_drop {ep : EndpointSpec} :
    ep ∈ (c.drop names).endpoints ↔ ep ∈ c.endpoints ∧ ep.name ∉ names := by
  unfold Catalog.drop
  rw [Table.mem_filter, decide_eq_true_eq]

theorem keeps_bundle_iff (h : c.valid) {b : String × List String} (hb : b ∈ c.bundles) :
    (b.1 ∉ names && b.2.all (· ∉ c.endpoints.keys.filter (· ∈ names))) =
      (bundleDef b).avoids names := by
  rw [Bool.eq_iff_iff, avoids_bundleDef, Bool.and_eq_true, List.all_eq_true, decide_eq_true_eq,
    ← mem_dropped h hb]
  simp only [decide_eq_true_eq]

/-- Dropping names filters the definitions. -/
theorem definitions_drop (h : c.valid) :
    (c.drop names).definitions = c.definitions.filter (Definition.avoids names) := by
  have hendpoints : (c.drop names).endpoints.rows.map (endpointDef (c.drop names)) =
      (c.endpoints.rows.map (endpointDef c)).filter (Definition.avoids names) := by
    rw [List.filter_map]
    have hrows : (c.drop names).endpoints.rows =
        c.endpoints.rows.filter (Definition.avoids names ∘ endpointDef c) := by
      refine List.filter_congr fun ep _ => ?_
      rw [Bool.eq_iff_iff, Function.comp_apply, avoids_endpointDef, decide_eq_true_eq]
    rw [hrows]
    refine List.map_congr_left fun ep hep => ?_
    have hname : ep.name ∉ names := avoids_endpointDef.mp (List.mem_filter.mp hep).2
    rw [endpointDef, endpointDef, endpointKey_drop hname]
  have hbundles : (c.drop names).bundles.rows.map bundleDef =
      (c.bundles.rows.map bundleDef).filter (Definition.avoids names) := by
    rw [List.filter_map]
    congr 1
    exact List.filter_congr fun b hb => keeps_bundle_iff h hb
  unfold Catalog.definitions
  rw [List.filter_append, hendpoints, hbundles]

theorem valid_drop (h : c.valid) : (c.drop names).valid := by
  refine Bool.and_eq_true_iff.mpr ⟨List.all_eq_true.mpr fun ep hep => ?_,
    List.all_eq_true.mpr fun b hb => List.all_eq_true.mpr fun m hm => ?_⟩
  · exact valid_refers h (mem_endpoints_drop.mp hep).1
  · obtain ⟨hrow, hkeep⟩ := List.mem_filter.mp hb
    rw [keeps_bundle_iff h hrow, avoids_bundleDef] at hkeep
    obtain ⟨ep, hep, rfl⟩ := Table.mem_keys.mp (valid_members h hrow hm)
    rw [decide_eq_true_eq]
    exact Table.mem_keys.mpr ⟨ep, mem_endpoints_drop.mpr ⟨hep, hkeep.2 _ hm⟩, rfl⟩

end Drop

theorem mem_dropCatalogNames {cs : List Catalog} {names : List String} {c' : Catalog}
    (h : c' ∈ dropCatalogNames cs names) : ∃ c ∈ cs, c' = c.drop names := by
  obtain ⟨c, hc, rfl⟩ := List.mem_map.mp (List.mem_of_mem_filter h)
  exact ⟨c, hc, rfl⟩

/-- A source left with nothing had no definition left. -/
theorem definitions_dropCatalogNames {cs : List Catalog} (names : List String)
    (h : ∀ c ∈ cs, c.valid) :
    definitions (dropCatalogNames cs names) = (definitions cs).filter (Definition.avoids names) := by
  induction cs with
  | nil => rfl
  | cons c cs ih =>
      have hc := @definitions_drop c names (h c List.mem_cons_self)
      have hrest := ih fun c' hc' => h c' (List.mem_cons_of_mem _ hc')
      rw [definitions_cons, List.filter_append, ← hc, ← hrest]
      unfold dropCatalogNames
      rw [List.map_cons, List.filter_cons]
      split
      · rfl
      · rename_i hempty
        have hnil : (c.drop names).definitions = [] := by
          simp only [Bool.or_eq_true, decide_eq_true_eq, not_or, not_not] at hempty
          simp [Catalog.definitions, hempty.1, hempty.2]
        rw [hnil]
        rfl

theorem valid_dropCatalogNames {cs : List Catalog} {names : List String} (h : ∀ c ∈ cs, c.valid) :
    ∀ c ∈ dropCatalogNames cs names, c.valid := by
  intro c' hc'
  obtain ⟨c, hc, rfl⟩ := mem_dropCatalogNames hc'
  exact valid_drop (h c hc)

end InferStack
