import InferStack.Catalog.Definitions
import InferStack.Kit.Ordered

/-!
# InferStack.Catalog.Digest

What two sources with one digest have in common.

A digest is a source as canonical JSON.  Where every environment name is a text,
so that JSON spells it as the launch does, sources with one digest define the
same (`definitions_of_digest`), and dropping repeated sources changes nothing
(`Deduped`).
-/

namespace InferStack

open Kit

/-! ## text names -/

/-- Every environment name of a runtime is a text. -/
def Runtime.textNames (rt : Runtime) : Bool :=
  rt.env.keys.all fun k => k = .text k.str

/-- Every environment name of a source is a text. -/
def Catalog.textNames (c : Catalog) : Bool := c.endpoints.rows.all (·.runtime.textNames)

namespace Runtime

variable {rt rt' : Runtime}

theorem textNames_iff : rt.textNames = true ↔ ∀ kv ∈ rt.env.rows, kv.1 = .text kv.1.str := by
  simp [textNames, Table.keys, List.all_eq_true]

theorem sortable_of_textNames (h : rt.textNames) : EnvKey.sortable rt.env.keys = true := by
  unfold EnvKey.sortable
  rw [Bool.or_assoc, Bool.or_eq_true, List.all_eq_true]
  refine .inl fun k hk => ?_
  have htext : k = .text k.str := by simpa using List.all_eq_true.mp h k hk
  rw [htext]

/-- The environment as JSON lists it. -/
theorem jsonRows_eq (h : rt.textNames) :
    (rt.env.rows.map fun kv => (kv.1.json, kv.2)) = rt.env.rows.map fun kv => (kv.1.str, kv.2) := by
  refine List.map_congr_left fun kv hkv => ?_
  have htext := textNames_iff.mp h kv hkv
  rw [htext]
  rfl

/-- The rows of the stored environment. -/
theorem rows_storedEnv (h : rt.textNames) :
    (storedEnv rt.env).rows =
      (Dict.sortEntries (rt.env.rows.map fun kv => (kv.1.str, kv.2))).map
        fun kv => (EnvKey.text kv.1, kv.2) := by
  have hnames : (rt.env.rows.map fun kv => kv.1.str).Nodup := by
    have hkeys : (rt.env.keys.map EnvKey.str).Nodup := by
      refine rt.env.nodup.map_on fun a ha b hb heq => ?_
      have ha' : a = .text a.str := by simpa using List.all_eq_true.mp h a ha
      have hb' : b = .text b.str := by simpa using List.all_eq_true.mp h b hb
      rw [ha', hb', heq]
    unfold Table.keys at hkeys
    rwa [List.map_map] at hkeys
  have hperm := (Dict.sortEntries_perm (rt.env.rows.map fun kv => (kv.1.str, kv.2))).map Prod.fst
  have hsorted : ((Dict.sortEntries (rt.env.rows.map fun kv => (kv.1.str, kv.2))).map
      Prod.fst).Nodup := by
    rw [hperm.nodup_iff, List.map_map]
    exact hnames
  have hdistinct : (((Dict.sortEntries (rt.env.rows.map fun kv => (kv.1.str, kv.2))).map
      fun kv => (EnvKey.text kv.1, kv.2)).map Prod.fst).Nodup := by
    rw [List.map_map]
    have htexts := hsorted.map (f := EnvKey.text) fun a b hab => EnvKey.text.inj hab
    rw [List.map_map] at htexts
    exact htexts
  unfold storedEnv
  rw [jsonRows_eq h]
  exact Table.rows_ofList hdistinct

/-- Runtimes with one canonical JSON have one launch identity. -/
theorem launchIdentity_congr (h : rt.textNames) (h' : rt'.textNames)
    (heq : rt.canonical = rt'.canonical) : launchIdentity rt = launchIdentity rt' := by
  have henv : storedEnv rt.env = storedEnv rt'.env := congrArg Runtime.env heq
  have hmounts : rt.mounts.sorted = rt'.mounts.sorted := congrArg Runtime.mounts heq
  have hcommand : rt.canonical.command = rt'.canonical.command := by rw [heq]
  have hextra : rt.canonical.extraArgs = rt'.canonical.extraArgs := by rw [heq]
  have hnames : Dict.sortEntries (rt.env.rows.map fun kv => (kv.1.str, kv.2)) =
      Dict.sortEntries (rt'.env.rows.map fun kv => (kv.1.str, kv.2)) := by
    have hrows := congrArg Table.rows henv
    rw [rows_storedEnv h, rows_storedEnv h'] at hrows
    refine List.map_injective_iff.mpr (fun a b hab => ?_) hrows
    simp only [Prod.mk.injEq, EnvKey.text.injEq] at hab
    exact Prod.ext hab.1 hab.2
  have hwritten : ∀ r : Runtime,
      Dict.sortEntries (r.env.rows.map fun kv => (kv.1.str, kv.2.envString)) =
        (Dict.sortEntries (r.env.rows.map fun kv => (kv.1.str, kv.2))).map
          fun kv => (kv.1, kv.2.envString) := by
    intro r
    rw [← Dict.sortEntries_map, List.map_map]
    rfl
  have hmountRows : Dict.sortEntries rt.mounts.rows = Dict.sortEntries rt'.mounts.rows :=
    congrArg Table.rows hmounts
  unfold launchIdentity
  rw [Dict.sorted_ofList, Dict.sorted_ofList, Dict.sorted_ofList, Dict.sorted_ofList, hwritten,
    hwritten, hnames, Dict.sortEntries_map, Dict.sortEntries_map, hmountRows]
  exact congrArg₂ (fun a b => LaunchIdentity.mk a _ _ b) hcommand hextra

end Runtime

/-! ## one digest, one meaning -/

/-- Rows that a digest lists alike. -/
theorem perm_of_digest {α β : Type} {key : α → String} {f : α → β} {l l' : List α}
    (h : Dict.sortEntries (l.map fun a => (key a, f a)) =
      Dict.sortEntries (l'.map fun a => (key a, f a))) : (l.map f).Perm (l'.map f) := by
  have hl := Dict.sortEntries_perm (l.map fun a => (key a, f a))
  have hl' := Dict.sortEntries_perm (l'.map fun a => (key a, f a))
  rw [h] at hl
  have hback := (hl.symm.trans hl').map Prod.snd
  rw [List.map_map, List.map_map] at hback
  exact hback

/-- An endpoint with its runtime as canonical JSON. -/
def EndpointSpec.canonical (ep : EndpointSpec) : EndpointSpec :=
  { ep with runtime := ep.runtime.canonical }

/-- What a digest tells of a source. -/
structure SameDigest (c c' : Catalog) : Prop where
  models : c.models.rows.Perm c'.models.rows
  hosts : c.hosts.rows.Perm c'.hosts.rows
  endpoints : (c.endpoints.rows.map EndpointSpec.canonical).Perm
    (c'.endpoints.rows.map EndpointSpec.canonical)
  bundles : c.bundles.rows.Perm c'.bundles.rows

theorem textNames_mem {c : Catalog} (h : c.textNames) {ep : EndpointSpec} (hep : ep ∈ c.endpoints) :
    ep.runtime.textNames = true := List.all_eq_true.mp h ep hep

theorem canonicalDigest_eq_some {c : Catalog} (h : c.textNames) :
    ∃ digest, canonicalDigest c = some digest := by
  have hsortable : (c.endpoints.rows.all fun ep => EnvKey.sortable ep.runtime.env.keys) = true :=
    List.all_eq_true.mpr fun ep hep => Runtime.sortable_of_textNames (textNames_mem h hep)
  unfold canonicalDigest
  rw [if_pos hsortable]
  exact ⟨_, rfl⟩

theorem sameDigest_of_eq {c c' : Catalog} {digest : SourceDigest}
    (h : canonicalDigest c = some digest) (h' : canonicalDigest c' = some digest) :
    SameDigest c c' := by
  unfold canonicalDigest at h h'
  rw [Option.ite_none_right_eq_some] at h h'
  obtain ⟨-, h⟩ := h
  obtain ⟨-, h'⟩ := h'
  obtain ⟨hmodels, hhosts, hendpoints, hbundles⟩ := SourceDigest.mk.inj
    (Option.some.inj (h.trans h'.symm))
  have hm := perm_of_digest (f := id) hmodels
  have hh := perm_of_digest (f := id) hhosts
  rw [List.map_id, List.map_id] at hm hh
  refine ⟨hm, hh, perm_of_digest (f := EndpointSpec.canonical) hendpoints, ?_⟩
  exact (Dict.sortEntries_perm c.bundles.rows).symm.trans
    (hbundles ▸ Dict.sortEntries_perm c'.bundles.rows)

/-- A canonical endpoint in one source is one in the other. -/
theorem SameDigest.find? {c c' : Catalog} (h : SameDigest c c') (n : String) :
    (c.endpoints.find? n).map EndpointSpec.canonical =
      (c'.endpoints.find? n).map EndpointSpec.canonical := by
  have hname : ∀ ep : EndpointSpec, ep.canonical.name = ep.name := fun _ => rfl
  have hperm : (c.endpoints.map EndpointSpec.canonical hname).rows.Perm
      (c'.endpoints.map EndpointSpec.canonical hname).rows := h.endpoints
  have hfind : (c.endpoints.map EndpointSpec.canonical hname).find? n =
      (c'.endpoints.map EndpointSpec.canonical hname).find? n := Table.find?_of_perm hperm n
  rwa [Table.find?_map, Table.find?_map] at hfind

/-- Runtimes with one canonical JSON have the same values outside their mappings. -/
theorem vllmStructural_congr (model : ModelSpec) {rt rt' : Runtime} (htext : rt.textNames)
    (htext' : rt'.textNames) (heq : rt.canonical = rt'.canonical) (servedName : String)
    (gpuIndices : List Nat) :
    vllmStructural model rt servedName gpuIndices = vllmStructural model rt' servedName gpuIndices := by
  have hlaunch := Runtime.launchIdentity_congr htext htext' heq
  have hfields : ∀ r : Runtime, vllmStructural model r servedName gpuIndices =
      match vllmStructural model r.canonical servedName gpuIndices with
      | .vllm a b c d f g h i j k l m n o _ => .vllm a b c d f g h i j k l m n o (launchIdentity r)
      | s => s := fun _ => rfl
  rw [hfields rt, hfields rt', heq, hlaunch]

/-- Endpoints with one canonical JSON ask for the same. -/
theorem semantic_resolveVllm (model : ModelSpec) {ep ep' : EndpointSpec}
    (htext : ep.runtime.textNames) (htext' : ep'.runtime.textNames)
    (heq : ep.canonical = ep'.canonical) :
    (resolveVllm model ep ep.sharing).semantic = (resolveVllm model ep' ep'.sharing).semantic := by
  have hruntime : ep.runtime.canonical = ep'.runtime.canonical := congrArg EndpointSpec.runtime heq
  have hstructural := vllmStructural_congr model htext htext' hruntime ep.upstreamName
    ep.placement.gpuIndices
  have hfields : ∀ e : EndpointSpec, (resolveVllm model e e.sharing).semantic =
      let r := resolveVllm model e.canonical e.canonical.sharing
      { r with
        structural := vllmStructural model e.runtime e.canonical.upstreamName
          e.canonical.placement.gpuIndices
        spec := { r.spec with runtime := e.canonical.runtime } } := fun _ => rfl
  rw [hfields ep, hfields ep', ← heq]
  exact congrArg (fun st => { (resolveVllm model ep.canonical ep.canonical.sharing) with
    structural := st
    spec := { (resolveVllm model ep.canonical ep.canonical.sharing).spec with
      runtime := ep.canonical.runtime } }) hstructural

theorem semantic_resolveOllama (host : RuntimeHostSpec) {ep ep' : EndpointSpec}
    (heq : ep.canonical = ep'.canonical) :
    resolveOllama host ep ep.sharing = resolveOllama host ep' ep'.sharing := by
  have hfields : ∀ e : EndpointSpec,
      resolveOllama host e e.sharing = resolveOllama host e.canonical e.canonical.sharing :=
    fun _ => rfl
  rw [hfields ep, hfields ep', heq]

/-- What a resolved endpoint means. -/
def keyOf (c : Catalog) (n : String) : Option EndpointSpec → EndpointKey
  | none => .unresolvable (.unknownEndpoint n)
  | some ep =>
      match ep.external with
      | some target => .means ⟨ep.name, ep.protocol, .external target⟩
      | none =>
          match ep.engine with
          | .vllm =>
              match c.models.find? ep.model with
              | none => .unresolvable (.danglingReference n ep.model)
              | some model =>
                  .means ⟨ep.name, ep.protocol, .managed (resolveVllm model ep ep.sharing).semantic⟩
          | .ollama =>
              match ep.host with
              | none => .unresolvable (.hostless n)
              | some h =>
                  match c.hosts.find? h with
                  | none => .unresolvable (.danglingReference n h)
                  | some host =>
                      .means ⟨ep.name, ep.protocol,
                        .managed (resolveOllama host ep ep.sharing).semantic⟩
          | .reserved => .unresolvable (.unknownEngine n)

theorem endpointKey_eq_keyOf (c : Catalog) (n : String) :
    c.endpointKey n = keyOf c n (c.endpoints.find? n) := by
  unfold Catalog.endpointKey Catalog.resolveEndpoint
  cases c.endpoints.find? n with
  | none => rfl
  | some ep =>
      cases hext : ep.external with
      | some target => simp [keyOf, hext, ResolvedEndpoint.semantic]
      | none =>
          cases hengine : ep.engine with
          | reserved => simp [keyOf, hext, hengine]
          | vllm =>
              cases hm : c.models.find? ep.model with
              | none => simp [keyOf, hext, hengine, hm]
              | some model => simp [keyOf, hext, hengine, hm, ResolvedEndpoint.semantic]
          | ollama =>
              cases hh : ep.host with
              | none => simp [keyOf, hext, hengine, hh]
              | some h =>
                  cases hhost : c.hosts.find? h with
                  | none => simp [keyOf, hext, hengine, hh, hhost]
                  | some host => simp [keyOf, hext, hengine, hh, hhost, ResolvedEndpoint.semantic]

/-- Sources with one digest mean the same by a name. -/
theorem SameDigest.endpointKey {c c' : Catalog} (h : SameDigest c c') (htext : c.textNames)
    (htext' : c'.textNames) (n : String) : c.endpointKey n = c'.endpointKey n := by
  have hmodels : ∀ m, c.models.find? m = c'.models.find? m := Table.find?_of_perm h.models
  have hhosts : ∀ m, c.hosts.find? m = c'.hosts.find? m := Table.find?_of_perm h.hosts
  have hfind := h.find? n
  rw [endpointKey_eq_keyOf, endpointKey_eq_keyOf]
  cases hep : c.endpoints.find? n with
  | none =>
      cases hep' : c'.endpoints.find? n with
      | none => rfl
      | some ep' => simp [hep, hep'] at hfind
  | some ep =>
      cases hep' : c'.endpoints.find? n with
      | none => simp [hep, hep'] at hfind
      | some ep' =>
          have heq : ep.canonical = ep'.canonical := by simpa [hep, hep'] using hfind
          have ht := textNames_mem htext (Table.find?_eq_some.mp hep).1
          have ht' := textNames_mem htext' (Table.find?_eq_some.mp hep').1
          have hrest : ep.name = ep'.name ∧ ep.protocol = ep'.protocol ∧
              ep.external = ep'.external ∧ ep.engine = ep'.engine ∧ ep.model = ep'.model ∧
              ep.host = ep'.host := by
            have hfields := EndpointSpec.mk.inj heq
            tauto
          obtain ⟨hname, hprotocol, hexternal, hengine, hmodel, hhost⟩ := hrest
          have hvllm := fun model => semantic_resolveVllm model ht ht' heq
          have hollama := fun host => semantic_resolveOllama host heq
          simp only [keyOf, hname, hprotocol, hexternal, hengine, hmodel, hhost, hmodels, hhosts,
            hvllm, hollama]

/-- Sources with one digest define the same. -/
theorem SameDigest.definitions {c c' : Catalog} (h : SameDigest c c') (htext : c.textNames)
    (htext' : c'.textNames) (d : Definition) : d ∈ c.definitions ↔ d ∈ c'.definitions := by
  have hnames : ∀ n, (∃ ep ∈ c.endpoints.rows, ep.name = n) ↔ ∃ ep ∈ c'.endpoints.rows, ep.name = n := by
    have hkeys := h.endpoints.map EndpointSpec.name
    rw [List.map_map, List.map_map] at hkeys
    intro n
    have hmem := hkeys.mem_iff (a := n)
    rw [List.mem_map, List.mem_map] at hmem
    exact hmem
  have hendpoint : ∀ c : Catalog, d ∈ c.endpoints.rows.map (endpointDef c) ↔
      ∃ n, (∃ ep ∈ c.endpoints.rows, ep.name = n) ∧ (.endpoint n, .inl (c.endpointKey n)) = d := by
    intro c
    rw [List.mem_map]
    constructor
    · intro hd
      obtain ⟨ep, hep, rfl⟩ := hd
      exact ⟨ep.name, ⟨ep, hep, rfl⟩, rfl⟩
    · intro hd
      obtain ⟨n, ⟨ep, hep, rfl⟩, rfl⟩ := hd
      exact ⟨ep, hep, rfl⟩
  have hbundle : d ∈ c.bundles.rows.map bundleDef ↔ d ∈ c'.bundles.rows.map bundleDef :=
    (h.bundles.map bundleDef).mem_iff
  unfold Catalog.definitions
  rw [List.mem_append, List.mem_append, hendpoint, hendpoint, hbundle]
  simp only [hnames, h.endpointKey htext htext']

/-! ## dropping repeated sources -/

/-- A list of sources without some that repeat an earlier one. -/
structure Deduped (seen cs out : List Catalog) : Prop where
  subset : ∀ c ∈ out, c ∈ cs
  defines : ∀ d, d ∈ definitions seen ∨ d ∈ definitions cs ↔ d ∈ definitions seen ∨ d ∈ definitions out
  conflict : Agree (definitions seen) → firstConflict (definitions seen) (definitions cs) =
    firstConflict (definitions seen) (definitions out)

namespace Deduped

variable {seen cs out : List Catalog} {c : Catalog}

/-- One more source, whose definitions are known. -/
theorem skip (h : Deduped seen cs out) (hsub : ∀ d ∈ c.definitions, d ∈ definitions seen) :
    Deduped seen (c :: cs) out where
  subset := fun c' hc' => List.mem_cons_of_mem c (h.subset c' hc')
  defines := by
    intro d
    rw [definitions_cons, List.mem_append, ← h.defines d]
    constructor
    · rintro (hd | hd | hd)
      · exact .inl hd
      · exact .inl (hsub d hd)
      · exact .inr hd
    · rintro (hd | hd)
      · exact .inl hd
      · exact .inr (.inr hd)
  conflict := by
    intro hagree
    have hnone := firstConflict_of_subset hagree hsub
    have hsame : firstConflict (definitions seen ++ c.definitions) (definitions cs) =
        firstConflict (definitions seen) (definitions cs) := by
      refine firstConflict_congr (fun d => ?_) _
      rw [List.mem_append]
      exact ⟨fun hd => hd.elim id (hsub d), .inl⟩
    rw [definitions_cons, firstConflict_append, hnone, Option.none_or, hsame, h.conflict hagree]

/-- One more source, kept. -/
theorem keep (h : Deduped (seen ++ [c]) cs out) : Deduped seen (c :: cs) (c :: out) where
  subset := by
    intro c' hc'
    cases List.mem_cons.mp hc' with
    | inl heq => exact heq ▸ List.mem_cons_self
    | inr hmem => exact List.mem_cons_of_mem c (h.subset c' hmem)
  defines := by
    intro d
    have hd := h.defines d
    simp only [definitions_append, definitions_cons, definitions_nil, List.append_nil,
      List.mem_append] at hd ⊢
    rw [← or_assoc, ← or_assoc]
    exact hd
  conflict := by
    intro hagree
    have hsplit : definitions (seen ++ [c]) = definitions seen ++ c.definitions := by simp
    have hrest := h.conflict
    rw [hsplit] at hrest
    rw [definitions_cons, definitions_cons, firstConflict_append, firstConflict_append]
    cases hfirst : firstConflict (definitions seen) c.definitions with
    | some d => rfl
    | none => rw [hrest (hagree.of_firstConflict hfirst)]

end Deduped

/-- Digests that stand for sources. -/
def DigestsOf (digests : List SourceDigest) (seen : List Catalog) : Prop :=
  ∀ digest ∈ digests, ∃ c ∈ seen, c.textNames = true ∧ canonicalDigest c = some digest

/-- Dropping repeated sources changes no definition. -/
theorem dedupe_spec {digests : List SourceDigest} {seen cs : List Catalog}
    (hseen : DigestsOf digests seen) (htext : ∀ c ∈ cs, c.textNames = true) :
    ∃ out, dedupe digests cs = .ok out ∧ Deduped seen cs out := by
  induction cs generalizing digests seen with
  | nil => exact ⟨[], rfl, ⟨fun c hc => hc, fun d => Iff.rfl, fun _ => rfl⟩⟩
  | cons c cs ih =>
      have hc := htext c List.mem_cons_self
      have hcs : ∀ c ∈ cs, c.textNames = true := fun c' hc' => htext c' (List.mem_cons_of_mem c hc')
      obtain ⟨digest, hdigest⟩ := canonicalDigest_eq_some hc
      unfold dedupe
      rw [hdigest]
      dsimp only
      by_cases hmem : digest ∈ digests
      · obtain ⟨c', hc', htext', hdigest'⟩ := hseen digest hmem
        obtain ⟨out, hout, hdeduped⟩ := ih hseen hcs
        have hsame := (sameDigest_of_eq hdigest hdigest').definitions hc htext'
        rw [if_pos hmem]
        refine ⟨out, hout, hdeduped.skip fun d hd => ?_⟩
        exact List.mem_flatMap.mpr ⟨c', hc', (hsame d).mp hd⟩
      · have hnext : DigestsOf (digests ++ [digest]) (seen ++ [c]) := by
          intro digest' hdigest'
          cases List.mem_append.mp hdigest' with
          | inl hold =>
              obtain ⟨c', hc', htext', hd'⟩ := hseen digest' hold
              exact ⟨c', List.mem_append_left _ hc', htext', hd'⟩
          | inr hnew =>
              rw [List.mem_singleton.mp hnew]
              exact ⟨c, by simp, hc, hdigest⟩
        obtain ⟨out, hout, hdeduped⟩ := ih hnext hcs
        rw [if_neg hmem, hout]
        exact ⟨c :: out, rfl, hdeduped.keep⟩

/-- Sources all of whose definitions a list has seen. -/
theorem dedupe_sources {cs : List Catalog} (htext : ∀ c ∈ cs, c.textNames = true) :
    ∃ out, dedupe [] cs = .ok out ∧ (∀ c ∈ out, c ∈ cs) ∧
      (∀ d, d ∈ definitions out ↔ d ∈ definitions cs) ∧
      firstConflict [] (definitions out) = firstConflict [] (definitions cs) := by
  have hnone : DigestsOf [] [] := by
    intro digest hdigest
    cases hdigest
  obtain ⟨out, hout, hdeduped⟩ := dedupe_spec hnone htext
  refine ⟨out, hout, hdeduped.subset, fun d => ?_, ?_⟩
  · have hd := hdeduped.defines d
    simpa using hd.symm
  · have hagree : Agree (definitions []) := by
      intro d hd
      cases hd
    exact (hdeduped.conflict hagree).symm

end InferStack
