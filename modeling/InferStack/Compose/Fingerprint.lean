import InferStack.Compose.Interchange
import InferStack.Kit.Template
import Mathlib.Data.List.Dedup

/-!
# InferStack.Compose.Fingerprint

Whether a container kept for its fingerprint is the one Compose would create.

A fingerprint digests the stanza as it is rendered, the files it mounts, and the
values of the variables it refers to.  It looks for the variables by the opening
brace, so a bare `$NAME` is not among them, and it digests the files without
their mounts: `kept_iff` says which services are told apart for every
environment.
-/

namespace InferStack

open Kit

/-! ## services -/

/-- A service as it is written to the project: the labels, the mounts and
everything else, each mapping in the order of its keys. -/
structure Stanza (α : Type) where
  labels : List (String × α)
  volumes : Option (List (Doc α))
  rest : List (String × Doc α)

namespace Stanza

variable {α β : Type}

def map (f : α → β) (s : Stanza α) : Stanza β where
  labels := s.labels.map fun kv => (kv.1, f kv.2)
  volumes := s.volumes.map fun vs => vs.map (Doc.map f)
  rest := s.rest.map fun kv => (kv.1, kv.2.map f)

def texts (s : Stanza α) : List α :=
  s.labels.map Prod.snd ++ (s.volumes.getD []).flatMap Doc.texts ++
    s.rest.flatMap fun kv => kv.2.texts

def keys (s : Stanza α) : List String :=
  s.labels.map Prod.fst ++ (s.volumes.getD []).flatMap Doc.keys ++
    s.rest.flatMap fun kv => kv.1 :: kv.2.keys

/-- The mounts in short form. -/
def mounts (s : Stanza α) : List α :=
  (s.volumes.getD []).filterMap fun v =>
    match v with
    | .text a => some a
    | _ => none

end Stanza

/-! ## the stanza of a rendered service -/

def textList (ts : List String) : Doc String := .list (ts.map .text)

def textDict (d : Dict String String) : Doc String :=
  .dict (d.sorted.rows.map fun kv => (kv.1, .text kv.2))

def Healthcheck.doc : Healthcheck → Doc String
  | .disabled => .dict [("disable", .scalar "true")]
  | .test argv interval timeout retries startPeriod =>
      .dict ([("interval", .text interval), ("retries", .scalar (toString retries))] ++
        (startPeriod.map fun p => ("start_period", Doc.text p)).toList ++
          [("test", textList argv), ("timeout", .text timeout)])

/-- The reservation of GPUs for a container. -/
def gpuReservation (indices : List Nat) : Doc String :=
  .dict [("resources", .dict [("reservations", .dict [("devices", .list [
    .dict [("capabilities", textList ["gpu"]), ("device_ids", textList (indices.map toString)),
      ("driver", .text "nvidia")]])])])]

/-- What a service of the renderer is in the project. -/
def ComposeService.stanza (svc : ComposeService) : Stanza String where
  labels := svc.labels.sorted.rows
  volumes := svc.volumes.map fun vs => vs.map .text
  rest :=
    (svc.command.map fun c => ("command", textList c)).toList ++
      (svc.devices.map fun gpus => ("deploy", gpuReservation gpus)).toList ++
        [("environment", textDict svc.environment), ("healthcheck", svc.healthcheck.doc),
          ("image", .text svc.image)] ++
          (svc.ports.map fun ps => ("ports", textList ps)).toList ++
            ("restart", .text svc.restart) ::
              (svc.shmSize.map fun size => ("shm_size", Doc.text size)).toList

/-! ## files -/

/-- The text of a path, as pathlib writes it. -/
def pathText (source : String) : String :=
  let parts := (source.toList.splitOn '/').filter fun part => part ≠ [] ∧ part ≠ ['.']
  let root := match source.toList.takeWhile (· = '/') with
    | [] => []
    | ['/', '/'] => ['/', '/']
    | _ => ['/']
  match root ++ List.intercalate ['/'] parts with
  | [] => "."
  | text => String.ofList text

/-- The files a render is about to write, by path, and those on disk. -/
structure Files where
  planned : Dict String String
  disk : String → Option String

/-- The text of the file a short mount names. -/
def Files.mounted (F : Files) (volume : String) : Option String :=
  let source := String.ofList (volume.toList.takeWhile (· ≠ ':'))
  if source = "" then none
  else (F.planned.get? (pathText source)).or (F.disk (pathText source))

structure RenderedProject where
  services : Dict String (Stanza String)
  files : Files

/-! ## stamping -/

def fingerprintLabel : String := "infer-stack.fingerprint"

/-- A stanza without the fingerprint of an earlier render. -/
def Stanza.unstamped {α : Type} (s : Stanza α) : Stanza α :=
  { s with labels := s.labels.filter fun kv => kv.1 ≠ fingerprintLabel }

/-- The names a stanza refers to in braces, in its texts and its keys. -/
def Stanza.references (s : Stanza String) : List String :=
  (s.texts ++ s.keys).flatMap fun t => Kit.references t.toList

/-- What a fingerprint digests. -/
structure Material where
  stanza : Stanza String
  /-- The text of each file it mounts. -/
  files : List String
  /-- The variables it interpolates, with their values. -/
  values : List (String × Option String)

def material (F : Files) (env : Dict String String) (s : Stanza String) : Material where
  stanza := s.unstamped
  files := s.mounts.filterMap F.mounted
  -- an unrelated key must not recreate the service
  values := (s.unstamped.references.dedup.insertionSort (· ≤ ·)).map fun x => (x, env.get? x)

/-- The fingerprint of each service. -/
def stampFingerprints {δ : Type} (digest : Material → δ) (P : RenderedProject)
    (env : Dict String String) : Dict String δ :=
  ⟨P.services.rows.map fun kv => (kv.1, digest (material P.files env kv.2)), by
    rw [List.map_map]
    exact P.services.nodup⟩

/-! ## what Compose makes of a service -/

/-- A stanza with its variables replaced; Compose refuses one that has an invalid
text or a failed requirement. -/
def Stanza.interpolate (env : String → Option String) (s : Stanza String) :
    Option (Stanza String) :=
  if ∀ t ∈ s.texts, (expand env t).isSome then some (s.map fun t => (expand env t).getD "")
  else none

/-- Compose creates the same container from both services: the same stanza, and
the same text in every file it mounts. -/
structure SameContainer (env₁ env₂ : Dict String String) (F₁ F₂ : Files)
    (s₁ s₂ : Stanza String) : Prop where
  stanza : s₁.unstamped.interpolate env₁.get? = s₂.unstamped.interpolate env₂.get?
  files : ∀ c, s₁.unstamped.interpolate env₁.get? = some c →
    ∀ v ∈ c.mounts, F₁.mounted v = F₂.mounted v

/-- Nothing of a service escapes its fingerprint.  Where Compose accepts the
stanza, a bare name that it replaces also stands in braces, and the mounted files
tell which mount each is of: a mount names a file in both places or in neither.
The path of a mount with a variable is digested as it is written, so what it
comes to name must be the same in both. -/
structure Covered (F₁ F₂ : Files) (s : Stanza String) (env : Dict String String)
    (c : Stanza String) : Prop where
  names : ∀ t ∈ s.texts, ∀ x ∈ bareNames env.get? t, x ∈ s.references
  present : (∀ v ∈ s.mounts, '$' ∉ v.toList) →
    ∀ v ∈ s.mounts, ((F₁.mounted v).isSome ↔ (F₂.mounted v).isSome)
  named : (∃ v ∈ s.mounts, '$' ∈ v.toList) → ∀ v ∈ c.mounts, F₁.mounted v = F₂.mounted v

/-! ## interpolation -/

namespace Stanza

variable {α β : Type} {env env' : String → Option String} {s : Stanza String}

theorem map_eq_map_iff (f g : α → β) (s : Stanza α) :
    s.map f = s.map g ↔ ∀ a ∈ s.texts, f a = g a := by
  have hlabels : (s.labels.map fun kv => (kv.1, f kv.2)) =
      (s.labels.map fun kv => (kv.1, g kv.2)) ↔ ∀ a ∈ s.labels.map Prod.snd, f a = g a := by
    simp only [List.map_inj_left, Prod.mk.injEq, true_and, List.forall_mem_map]
  have hvolumes : (s.volumes.map fun vs => vs.map (Doc.map f)) =
      (s.volumes.map fun vs => vs.map (Doc.map g)) ↔
        ∀ a ∈ (s.volumes.getD []).flatMap Doc.texts, f a = g a := by
    cases s.volumes with
    | none => simp
    | some vs =>
        simp only [Option.map_some, Option.some.injEq, List.map_inj_left, Doc.map_eq_map_iff,
          Option.getD_some, List.mem_flatMap]
        exact ⟨fun h a ⟨v, hv, ha⟩ => h v hv a ha, fun h v hv a ha => h a ⟨v, hv, ha⟩⟩
  have hrest : (s.rest.map fun kv => (kv.1, kv.2.map f)) =
      (s.rest.map fun kv => (kv.1, kv.2.map g)) ↔
        ∀ a ∈ s.rest.flatMap (fun kv => kv.2.texts), f a = g a := by
    simp only [List.map_inj_left, Prod.mk.injEq, true_and, Doc.map_eq_map_iff, List.mem_flatMap]
    exact ⟨fun h a ⟨kv, hkv, ha⟩ => h kv hkv a ha, fun h kv hkv a ha => h a ⟨kv, hkv, ha⟩⟩
  simp only [map, mk.injEq, hlabels, hvolumes, hrest, texts, List.mem_append]
  constructor
  · rintro ⟨hl, hv, hr⟩ a ((ha | ha) | ha)
    · exact hl a ha
    · exact hv a ha
    · exact hr a ha
  · exact fun h => ⟨fun a ha => h a (.inl (.inl ha)), fun a ha => h a (.inl (.inr ha)),
      fun a ha => h a (.inr ha)⟩

theorem mem_references {t x : String} (ht : t ∈ s.texts) (hx : x ∈ Kit.references t.toList) :
    x ∈ s.references :=
  List.mem_flatMap.mpr ⟨t, List.mem_append_left _ ht, hx⟩

theorem interpolate_eq_some {c : Stanza String} :
    s.interpolate env = some c ↔
      (∀ t ∈ s.texts, (expand env t).isSome) ∧ s.map (fun t => (expand env t).getD "") = c := by
  unfold interpolate
  split <;> simp_all

/-- Environments that agree on the references accept the same stanzas. -/
theorem isSome_interpolate_congr (h : ∀ x ∈ s.references, env x = env' x) :
    (∀ t ∈ s.texts, (expand env t).isSome) ↔ ∀ t ∈ s.texts, (expand env' t).isSome := by
  refine forall₂_congr fun t ht => ?_
  have hsame := isSome_expand_congr fun x hx => h x (mem_references ht hx)
  rw [hsame]

/-- Environments that agree on the references interpolate a stanza alike when every
bare name of it is among them. -/
theorem interpolate_congr (h : ∀ x ∈ s.references, env x = env' x)
    (hbare : (∀ t ∈ s.texts, (expand env t).isSome) →
      ∀ t ∈ s.texts, ∀ x ∈ bareNames env t, x ∈ s.references) :
    s.interpolate env = s.interpolate env' := by
  by_cases hsome : ∀ t ∈ s.texts, (expand env t).isSome
  · have hsome' := (isSome_interpolate_congr h).mp hsome
    have hmap : s.map (fun t => (expand env t).getD "") =
        s.map (fun t => (expand env' t).getD "") := by
      refine (map_eq_map_iff _ _ s).mpr fun t ht => ?_
      have hexpand := expand_congr (fun x hx => h x (mem_references ht hx))
        fun x hx => h x (hbare hsome t ht x hx)
      rw [hexpand]
    rw [interpolate, interpolate, if_pos hsome, if_pos hsome', hmap]
  · have hsome' := fun h' => hsome ((isSome_interpolate_congr h).mpr h')
    rw [interpolate, interpolate, if_neg hsome, if_neg hsome']

/-- The mounts of an interpolated stanza are those of the stanza, interpolated. -/
theorem mounts_map (f : α → β) (s : Stanza α) : (s.map f).mounts = s.mounts.map f := by
  unfold mounts map
  cases s.volumes with
  | none => rfl
  | some vs =>
      simp only [Option.map_some, Option.getD_some, List.filterMap_map, List.map_filterMap]
      refine List.filterMap_congr fun v _ => ?_
      cases v <;> simp [Doc.map]

end Stanza

/-! ## what a fingerprint tells -/

section Digest

variable {env env₁ env₂ : Dict String String} {F F₁ F₂ : Files} {s : Stanza String}

theorem get?_stampFingerprints {δ : Type} (digest : Material → δ) {P : RenderedProject}
    {name : String} (h : P.services.get? name = some s) :
    (stampFingerprints digest P env).get? name = some (digest (material P.files env s)) := by
  have hmem : (name, s) ∈ P.services.rows := Dict.get?_eq_some.mp h
  exact Dict.get?_eq_some.mpr (List.mem_map.mpr ⟨_, hmem, rfl⟩)

/-- A fingerprint tells the stanza, the texts of the mounted files and the values of
the references. -/
theorem material_eq_iff {s₁ s₂ : Stanza String} :
    material F₁ env₁ s₁ = material F₂ env₂ s₂ ↔
      s₁.unstamped = s₂.unstamped ∧
        s₁.mounts.filterMap F₁.mounted = s₂.mounts.filterMap F₂.mounted ∧
          ∀ x ∈ s₁.unstamped.references, env₁.get? x = env₂.get? x := by
  simp only [material, Material.mk.injEq]
  refine and_congr_right fun hstanza => and_congr_right fun _ => ?_
  rw [← hstanza]
  simp only [List.map_inj_left, List.mem_insertionSort, List.mem_dedup, Prod.mk.injEq, true_and]

/-- Two readings of the same list that find the same in order, and that find
something at the same places, find the same at each place. -/
theorem eq_of_filterMap_eq {α β : Type*} {f g : α → Option β} {l : List α}
    (h : l.filterMap f = l.filterMap g) (hsome : ∀ a ∈ l, ((f a).isSome ↔ (g a).isSome)) :
    ∀ a ∈ l, f a = g a := by
  induction l with
  | nil => simp
  | cons a l ih =>
      have hrest := fun b hb => hsome b (List.mem_cons_of_mem _ hb)
      have hhead := hsome a List.mem_cons_self
      simp only [List.filterMap_cons] at h
      cases hf : f a with
      | none =>
          have hg : g a = none := by simpa [hf] using hhead
          simp only [hf, hg] at h
          intro b hb
          cases List.mem_cons.mp hb with
          | inl hba => rw [hba, hf, hg]
          | inr hb => exact ih h hrest b hb
      | some x =>
          obtain ⟨y, hg⟩ := Option.isSome_iff_exists.mp (hhead.mp (by simp [hf]))
          simp only [hf, hg, List.cons.injEq] at h
          intro b hb
          cases List.mem_cons.mp hb with
          | inl hba => rw [hba, hf, hg, h.1]
          | inr hb => exact ih h.2 hrest b hb

/-- The mounts of a stanza without variables in them are left as they are. -/
theorem mounts_of_plain {c : Stanza String} (hc : s.interpolate env.get? = some c)
    (hplain : ∀ v ∈ s.mounts, '$' ∉ v.toList) : c.mounts = s.mounts := by
  obtain ⟨_, rfl⟩ := Stanza.interpolate_eq_some.mp hc
  rw [Stanza.mounts_map]
  have hsame : ∀ v ∈ s.mounts, (expand env.get? v).getD "" = v := by
    intro v hv
    rw [expand_plain _ (hplain v hv)]
    rfl
  rw [List.map_congr_left hsame, List.map_id']

theorem mounts_unstamped : s.unstamped.mounts = s.mounts := rfl

/-- Nothing escapes the fingerprint of a covered service. -/
theorem sameContainer_of_covered {s₁ s₂ : Stanza String}
    (hmaterial : material F₁ env₁ s₁ = material F₂ env₂ s₂)
    (hcovered : ∀ env c, s₁.unstamped.interpolate env.get? = some c →
      Covered F₁ F₂ s₁.unstamped env c) :
    SameContainer env₁ env₂ F₁ F₂ s₁ s₂ := by
  obtain ⟨hstanza, hfiles, hvalues⟩ := material_eq_iff.mp hmaterial
  have hmounts : s₂.mounts = s₁.mounts := by
    rw [← @mounts_unstamped s₁, ← @mounts_unstamped s₂, hstanza]
  constructor
  · rw [← hstanza]
    refine Stanza.interpolate_congr hvalues fun hsome => ?_
    exact (hcovered env₁ _ (Stanza.interpolate_eq_some.mpr ⟨hsome, rfl⟩)).names
  · intro c hc v hv
    have hcov := hcovered env₁ c hc
    by_cases hplain : ∀ v ∈ s₁.mounts, '$' ∉ v.toList
    · rw [mounts_of_plain hc hplain] at hv
      rw [hmounts] at hfiles
      exact eq_of_filterMap_eq hfiles (hcov.present hplain) v hv
    · simp only [not_forall, not_not] at hplain
      obtain ⟨u, hu, hdollar⟩ := hplain
      exact hcov.named ⟨u, hu, hdollar⟩ v hv

/-- A bare name that stands nowhere in braces gives one fingerprint and two
stanzas. -/
theorem mem_references_of_same {c : Stanza String} (hc : s.interpolate env.get? = some c)
    (h : ∀ env₁ env₂ : Dict String String, (∀ x ∈ s.references, env₁.get? x = env₂.get? x) →
      s.interpolate env₁.get? = s.interpolate env₂.get?) :
    ∀ t ∈ s.texts, ∀ x ∈ bareNames env.get? t, x ∈ s.references := by
  intro t ht x hx
  by_contra hnot
  have hset : ∀ v, (env.set x v).get? = Function.update env.get? x (some v) := by
    intro v
    funext y
    rw [Dict.get?_set, Function.update_apply]
    simp only [eq_comm]
  have hread : ∀ v, ∀ y ∈ s.references, (env.set x v).get? y = env.get? y := by
    intro v y hy
    have hne : y ≠ x := fun heq => hnot (heq ▸ hy)
    rw [hset, Function.update_of_ne hne]
  have hsome : ∀ v, ∀ t ∈ s.texts, (expand (env.set x v).get? t).isSome := fun v =>
    (Stanza.isSome_interpolate_congr (hread v)).mpr (Stanza.interpolate_eq_some.mp hc).1
  have hboth := h (env.set x "") (env.set x "a") fun y hy => by rw [hread _ y hy, hread _ y hy]
  rw [Stanza.interpolate, Stanza.interpolate, if_pos (hsome ""), if_pos (hsome "a"),
    Option.some.injEq, Stanza.map_eq_map_iff] at hboth
  have hne := expand_ne hx fun hmem => hnot (Stanza.mem_references ht hmem)
  obtain ⟨e, he⟩ := Option.isSome_iff_exists.mp (hsome "" t ht)
  obtain ⟨a, ha⟩ := Option.isSome_iff_exists.mp (hsome "a" t ht)
  have heq := hboth t ht
  rw [he, ha] at heq
  rw [← hset, ← hset, he, ha] at hne
  exact hne (congrArg some heq)

end Digest

/-- Two projects whose stanzas and mounted texts agree give a service the same
fingerprint only when Compose creates the same container from both, for every two
environments, exactly when the fingerprint covers the service. -/
theorem kept_iff {δ : Type} {digest : Material → δ} (hdigest : Function.Injective digest)
    {P₁ P₂ : RenderedProject} {name : String} {s₁ s₂ : Stanza String}
    (h₁ : P₁.services.get? name = some s₁) (h₂ : P₂.services.get? name = some s₂) :
    (∀ env₁ env₂ fp, (stampFingerprints digest P₁ env₁).get? name = some fp →
        (stampFingerprints digest P₂ env₂).get? name = some fp →
          SameContainer env₁ env₂ P₁.files P₂.files s₁ s₂) ↔
      (s₁.unstamped = s₂.unstamped →
        s₁.mounts.filterMap P₁.files.mounted = s₂.mounts.filterMap P₂.files.mounted →
          ∀ env c, s₁.unstamped.interpolate env.get? = some c →
            Covered P₁.files P₂.files s₁.unstamped env c) := by
  simp only [get?_stampFingerprints digest h₁, get?_stampFingerprints digest h₂,
    Option.some.injEq]
  constructor
  · intro hsame hstanza hfiles env c hc
    have hagree : ∀ env₁ env₂ : Dict String String,
        (∀ x ∈ s₁.unstamped.references, env₁.get? x = env₂.get? x) →
          SameContainer env₁ env₂ P₁.files P₂.files s₁ s₂ := by
      intro env₁ env₂ hvalues
      have hmaterial : material P₁.files env₁ s₁ = material P₂.files env₂ s₂ :=
        material_eq_iff.mpr ⟨hstanza, hfiles, hvalues⟩
      exact hsame env₁ env₂ _ rfl (congrArg digest hmaterial.symm)
    have hown := hagree env env fun _ _ => rfl
    have hnamed := hown.files c hc
    refine ⟨?_, ?_, fun _ => hnamed⟩
    · refine mem_references_of_same hc fun env₁ env₂ hvalues => ?_
      rw [(hagree env₁ env₂ hvalues).stanza, ← hstanza]
    · intro hplain v hv
      have hmem : v ∈ c.mounts := by rwa [mounts_of_plain hc hplain]
      rw [hnamed v hmem]
  · intro hcond env₁ env₂ fp hfp₁ hfp₂
    have hmaterial := hdigest (hfp₁.trans hfp₂.symm)
    exact sameContainer_of_covered hmaterial
      (hcond (material_eq_iff.mp hmaterial).1 (material_eq_iff.mp hmaterial).2.1)

/-! ## a token from the environment -/

/-- A service that takes its token from the environment and again from a variable. -/
def tokenService : Stanza String where
  labels := []
  volumes := some [.text "conf/nginx.conf:/etc/nginx.conf"]
  rest := [("command", .list [.text "--token=$HF_TOKEN"]),
    ("environment", .dict [("HF_TOKEN", .text "$\x7bHF_TOKEN:-\x7d")])]

def tokenProject : RenderedProject where
  services := Table.ofList [("g", tokenService)]
  files := ⟨Table.ofList [("conf/nginx.conf", "events \x7b\x7d")], fun _ => none⟩

theorem texts_token : tokenService.unstamped.texts =
    ["conf/nginx.conf:/etc/nginx.conf", "--token=$HF_TOKEN", "$\x7bHF_TOKEN:-\x7d"] := by
  simp [tokenService, Stanza.unstamped, Stanza.texts, Doc.texts]

theorem references_token : tokenService.unstamped.references = ["HF_TOKEN"] := by
  have hkeys : tokenService.unstamped.keys = ["command", "environment", "HF_TOKEN"] := by
    simp [tokenService, Stanza.unstamped, Stanza.keys, Doc.keys]
  rw [Stanza.references, texts_token, hkeys]
  decide +kernel

theorem bareNames_token (env : String → Option String) :
    bareNames env "$\x7bHF_TOKEN:-\x7d" = [] := by
  have hchars : "$\x7bHF_TOKEN:-\x7d".toList =
      ['$', '\x7b', 'H', 'F', '_', 'T', 'O', 'K', 'E', 'N', ':', '-', '\x7d'] := by
    decide +kernel
  have hparse : parse "$\x7bHF_TOKEN:-\x7d" = some [.braced "HF_TOKEN" (.default true) []] := by
    rw [parse, hchars]
    simp [pieces, formAt, startsName, nameStart, nameChar, nameAt]
  cases hvalue : counted env true "HF_TOKEN" with
  | none => simp [bareNames, hparse, atomsAll, Piece.atoms, hvalue]
  | some v => simp [bareNames, hparse, atomsAll, Piece.atoms, hvalue]

theorem bareNames_flag (env : String → Option String) :
    bareNames env "--token=$HF_TOKEN" = ["HF_TOKEN"] := by
  have hchars : "--token=$HF_TOKEN".toList = ['-', '-', 't', 'o', 'k', 'e', 'n', '=', '$', 'H',
      'F', '_', 'T', 'O', 'K', 'E', 'N'] := by
    decide +kernel
  simp [bareNames, parse, hchars, pieces, startsName, nameStart, nameChar, nameAt, atomsAll,
    Piece.atoms]

theorem covered_token (F : Files) (env : Dict String String) (c : Stanza String) :
    Covered F F tokenService.unstamped env c := by
  have hconf : bareNames env.get? "conf/nginx.conf:/etc/nginx.conf" = [] :=
    bareNames_plain _ (by decide +kernel)
  refine ⟨?_, fun _ _ _ => Iff.rfl, fun _ _ _ => rfl⟩
  intro t ht x hx
  simp only [texts_token, List.mem_cons, List.not_mem_nil, or_false] at ht
  rcases ht with rfl | rfl | rfl
  · simp [hconf] at hx
  · simp only [bareNames_flag, List.mem_singleton] at hx
    rw [hx, references_token]
    exact List.mem_singleton_self _
  · simp [bareNames_token] at hx

/-- An unrelated variable leaves its fingerprint, and its container, as they are. -/
theorem token_kept : SameContainer (Table.ofList [("HF_TOKEN", "t")])
    (Table.ofList [("OTHER", "x"), ("HF_TOKEN", "t")]) tokenProject.files tokenProject.files
    tokenService tokenService := by
  have hvalues : ∀ x ∈ tokenService.unstamped.references,
      Dict.get? (Table.ofList [("OTHER", "x"), ("HF_TOKEN", "t")]) x =
        Dict.get? (Table.ofList [("HF_TOKEN", "t")]) x := by
    rw [references_token]
    decide +kernel
  exact (@kept_iff _ id Function.injective_id tokenProject tokenProject "g" tokenService tokenService
      rfl rfl).mpr (fun _ _ env c _ => covered_token tokenProject.files env c) _ _ _
    (get?_stampFingerprints id rfl) ((get?_stampFingerprints id rfl).trans (congrArg some
      (material_eq_iff.mpr ⟨rfl, rfl, hvalues⟩)))

/-! ## a flag from the environment -/

/-- An endpoint whose launcher takes its flags from a variable. -/
def flagsEndpoint : EndpointSpec where
  name := "smol"
  model := "smol"
  runtime := { command := ["serve", "$FLAGS"] }

def flagsDeployment : Deployment :=
  newDeployment "g-1" 0 (resolveVllm smolModel flagsEndpoint .shared)

/-- Its service. -/
def flagsService : ComposeService where
  image := "vllm/vllm-openai:v0.10.0"
  command := some ["serve", "$FLAGS"]
  environment := Table.ofList [("HF_TOKEN", "$\x7bHF_TOKEN:-\x7d")]
  volumes := some ["hf:/root/.cache/huggingface", "vllm/cfg-37b26dd08677:/root/.cache/vllm",
    "torch:/root/.cache/torch", "triton:/root/.triton", "nv:/root/.nv"]
  labels := Table.ofList [("infer-stack.deployment", "g-1"), ("infer-stack.engine", "vllm")]
  healthcheck := .test ["CMD", "curl", "-f", "http://localhost:8000/health"] "30s" "10s" 5
    (some "1800s")

theorem vllmService_flags :
    vllmService smolRenderer flagsDeployment [] none = .ok flagsService := by
  decide +kernel

/-- The texts and keys of its stanza. -/
def flagsTexts : List String :=
  ["g-1", "vllm", "hf:/root/.cache/huggingface", "vllm/cfg-37b26dd08677:/root/.cache/vllm",
    "torch:/root/.cache/torch", "triton:/root/.triton", "nv:/root/.nv", "serve", "$FLAGS",
    "$\x7bHF_TOKEN:-\x7d", "30s", "1800s", "CMD", "curl", "-f", "http://localhost:8000/health",
    "10s", "vllm/vllm-openai:v0.10.0", "unless-stopped"]

def flagsKeys : List String :=
  ["infer-stack.deployment", "infer-stack.engine", "command", "environment", "HF_TOKEN",
    "healthcheck", "interval", "retries", "start_period", "test", "timeout", "image", "restart"]

theorem texts_flags : flagsService.stanza.unstamped.texts = flagsTexts ∧
    flagsService.stanza.unstamped.keys = flagsKeys := by
  have hlabels : flagsService.labels.sorted.rows =
      [("infer-stack.deployment", "g-1"), ("infer-stack.engine", "vllm")] := by
    decide +kernel
  have henv : flagsService.environment.sorted.rows = [("HF_TOKEN", "$\x7bHF_TOKEN:-\x7d")] := by
    decide +kernel
  constructor
  · simp only [ComposeService.stanza, Stanza.unstamped, Stanza.texts, textDict, hlabels, henv]
    simp [flagsService, flagsTexts, fingerprintLabel, Healthcheck.doc, Doc.texts, textList]
  · simp only [ComposeService.stanza, Stanza.unstamped, Stanza.keys, textDict, hlabels, henv]
    simp [flagsService, flagsKeys, fingerprintLabel, Healthcheck.doc, Doc.keys, textList]

/-- Its container is kept when the variable changes. -/
theorem flags_kept :
    ¬ ∀ (R : Renderer) (d : Deployment) (gpus : List Nat) (svc : ComposeService) (F : Files)
      (name : String) (env₁ env₂ : Dict String String) (fp : Material),
      vllmService R d gpus none = .ok svc →
        (stampFingerprints id ⟨Table.ofList [(name, svc.stanza)], F⟩ env₁).get? name = some fp →
          (stampFingerprints id ⟨Table.ofList [(name, svc.stanza)], F⟩ env₂).get? name = some fp →
            SameContainer env₁ env₂ F F svc.stanza svc.stanza := by
  intro h
  have href : flagsService.stanza.unstamped.references = ["HF_TOKEN"] := by
    rw [Stanza.references, texts_flags.1, texts_flags.2]
    decide +kernel
  have hsome : ∀ t ∈ flagsService.stanza.unstamped.texts,
      (expand (Dict.get? (∅ : Dict String String)) t).isSome := by
    rw [texts_flags.1]
    decide +kernel
  have hbare : "FLAGS" ∈ bareNames (Dict.get? (∅ : Dict String String)) "$FLAGS" := by
    decide +kernel
  have hmem : "$FLAGS" ∈ flagsService.stanza.unstamped.texts := by
    rw [texts_flags.1]
    decide
  have hget : Dict.get? (Table.ofList [("g", flagsService.stanza)]) "g" =
      some flagsService.stanza := rfl
  have hcovered := mem_references_of_same
    (Stanza.interpolate_eq_some.mpr ⟨hsome, rfl⟩) (fun env₁ env₂ hvalues => by
      have hmaterial : material ⟨∅, fun _ => none⟩ env₁ flagsService.stanza =
          material ⟨∅, fun _ => none⟩ env₂ flagsService.stanza :=
        material_eq_iff.mpr ⟨rfl, rfl, hvalues⟩
      exact (h smolRenderer flagsDeployment [] flagsService ⟨∅, fun _ => none⟩ "g" env₁ env₂ _
        vllmService_flags (get?_stampFingerprints id hget)
        ((get?_stampFingerprints id hget).trans (congrArg some hmaterial.symm))).stanza)
    "$FLAGS" hmem "FLAGS" hbare
  rw [href] at hcovered
  exact absurd hcovered (by decide)

end InferStack
