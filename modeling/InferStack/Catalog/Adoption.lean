import InferStack.Catalog.Digest

/-!
# InferStack.Catalog.Adoption

What adopting catalogs into the published ones leaves.

The loop of `adoptCatalogSources` drops, one after another, the names that the
incoming definitions conflict with (`drops`), and merges what is left
(`settle_spec`).  Before it, every endpoint that the incoming sources repeat is
shed from the published ones, and with it the published bundles that name it
(`adopt_spec`).
-/

namespace InferStack

open Kit

/-! ## dropping -/

theorem textNames_drop {c : Catalog} {names : List String} (h : c.textNames) :
    (c.drop names).textNames = true := by
  refine List.all_eq_true.mpr fun ep hep => ?_
  exact textNames_mem h (mem_endpoints_drop.mp hep).1

theorem textNames_dropCatalogNames {cs : List Catalog} {names : List String}
    (h : ∀ c ∈ cs, c.textNames = true) : ∀ c ∈ dropCatalogNames cs names, c.textNames = true := by
  intro c' hc'
  obtain ⟨c, hc, rfl⟩ := mem_dropCatalogNames hc'
  exact textNames_drop (h c hc)

theorem avoids_congr {names names' : List String} (h : ∀ n, n ∈ names ↔ n ∈ names')
    (d : Definition) : d.avoids names = d.avoids names' := by
  rw [Bool.eq_iff_iff, Definition.avoids_iff, Definition.avoids_iff]
  simp only [h]

theorem avoids_append (names names' : List String) (d : Definition) :
    d.avoids (names ++ names') = (d.avoids names && d.avoids names') := by
  rw [Bool.eq_iff_iff, Bool.and_eq_true, Definition.avoids_iff, Definition.avoids_iff,
    Definition.avoids_iff]
  simp only [List.mem_append, not_or]
  constructor
  · intro h
    exact ⟨⟨h.1.1, fun m hm => (h.2 m hm).1⟩, ⟨h.1.2, fun m hm => (h.2 m hm).2⟩⟩
  · intro h
    exact ⟨⟨h.1.1, h.2.1⟩, fun m hm => ⟨h.1.2 m hm, h.2.2 m hm⟩⟩

theorem avoids_nil (d : Definition) : d.avoids [] = true := by
  rw [Definition.avoids_iff]
  simp

/-! ## the rounds -/

/-- The names that are an endpoint here and a bundle there. -/
def clashNames (defs : List Definition) : List String :=
  (defs.filterMap fun d => match d with
    | (.endpoint n, .inl _) => some n
    | _ => none).filter fun n => defs.any fun d => match d with
      | (.bundle m, .inr _) => m = n
      | _ => false

theorem mem_clashNames {defs : List Definition} {n : String} :
    n ∈ clashNames defs ↔ Clashes defs n := by
  unfold clashNames Clashes
  rw [List.mem_filter, List.mem_filterMap, List.any_eq_true]
  constructor
  · intro h
    obtain ⟨⟨d, hd, hn⟩, d', hd', hm⟩ := h
    split at hn
    · rename_i n' key
      obtain rfl := Option.some.inj hn
      split at hm
      · rename_i m ms
        have hmn : m = n' := by simpa using hm
        subst hmn
        exact ⟨⟨key, hd⟩, ms, hd'⟩
      · cases hm
    · cases hn
  · intro h
    obtain ⟨⟨key, hkey⟩, ms, hms⟩ := h
    exact ⟨⟨_, hkey, rfl⟩, _, hms, by simp⟩

/-- What the rounds drop from the base: the name of each incoming definition in conflict with what
is left, in order, and at last the names of two kinds. -/
def drops (incoming base : List Definition) : List Definition → List (List String)
  | [] =>
      if clashNames (base ++ incoming) = [] then [] else [clashNames (base ++ incoming)]
  | d :: ds =>
      if Conflicts base d then
        [d.1.name] :: drops incoming (base.filter (Definition.avoids [d.1.name])) ds
      else drops incoming base ds

/-- Sources that can be merged: valid ones, with text names, that agree. -/
structure Mergeable (cs : List Catalog) : Prop where
  valid : ∀ c ∈ cs, c.valid = true
  text : ∀ c ∈ cs, c.textNames = true
  agree : Agree (definitions cs)

theorem Mergeable.drop {cs : List Catalog} (h : Mergeable cs) (names : List String) :
    Mergeable (dropCatalogNames cs names) where
  valid := valid_dropCatalogNames h.valid
  text := textNames_dropCatalogNames h.text
  agree := by
    rw [definitions_dropCatalogNames names h.valid]
    exact h.agree.subset fun d hd => List.mem_of_mem_filter hd

/-- What merging comes to. -/
theorem merge_spec {base incoming : List Catalog} (hbase : Mergeable base)
    (hincoming : Mergeable incoming) :
    match (definitions incoming).find? (Conflicts (definitions base)) with
    | some d => mergeCatalogSources base incoming = .error (.conflict [d.1.name])
    | none => ∃ out u, (∀ c ∈ out, c ∈ base ++ incoming) ∧
        Represents u (definitions base ++ definitions incoming) ∧
        CatalogUnion.fromSources out = (if u.clash = [] then .ok u else .error (.conflict u.clash)) ∧
        mergeCatalogSources base incoming =
          if u.clash = [] then .ok out else .error (.conflict u.clash) := by
  have htext : ∀ c ∈ base ++ incoming, c.textNames = true := by
    intro c hc
    exact (List.mem_append.mp hc).elim (hbase.text c) (hincoming.text c)
  obtain ⟨out, hout, hsub, hdefs, hconflict⟩ := dedupe_sources htext
  have hvalid : ∀ c ∈ out, c.valid = true := by
    intro c hc
    exact (List.mem_append.mp (hsub c hc)).elim (hbase.valid c) (hincoming.valid c)
  have hfirst : firstConflict [] (definitions out) =
      (definitions incoming).find? (Conflicts (definitions base)) := by
    have hagree : Agree ([] ++ definitions incoming) := hincoming.agree
    have hfind : firstConflict (definitions base ++ []) (definitions incoming) =
        (definitions incoming).find? (Conflicts (definitions base)) := firstConflict_eq_find? hagree
    rw [List.append_nil] at hfind
    rw [hconflict, definitions_append, firstConflict_append, hbase.agree.firstConflict_eq_none,
      Option.none_or, List.nil_append, hfind]
  have hspec := fromSources_spec hvalid
  rw [hfirst] at hspec
  unfold mergeCatalogSources
  rw [hout]
  cases hfind : (definitions incoming).find? (Conflicts (definitions base)) with
  | some d =>
      rw [hfind] at hspec
      dsimp only at hspec ⊢
      simp only [bind, Except.bind, hspec]
  | none =>
      rw [hfind] at hspec
      obtain ⟨u, hrep, hunion⟩ := hspec
      have hrep' : Represents u (definitions base ++ definitions incoming) := by
        refine hrep.congr fun d => ?_
        rw [hdefs, definitions_append]
      refine ⟨out, u, hsub, hrep', hunion, ?_⟩
      simp only [bind, Except.bind, hunion]
      split_ifs <;> rfl

/-- Dropping the names of two kinds leaves none. -/
theorem not_clashes_drop {base incoming : List Definition} (hapart : ∀ n, ¬ Clashes incoming n)
    {names : List String} (hnames : ∀ n, Clashes (base ++ incoming) n → n ∈ names) (n : String) :
    ¬ Clashes (base.filter (Definition.avoids names) ++ incoming) n := by
  intro h
  have hmem : n ∈ names := by
    refine hnames n ⟨?_, ?_⟩
    · obtain ⟨key, hkey⟩ := h.1
      refine ⟨key, ?_⟩
      rw [List.mem_append] at hkey ⊢
      exact hkey.imp_left List.mem_of_mem_filter
    · obtain ⟨ms, hms⟩ := h.2
      refine ⟨ms, ?_⟩
      rw [List.mem_append] at hms ⊢
      exact hms.imp_left List.mem_of_mem_filter
  have hincoming : ∀ d : Definition, d.1.name = n →
      d ∈ base.filter (Definition.avoids names) ++ incoming → d ∈ incoming := by
    intro d hd hin
    cases List.mem_append.mp hin with
    | inl hbase =>
        have havoids := Definition.avoids_iff.mp (List.mem_filter.mp hbase).2
        exact absurd (hd ▸ hmem) havoids.1
    | inr hin => exact hin
  obtain ⟨⟨key, hkey⟩, ms, hms⟩ := h
  exact hapart n ⟨⟨key, hincoming _ rfl hkey⟩, ms, hincoming _ rfl hms⟩

/-- A round in which no incoming definition is in conflict. -/
theorem merge_of_no_conflict {base incoming : List Catalog} (hbase : Mergeable base)
    (hincoming : Mergeable incoming)
    (hnone : ∀ d ∈ definitions incoming, ¬ Conflicts (definitions base) d) :
    ∃ out u, (∀ c ∈ out, c ∈ base ++ incoming) ∧
      Represents u (definitions base ++ definitions incoming) ∧
      CatalogUnion.fromSources out = (if u.clash = [] then .ok u else .error (.conflict u.clash)) ∧
      mergeCatalogSources base incoming =
        if u.clash = [] then .ok out else .error (.conflict u.clash) := by
  have hfind : (definitions incoming).find? (Conflicts (definitions base)) = none := by
    rw [List.find?_eq_none]
    simpa using hnone
  have hspec := merge_spec hbase hincoming
  rw [hfind] at hspec
  exact hspec

/-- A round in which a definition is in conflict. -/
theorem merge_of_conflict {base incoming : List Catalog} (hbase : Mergeable base)
    (hincoming : Mergeable incoming) {done rest : List Definition} {d : Definition}
    (hsplit : definitions incoming = done ++ d :: rest)
    (hdone : ∀ d ∈ done, ¬ Conflicts (definitions base) d) (hd : Conflicts (definitions base) d) :
    mergeCatalogSources base incoming = .error (.conflict [d.1.name]) := by
  have hfind : (definitions incoming).find? (Conflicts (definitions base)) = some d := by
    rw [hsplit, List.find?_append]
    have hnone : done.find? (Conflicts (definitions base)) = none := by
      rw [List.find?_eq_none]
      simpa using hdone
    rw [hnone, Option.none_or, List.find?_cons_of_pos (by simpa using hd)]
  have hspec := merge_spec hbase hincoming
  rw [hfind] at hspec
  exact hspec

/-- What is dropped is in conflict no longer. -/
theorem not_conflicts_drop (base : List Definition) (d : Definition) :
    ¬ Conflicts (base.filter (Definition.avoids [d.1.name])) d := by
  intro h
  obtain ⟨d', hd', hname, -⟩ := h
  have havoids := (Definition.avoids_iff.mp (List.mem_filter.mp hd').2).1
  rw [hname] at havoids
  simp at havoids

theorem not_conflicts_filter {base : List Definition} {d : Definition} (p : Definition → Bool)
    (h : ¬ Conflicts base d) : ¬ Conflicts (base.filter p) d :=
  fun hc => h (hc.mono fun _ hd => List.mem_of_mem_filter hd)

/-- What adoption settles to. -/
structure SettlesTo (r : Except UnionError (List Catalog)) (defs : List Definition) : Prop where
  settles : ∃ out u, r = .ok out ∧ CatalogUnion.fromSources out = .ok u ∧ Represents u defs ∧
    ∀ c ∈ out, c.textNames = true

theorem filter_avoids (base : List Definition) (names names' : List String) :
    (base.filter (Definition.avoids names)).filter (Definition.avoids names') =
      base.filter (Definition.avoids (names ++ names')) := by
  rw [List.filter_filter]
  refine List.filter_congr fun d _ => ?_
  rw [avoids_append, Bool.and_comm]

/-- The last round, on sources without conflict and without names of two kinds. -/
theorem settle_last {incoming base : List Catalog} (hincoming : Mergeable incoming)
    (hbase : Mergeable base)
    (hnone : ∀ d ∈ definitions incoming, ¬ Conflicts (definitions base) d)
    (hapart : ∀ n, ¬ Clashes (definitions base ++ definitions incoming) n) (pinned : List String)
    (rounds : Nat) :
    SettlesTo (settleRounds incoming pinned (rounds + 1) base)
      (definitions base ++ definitions incoming) := by
  obtain ⟨out, u, hsub, hrep, hunion, hmerge⟩ := merge_of_no_conflict hbase hincoming hnone
  have hclash : u.clash = [] := by
    rw [List.eq_nil_iff_forall_not_mem]
    exact fun n hn => hapart n ((hrep.mem_clash n).mp hn)
  rw [if_pos hclash] at hunion hmerge
  refine ⟨out, u, ?_, hunion, hrep, fun c hc => ?_⟩
  · unfold settleRounds
    rw [hmerge]
  · exact (List.mem_append.mp (hsub c hc)).elim (hbase.text c) (hincoming.text c)

/-- The rounds once no incoming definition is in conflict. -/
theorem settle_apart {incoming : List Catalog} (hincoming : Mergeable incoming)
    (hapart : ∀ n, ¬ Clashes (definitions incoming) n) (pinned : List String)
    (rounds : Nat) {base : List Catalog} (hbase : Mergeable base)
    (hnone : ∀ d ∈ definitions incoming, ¬ Conflicts (definitions base) d) :
    let names := drops (definitions incoming) (definitions base) []
    if (∃ n ∈ names.flatten, n ∈ pinned) ∨ rounds ≤ names.length then
      ∃ ns, settleRounds incoming pinned rounds base = .error (.conflict ns)
    else SettlesTo (settleRounds incoming pinned rounds base)
      ((definitions base).filter (Definition.avoids names.flatten) ++ definitions incoming) := by
  have hclashes : ∀ n, n ∈ clashNames (definitions base ++ definitions incoming) ↔
      Clashes (definitions base ++ definitions incoming) n := fun n => mem_clashNames
  cases rounds with
  | zero =>
      rw [if_pos (.inr (Nat.zero_le _))]
      exact ⟨[], rfl⟩
  | succ rounds =>
      by_cases hempty : clashNames (definitions base ++ definitions incoming) = []
      · have hno : ∀ n, ¬ Clashes (definitions base ++ definitions incoming) n := by
          intro n hn
          have hmem := (hclashes n).mpr hn
          rw [hempty] at hmem
          cases hmem
        have hlast := settle_last hincoming hbase hnone hno pinned rounds
        have hall : (definitions base).filter (Definition.avoids []) = definitions base :=
          List.filter_eq_self.mpr fun d _ => avoids_nil d
        simp only [drops, if_pos hempty, List.flatten_nil, List.length_nil, hall]
        rw [if_neg (by simp)]
        exact hlast
      · -- one more round drops the names of two kinds
        obtain ⟨out, u, -, hrep, -, hmerge⟩ := merge_of_no_conflict hbase hincoming hnone
        have hsame : ∀ n, n ∈ u.clash ↔
            n ∈ clashNames (definitions base ++ definitions incoming) :=
          fun n => (hrep.mem_clash n).trans (hclashes n).symm
        have hne : u.clash ≠ [] := by
          intro hnil
          refine hempty (List.eq_nil_iff_forall_not_mem.mpr fun n hn => ?_)
          have hmem := (hsame n).mpr hn
          rw [hnil] at hmem
          cases hmem
        rw [if_neg hne] at hmerge
        have hround : settleRounds incoming pinned (rounds + 1) base =
            if u.clash = [] ∨ ∃ n ∈ u.clash, n ∈ pinned then .error (.conflict u.clash)
            else settleRounds incoming pinned rounds (dropCatalogNames base u.clash) := by
          rw [settleRounds, hmerge]
        simp only [drops, if_neg hempty, List.flatten_cons, List.flatten_nil, List.append_nil,
          List.length_singleton]
        by_cases hpin : ∃ n ∈ clashNames (definitions base ++ definitions incoming), n ∈ pinned
        · obtain ⟨n, hn, hnpin⟩ := hpin
          rw [if_pos (.inl ⟨n, hn, hnpin⟩), hround,
            if_pos (.inr ⟨n, (hsame n).mpr hn, hnpin⟩)]
          exact ⟨u.clash, rfl⟩
        · have hgo : ¬ (u.clash = [] ∨ ∃ n ∈ u.clash, n ∈ pinned) := by
            intro h
            cases h with
            | inl hnil => exact hne hnil
            | inr hex =>
                obtain ⟨n, hn, hnpin⟩ := hex
                exact hpin ⟨n, (hsame n).mp hn, hnpin⟩
          rw [hround, if_neg hgo]
          cases rounds with
          | zero =>
              rw [if_pos (.inr (Nat.le_refl 1))]
              exact ⟨[], rfl⟩
          | succ rounds =>
              have hdefs := definitions_dropCatalogNames u.clash hbase.valid
              have hfilter : (definitions base).filter (Definition.avoids u.clash) =
                  (definitions base).filter (Definition.avoids
                    (clashNames (definitions base ++ definitions incoming))) :=
                List.filter_congr fun d _ => avoids_congr hsame d
              have hnone' : ∀ d ∈ definitions incoming,
                  ¬ Conflicts (definitions (dropCatalogNames base u.clash)) d := by
                rw [hdefs]
                exact fun d hd => not_conflicts_filter _ (hnone d hd)
              have hapart' : ∀ n, ¬ Clashes (definitions (dropCatalogNames base u.clash) ++
                  definitions incoming) n := by
                rw [hdefs]
                exact not_clashes_drop hapart fun n hn => (hsame n).mpr ((hclashes n).mpr hn)
              have hlast := settle_last hincoming (hbase.drop u.clash) hnone' hapart' pinned rounds
              rw [hdefs, hfilter] at hlast
              rw [if_neg (by simpa using hpin)]
              exact hlast

/-- The rounds refuse with a conflict if they drop a pinned name or run out, and settle otherwise. -/
theorem settle_spec {incoming : List Catalog} (hincoming : Mergeable incoming)
    (hapart : ∀ n, ¬ Clashes (definitions incoming) n) (pinned : List String)
    (rest done : List Definition) (hsplit : definitions incoming = done ++ rest)
    (rounds : Nat) {base : List Catalog} (hbase : Mergeable base)
    (hdone : ∀ d ∈ done, ¬ Conflicts (definitions base) d) :
    let names := drops (definitions incoming) (definitions base) rest
    if (∃ n ∈ names.flatten, n ∈ pinned) ∨ rounds ≤ names.length then
      ∃ ns, settleRounds incoming pinned rounds base = .error (.conflict ns)
    else SettlesTo (settleRounds incoming pinned rounds base)
      ((definitions base).filter (Definition.avoids names.flatten) ++ definitions incoming) := by
  induction rest generalizing done rounds base with
  | nil =>
      have hnone : ∀ d ∈ definitions incoming, ¬ Conflicts (definitions base) d := by
        rw [hsplit, List.append_nil]
        exact hdone
      exact settle_apart hincoming hapart pinned rounds hbase hnone
  | cons d rest ih =>
      have hstep : definitions incoming = (done ++ [d]) ++ rest := by simpa using hsplit
      by_cases hd : Conflicts (definitions base) d
      · have hmerge := merge_of_conflict hbase hincoming hsplit hdone hd
        simp only [drops, if_pos hd]
        cases rounds with
        | zero =>
            rw [if_pos (.inr (Nat.zero_le _))]
            exact ⟨[], rfl⟩
        | succ rounds =>
            unfold settleRounds
            rw [hmerge]
            dsimp only
            by_cases hpin : d.1.name ∈ pinned
            · have hpinned : ∃ n ∈ ([d.1.name] :: drops (definitions incoming)
                  ((definitions base).filter (Definition.avoids [d.1.name])) rest).flatten,
                  n ∈ pinned := ⟨d.1.name, by simp, hpin⟩
              rw [if_pos (.inl hpinned), if_pos (.inr ⟨d.1.name, by simp, hpin⟩)]
              exact ⟨[d.1.name], rfl⟩
            · have hgo : ¬ ([d.1.name] = [] ∨ ∃ n ∈ [d.1.name], n ∈ pinned) := by simp [hpin]
              rw [if_neg hgo]
              have hdefs := definitions_dropCatalogNames [d.1.name] hbase.valid
              have hdone' : ∀ d' ∈ done ++ [d],
                  ¬ Conflicts (definitions (dropCatalogNames base [d.1.name])) d' := by
                rw [hdefs]
                intro d' hd'
                cases List.mem_append.mp hd' with
                | inl hold => exact not_conflicts_filter _ (hdone d' hold)
                | inr hnew =>
                    rw [List.mem_singleton.mp hnew]
                    exact not_conflicts_drop (definitions base) d
              have hrest := ih (done ++ [d]) hstep rounds (hbase.drop [d.1.name]) hdone'
              rw [hdefs] at hrest
              have hsame : ((∃ n ∈ ([d.1.name] :: drops (definitions incoming)
                  ((definitions base).filter (Definition.avoids [d.1.name])) rest).flatten,
                  n ∈ pinned) ∨ rounds + 1 ≤ ([d.1.name] :: drops (definitions incoming)
                  ((definitions base).filter (Definition.avoids [d.1.name])) rest).length) ↔
                  ((∃ n ∈ (drops (definitions incoming)
                  ((definitions base).filter (Definition.avoids [d.1.name])) rest).flatten,
                  n ∈ pinned) ∨ rounds ≤ (drops (definitions incoming)
                  ((definitions base).filter (Definition.avoids [d.1.name])) rest).length) := by
                simp [hpin]
              rw [List.flatten_cons, ← filter_avoids]
              simp only [List.flatten_cons] at hsame
              simp only [hsame]
              exact hrest
      · have hdone' : ∀ d' ∈ done ++ [d], ¬ Conflicts (definitions base) d' := by
          intro d' hd'
          cases List.mem_append.mp hd' with
          | inl hold => exact hdone d' hold
          | inr hnew => exact List.mem_singleton.mp hnew ▸ hd
        have hrest := ih (done ++ [d]) hstep rounds hbase hdone'
        simpa only [drops, if_neg hd] using hrest

/-! ## adoption as a whole -/

/-- The endpoints that the incoming definitions repeat. -/
def repeats (published incoming : List Definition) : List String :=
  published.filterMap fun d => match d with
    | (.endpoint n, .inl key) =>
        if incoming.any fun d => d = (.endpoint n, .inl key) then some n else none
    | _ => none

theorem mem_repeats {published incoming : List Definition} {n : String} :
    n ∈ repeats published incoming ↔
      ∃ key, (.endpoint n, .inl key) ∈ published ∧ (.endpoint n, .inl key) ∈ incoming := by
  unfold repeats
  rw [List.mem_filterMap]
  constructor
  · intro h
    obtain ⟨d, hd, hn⟩ := h
    split at hn
    · rename_i n' key
      rw [Option.ite_none_right_eq_some] at hn
      obtain ⟨hin, hn⟩ := hn
      obtain rfl := Option.some.inj hn
      exact ⟨key, hd, by simpa using hin⟩
    · cases hn
  · intro h
    obtain ⟨key, hpub, hin⟩ := h
    exact ⟨_, hpub, by simp [hin]⟩

/-- The published definitions once the repeated endpoints are shed. -/
def shed (published incoming : List Definition) : List Definition :=
  published.filter (Definition.avoids (repeats published incoming))

/-- What the rounds of an adoption drop. -/
def adoptionDrops (published incoming : List Definition) : List (List String) :=
  drops incoming (shed published incoming) incoming

/-- The published definitions that an adoption leaves. -/
def leftover (published incoming : List Definition) : List Definition :=
  (shed published incoming).filter (Definition.avoids (adoptionDrops published incoming).flatten)

theorem Consistent.mergeable {cs : List Catalog} (h : Consistent cs)
    (htext : ∀ c ∈ cs, c.textNames = true) : Mergeable cs := ⟨h.valid, htext, h.agree⟩

/-- An endpoint that some source defines. -/
theorem mem_definitions_endpoint {cs : List Catalog} {n : String} {key : EndpointKey} :
    (DefName.endpoint n, Sum.inl key) ∈ definitions cs ↔
      ∃ c ∈ cs, n ∈ c.endpoints.keys ∧ c.endpointKey n = key := by
  unfold definitions Catalog.definitions
  simp only [List.mem_flatMap, List.mem_append, List.mem_map, endpointDef, bundleDef, Prod.mk.injEq,
    DefName.endpoint.injEq, Sum.inl.injEq, reduceCtorEq, and_false, exists_false,
    or_false]
  constructor
  · intro h
    obtain ⟨c, hc, ep, hep, rfl, hkey⟩ := h
    exact ⟨c, hc, Table.mem_keys.mpr ⟨ep, hep, rfl⟩, hkey⟩
  · intro h
    obtain ⟨c, hc, hn, hkey⟩ := h
    obtain ⟨ep, hep, rfl⟩ := Table.mem_keys.mp hn
    exact ⟨c, hc, ep, hep, rfl, hkey⟩

theorem mem_definitions_bundle {cs : List Catalog} {n : String} {ms : List String} :
    (DefName.bundle n, Sum.inr ms) ∈ definitions cs ↔ ∃ c ∈ cs, (n, ms) ∈ c.bundles := by
  unfold definitions Catalog.definitions
  simp only [List.mem_flatMap, List.mem_append, List.mem_map, endpointDef, bundleDef, Prod.mk.injEq,
    DefName.bundle.injEq, Sum.inr.injEq, reduceCtorEq, and_false, exists_false,
    false_or]
  constructor
  · intro h
    obtain ⟨c, hc, b, hb, rfl, rfl⟩ := h
    exact ⟨c, hc, hb⟩
  · intro h
    obtain ⟨c, hc, hb⟩ := h
    exact ⟨c, hc, (n, ms), hb, rfl, rfl⟩

/-- The members of a bundle are endpoints of its source. -/
theorem member_defined {cs : List Catalog} (hvalid : ∀ c ∈ cs, c.valid = true) {n : String}
    {ms : List String} (h : (DefName.bundle n, Sum.inr ms) ∈ definitions cs) {m : String}
    (hm : m ∈ ms) : ∃ key, (DefName.endpoint m, Sum.inl key) ∈ definitions cs := by
  obtain ⟨c, hc, hb⟩ := mem_definitions_bundle.mp h
  have hkey := valid_members (hvalid c hc) hb hm
  exact ⟨c.endpointKey m, mem_definitions_endpoint.mpr ⟨c, hc, hkey, rfl⟩⟩

/-- The names that adoption sheds before its rounds. -/
theorem mem_repeatedNames {published incoming : List Catalog} (hvalid : ∀ c ∈ published, c.valid)
    {mine : CatalogUnion} (hmine : Represents mine (definitions incoming)) {n : String} :
    n ∈ published.flatMap (repeatedNames mine) ↔
      n ∈ repeats (definitions published) (definitions incoming) := by
  rw [mem_repeats, List.mem_flatMap]
  have hnames : ∀ c ∈ published, n ∈ repeatedNames mine c ↔
      n ∈ c.endpoints.keys ∧ mine.endpointKey n = some (c.endpointKey n) := by
    intro c hc
    unfold repeatedNames
    rw [if_pos (hvalid c hc), List.mem_filter, decide_eq_true_eq]
  constructor
  · intro h
    obtain ⟨c, hc, hn⟩ := h
    obtain ⟨hkey, hsame⟩ := (hnames c hc).mp hn
    exact ⟨c.endpointKey n, mem_definitions_endpoint.mpr ⟨c, hc, hkey, rfl⟩,
      (hmine.endpoint n _).mpr hsame⟩
  · intro h
    obtain ⟨key, hpub, hin⟩ := h
    obtain ⟨c, hc, hn, rfl⟩ := mem_definitions_endpoint.mp hpub
    exact ⟨c, hc, (hnames c hc).mpr ⟨hn, (hmine.endpoint n _).mp hin⟩⟩

/-- Adoption refuses with a conflict if it drops a pinned name or runs out of rounds, and settles
otherwise. -/
theorem adopt_spec {published incoming : List Catalog} (hpub : Consistent published)
    (hin : Consistent incoming) (htext : ∀ c ∈ published ++ incoming, c.textNames = true)
    (pinned : List String) :
    if (∃ n ∈ (adoptionDrops (definitions published) (definitions incoming)).flatten, n ∈ pinned) ∨
        64 ≤ (adoptionDrops (definitions published) (definitions incoming)).length then
      ∃ ns, adoptCatalogSources published incoming pinned = .error (.conflict ns)
    else SettlesTo (adoptCatalogSources published incoming pinned)
      (leftover (definitions published) (definitions incoming) ++ definitions incoming) := by
  have hpubText : ∀ c ∈ published, c.textNames = true :=
    fun c hc => htext c (List.mem_append_left _ hc)
  have hinText : ∀ c ∈ incoming, c.textNames = true :=
    fun c hc => htext c (List.mem_append_right _ hc)
  have hmergeIn := hin.mergeable hinText
  have hmergePub := hpub.mergeable hpubText
  have hbase : ∃ base, Mergeable base ∧
      definitions base = shed (definitions published) (definitions incoming) ∧
      adoptCatalogSources published incoming pinned = settleRounds incoming pinned 64 base := by
    by_cases hnil : incoming = []
    · refine ⟨published, hmergePub, ?_, ?_⟩
      · have hall : ∀ d ∈ definitions published, d.avoids (repeats (definitions published)
            (definitions incoming)) = true := by
          intro d _
          have hempty : repeats (definitions published) (definitions incoming) = [] := by
            rw [List.eq_nil_iff_forall_not_mem]
            intro n hn
            obtain ⟨key, -, hmem⟩ := mem_repeats.mp hn
            rw [hnil] at hmem
            cases hmem
          rw [hempty]
          exact avoids_nil d
        exact (List.filter_eq_self.mpr hall).symm
      · unfold adoptCatalogSources
        rw [if_pos hnil]
        rfl
    · obtain ⟨mine, hmine, hrep⟩ := hin.union
      refine ⟨dropCatalogNames published (published.flatMap (repeatedNames mine)),
        hmergePub.drop _, ?_, ?_⟩
      · rw [definitions_dropCatalogNames _ hpub.valid]
        exact List.filter_congr fun d _ =>
          avoids_congr (fun n => mem_repeatedNames hpub.valid hrep) d
      · unfold adoptCatalogSources
        rw [if_neg hnil, hmine]
        rfl
  obtain ⟨base, hmergeable, hdefs, hadopt⟩ := hbase
  have hspec := settle_spec hmergeIn hin.apart pinned (definitions incoming) [] rfl 64 hmergeable
    (by simp)
  rw [hdefs] at hspec
  rw [hadopt]
  exact hspec

/-! ## what the rounds drop -/

theorem Clashes.mono {defs defs' : List Definition} (h : ∀ d ∈ defs, d ∈ defs') {n : String}
    (hn : Clashes defs n) : Clashes defs' n := by
  obtain ⟨⟨key, hkey⟩, ms, hms⟩ := hn
  exact ⟨⟨key, h _ hkey⟩, ms, h _ hms⟩

/-- A dropped name is in conflict, or of two kinds. -/
theorem of_mem_drops {incoming base rest : List Definition} {n : String}
    (h : n ∈ (drops incoming base rest).flatten) :
    (∃ d ∈ rest, d.1.name = n ∧ Conflicts base d) ∨ Clashes (base ++ incoming) n := by
  induction rest generalizing base with
  | nil =>
      unfold drops at h
      split at h
      · cases h
      · rw [List.flatten_singleton] at h
        exact .inr (mem_clashNames.mp h)
  | cons d rest ih =>
      unfold drops at h
      by_cases hd : Conflicts base d
      · rw [if_pos hd, List.flatten_cons, List.mem_append] at h
        cases h with
        | inl hhead =>
            have hname : n = d.1.name := by simpa using hhead
            exact .inl ⟨d, List.mem_cons_self, hname.symm, hd⟩
        | inr htail =>
            cases ih htail with
            | inl hconf =>
                obtain ⟨d', hd', hname, hc⟩ := hconf
                exact .inl ⟨d', List.mem_cons_of_mem d hd', hname,
                  hc.mono fun _ hx => List.mem_of_mem_filter hx⟩
            | inr hclash =>
                refine .inr (hclash.mono fun x hx => ?_)
                rw [List.mem_append] at hx ⊢
                exact hx.imp_left List.mem_of_mem_filter
      · rw [if_neg hd] at h
        cases ih h with
        | inl hconf =>
            obtain ⟨d', hd', hname, hc⟩ := hconf
            exact .inl ⟨d', List.mem_cons_of_mem d hd', hname, hc⟩
        | inr hclash => exact .inr hclash

/-- A redefined endpoint is dropped. -/
theorem mem_drops {incoming base rest : List Definition} {n : String} {key : EndpointKey}
    (hbase : (.endpoint n, .inl key) ∈ base)
    (h : (∃ d ∈ rest, d.1 = .endpoint n ∧ d.2 ≠ .inl key) ∨
      ∃ ms, (.bundle n, .inr ms) ∈ incoming) :
    n ∈ (drops incoming base rest).flatten := by
  induction rest generalizing base with
  | nil =>
      have hclash : n ∈ clashNames (base ++ incoming) := by
        cases h with
        | inl hnil =>
            obtain ⟨d, hd, -⟩ := hnil
            cases hd
        | inr hbundle =>
            obtain ⟨ms, hms⟩ := hbundle
            exact mem_clashNames.mpr
              ⟨⟨key, List.mem_append_left _ hbase⟩, ms, List.mem_append_right _ hms⟩
      unfold drops
      rw [if_neg (List.ne_nil_of_mem hclash), List.flatten_singleton]
      exact hclash
  | cons d rest ih =>
      have hrest : d.1 ≠ .endpoint n ∨ d.2 = .inl key →
          (∃ d ∈ rest, d.1 = .endpoint n ∧ d.2 ≠ .inl key) ∨
            ∃ ms, (.bundle n, .inr ms) ∈ incoming := by
        intro hother
        refine h.imp_left fun hex => ?_
        obtain ⟨d', hd', hname, hne⟩ := hex
        cases List.mem_cons.mp hd' with
        | inl heq =>
            rw [heq] at hname hne
            exact absurd hother (not_or.mpr ⟨fun hn => hn hname, hne⟩)
        | inr hmem => exact ⟨d', hmem, hname, hne⟩
      unfold drops
      by_cases hd : Conflicts base d
      · rw [if_pos hd, List.flatten_cons, List.mem_append]
        by_cases hname : d.1.name = n
        · exact .inl (by simp [hname])
        · have hkept : (DefName.endpoint n, Sum.inl key) ∈
              base.filter (Definition.avoids [d.1.name]) := by
            refine List.mem_filter.mpr ⟨hbase, Definition.avoids_iff.mpr ⟨?_, fun m hm => ?_⟩⟩
            · simpa [DefName.name] using Ne.symm hname
            · cases hm
          refine .inr (ih hkept (hrest (.inl fun heq => hname ?_)))
          rw [heq]
          rfl
      · rw [if_neg hd]
        refine ih hbase (hrest ?_)
        by_contra hnot
        rw [not_or, not_not] at hnot
        exact hd ⟨_, hbase, hnot.1.symm, Ne.symm hnot.2⟩

/-- Where nothing is in conflict and nothing of two kinds, nothing is dropped. -/
theorem drops_eq_nil {incoming base rest : List Definition}
    (hrest : ∀ d ∈ rest, ¬ Conflicts base d) (hapart : ∀ n, ¬ Clashes (base ++ incoming) n) :
    drops incoming base rest = [] := by
  induction rest with
  | nil =>
      have hnil : clashNames (base ++ incoming) = [] := by
        rw [List.eq_nil_iff_forall_not_mem]
        exact fun n hn => hapart n (mem_clashNames.mp hn)
      unfold drops
      rw [if_pos hnil]
  | cons d rest ih =>
      unfold drops
      rw [if_neg (hrest d List.mem_cons_self)]
      exact ih fun d' hd' => hrest d' (List.mem_cons_of_mem d hd')

end InferStack
