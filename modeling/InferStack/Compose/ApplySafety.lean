import InferStack.Compose.SelectiveApply

/-!
# InferStack.Compose.ApplySafety

What a completed selective apply has done to the project's containers.

The run is read in two parts.  `Cleared` is the runtime after the removals: the
departing containers are gone and nothing else is.  `mem_upAll` is what
starting services does to it.  `selectiveApply_ok` puts them together, and
`selectiveApply_safe_iff` reads the safety of the whole apply off it.
-/

namespace InferStack

open Kit

/-! ## the safety of an apply -/

/-- What a completed apply owes the project. -/
structure SafeApply (p : Project) (docker : Docker) (run : ApplyRun) : Prop where
  /-- Every wanted non-optional service has exactly one container of its own. -/
  served : ∀ s ∈ p.services, s.name ∉ p.optional →
    ∃ c ∈ run.docker.containers, p.key c = some (p.wanted s.name) ∧
      ∀ c' ∈ run.docker.containers, p.key c' = some (p.wanted s.name) → c' = c
  /-- No container that serves a wanted configuration was removed or replaced. -/
  kept : ∀ c ∈ docker.containers, p.keeps c → c.containerId ∉ run.gone
  /-- Nor was an orphan, or a container of a degraded deployment. -/
  leftAlone : ∀ c ∈ docker.containers,
    (p.key c = none ∨ c.deploymentId ∈ p.degraded) → c.containerId ∉ run.gone
  optional : ∀ sc ∈ run.started, sc.1 ∉ p.optional
  /-- A GPU of a started service is held by its own container only. -/
  gpus : ∀ sc ∈ run.started, ∀ s ∈ p.services, s.name = sc.1 → ∀ g ∈ s.gpus,
    ∀ c ∈ run.docker.containers, c.occupies g → c.containerId = sc.2

/-- The wanted services reserve different GPUs. -/
def Project.GpuDisjoint (p : Project) : Prop :=
  ∀ s ∈ p.services, ∀ t ∈ p.services, s.name ≠ t.name → ∀ g ∈ s.gpus, g ∉ t.gpus

/-- No container that stays was created for a service to start, or carries the
wanted key of one. -/
structure StartsApart (p : Project) (docker : Docker) : Prop where
  created : ∀ c ∈ docker.containers, ¬ p.departs c →
    ∀ s ∈ docker.toStart p, c.composeService ≠ s.name
  carries : ∀ c ∈ docker.containers, ¬ p.departs c →
    ∀ s ∈ docker.toStart p, p.key c ≠ some (p.wanted s.name)

/-! ## classification -/

section Classify

variable {p : Project} {docker : Docker} {c : Container}

theorem mem_departing : c ∈ docker.departing p ↔ c ∈ docker.containers ∧ p.departs c := by
  simp [Docker.departing, Table.mem_def]

theorem mem_toStart {s : Service} : s ∈ docker.toStart p ↔
    s ∈ p.services ∧ s.name ∉ docker.keptServices p ∧ s.name ∉ p.optional := by
  simp [Docker.toStart, Table.mem_def]

/-- A container that stays is kept, an orphan, or of a degraded deployment. -/
theorem not_departs_iff : ¬ p.departs c ↔
    p.keeps c ∨ p.key c = none ∨ c.deploymentId ∈ p.degraded := by
  cases hkey : p.key c with
  | none => simp [Project.departs, hkey]
  | some k =>
      by_cases hkeeps : p.keeps c <;> by_cases hdeg : c.deploymentId ∈ p.degraded <;>
        simp [Project.departs, hkey, hkeeps, hdeg]

/-- A kept container carries the wanted key of a service, which is not started. -/
theorem keeps_key (hc : c ∈ docker.containers) (h : p.keeps c) :
    ∃ name ∈ p.services.keys, p.key c = some (p.wanted name) ∧
      name ∈ docker.keptServices p := by
  unfold Project.keeps at h
  obtain ⟨hwarm, hany⟩ := Bool.and_eq_true_iff.mp h
  obtain ⟨k, hk, hwanted⟩ := (Option.any_eq_true ..).mp hany
  obtain ⟨hmem, hkw⟩ := of_decide_eq_true hwanted
  refine ⟨k.1, hmem, by rw [hk]; exact congrArg some hkw, ?_⟩
  unfold Docker.keptServices
  rw [List.mem_filterMap]
  refine ⟨c, ?_, by rw [hk]; rfl⟩
  unfold Docker.kept
  exact List.mem_filter.mpr ⟨hc, h⟩

/-- A service with no container kept for it is started, unless it is optional. -/
theorem kept_of_not_toStart {s : Service} (hs : s ∈ p.services) (hopt : s.name ∉ p.optional)
    (h : s ∉ docker.toStart p) :
    ∃ c ∈ docker.containers, p.keeps c ∧ p.key c = some (p.wanted s.name) := by
  have hkept : s.name ∈ docker.keptServices p := by
    by_contra hnot
    exact h (mem_toStart.mpr ⟨hs, hnot, hopt⟩)
  unfold Docker.keptServices at hkept
  obtain ⟨c, hc, hname⟩ := List.mem_filterMap.mp hkept
  unfold Docker.kept at hc
  obtain ⟨hrow, hkeeps⟩ := List.mem_filter.mp hc
  have hmem : c ∈ docker.containers := hrow
  obtain ⟨name, -, hkey, -⟩ := keeps_key hmem hkeeps
  rw [hkey, Option.map_some, Option.some.injEq] at hname
  have hsame : name = s.name := hname
  exact ⟨c, hmem, hkeeps, hsame ▸ hkey⟩

theorem toStart_nodup (p : Project) (docker : Docker) : ((docker.toStart p).map Service.name).Nodup :=
  p.services.nodup.sublist (List.filter_sublist.map _)

end Classify

/-! ## what the checks rule out -/

section Preflight

variable {p : Project} {docker : Docker}

/-- A passed preflight has passed every check. -/
theorem preflight_eq_none : preflight p docker = none ↔
    ambiguousService p docker = none ∧ stillRemoving p docker = none ∧
      gpusBlocked p docker = none ∧ addressBlocked p docker = none ∧
      networkBlocked p docker = none := by
  unfold preflight
  simp only [Option.orElse_eq_orElse, Option.orElse_eq_or, Option.or_eq_none_iff]

/-- No two containers carry the wanted key of one service. -/
theorem key_unique (h : ambiguousService p docker = none) {s : Service} (hs : s ∈ p.services)
    {c c' : Container} (hc : c ∈ docker.containers) (hc' : c' ∈ docker.containers)
    (hkey : p.key c = some (p.wanted s.name)) (hkey' : p.key c' = some (p.wanted s.name)) :
    c = c' := by
  have hcount := List.findSome?_eq_none_iff.mp h s hs
  have hle : (docker.containers.rows.filter
      fun c => p.key c = some (p.wanted s.name)).length ≤ 1 := by
    by_contra hlt
    simp only [not_le] at hlt
    simp [hlt] at hcount
  have hmem : ∀ e ∈ docker.containers, p.key e = some (p.wanted s.name) →
      e ∈ docker.containers.rows.filter fun c => p.key c = some (p.wanted s.name) := by
    intro e he hk
    exact List.mem_filter.mpr ⟨he, by simpa using hk⟩
  have h₁ := hmem c hc hkey
  have h₂ := hmem c' hc' hkey'
  match hl : docker.containers.rows.filter fun c => p.key c = some (p.wanted s.name) with
  | [] => rw [hl] at h₁; contradiction
  | [e] => rw [hl, List.mem_singleton] at h₁ h₂; exact h₁.trans h₂.symm
  | _ :: _ :: _ => rw [hl] at hle; simp at hle

/-- Every container on a GPU of a service to start is departing. -/
theorem occupant_departs (h : gpusBlocked p docker = none) {s : Service}
    (hs : s ∈ docker.toStart p) {g : Nat} (hg : g ∈ s.gpus) {c : Container}
    (hc : c ∈ docker.containers) (hocc : c.occupies g) : p.departs c := by
  have hblocked := List.findSome?_eq_none_iff.mp (List.findSome?_eq_none_iff.mp h s hs) g hg
  unfold gpuBlocked at hblocked
  simp only [Option.orElse_eq_orElse, Option.orElse_eq_or, Option.or_eq_none_iff] at hblocked
  have hmem : c ∈ docker.containers.rows.filter (·.occupies g) := List.mem_filter.mpr ⟨hc, hocc⟩
  have hfree := List.findSome?_eq_none_iff.mp hblocked.1 c hmem
  have hheld := List.findSome?_eq_none_iff.mp hblocked.2 c hmem
  by_contra hdeparts
  have hkeeps : p.keeps c := by
    by_contra hnot
    simp [hnot, hdeparts] at hfree
  -- a kept occupant would serve this very service, which is then not started
  obtain ⟨name, -, hkey, hkept⟩ := keeps_key hc hkeeps
  have hname : name = s.name := by
    by_contra hne
    simp [hkeeps, hkey, Project.wanted, hne] at hheld
  exact (mem_toStart.mp hs).2.1 (hname ▸ hkept)

end Preflight

/-! ## removing -/

/-- The runtime before anything starts: the departing containers are gone, and
every other one is there, but for its state. -/
structure Cleared (p : Project) (docker : Docker) (run : ApplyRun) : Prop where
  gone : ∀ id, id ∈ run.gone ↔ ∃ c ∈ docker.containers, p.departs c ∧ c.containerId = id
  started : run.started = []
  stayed : ∀ c' ∈ run.docker.containers, ∃ c ∈ docker.containers, ¬ p.departs c ∧
    c' = { c with state := c'.state }
  stays : ∀ c ∈ docker.containers, ¬ p.departs c →
    ∃ c' ∈ run.docker.containers, c' = { c with state := c'.state }

section Clear

variable {p : Project} {cmds : Commands} {docker : Docker} {run run' : ApplyRun}

/-- Containers of one id are one container. -/
theorem eq_of_containerId {c c' : Container} (hc : c ∈ docker.containers)
    (hc' : c' ∈ docker.containers) (h : c.containerId = c'.containerId) : c = c' :=
  Table.eq_of_key_eq hc hc' h

theorem cleared_remove (p : Project) (docker : Docker) : Cleared p docker
    (({ docker := docker } : ApplyRun).remove ((docker.departing p).map Container.containerId)) := by
  have hids : ∀ c ∈ docker.containers,
      (c.containerId ∈ (docker.departing p).map Container.containerId ↔ p.departs c) := by
    intro c hc
    rw [List.mem_map]
    constructor
    · intro h
      obtain ⟨e, he, hid⟩ := h
      obtain ⟨hmem, hdeparts⟩ := mem_departing.mp he
      exact eq_of_containerId hmem hc hid ▸ hdeparts
    · intro h
      exact ⟨c, mem_departing.mpr ⟨hc, h⟩, rfl⟩
  have hmem : ∀ c, c ∈ docker.containers.filter (fun c => decide
      (c.containerId ∉ (docker.departing p).map Container.containerId)) ↔
        c ∈ docker.containers ∧ ¬ p.departs c := by
    intro c
    rw [Table.mem_filter, decide_eq_true_eq]
    exact and_congr_right fun hc => not_congr (hids c hc)
  constructor
  · intro id
    show id ∈ [] ++ (docker.departing p).map Container.containerId ↔ _
    simp only [List.nil_append, List.mem_map, mem_departing, and_assoc]
  · rfl
  · intro c hc
    obtain ⟨hin, hstay⟩ := (hmem c).mp hc
    exact ⟨c, hin, hstay, rfl⟩
  · intro c hc hstay
    exact ⟨c, (hmem c).mpr ⟨hc, hstay⟩, rfl⟩

theorem cleared_removeDeparting (h : removeDeparting p cmds docker = .ok run) :
    Cleared p docker run := by
  unfold removeDeparting at h
  by_cases hnil : (docker.departing p).map Container.containerId = []
  · rw [if_pos hnil, Except.ok.injEq] at h
    have hremove := cleared_remove p docker
    rw [hnil] at hremove
    have hsame : ({ docker := docker } : ApplyRun).docker.containers.filter
        (fun c => decide (c.containerId ∉ ([] : List String))) = docker.containers := by
      refine Table.ext ?_
      show docker.containers.rows.filter _ = _
      simp
    obtain ⟨hgone, hstarted, hstayed, hstays⟩ := hremove
    unfold ApplyRun.remove at hstayed hstays
    rw [hsame] at hstayed hstays
    subst h
    exact ⟨hgone, hstarted, hstayed, hstays⟩
  · rw [if_neg hnil] at h
    cases hrm : cmds.rm with
    | error done => simp [hrm] at h
    | ok u =>
        by_cases hbarrier : cmds.barrier
        · simp only [hrm, hbarrier, if_true, Except.ok.injEq] at h
          subst h
          exact cleared_remove p docker
        · simp [hrm, hbarrier] at h

/-- Dropping the network touches no container. -/
theorem reconcileNetwork_ok (h : reconcileNetwork p cmds run = .ok run') :
    run'.docker.containers = run.docker.containers ∧ run'.gone = run.gone ∧
      run'.started = run.started := by
  unfold reconcileNetwork at h
  cases hsub : p.subnet with
  | none => simp only [hsub, Except.ok.injEq] at h; subst h; exact ⟨rfl, rfl, rfl⟩
  | some wanted =>
      cases hnet : run.docker.network with
      | none => simp only [hsub, hnet, Except.ok.injEq] at h; subst h; exact ⟨rfl, rfl, rfl⟩
      | some n =>
          obtain ⟨actual, attached⟩ := n
          simp only [hsub, hnet] at h
          by_cases hsame : actual = some wanted
          · rw [if_pos hsame, Except.ok.injEq] at h
            subst h
            exact ⟨rfl, rfl, rfl⟩
          · rw [if_neg hsame] at h
            by_cases hatt : attached ≠ []
            · rw [if_pos hatt] at h; contradiction
            · rw [if_neg hatt] at h
              by_cases hrm : cmds.networkRm
              · rw [if_pos hrm, Except.ok.injEq] at h
                subst h
                exact ⟨rfl, rfl, rfl⟩
              · rw [if_neg hrm] at h; contradiction

theorem mem_unpaused {ids : List String} {c : Container} :
    c ∈ (run.unpaused ids).docker.containers ↔ ∃ e ∈ run.docker.containers,
      (if e.containerId ∈ ids then { e with state := .running } else e) = c :=
  List.mem_map

/-- Unpausing changes states only. -/
theorem Cleared.unpaused (hcl : Cleared p docker run) (ids : List String) :
    Cleared p docker (run.unpaused ids) := by
  have hstate : ∀ e : Container,
      ∃ st, (if e.containerId ∈ ids then { e with state := .running } else e) =
        { e with state := st } := by
    intro e
    by_cases he : e.containerId ∈ ids
    · exact ⟨.running, by rw [if_pos he]⟩
    · exact ⟨e.state, by rw [if_neg he]⟩
  refine ⟨hcl.gone, hcl.started, ?_, ?_⟩
  · intro c' hc'
    obtain ⟨e, he, rfl⟩ := mem_unpaused.mp hc'
    obtain ⟨c, hc, hstay, heq⟩ := hcl.stayed e he
    obtain ⟨st, hst⟩ := hstate e
    exact ⟨c, hc, hstay, by rw [hst, heq]⟩
  · intro c hc hstay
    obtain ⟨e, he, heq⟩ := hcl.stays c hc hstay
    obtain ⟨st, hst⟩ := hstate e
    exact ⟨_, mem_unpaused.mpr ⟨e, he, rfl⟩, by rw [hst, heq]⟩

theorem Cleared.unpauseKept (hcl : Cleared p docker run)
    (h : unpauseKept p cmds docker run = .ok run') : Cleared p docker run' := by
  unfold InferStack.unpauseKept at h
  dsimp only at h
  split at h
  · exact Except.ok.inj h ▸ hcl
  · split at h
    · exact Except.ok.inj h ▸ hcl.unpaused _
    · contradiction

theorem Cleared.reconcileNetwork (hcl : Cleared p docker run)
    (h : reconcileNetwork p cmds run = .ok run') : Cleared p docker run' := by
  obtain ⟨hcont, hgone, hstarted⟩ := reconcileNetwork_ok h
  exact ⟨hgone ▸ hcl.gone, hstarted.trans hcl.started, hcont ▸ hcl.stayed, hcont ▸ hcl.stays⟩

end Clear

/-! ## starting -/

section Start

variable {p : Project} {cmds : Commands} {newId : String → String} {run run' : ApplyRun}

/-- Starting one service: its containers are replaced by a new one. -/
theorem up_eq_some {s : Service} (h : run.up p newId s = some run') :
    (∀ c, c ∈ run'.docker.containers ↔
      (c ∈ run.docker.containers ∧ c.composeService ≠ s.name) ∨ c = newContainer p newId s) ∧
    (∀ id, id ∈ run'.gone ↔ id ∈ run.gone ∨
      ∃ c ∈ run.docker.containers, c.composeService = s.name ∧ c.containerId = id) ∧
    run'.started = run.started ++ [(s.name, newId s.name)] := by
  unfold ApplyRun.up at h
  obtain ⟨t, ht, rfl⟩ := Option.map_eq_some_iff.mp h
  obtain ⟨hnew, rfl⟩ := Table.insert?_eq_some.mp ht
  refine ⟨?_, ?_, rfl⟩
  · intro c
    show c ∈ Table.insert _ _ hnew ↔ _
    rw [Table.mem_insert, Table.mem_filter, decide_eq_true_eq]
  · intro id
    simp [Table.mem_def, and_assoc]

/-- Starting several services of different names. -/
theorem mem_upAll {level : List Service} (hnodup : (level.map Service.name).Nodup)
    (h : upAll p cmds run level = some run') :
    (∀ c, c ∈ run'.docker.containers ↔
      (c ∈ run.docker.containers ∧ ∀ s ∈ level, c.composeService ≠ s.name) ∨
        ∃ s ∈ level, c = newContainer p cmds.newId s) ∧
    (∀ id, id ∈ run'.gone ↔ id ∈ run.gone ∨ ∃ c ∈ run.docker.containers,
      (∃ s ∈ level, c.composeService = s.name) ∧ c.containerId = id) ∧
    run'.started = run.started ++ level.map fun s => (s.name, cmds.newId s.name) := by
  induction level generalizing run with
  | nil =>
      obtain rfl := Option.some.inj h
      simp
  | cons s rest ih =>
      unfold upAll at h
      rw [List.foldlM_cons] at h
      obtain ⟨mid, hmid, hrest⟩ := Option.bind_eq_some_iff.mp h
      obtain ⟨hnot, hnodup'⟩ := List.nodup_cons.mp hnodup
      obtain ⟨hcont, hgone, hstarted⟩ := ih hnodup' hrest
      obtain ⟨hcont₁, hgone₁, hstarted₁⟩ := up_eq_some hmid
      -- a later service does not replace the container just created
      have hother : ∀ t ∈ rest, s.name ≠ t.name :=
        fun t ht heq => hnot (heq ▸ List.mem_map_of_mem ht)
      refine ⟨?_, ?_, ?_⟩
      · intro c
        rw [hcont, hcont₁, List.forall_mem_cons]
        constructor
        · intro hc
          cases hc with
          | inl hold =>
              cases hold.1 with
              | inl hc => exact .inl ⟨hc.1, hc.2, hold.2⟩
              | inr hc => exact .inr ⟨s, List.mem_cons_self, hc⟩
          | inr hnew =>
              obtain ⟨t, ht, rfl⟩ := hnew
              exact .inr ⟨t, List.mem_cons_of_mem s ht, rfl⟩
        · intro hc
          cases hc with
          | inl hold => exact .inl ⟨.inl ⟨hold.1, hold.2.1⟩, hold.2.2⟩
          | inr hnew =>
              obtain ⟨t, ht, rfl⟩ := hnew
              cases List.mem_cons.mp ht with
              | inl heq => subst heq; exact .inl ⟨.inr rfl, hother⟩
              | inr ht => exact .inr ⟨t, ht, rfl⟩
      · intro id
        rw [hgone, hgone₁]
        constructor
        · intro hid
          cases hid with
          | inl hold =>
              cases hold with
              | inl hid => exact .inl hid
              | inr hrep =>
                  obtain ⟨c, hc, hcs, rfl⟩ := hrep
                  exact .inr ⟨c, hc, ⟨s, List.mem_cons_self, hcs⟩, rfl⟩
          | inr hrep =>
              obtain ⟨c, hc, ⟨t, ht, hct⟩, rfl⟩ := hrep
              cases (hcont₁ c).mp hc with
              | inl hc => exact .inr ⟨c, hc.1, ⟨t, List.mem_cons_of_mem s ht, hct⟩, rfl⟩
              | inr hnew =>
                  subst hnew
                  exact absurd hct (hother t ht)
        · intro hid
          cases hid with
          | inl hid => exact .inl (.inl hid)
          | inr hrep =>
              obtain ⟨c, hc, ⟨t, ht, hct⟩, rfl⟩ := hrep
              by_cases hcs : c.composeService = s.name
              · exact .inl (.inr ⟨c, hc, hcs, rfl⟩)
              · have ht' : t ∈ rest := by
                  cases List.mem_cons.mp ht with
                  | inl heq => exact absurd (heq ▸ hct) hcs
                  | inr ht => exact ht
                exact .inr ⟨c, (hcont₁ c).mpr (.inl ⟨hc, hcs⟩), ⟨t, ht', hct⟩, rfl⟩
      · rw [hstarted, hstarted₁, List.map_cons, List.append_assoc]
        rfl

/-- The levels together start their services one after another. -/
theorem upAll_of_levels {order : List (List String)}
    (h : order.foldlM (startLevel p cmds) run = .ok run') :
    upAll p cmds run (order.flatten.filterMap p.services.find?) = some run' := by
  induction order generalizing run with
  | nil =>
      obtain rfl := Except.ok.inj h
      rfl
  | cons names rest ih =>
      rw [List.foldlM_cons] at h
      cases hlevel : startLevel p cmds run names with
      | error e => rw [hlevel] at h; contradiction
      | ok mid =>
          rw [hlevel] at h
          have hrest := ih h
          have hmid : upAll p cmds run (names.filterMap p.services.find?) = some mid := by
            unfold startLevel at hlevel
            dsimp only at hlevel
            split at hlevel
            · contradiction
            · split at hlevel
              · contradiction
              · cases hup : upAll p cmds run (names.filterMap p.services.find?) with
                | none => simp [hup] at hlevel
                | some up =>
                    simp only [hup, Option.map_some, Option.getD_some, Except.ok.injEq] at hlevel
                    exact congrArg some hlevel
          rw [List.flatten_cons, List.filterMap_append]
          unfold upAll at hmid hrest ⊢
          rw [List.foldlM_append, hmid]
          exact hrest

/-- The services of the levels are those to start, in some order. -/
theorem levels_perm (docker : Docker) :
    ((dependencyLevels p (docker.toStart p)).flatten.filterMap p.services.find?).Perm
      (docker.toStart p) := by
  have hperm := flatten_levels_perm
    (fun n => ((p.services.find? n).map (·.dependsOn.map Prod.fst)).getD [])
    (toStart_nodup p docker)
  have hback : ((docker.toStart p).map Service.name).filterMap p.services.find? =
      docker.toStart p := by
    have hfind : ∀ s ∈ docker.toStart p, (p.services.find? ∘ Service.name) s = some s :=
      fun s hs => Table.mem_iff_find?.mp (mem_toStart.mp hs).1
    rw [List.filterMap_map, List.filterMap_congr hfind, List.filterMap_some]
  have hmap := hperm.filterMap p.services.find?
  rw [hback] at hmap
  exact hmap

end Start

/-! ## a completed apply -/

section Completed

variable {p : Project} {cmds : Commands} {docker : Docker} {outcome : SelectiveApplyOutcome}
  {run : ApplyRun}

/-- A completed apply passed its checks, cleared the departing containers, and
started its services in some order. -/
theorem selectiveApply_ok (h : selectiveApply p cmds docker = .ok (outcome, run)) :
    preflight p docker = none ∧ ∃ cleared order, Cleared p docker cleared ∧
      order.Perm (docker.toStart p) ∧ upAll p cmds cleared order = some run := by
  unfold selectiveApply at h
  split at h
  · contradiction
  · split at h
    · contradiction
    · rename_i hchecks
      simp only [Option.orElse_eq_orElse, Option.orElse_eq_or, Option.or_eq_none_iff] at hchecks
      cases hremove : removeDeparting p cmds docker with
      | error e => simp [hremove, bind, Except.bind] at h
      | ok removed =>
          simp only [hremove, bind, Except.bind] at h
          cases hnet : reconcileNetwork p cmds removed with
          | error e => simp [hnet] at h
          | ok reconciled =>
              simp only [hnet] at h
              cases hun : unpauseKept p cmds docker reconciled with
              | error e => simp [hun] at h
              | ok unpaused =>
                  simp only [hun] at h
                  cases hstart : (dependencyLevels p (docker.toStart p)).foldlM
                      (startLevel p cmds) unpaused with
                  | error e => simp [hstart] at h
                  | ok final =>
                      simp only [hstart, pure, Except.pure, Except.ok.injEq, Prod.mk.injEq] at h
                      obtain ⟨-, rfl⟩ := h
                      have hcleared := ((cleared_removeDeparting hremove).reconcileNetwork
                        hnet).unpauseKept hun
                      exact ⟨hchecks.1, unpaused, _, hcleared, levels_perm docker,
                        upAll_of_levels hstart⟩

/-- What a completed apply leaves: the containers that stayed, but for those
replaced, and one new container for each service it started. -/
structure Completed (p : Project) (cmds : Commands) (docker : Docker) (run : ApplyRun) :
    Prop where
  gone : ∀ id, id ∈ run.gone ↔ ∃ c ∈ docker.containers, c.containerId = id ∧
    (p.departs c ∨ ∃ s ∈ docker.toStart p, c.composeService = s.name)
  started : ∀ sc, sc ∈ run.started ↔ ∃ s ∈ docker.toStart p, sc = (s.name, cmds.newId s.name)
  containers : ∀ c' ∈ run.docker.containers,
    (∃ c ∈ docker.containers, ¬ p.departs c ∧ c' = { c with state := c'.state }) ∨
      ∃ s ∈ docker.toStart p, c' = newContainer p cmds.newId s
  stays : ∀ c ∈ docker.containers, ¬ p.departs c →
    (∀ s ∈ docker.toStart p, c.composeService ≠ s.name) →
      ∃ c' ∈ run.docker.containers, c' = { c with state := c'.state }
  creates : ∀ s ∈ docker.toStart p, newContainer p cmds.newId s ∈ run.docker.containers

theorem completed_of_ok (h : selectiveApply p cmds docker = .ok (outcome, run)) :
    Completed p cmds docker run := by
  obtain ⟨-, cleared, order, hcl, hperm, hup⟩ := selectiveApply_ok h
  have hnodup : (order.map Service.name).Nodup :=
    ((hperm.map _).nodup_iff).mpr (toStart_nodup p docker)
  obtain ⟨hcont, hgone, hstarted⟩ := mem_upAll hnodup hup
  constructor
  · intro id
    rw [hgone, hcl.gone]
    constructor
    · intro hid
      cases hid with
      | inl hdep =>
          obtain ⟨c, hc, hdeparts, hid⟩ := hdep
          exact ⟨c, hc, hid, .inl hdeparts⟩
      | inr hrep =>
          obtain ⟨c', hc', ⟨s, hs, hcs⟩, hid⟩ := hrep
          obtain ⟨c, hc, -, heq⟩ := hcl.stayed c' hc'
          rw [heq] at hcs hid
          exact ⟨c, hc, hid, .inr ⟨s, hperm.mem_iff.mp hs, hcs⟩⟩
    · intro hid
      obtain ⟨c, hc, hid, hwhy⟩ := hid
      by_cases hdeparts : p.departs c
      · exact .inl ⟨c, hc, hdeparts, hid⟩
      · obtain ⟨s, hs, hcs⟩ := hwhy.resolve_left hdeparts
        obtain ⟨c', hc', heq⟩ := hcl.stays c hc hdeparts
        refine .inr ⟨c', hc', ⟨s, hperm.mem_iff.mpr hs, ?_⟩, ?_⟩ <;> rw [heq]
        · exact hcs
        · exact hid
  · intro sc
    rw [hstarted, hcl.started, List.nil_append, List.mem_map]
    constructor
    · intro hsc
      obtain ⟨s, hs, rfl⟩ := hsc
      exact ⟨s, hperm.mem_iff.mp hs, rfl⟩
    · intro hsc
      obtain ⟨s, hs, rfl⟩ := hsc
      exact ⟨s, hperm.mem_iff.mpr hs, rfl⟩
  · intro c' hc'
    cases (hcont c').mp hc' with
    | inl hold => exact .inl (hcl.stayed c' hold.1)
    | inr hnew =>
        obtain ⟨s, hs, heq⟩ := hnew
        exact .inr ⟨s, hperm.mem_iff.mp hs, heq⟩
  · intro c hc hstay hapart
    obtain ⟨c', hc', heq⟩ := hcl.stays c hc hstay
    refine ⟨c', (hcont c').mpr (.inl ⟨hc', fun s hs => ?_⟩), heq⟩
    rw [heq]
    exact hapart s (hperm.mem_iff.mp hs)
  · intro s hs
    exact (hcont _).mpr (.inr ⟨s, hperm.mem_iff.mpr hs, rfl⟩)

/-- A container is known by the same key in any state. -/
theorem key_state (c : Container) (st : ContainerState) :
    p.key { c with state := st } = p.key c := rfl

/-- A new container carries the wanted key of its service. -/
theorem key_newContainer (newId : String → String) (s : Service) :
    p.key (newContainer p newId s) = some (p.wanted s.name) := rfl

/-- Containers left apart are safe. -/
theorem Completed.safe (h : Completed p cmds docker run) (hpre : preflight p docker = none)
    (hgpu : p.GpuDisjoint) (hapart : StartsApart p docker) : SafeApply p docker run := by
  obtain ⟨hamb, -, hgpus, -, -⟩ := preflight_eq_none.mp hpre
  have hsafe : ∀ c ∈ docker.containers, ¬ p.departs c → c.containerId ∉ run.gone := by
    intro c hc hstay hgone
    obtain ⟨e, he, hid, hwhy⟩ := (h.gone _).mp hgone
    obtain rfl := eq_of_containerId he hc hid
    cases hwhy with
    | inl hdeparts => exact hstay hdeparts
    | inr hrep =>
        obtain ⟨s, hs, hcs⟩ := hrep
        exact hapart.created e hc hstay s hs hcs
  constructor
  case served =>
    intro s hs hopt
    by_cases hstart : s ∈ docker.toStart p
    · refine ⟨_, h.creates s hstart, key_newContainer _ s, fun c' hc' hkey => ?_⟩
      cases h.containers c' hc' with
      | inl hold =>
          obtain ⟨c, hc, hstay, heq⟩ := hold
          rw [heq, key_state] at hkey
          exact absurd hkey (hapart.carries c hc hstay s hstart)
      | inr hnew =>
          obtain ⟨t, ht, rfl⟩ := hnew
          rw [key_newContainer, Option.some.injEq] at hkey
          have hname : t.name = s.name := congrArg Prod.fst hkey
          have hts : t = s := Table.eq_of_key_eq (mem_toStart.mp ht).1 hs hname
          rw [hts]
    · obtain ⟨c, hc, hkeeps, hkey⟩ := kept_of_not_toStart hs hopt hstart
      have hstay : ¬ p.departs c := not_departs_iff.mpr (.inl hkeeps)
      obtain ⟨c', hc', heq⟩ := h.stays c hc hstay (hapart.created c hc hstay)
      refine ⟨c', hc', by rw [heq, key_state]; exact hkey, fun e he hekey => ?_⟩
      cases h.containers e he with
      | inl hold =>
          obtain ⟨e₀, he₀, -, hee⟩ := hold
          rw [hee, key_state] at hekey
          have hsame := key_unique hamb hs he₀ hc hekey hkey
          refine Table.eq_of_key_eq he hc' ?_
          rw [hee, heq, hsame]
      | inr hnew =>
          obtain ⟨t, ht, rfl⟩ := hnew
          rw [key_newContainer, Option.some.injEq] at hekey
          have hname : t.name = s.name := congrArg Prod.fst hekey
          have hts : t = s := Table.eq_of_key_eq (mem_toStart.mp ht).1 hs hname
          exact absurd (hts ▸ ht) hstart
  case kept => exact fun c hc hkeeps => hsafe c hc (not_departs_iff.mpr (.inl hkeeps))
  case leftAlone => exact fun c hc hleft => hsafe c hc (not_departs_iff.mpr (.inr hleft))
  case optional =>
    intro sc hsc
    obtain ⟨s, hs, rfl⟩ := (h.started sc).mp hsc
    exact (mem_toStart.mp hs).2.2
  case gpus =>
    intro sc hsc s hs hname g hg c' hc' hocc
    obtain ⟨t, ht, rfl⟩ := (h.started sc).mp hsc
    have hst : s = t := Table.eq_of_key_eq hs (mem_toStart.mp ht).1 hname
    subst hst
    cases h.containers c' hc' with
    | inl hold =>
        obtain ⟨c, hc, hstay, heq⟩ := hold
        rw [heq] at hocc
        exact absurd (occupant_departs hgpus ht hg hc hocc) hstay
    | inr hnew =>
        obtain ⟨t, ht', rfl⟩ := hnew
        by_cases hsame : s.name = t.name
        · exact congrArg cmds.newId hsame.symm
        · have hmem : g ∈ t.gpus := of_decide_eq_true hocc
          exact absurd hmem (hgpu s hs t (mem_toStart.mp ht').1 hsame g hg)

/-- A safe apply reached no container that had to be left alone. -/
theorem Completed.apart (h : Completed p cmds docker run) (hsafe : SafeApply p docker run) :
    StartsApart p docker := by
  have hcreated : ∀ c ∈ docker.containers, ¬ p.departs c →
      ∀ s ∈ docker.toStart p, c.composeService ≠ s.name := by
    intro c hc hstay s hs hcs
    have hgone : c.containerId ∈ run.gone := (h.gone _).mpr ⟨c, hc, rfl, .inr ⟨s, hs, hcs⟩⟩
    cases not_departs_iff.mp hstay with
    | inl hkeeps => exact hsafe.kept c hc hkeeps hgone
    | inr hleft => exact hsafe.leftAlone c hc hleft hgone
  refine ⟨hcreated, fun c hc hstay s hs hkey => ?_⟩
  -- the container that stays and the new one both carry the key
  obtain ⟨c', hc', heq⟩ := h.stays c hc hstay (hcreated c hc hstay)
  have hstart := mem_toStart.mp hs
  obtain ⟨e, he, -, huniq⟩ := hsafe.served s hstart.1 hstart.2.2
  have hold : c' = e := huniq c' hc' (by rw [heq, key_state]; exact hkey)
  have hnew : newContainer p cmds.newId s = e :=
    huniq _ (h.creates s hs) (key_newContainer _ s)
  have hservice : c.composeService = s.name := by
    have hcs := congrArg Container.composeService (hold.trans hnew.symm)
    rw [heq] at hcs
    exact hcs
  exact hcreated c hc hstay s hs hservice

end Completed

/-! ## a refused apply -/

section Refused

variable {p : Project} {cmds : Commands} {docker : Docker} {run : ApplyRun}
  {failure : ApplyFailure}

theorem removeDeparting_error (h : removeDeparting p cmds docker = .error failure) :
    ¬ failure.error.beforeRemoval := by
  unfold removeDeparting at h
  dsimp only at h
  split at h
  · contradiction
  · split at h
    · rw [← Except.error.inj h]; simp [ApplyError.beforeRemoval]
    · split at h
      · contradiction
      · rw [← Except.error.inj h]; simp [ApplyError.beforeRemoval]

theorem reconcileNetwork_error (h : reconcileNetwork p cmds run = .error failure) :
    ¬ failure.error.beforeRemoval := by
  unfold reconcileNetwork at h
  split at h
  · split at h
    · contradiction
    · split at h
      · rw [← Except.error.inj h]; simp [ApplyError.beforeRemoval]
      · split at h
        · contradiction
        · rw [← Except.error.inj h]; simp [ApplyError.beforeRemoval]
  · contradiction

theorem unpauseKept_error (h : unpauseKept p cmds docker run = .error failure) :
    ¬ failure.error.beforeRemoval := by
  unfold unpauseKept at h
  dsimp only at h
  split at h
  · contradiction
  · split at h
    · contradiction
    · rw [← Except.error.inj h]; simp [ApplyError.beforeRemoval]

theorem startLevel_error {names : List String}
    (h : startLevel p cmds run names = .error failure) : ¬ failure.error.beforeRemoval := by
  unfold startLevel at h
  dsimp only at h
  split at h
  · rw [← Except.error.inj h]; simp [ApplyError.beforeRemoval]
  · split at h
    · rw [← Except.error.inj h]; simp [ApplyError.beforeRemoval]
    · cases hup : upAll p cmds run (names.filterMap p.services.find?) with
      | none =>
          rw [hup, Option.map_none, Option.getD_none] at h
          rw [← Except.error.inj h]
          simp [ApplyError.beforeRemoval]
      | some up => simp [hup] at h

theorem startLevels_error {order : List (List String)}
    (h : order.foldlM (startLevel p cmds) run = .error failure) :
    ¬ failure.error.beforeRemoval := by
  induction order generalizing run with
  | nil => contradiction
  | cons names rest ih =>
      rw [List.foldlM_cons] at h
      cases hlevel : startLevel p cmds run names with
      | error e =>
          rw [hlevel] at h
          exact Except.error.inj h ▸ startLevel_error hlevel
      | ok mid =>
          rw [hlevel] at h
          exact ih h

/-- A refusal before the first removal leaves everything as it was. -/
theorem selectiveApply_refused (h : selectiveApply p cmds docker = .error failure)
    (hbefore : failure.error.beforeRemoval) : failure.run = { docker := docker } := by
  unfold selectiveApply at h
  split at h
  · rw [← Except.error.inj h]
  · split at h
    · rw [← Except.error.inj h]
    · exfalso
      cases hremove : removeDeparting p cmds docker with
      | error e =>
          simp only [hremove, bind, Except.bind, Except.error.injEq] at h
          exact removeDeparting_error hremove (h ▸ hbefore)
      | ok removed =>
          simp only [hremove, bind, Except.bind] at h
          cases hnet : reconcileNetwork p cmds removed with
          | error e =>
              simp only [hnet, Except.error.injEq] at h
              exact reconcileNetwork_error hnet (h ▸ hbefore)
          | ok reconciled =>
              simp only [hnet] at h
              cases hun : unpauseKept p cmds docker reconciled with
              | error e =>
                  simp only [hun, Except.error.injEq] at h
                  exact unpauseKept_error hun (h ▸ hbefore)
              | ok unpaused =>
                  simp only [hun] at h
                  cases hstart : (dependencyLevels p (docker.toStart p)).foldlM
                      (startLevel p cmds) unpaused with
                  | error e =>
                      simp only [hstart, Except.error.injEq] at h
                      exact startLevels_error hstart (h ▸ hbefore)
                  | ok final => simp [hstart, pure, Except.pure] at h

end Refused

/-- Whatever the snapshot, the render, and the degraded, optional and adopted
sets, a completed apply is safe exactly when no container that stays was created
for a service to start or carries its wanted key; and an apply that stops
before the first removal has changed nothing. -/
theorem selectiveApply_safe_iff (p : Project) (cmds : Commands) (docker : Docker)
    (hgpu : p.GpuDisjoint) :
    (∀ outcome run, selectiveApply p cmds docker = .ok (outcome, run) →
      (SafeApply p docker run ↔ StartsApart p docker)) ∧
    ∀ failure, selectiveApply p cmds docker = .error failure →
      failure.error.beforeRemoval → failure.run = { docker := docker } := by
  refine ⟨fun outcome run h => ?_, fun failure h hbefore => selectiveApply_refused h hbefore⟩
  have hdone := completed_of_ok h
  exact ⟨hdone.apart, hdone.safe (selectiveApply_ok h).1 hgpu⟩

/-- One service on GPU 0. -/
def oneService : Project where
  services := Table.ofList [{ name := "m", gpus := [0] }]
  fingerprints := fun _ => "fp"

/-- Docker as it answers when nothing fails. -/
def answering : Commands where
  newId := fun service => "new-" ++ service

/-- A stopped container of the service, without ownership labels: an orphan. -/
def strayContainer : Docker where
  containers := Table.ofList
    [{ containerId := "old", deploymentId := "", state := .exited, service := "m",
       composeService := "m" }]

theorem oneService_disjoint : oneService.GpuDisjoint := by
  intro s hs t ht hne
  have hs' := List.mem_singleton.mp hs
  have ht' := List.mem_singleton.mp ht
  rw [hs', ht'] at hne
  exact absurd rfl hne

/-- Starting the service replaces the orphan. -/
theorem strayContainer_replaced :
    oneService.GpuDisjoint ∧ ∃ outcome run,
      selectiveApply oneService answering strayContainer = .ok (outcome, run) ∧
        outcome.orphans = ["old"] ∧ ¬ SafeApply oneService strayContainer run := by
  refine ⟨oneService_disjoint, _, _, rfl, rfl, fun hsafe => ?_⟩
  have hleft := hsafe.leftAlone _ (List.mem_singleton.mpr rfl) (.inl rfl)
  exact absurd hleft (by decide)

/-- Two services, each on a GPU of its own. -/
def twoServices : Project where
  services := Table.ofList [{ name := "m", gpus := [0] }, { name := "n", gpus := [1] }]
  fingerprints := fun _ => "fp"

/-- A container of the first service, one of a service that is gone on the GPU of
the second, and a notebook that is nobody's. -/
def halfUp : Docker where
  containers := Table.ofList
    [{ containerId := "serving", deploymentId := "dep-m", state := .running, gpus := [0]
       service := "m", composeService := "m", fingerprint := "fp", labelled := true },
     { containerId := "leaving", deploymentId := "dep-l", state := .running, gpus := [1]
       service := "l", composeService := "l", fingerprint := "fp", labelled := true },
     { containerId := "notebook", deploymentId := "", state := .running, service := "notebook"
       composeService := "notebook" }]

theorem twoServices_disjoint : twoServices.GpuDisjoint := by
  have hrows : ∀ s ∈ twoServices.services.rows, ∀ t ∈ twoServices.services.rows,
      s.name ≠ t.name → ∀ g ∈ s.gpus, g ∉ t.gpus := by decide
  exact hrows

/-- One container stays, one makes room for the second service, and the notebook
is left alone. -/
theorem twoServices_safe : ∃ outcome run,
    selectiveApply twoServices answering halfUp = .ok (outcome, run) ∧
      outcome = ⟨["m"], ["leaving"], ["n"], ["notebook"]⟩ ∧
      run.docker.containers.keys = ["serving", "notebook", "new-n"] ∧
      SafeApply twoServices halfUp run := by
  refine ⟨_, _, rfl, by decide +kernel, by decide +kernel, ?_⟩
  refine ((selectiveApply_safe_iff twoServices answering halfUp twoServices_disjoint).1 _ _
    rfl).mpr ⟨?_, ?_⟩
  · have hrows : ∀ c ∈ halfUp.containers.rows, ¬ twoServices.departs c →
        ∀ s ∈ halfUp.toStart twoServices, c.composeService ≠ s.name := by decide +kernel
    exact hrows
  · have hrows : ∀ c ∈ halfUp.containers.rows, ¬ twoServices.departs c →
        ∀ s ∈ halfUp.toStart twoServices,
          twoServices.key c ≠ some (twoServices.wanted s.name) := by decide +kernel
    exact hrows

end InferStack
