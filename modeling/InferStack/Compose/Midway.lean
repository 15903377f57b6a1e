import InferStack.Compose.ApplySafety

/-!
# InferStack.Compose.Midway

What an apply has done wherever it stops.

A command fails, or has done a part of its list, and what the apply leaves is
where the next one starts.  `Midway` holds after each of its steps: nothing but
departing containers is gone, and nothing is new but for services to start.
-/

namespace InferStack

open Kit

/-! ## ownership -/

/-- A container is known by the service Compose created it for, and one that is
nobody's, or lost its place, was created for no service of the render. -/
structure Project.Owns (p : Project) (docker : Docker) : Prop where
  created : ∀ c ∈ docker.containers, ∀ k, p.key c = some k → k.1 = c.composeService
  apart : ∀ c ∈ docker.containers, (p.key c = none ∨ c.deploymentId ∈ p.degraded) →
    c.composeService ∉ p.services.keys

/-- A deployment that lost its place is not rendered. -/
def Project.LeavesDegraded (p : Project) : Prop := ∀ s ∈ p.services, s.deploymentId ∉ p.degraded

/-- The same container, which may have been unpaused. -/
def Onward (c c' : Container) : Prop :=
  c' = c ∨ c.state = .paused ∧ c' = { c with state := .running }

section Onward

variable {p : Project} {c c' c'' : Container}

theorem Onward.refl (c : Container) : Onward c c := .inl rfl

theorem Onward.same (h : Onward c c') : c' = { c with state := c'.state } := by
  cases h with
  | inl h => rw [h]
  | inr h => rw [h.2]

theorem Onward.containerId (h : Onward c c') : c'.containerId = c.containerId := by
  rw [h.same]

theorem Onward.composeService (h : Onward c c') : c'.composeService = c.composeService := by
  rw [h.same]

theorem Onward.deploymentId (h : Onward c c') : c'.deploymentId = c.deploymentId := by
  rw [h.same]

theorem Onward.key (h : Onward c c') : p.key c' = p.key c := by
  rw [h.same]
  exact key_state c _

theorem Onward.keeps (h : Onward c c') (hc : p.keeps c) : p.keeps c' := by
  cases h with
  | inl h => exact h ▸ hc
  | inr h =>
      obtain ⟨-, rfl⟩ := h
      unfold Project.keeps at hc ⊢
      exact Bool.and_eq_true_iff.mpr ⟨rfl, (Bool.and_eq_true_iff.mp hc).2⟩

/-- What stays goes on staying. -/
theorem Onward.stays (h : Onward c c') (hc : ¬ p.departs c) : ¬ p.departs c' := by
  refine not_departs_iff.mpr ?_
  rw [h.key, h.deploymentId]
  exact (not_departs_iff.mp hc).imp_left h.keeps

/-- Unpausing it once more. -/
theorem Onward.unpaused (h : Onward c c') (hpaused : c.state = .paused ∨ c.state = .running) :
    Onward c { c' with state := .running } := by
  have hsame : { c' with state := .running } = { c with state := .running } := by
    rw [h.same]
  rw [hsame]
  cases hpaused with
  | inl hp => exact .inr ⟨hp, rfl⟩
  | inr hr => exact .inl (by rw [← hr])

end Onward

/-- Nothing that stays is in the way of a service to start. -/
theorem Project.Owns.startsApart {p : Project} {docker : Docker} (h : p.Owns docker) :
    StartsApart p docker := by
  have hcreated : ∀ c ∈ docker.containers, ¬ p.departs c →
      ∀ s ∈ docker.toStart p, c.composeService ≠ s.name := by
    intro c hc hstay s hs heq
    obtain ⟨hservice, hnot, -⟩ := mem_toStart.mp hs
    have hrendered : c.composeService ∈ p.services.keys :=
      Table.mem_keys.mpr ⟨s, hservice, heq.symm⟩
    cases not_departs_iff.mp hstay with
    | inr hleft => exact h.apart c hc hleft hrendered
    | inl hkeeps =>
        obtain ⟨name, -, hkey, hkept⟩ := keeps_key hc hkeeps
        have hname : name = c.composeService := h.created c hc _ hkey
        exact hnot (heq ▸ hname ▸ hkept)
  refine ⟨hcreated, fun c hc hstay s hs hkey => ?_⟩
  exact hcreated c hc hstay s hs (h.created c hc _ hkey).symm

/-- The container created for a service to start is one of its own. -/
theorem keeps_newContainer {p : Project} (newId : String → String) {s : Service}
    (hs : s ∈ p.services) : p.keeps (newContainer p newId s) := by
  unfold Project.keeps
  rw [key_newContainer]
  have hmem : s.name ∈ p.services.keys := Table.mem_keys.mpr ⟨s, hs, rfl⟩
  refine Bool.and_eq_true_iff.mpr ⟨rfl, ?_⟩
  simpa [Project.wanted] using hmem

/-! ## wherever an apply stops -/

/-- What an apply of `docker` has done so far. -/
structure Midway (p : Project) (cmds : Commands) (docker : Docker) (run : ApplyRun) : Prop where
  gone : ∀ c ∈ docker.containers, ¬ p.departs c → c.containerId ∉ run.gone
  stays : ∀ c ∈ docker.containers, ¬ p.departs c → ∃ c' ∈ run.docker.containers, Onward c c'
  known : ∀ c' ∈ run.docker.containers, (∃ c ∈ docker.containers, Onward c c') ∨
    ∃ s ∈ docker.toStart p, c' = newContainer p cmds.newId s

/-- What a part of an apply leaves, completed or not. -/
def leftBy : Except ApplyFailure ApplyRun → ApplyRun
  | .ok run => run
  | .error failure => failure.run

/-- What an apply leaves, completed or not. -/
def attemptApply (p : Project) (docker : Docker) (cmds : Commands) : ApplyRun :=
  leftBy (Prod.snd <$> selectiveApply p cmds docker)

/-- What an apply does once its checks have passed. -/
def applyPhases (p : Project) (cmds : Commands) (docker : Docker) :
    Except ApplyFailure ApplyRun := do
  let run ← removeDeparting p cmds docker
  let run ← reconcileNetwork p cmds run
  let run ← unpauseKept p cmds docker run
  (dependencyLevels p (docker.toStart p)).foldlM (startLevel p cmds) run

/-- An apply is refused, or it goes through its phases. -/
theorem selectiveApply_cases (p : Project) (cmds : Commands) (docker : Docker) :
    (∃ e, selectiveApply p cmds docker = .error ⟨e, { docker := docker }⟩) ∨
      preflight p docker = none ∧
        selectiveApply p cmds docker = (fun run =>
          ({ keptServices := docker.keptServices p
             removed := (docker.departing p).map Container.containerId
             started := (docker.toStart p).map Service.name
             orphans := (docker.orphans p).map Container.containerId }, run)) <$>
          applyPhases p cmds docker := by
  unfold selectiveApply
  by_cases hres : cmds.residency
  · rw [if_neg (by simpa using hres)]
    cases hchecks : preflight p docker <|> pullMissing cmds (docker.toStart p) with
    | some e => exact .inl ⟨e, rfl⟩
    | none =>
        right
        simp only [Option.orElse_eq_orElse, Option.orElse_eq_or, Option.or_eq_none_iff] at hchecks
        refine ⟨hchecks.1, ?_⟩
        simp only [applyPhases, ← bind_pure_comp, bind_assoc]
  · rw [if_pos (by simpa using hres)]
    exact .inl ⟨.residencyUnknown, rfl⟩

namespace Midway

variable {p : Project} {cmds : Commands} {docker : Docker} {run run' : ApplyRun}

theorem start : Midway p cmds docker { docker := docker } :=
  ⟨fun _ _ _ => List.not_mem_nil, fun c hc _ => ⟨c, hc, .refl c⟩,
    fun c hc => .inl ⟨c, hc, .refl c⟩⟩

/-- Removing departing containers. -/
theorem remove (h : Midway p cmds docker run) {ids : List String}
    (hids : ids ⊆ (docker.departing p).map Container.containerId) :
    Midway p cmds docker (run.remove ids) := by
  have hnot : ∀ c ∈ docker.containers, ¬ p.departs c → c.containerId ∉ ids := by
    intro c hc hstay hid
    obtain ⟨e, he, heq⟩ := List.mem_map.mp (hids hid)
    obtain ⟨hmem, hdeparts⟩ := mem_departing.mp he
    exact hstay (eq_of_containerId hmem hc heq ▸ hdeparts)
  have hmem : ∀ c, c ∈ (run.remove ids).docker.containers ↔
      c ∈ run.docker.containers ∧ c.containerId ∉ ids := by
    intro c
    show c ∈ run.docker.containers.filter _ ↔ _
    rw [Table.mem_filter, decide_eq_true_eq]
  constructor
  case gone =>
    intro c hc hstay hgone
    cases List.mem_append.mp hgone with
    | inl hold => exact h.gone c hc hstay hold
    | inr hnew => exact hnot c hc hstay hnew
  case stays =>
    intro c hc hstay
    obtain ⟨c', hc', honward⟩ := h.stays c hc hstay
    refine ⟨c', (hmem c').mpr ⟨hc', ?_⟩, honward⟩
    rw [honward.containerId]
    exact hnot c hc hstay
  case known => exact fun c' hc' => h.known c' ((hmem c').mp hc').1

/-- Only the network changes. -/
theorem network (h : Midway p cmds docker run)
    (hcontainers : run'.docker.containers = run.docker.containers) (hgone : run'.gone = run.gone) :
    Midway p cmds docker run' :=
  ⟨hgone ▸ h.gone, hcontainers ▸ h.stays, hcontainers ▸ h.known⟩

/-- Unpausing containers that were paused. -/
theorem unpaused (h : Midway p cmds docker run) {ids : List String}
    (hids : ∀ c ∈ docker.containers, c.containerId ∈ ids → c.state = .paused) :
    Midway p cmds docker (run.unpaused ids) := by
  have hresume : ∀ c ∈ docker.containers, ∀ c', Onward c c' →
      Onward c (if c'.containerId ∈ ids then { c' with state := .running } else c') := by
    intro c hc c' honward
    by_cases hid : c'.containerId ∈ ids
    · rw [if_pos hid]
      rw [honward.containerId] at hid
      exact honward.unpaused (.inl (hids c hc hid))
    · rw [if_neg hid]
      exact honward
  constructor
  case gone => exact h.gone
  case stays =>
    intro c hc hstay
    obtain ⟨c', hc', honward⟩ := h.stays c hc hstay
    exact ⟨_, mem_unpaused.mpr ⟨c', hc', rfl⟩, hresume c hc c' honward⟩
  case known =>
    intro e' he'
    obtain ⟨e, he, rfl⟩ := mem_unpaused.mp he'
    cases h.known e he with
    | inl hold =>
        obtain ⟨c, hc, honward⟩ := hold
        exact .inl ⟨c, hc, hresume c hc e honward⟩
    | inr hnew =>
        obtain ⟨s, hs, rfl⟩ := hnew
        refine .inr ⟨s, hs, ?_⟩
        split <;> rfl

/-- Starting a service to start. -/
theorem up (h : Midway p cmds docker run) (hapart : StartsApart p docker) {s : Service}
    (hs : s ∈ docker.toStart p) (hup : run.up p cmds.newId s = some run') :
    Midway p cmds docker run' := by
  obtain ⟨hcont, hgone, -⟩ := up_eq_some hup
  have hother : ∀ c ∈ docker.containers, ¬ p.departs c → ∀ c', Onward c c' →
      c'.composeService ≠ s.name := by
    intro c hc hstay c' honward
    rw [honward.composeService]
    exact hapart.created c hc hstay s hs
  constructor
  case gone =>
    intro c hc hstay hid
    cases (hgone _).mp hid with
    | inl hold => exact h.gone c hc hstay hold
    | inr hrep =>
        -- the replaced container would be this one, which no service to start created
        obtain ⟨e, he, hservice, heq⟩ := hrep
        obtain ⟨c', hc', honward⟩ := h.stays c hc hstay
        have hsame : e = c' := eq_of_containerId he hc' (heq.trans honward.containerId.symm)
        exact hother c hc hstay c' honward (hsame ▸ hservice)
  case stays =>
    intro c hc hstay
    obtain ⟨c', hc', honward⟩ := h.stays c hc hstay
    exact ⟨c', (hcont c').mpr (.inl ⟨hc', hother c hc hstay c' honward⟩), honward⟩
  case known =>
    intro e he
    cases (hcont e).mp he with
    | inl hold => exact h.known e hold.1
    | inr hnew => exact .inr ⟨s, hs, hnew⟩

/-- Starting several of them. -/
theorem upAll (h : Midway p cmds docker run) (hapart : StartsApart p docker)
    {level : List Service} (hlevel : level ⊆ docker.toStart p)
    (hup : InferStack.upAll p cmds run level = some run') : Midway p cmds docker run' := by
  induction level generalizing run with
  | nil => exact Option.some.inj hup ▸ h
  | cons s rest ih =>
      unfold InferStack.upAll at hup
      rw [List.foldlM_cons] at hup
      obtain ⟨mid, hmid, hrest⟩ := Option.bind_eq_some_iff.mp hup
      have hstarted := h.up hapart (hlevel List.mem_cons_self) hmid
      exact ih hstarted (fun t ht => hlevel (List.mem_cons_of_mem s ht)) hrest

/-- A part of an apply that stops somewhere, and the next one. -/
theorem bind {x : Except ApplyFailure ApplyRun} {f : ApplyRun → Except ApplyFailure ApplyRun}
    (hx : Midway p cmds docker (leftBy x))
    (hf : ∀ run, Midway p cmds docker run → Midway p cmds docker (leftBy (f run))) :
    Midway p cmds docker (leftBy (x >>= f)) := by
  cases x with
  | error failure => exact hx
  | ok run => exact hf run hx

theorem removeDeparting : Midway p cmds docker (leftBy (removeDeparting p cmds docker)) := by
  unfold InferStack.removeDeparting
  dsimp only
  split
  · exact start
  · split
    · exact start.remove (List.filter_sublist.subset)
    · split
      · exact start.remove (List.Subset.refl _)
      · exact start.remove (List.Subset.refl _)

theorem reconcileNetwork (h : Midway p cmds docker run) :
    Midway p cmds docker (leftBy (reconcileNetwork p cmds run)) := by
  unfold InferStack.reconcileNetwork
  split
  · split
    · exact h
    · split
      · exact h
      · split
        · exact h.network rfl rfl
        · exact h
  · exact h

theorem unpauseKept (h : Midway p cmds docker run) :
    Midway p cmds docker (leftBy (unpauseKept p cmds docker run)) := by
  unfold InferStack.unpauseKept
  dsimp only
  split
  · exact h
  · split
    · refine h.unpaused fun c hc hid => ?_
      obtain ⟨e, he, heq⟩ := List.mem_map.mp hid
      obtain ⟨hkept, hpaused⟩ := List.mem_filter.mp he
      have hmem : e ∈ docker.containers := (List.mem_filter.mp hkept).1
      exact eq_of_containerId hmem hc heq ▸ (of_decide_eq_true hpaused).1
    · exact h

theorem startLevel (h : Midway p cmds docker run) (hapart : StartsApart p docker)
    {names : List String} (hnames : names ⊆ (docker.toStart p).map Service.name) :
    Midway p cmds docker (leftBy (startLevel p cmds run names)) := by
  have hlevel : names.filterMap p.services.find? ⊆ docker.toStart p := by
    intro s hs
    obtain ⟨name, hname, hfind⟩ := List.mem_filterMap.mp hs
    obtain ⟨t, ht, rfl⟩ := List.mem_map.mp (hnames hname)
    obtain ⟨hmem, heq⟩ := Table.find?_eq_some.mp hfind
    exact Table.eq_of_key_eq hmem (mem_toStart.mp ht).1 heq ▸ ht
  have hup : ∀ level ⊆ docker.toStart p,
      Midway p cmds docker ((InferStack.upAll p cmds run level).getD run) := by
    intro level hsub
    cases hres : InferStack.upAll p cmds run level with
    | none => exact h
    | some run' => exact h.upAll hapart hsub hres
  unfold InferStack.startLevel
  dsimp only
  split
  · exact h
  · split
    · exact hup _ fun s hs => hlevel (List.mem_filter.mp hs).1
    · have hdone := hup _ hlevel
      cases hres : InferStack.upAll p cmds run (names.filterMap p.services.find?) with
      | none => exact h
      | some run' =>
          rw [hres] at hdone
          exact hdone

theorem startLevels (h : Midway p cmds docker run) (hapart : StartsApart p docker)
    {order : List (List String)}
    (horder : ∀ names ∈ order, names ⊆ (docker.toStart p).map Service.name) :
    Midway p cmds docker (leftBy (order.foldlM (InferStack.startLevel p cmds) run)) := by
  induction order generalizing run with
  | nil => exact h
  | cons names rest ih =>
      rw [List.foldlM_cons]
      refine (h.startLevel hapart (horder names List.mem_cons_self)).bind fun run' h' => ?_
      exact ih h' fun ns hns => horder ns (List.mem_cons_of_mem names hns)

end Midway

/-- Wherever an apply stops, it is midway. -/
theorem midway_attemptApply {p : Project} {docker : Docker} (h : StartsApart p docker)
    (cmds : Commands) : Midway p cmds docker (attemptApply p docker cmds) := by
  have horder : ∀ names ∈ dependencyLevels p (docker.toStart p),
      names ⊆ (docker.toStart p).map Service.name := by
    intro names hnames n hn
    have hflat : n ∈ (dependencyLevels p (docker.toStart p)).flatten :=
      List.mem_flatten.mpr ⟨names, hnames, hn⟩
    exact (flatten_levels_perm _ (toStart_nodup p docker)).mem_iff.mp hflat
  unfold attemptApply
  cases selectiveApply_cases p cmds docker with
  | inl hrefused =>
      obtain ⟨e, he⟩ := hrefused
      rw [he]
      exact .start
  | inr hphases =>
      have hmidway : Midway p cmds docker (leftBy (applyPhases p cmds docker)) :=
        Midway.removeDeparting.bind fun run hrun =>
          hrun.reconcileNetwork.bind fun run hrun =>
            hrun.unpauseKept.bind fun run hrun => hrun.startLevels h horder
      rw [hphases.2]
      cases hres : applyPhases p cmds docker with
      | error failure => rw [hres] at hmidway; exact hmidway
      | ok run => rw [hres] at hmidway; exact hmidway

end InferStack
