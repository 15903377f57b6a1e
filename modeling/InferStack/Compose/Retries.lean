import InferStack.Compose.Midway
import InferStack.Kit.Machine

/-!
# InferStack.Compose.Retries

Applying one render again and again.

* `Settled` — what a completed apply leaves: another one finds nothing to do;
* `completes` — an apply that is not refused completes if its commands succeed;
* `retries_settle` — what holds after any sequence of applies, each stopped
  anywhere, with anything else happening to the project in between.
-/

namespace InferStack

open Kit

/-! ## nothing left to do -/

/-- There is nothing for an apply to do. -/
structure Settled (p : Project) (docker : Docker) : Prop where
  unique : ∀ s ∈ p.services, ∀ c ∈ docker.containers, ∀ c' ∈ docker.containers,
    p.key c = some (p.wanted s.name) → p.key c' = some (p.wanted s.name) → c = c'
  served : ∀ s ∈ p.services, s.name ∉ p.optional →
    ∃ c ∈ docker.containers, p.keeps c ∧ p.key c = some (p.wanted s.name)
  stays : ∀ c ∈ docker.containers, ¬ p.departs c
  awake : ∀ c ∈ docker.containers, p.keeps c → c.state = .paused →
    ∀ k, p.key c = some k → k.1 ∈ p.optional
  network : ∀ wanted n, p.subnet = some wanted → docker.network = some n → n.1 = some wanted

theorem length_le_one_of_eq {α : Type} {l : List α} (hnodup : l.Nodup)
    (h : ∀ a ∈ l, ∀ b ∈ l, a = b) : l.length ≤ 1 := by
  cases l with
  | nil => simp
  | cons a rest =>
      cases rest with
      | nil => simp
      | cons b rest =>
          have hab : a = b := h a (by simp) b (by simp)
          simp [hab] at hnodup

namespace Settled

variable {p : Project} {cmds : Commands} {docker : Docker}

theorem departing (h : Settled p docker) : docker.departing p = [] :=
  List.filter_eq_nil_iff.mpr fun c hc => h.stays c hc

theorem toStart (h : Settled p docker) : docker.toStart p = [] := by
  refine List.filter_eq_nil_iff.mpr fun s hs hstart => ?_
  obtain ⟨hnot, hopt⟩ := of_decide_eq_true hstart
  obtain ⟨c, hc, hkeeps, hkey⟩ := h.served s hs hopt
  obtain ⟨name, -, hname, hkept⟩ := keeps_key hc hkeeps
  have hsame : name = s.name := by
    have hwanted := Option.some.inj (hname.symm.trans hkey)
    exact congrArg Prod.fst hwanted
  exact hnot (hsame ▸ hkept)

theorem unambiguous (h : Settled p docker) : ambiguousService p docker = none := by
  refine List.findSome?_eq_none_iff.mpr fun s hs => ?_
  have hrows : docker.containers.rows.Nodup := .of_map _ docker.containers.nodup
  have hcount : (docker.containers.rows.filter
      fun c => p.key c = some (p.wanted s.name)).length ≤ 1 := by
    refine length_le_one_of_eq (hrows.filter _) fun c hc c' hc' => ?_
    obtain ⟨hmem, hkey⟩ := List.mem_filter.mp hc
    obtain ⟨hmem', hkey'⟩ := List.mem_filter.mp hc'
    exact h.unique s hs c hmem c' hmem' (of_decide_eq_true hkey) (of_decide_eq_true hkey')
  rw [if_neg (by omega)]

theorem preflight (h : Settled p docker) : preflight p docker = none := by
  have hremoving : stillRemoving p docker = none := by
    unfold stillRemoving
    rw [h.departing]
    rfl
  have hgpus : gpusBlocked p docker = none := by
    unfold gpusBlocked
    rw [h.toStart]
    rfl
  have haddresses : addressBlocked p docker = none := by
    unfold addressBlocked
    rw [h.toStart]
    rfl
  have hnetwork : networkBlocked p docker = none := by
    unfold networkBlocked
    cases hsub : p.subnet with
    | none => rfl
    | some wanted =>
        cases hnet : docker.network with
        | none => rfl
        | some n => simp [h.network wanted n hsub hnet]
  exact preflight_eq_none.mpr ⟨h.unambiguous, hremoving, hgpus, haddresses, hnetwork⟩

/-- An apply finds nothing to do, whatever its commands would answer. -/
theorem apply (h : Settled p docker) (hres : cmds.residency) : selectiveApply p cmds docker =
    .ok ({ keptServices := docker.keptServices p, removed := [], started := []
           orphans := (docker.orphans p).map Container.containerId }, { docker := docker }) := by
  have hpull : pullMissing cmds (docker.toStart p) = none := by
    rw [h.toStart]
    rfl
  have hremove : removeDeparting p cmds docker = .ok { docker := docker } := by
    unfold removeDeparting
    rw [h.departing]
    rfl
  have hnetwork : reconcileNetwork p cmds { docker := docker } = .ok { docker := docker } := by
    unfold reconcileNetwork
    cases hsub : p.subnet with
    | none => rfl
    | some wanted =>
        cases hnet : docker.network with
        | none => simp
        | some n => simp [h.network wanted n hsub hnet]
  have hunpause : unpauseKept p cmds docker { docker := docker } = .ok { docker := docker } := by
    have hnone : (docker.kept p).filter (fun c =>
        c.state = .paused ∧ (p.key c).all (fun k => k.1 ∉ p.optional)) = [] := by
      refine List.filter_eq_nil_iff.mpr fun c hc hpaused => ?_
      obtain ⟨hmem, hkeeps⟩ := List.mem_filter.mp hc
      obtain ⟨hstate, hawake⟩ := of_decide_eq_true hpaused
      have hcarries : ∃ name ∈ p.services.keys, p.key c = some (p.wanted name) ∧
          name ∈ docker.keptServices p := keeps_key hmem hkeeps
      obtain ⟨name, -, hkey, -⟩ := hcarries
      rw [hkey, Option.all_some, decide_eq_true_eq] at hawake
      exact hawake (h.awake c hmem hkeeps hstate _ hkey)
    unfold unpauseKept
    rw [hnone]
    rfl
  have hlevels : dependencyLevels p (docker.toStart p) = [] := by
    rw [h.toStart]
    rfl
  unfold selectiveApply
  rw [if_neg (by simpa using hres), h.preflight, hpull, hremove, hlevels]
  simp only [bind, Except.bind, hnetwork, hunpause]
  rw [h.departing, h.toStart]
  rfl

end Settled

/-! ## what a completed apply settles -/

section Settles

variable {p : Project} {cmds : Commands} {docker : Docker} {run run' : ApplyRun}
  {outcome : SelectiveApplyOutcome}

theorem applyPhases_ok (h : applyPhases p cmds docker = .ok run) :
    ∃ removed reconciled unpaused, removeDeparting p cmds docker = .ok removed ∧
      reconcileNetwork p cmds removed = .ok reconciled ∧
      unpauseKept p cmds docker reconciled = .ok unpaused ∧
      upAll p cmds unpaused ((dependencyLevels p (docker.toStart p)).flatten.filterMap
        p.services.find?) = some run := by
  unfold applyPhases at h
  cases hremove : removeDeparting p cmds docker with
  | error e => simp [hremove, bind, Except.bind] at h
  | ok removed =>
      simp only [hremove, bind, Except.bind] at h
      cases hnet : reconcileNetwork p cmds removed with
      | error e => simp [hnet] at h
      | ok reconciled =>
          simp only [hnet] at h
          cases hun : unpauseKept p cmds docker reconciled with
          | error e => simp [hun] at h
          | ok unpaused =>
              simp only [hun] at h
              exact ⟨removed, reconciled, unpaused, rfl, hnet, hun, upAll_of_levels h⟩

/-- The network that is left is the wanted one. -/
theorem reconcileNetwork_settles (h : reconcileNetwork p cmds run = .ok run') :
    ∀ wanted n, p.subnet = some wanted → run'.docker.network = some n → n.1 = some wanted := by
  intro wanted n hsub hnet'
  unfold reconcileNetwork at h
  cases hnet : run.docker.network with
  | none =>
      simp only [hsub, hnet, Except.ok.injEq] at h
      rw [← h, hnet] at hnet'
      contradiction
  | some m =>
      obtain ⟨actual, attached⟩ := m
      simp only [hsub, hnet] at h
      by_cases hsame : actual = some wanted
      · rw [if_pos hsame, Except.ok.injEq] at h
        rw [← h, hnet] at hnet'
        exact Option.some.inj hnet' ▸ hsame
      · rw [if_neg hsame] at h
        by_cases hatt : attached ≠ []
        · rw [if_pos hatt] at h
          contradiction
        · rw [if_neg hatt] at h
          by_cases hrm : cmds.networkRm
          · rw [if_pos hrm, Except.ok.injEq] at h
            rw [← h] at hnet'
            contradiction
          · rw [if_neg hrm] at h
            contradiction

theorem unpauseKept_network (h : unpauseKept p cmds docker run = .ok run') :
    run'.docker.network = run.docker.network := by
  unfold unpauseKept at h
  dsimp only at h
  split at h
  · rw [← Except.ok.inj h]
  · split at h
    · rw [← Except.ok.inj h]
      rfl
    · contradiction

theorem upAll_network {level : List Service} (h : upAll p cmds run level = some run') :
    run'.docker.network = run.docker.network := by
  induction level generalizing run with
  | nil => rw [← Option.some.inj h]
  | cons s rest ih =>
      unfold upAll at h
      rw [List.foldlM_cons] at h
      obtain ⟨mid, hmid, hrest⟩ := Option.bind_eq_some_iff.mp h
      have hnetwork : mid.docker.network = run.docker.network := by
        unfold ApplyRun.up at hmid
        obtain ⟨t, -, rfl⟩ := Option.map_eq_some_iff.mp hmid
        rfl
      exact (ih hrest).trans hnetwork

/-- A kept container that was paused runs, unless it is optional. -/
theorem unpauseKept_awake (h : unpauseKept p cmds docker run = .ok run') {c c' : Container}
    (hc : c ∈ docker.containers) (hkeeps : p.keeps c) (hpaused : c.state = .paused)
    {k : String × String} (hkey : p.key c = some k) (hopt : k.1 ∉ p.optional)
    (hc' : c' ∈ run'.docker.containers) (hid : c'.containerId = c.containerId) :
    c'.state = .running := by
  have hmem : c ∈ (docker.kept p).filter fun c =>
      c.state = .paused ∧ (p.key c).all (fun k => k.1 ∉ p.optional) := by
    refine List.mem_filter.mpr ⟨List.mem_filter.mpr ⟨hc, hkeeps⟩, ?_⟩
    simp [hpaused, hkey, hopt]
  unfold unpauseKept at h
  dsimp only at h
  split at h
  · rename_i hnone
    rw [hnone] at hmem
    contradiction
  · split at h
    · rw [← Except.ok.inj h] at hc'
      obtain ⟨e, -, rfl⟩ := mem_unpaused.mp hc'
      have hids : e.containerId = c.containerId := by
        by_cases he : e.containerId ∈ ((docker.kept p).filter fun c =>
            c.state = .paused ∧ (p.key c).all (fun k => k.1 ∉ p.optional)).map
              Container.containerId
        · rw [if_pos he] at hid
          exact hid
        · rw [if_neg he] at hid
          exact hid
      rw [if_pos (hids ▸ List.mem_map_of_mem hmem)]
    · contradiction

/-- A container after a completed apply stayed, or was created by it. -/
theorem known_of_ok (hok : selectiveApply p cmds docker = .ok (outcome, run))
    (hapart : StartsApart p docker) {c' : Container} (hc' : c' ∈ run.docker.containers) :
    (∃ c ∈ docker.containers, ¬ p.departs c ∧ Onward c c') ∨
      ∃ s ∈ docker.toStart p, c' = newContainer p cmds.newId s := by
  have hmidway := midway_attemptApply hapart cmds
  have hrun : attemptApply p docker cmds = run := by
    unfold attemptApply
    rw [hok]
    rfl
  rw [hrun] at hmidway
  cases (completed_of_ok hok).containers c' hc' with
  | inr hnew => exact .inr hnew
  | inl hold =>
      obtain ⟨c, hc, hstay, heq⟩ := hold
      refine (hmidway.known c' hc').imp_left fun hknown => ?_
      obtain ⟨e, he, honward⟩ := hknown
      have hids : e.containerId = c.containerId := by
        rw [← honward.containerId, heq]
      exact ⟨c, hc, hstay, eq_of_containerId he hc hids ▸ honward⟩

/-- Every wanted service has a kept container after a completed apply. -/
theorem served_of_ok (hok : selectiveApply p cmds docker = .ok (outcome, run))
    (hapart : StartsApart p docker) {s : Service} (hs : s ∈ p.services)
    (hopt : s.name ∉ p.optional) :
    ∃ c ∈ run.docker.containers, p.keeps c ∧ p.key c = some (p.wanted s.name) := by
  have hdone := completed_of_ok hok
  by_cases hstart : s ∈ docker.toStart p
  · exact ⟨_, hdone.creates s hstart, keeps_newContainer _ hs, key_newContainer _ s⟩
  · obtain ⟨c, hc, hkeeps, hkey⟩ := kept_of_not_toStart hs hopt hstart
    have hstay : ¬ p.departs c := not_departs_iff.mpr (.inl hkeeps)
    obtain ⟨c', hc', heq⟩ := hdone.stays c hc hstay (hapart.created c hc hstay)
    cases known_of_ok hok hapart hc' with
    | inl hold =>
        obtain ⟨e, he, -, honward⟩ := hold
        have hids : e.containerId = c.containerId := by
          rw [← honward.containerId, heq]
        obtain rfl := eq_of_containerId he hc hids
        exact ⟨c', hc', honward.keeps hkeeps, honward.key.trans hkey⟩
    | inr hnew =>
        obtain ⟨t, ht, rfl⟩ := hnew
        refine ⟨_, hc', keeps_newContainer _ (mem_toStart.mp ht).1, ?_⟩
        rw [heq]
        exact hkey

/-- A wanted service has one container after a completed apply. -/
theorem unique_of_ok (hok : selectiveApply p cmds docker = .ok (outcome, run))
    (hapart : StartsApart p docker) {s : Service} (hs : s ∈ p.services) {c₁ c₂ : Container}
    (hc₁ : c₁ ∈ run.docker.containers) (hc₂ : c₂ ∈ run.docker.containers)
    (hkey₁ : p.key c₁ = some (p.wanted s.name)) (hkey₂ : p.key c₂ = some (p.wanted s.name)) :
    c₁ = c₂ := by
  have hamb := (preflight_eq_none.mp (selectiveApply_ok hok).1).1
  have hnew : ∀ t ∈ docker.toStart p, p.key (newContainer p cmds.newId t) =
      some (p.wanted s.name) → t = s := by
    intro t ht hkey
    rw [key_newContainer, Option.some.injEq] at hkey
    have hname : t.name = s.name := congrArg Prod.fst hkey
    exact Table.eq_of_key_eq (mem_toStart.mp ht).1 hs hname
  -- a service that starts had no container that stays
  have hmixed : ∀ c ∈ docker.containers, ¬ p.departs c → ∀ c', Onward c c' →
      p.key c' = some (p.wanted s.name) → s ∉ docker.toStart p := by
    intro c hc hstay c' honward hkey hstart
    exact hapart.carries c hc hstay s hstart (honward.key ▸ hkey)
  cases known_of_ok hok hapart hc₁ with
  | inl hold₁ =>
      obtain ⟨e₁, he₁, hstay₁, honward₁⟩ := hold₁
      cases known_of_ok hok hapart hc₂ with
      | inl hold₂ =>
          obtain ⟨e₂, he₂, -, honward₂⟩ := hold₂
          have hsame := key_unique hamb hs he₁ he₂ (honward₁.key ▸ hkey₁)
            (honward₂.key ▸ hkey₂)
          refine Table.eq_of_key_eq hc₁ hc₂ ?_
          rw [honward₁.containerId, honward₂.containerId, hsame]
      | inr hnew₂ =>
          obtain ⟨t, ht, rfl⟩ := hnew₂
          exact absurd (hnew t ht hkey₂ ▸ ht) (hmixed e₁ he₁ hstay₁ _ honward₁ hkey₁)
  | inr hnew₁ =>
      obtain ⟨t, ht, rfl⟩ := hnew₁
      cases known_of_ok hok hapart hc₂ with
      | inl hold₂ =>
          obtain ⟨e₂, he₂, hstay₂, honward₂⟩ := hold₂
          exact absurd (hnew t ht hkey₁ ▸ ht) (hmixed e₂ he₂ hstay₂ _ honward₂ hkey₂)
      | inr hnew₂ =>
          obtain ⟨t', ht', rfl⟩ := hnew₂
          rw [hnew t ht hkey₁, hnew t' ht' hkey₂]

/-- A completed apply has gone through its phases. -/
theorem applyPhases_of_ok (hok : selectiveApply p cmds docker = .ok (outcome, run)) :
    applyPhases p cmds docker = .ok run := by
  cases selectiveApply_cases p cmds docker with
  | inl hrefused =>
      obtain ⟨e, he⟩ := hrefused
      rw [he] at hok
      contradiction
  | inr hphases =>
      rw [hphases.2] at hok
      cases hres : applyPhases p cmds docker with
      | error failure =>
          rw [hres] at hok
          contradiction
      | ok run' =>
          rw [hres] at hok
          have hpair := Except.ok.inj hok
          exact congrArg Except.ok (congrArg Prod.snd hpair)

/-- A kept container is paused after a completed apply only if its service is optional. -/
theorem awake_of_ok (hok : selectiveApply p cmds docker = .ok (outcome, run))
    (hapart : StartsApart p docker) {c' : Container} (hc' : c' ∈ run.docker.containers)
    (hkeeps : p.keeps c') (hpaused : c'.state = .paused) {k : String × String}
    (hkey : p.key c' = some k) : k.1 ∈ p.optional := by
  obtain ⟨removed, reconciled, unpaused, -, hnet, hun, hup⟩ :=
    applyPhases_ok (applyPhases_of_ok hok)
  have hperm := levels_perm (p := p) docker
  have hnodup := ((hperm.map Service.name).nodup_iff).mpr (toStart_nodup p docker)
  by_contra hopt
  have hrunning : c'.state = .running := by
    cases known_of_ok hok hapart hc' with
    | inr hnew =>
        obtain ⟨s, -, rfl⟩ := hnew
        rfl
    | inl hold =>
        obtain ⟨c, hc, -, honward⟩ := hold
        cases honward with
        | inr hresumed => rw [hresumed.2]
        | inl hsame =>
            subst hsame
            cases ((mem_upAll hnodup hup).1 c').mp hc' with
            | inl hstood =>
                exact unpauseKept_awake hun hc hkeeps hpaused hkey hopt hstood.1 rfl
            | inr hnew =>
                obtain ⟨s, -, heq⟩ := hnew
                rw [heq]
                rfl
  rw [hrunning] at hpaused
  contradiction

/-- What a completed apply leaves is settled. -/
theorem settled_of_ok (hok : selectiveApply p cmds docker = .ok (outcome, run))
    (hapart : StartsApart p docker) : Settled p run.docker := by
  constructor
  case stays =>
    intro c' hc'
    cases known_of_ok hok hapart hc' with
    | inl hold =>
        obtain ⟨c, -, hstay, honward⟩ := hold
        exact honward.stays hstay
    | inr hnew =>
        obtain ⟨s, hs, rfl⟩ := hnew
        exact not_departs_iff.mpr (.inl (keeps_newContainer _ (mem_toStart.mp hs).1))
  case served => exact fun s hs hopt => served_of_ok hok hapart hs hopt
  case unique =>
    exact fun s hs c₁ hc₁ c₂ hc₂ hkey₁ hkey₂ => unique_of_ok hok hapart hs hc₁ hc₂ hkey₁ hkey₂
  case awake =>
    exact fun c hc hkeeps hpaused k hkey => awake_of_ok hok hapart hc hkeeps hpaused hkey
  case network =>
    intro wanted n hsub hn
    obtain ⟨removed, reconciled, unpaused, -, hnet, hun, hup⟩ :=
      applyPhases_ok (applyPhases_of_ok hok)
    rw [upAll_network hup, unpauseKept_network hun] at hn
    exact reconcileNetwork_settles hnet wanted n hsub hn

end Settles

/-! ## an apply whose commands succeed -/

/-- Every command of an apply succeeds, and new containers get new ids. -/
structure Commands.Succeed (cmds : Commands) (p : Project) (docker : Docker) : Prop where
  residency : cmds.residency
  barrier : cmds.barrier
  pull : ∀ image, cmds.pull image
  rm : cmds.rm = .ok ()
  networkRm : cmds.networkRm
  unpause : cmds.unpause
  healthy : ∀ names, cmds.healthy names
  up : ∀ names, cmds.up names = .ok ()
  fresh : ∀ s ∈ p.services, cmds.newId s.name ∉ docker.containers.keys
  distinct : ∀ s ∈ p.services, ∀ t ∈ p.services, cmds.newId s.name = cmds.newId t.name →
    s.name = t.name

section Succeed

variable {p : Project} {cmds : Commands} {docker : Docker} {run : ApplyRun}

/-- The ids of new containers are free while these services have not started. -/
def FreeFor (cmds : Commands) (run : ApplyRun) (services : List Service) : Prop :=
  ∀ s ∈ services, cmds.newId s.name ∉ run.docker.containers.keys

/-- Services of different names start one after another. -/
theorem upAll_succeeds (hcmds : cmds.Succeed p docker) {level rest : List Service}
    (hlevel : ∀ s ∈ level ++ rest, s ∈ p.services)
    (hnodup : ((level ++ rest).map Service.name).Nodup) (hfree : FreeFor cmds run (level ++ rest)) :
    ∃ run', upAll p cmds run level = some run' ∧ FreeFor cmds run' rest := by
  induction level generalizing run with
  | nil => exact ⟨run, rfl, hfree⟩
  | cons s level ih =>
      have hnew : cmds.newId s.name ∉ (run.docker.containers.filter
          fun c => c.composeService ≠ s.name).keys := by
        intro hkey
        obtain ⟨c, hc, hid⟩ := Table.mem_keys.mp hkey
        exact hfree s (by simp) (Table.mem_keys.mpr ⟨c, (Table.mem_filter.mp hc).1, hid⟩)
      have hinsert : ∃ t, (run.docker.containers.filter
          fun c => c.composeService ≠ s.name).insert? (newContainer p cmds.newId s) = some t :=
        ⟨_, Table.insert?_eq_some.mpr ⟨hnew, rfl⟩⟩
      obtain ⟨t, ht⟩ := hinsert
      obtain ⟨mid, hmid⟩ : ∃ mid, run.up p cmds.newId s = some mid := by
        unfold ApplyRun.up
        exact ⟨_, Option.map_eq_some_iff.mpr ⟨t, ht, rfl⟩⟩
      obtain ⟨hnot, hnodup'⟩ := List.nodup_cons.mp hnodup
      have hfree' : FreeFor cmds mid (level ++ rest) := by
        intro u hu hkey
        obtain ⟨c, hc, hid⟩ := Table.mem_keys.mp hkey
        cases ((up_eq_some hmid).1 c).mp hc with
        | inl hold =>
            exact hfree u (List.mem_cons_of_mem s hu) (Table.mem_keys.mpr ⟨c, hold.1, hid⟩)
        | inr hcreated =>
            rw [hcreated] at hid
            have hname := hcmds.distinct s (hlevel s (by simp)) u
              (hlevel u (List.mem_cons_of_mem s hu)) hid
            exact hnot (hname ▸ List.mem_map_of_mem hu)
      obtain ⟨run', hrun', hrest⟩ :=
        ih (fun u hu => hlevel u (List.mem_cons_of_mem s hu)) hnodup' hfree'
      refine ⟨run', ?_, hrest⟩
      unfold upAll at hrun' ⊢
      rw [List.foldlM_cons, hmid]
      exact hrun'

theorem startLevels_succeed (hcmds : cmds.Succeed p docker) {order : List (List String)}
    (hservices : ∀ s ∈ order.flatten.filterMap p.services.find?, s ∈ p.services)
    (hnodup : ((order.flatten.filterMap p.services.find?).map Service.name).Nodup)
    (hfree : FreeFor cmds run (order.flatten.filterMap p.services.find?)) :
    ∃ run', order.foldlM (startLevel p cmds) run = .ok run' := by
  induction order generalizing run with
  | nil => exact ⟨run, rfl⟩
  | cons names order ih =>
      rw [List.flatten_cons, List.filterMap_append] at hservices hnodup hfree
      obtain ⟨mid, hmid, hfree'⟩ := upAll_succeeds hcmds hservices hnodup hfree
      have hlevel : startLevel p cmds run names = .ok mid := by
        unfold startLevel
        simp [hcmds.healthy, hcmds.up, hmid]
      rw [List.foldlM_cons, hlevel]
      refine ih (fun s hs => hservices s (List.mem_append_right _ hs)) ?_ hfree'
      rw [List.map_append] at hnodup
      exact hnodup.of_append_right

/-- The departing containers are removed, also from the network. -/
theorem removeDeparting_succeeds (hcmds : cmds.Succeed p docker) :
    ∃ run, removeDeparting p cmds docker = .ok run ∧
      run.docker.containers.keys ⊆ docker.containers.keys ∧
      ∀ n, run.docker.network = some n → ∃ attached, docker.network = some (n.1, attached) ∧
        n.2 = attached.filter (· ∉ (docker.departing p).map Container.containerId) := by
  unfold removeDeparting
  dsimp only
  split
  · rename_i hnone
    refine ⟨_, rfl, List.Subset.refl _, fun n hn => ⟨n.2, hn, ?_⟩⟩
    rw [hnone]
    simp
  · simp only [hcmds.rm, hcmds.barrier, if_true]
    refine ⟨_, rfl, fun id hid => ?_, fun n hn => ?_⟩
    · obtain ⟨c, hc, rfl⟩ := Table.mem_keys.mp hid
      exact Table.mem_keys.mpr ⟨c, (Table.mem_filter.mp hc).1, rfl⟩
    · obtain ⟨m, hm, rfl⟩ := Option.map_eq_some_iff.mp hn
      exact ⟨m.2, hm, rfl⟩

/-- A network that must change has nothing attached any more. -/
theorem reconcileNetwork_succeeds (hcmds : cmds.Succeed p docker)
    (hblocked : networkBlocked p docker = none)
    (hattached : ∀ n, run.docker.network = some n → ∃ attached,
      docker.network = some (n.1, attached) ∧
        n.2 = attached.filter (· ∉ (docker.departing p).map Container.containerId)) :
    ∃ run', reconcileNetwork p cmds run = .ok run' := by
  unfold reconcileNetwork
  cases hsub : p.subnet with
  | none => exact ⟨run, rfl⟩
  | some wanted =>
      cases hnet : run.docker.network with
      | none => exact ⟨run, rfl⟩
      | some n =>
          obtain ⟨attached, hdocker, hleft⟩ := hattached n hnet
          by_cases hsame : n.1 = some wanted
          · exact ⟨run, if_pos hsame⟩
          · have hnone : n.2 = [] := by
              rw [hleft]
              by_contra hforeign
              unfold networkBlocked at hblocked
              simp only [hsub, hdocker] at hblocked
              rw [if_pos ⟨hsame, hforeign⟩] at hblocked
              contradiction
            refine ⟨_, (if_neg hsame).trans ((if_neg ?_).trans (if_pos hcmds.networkRm))⟩
            simpa using hnone

theorem keys_unpaused (run : ApplyRun) (ids : List String) :
    (run.unpaused ids).docker.containers.keys = run.docker.containers.keys := by
  unfold ApplyRun.unpaused
  simp only [Table.keys_map]

theorem unpauseKept_succeeds (run : ApplyRun) (hcmds : cmds.Succeed p docker) :
    ∃ run', unpauseKept p cmds docker run = .ok run' ∧
      run'.docker.containers.keys = run.docker.containers.keys := by
  unfold unpauseKept
  dsimp only
  split
  · exact ⟨run, rfl, rfl⟩
  · exact ⟨_, if_pos hcmds.unpause, keys_unpaused run _⟩

/-- An apply that is not refused and whose commands succeed completes. -/
theorem completes (hpre : preflight p docker = none) (hcmds : cmds.Succeed p docker) :
    ∃ outcome run, selectiveApply p cmds docker = .ok (outcome, run) := by
  have hpull : pullMissing cmds (docker.toStart p) = none :=
    List.findSome?_eq_none_iff.mpr fun image _ => if_pos (hcmds.pull image)
  obtain ⟨removed, hremoved, hkeys, hattached⟩ := removeDeparting_succeeds hcmds
  obtain ⟨reconciled, hnet⟩ :=
    reconcileNetwork_succeeds hcmds (preflight_eq_none.mp hpre).2.2.2.2 hattached
  obtain ⟨unpaused, hun, hkeys'⟩ := unpauseKept_succeeds reconciled hcmds
  have hperm := levels_perm (p := p) docker
  have hservices : ∀ s ∈ (dependencyLevels p (docker.toStart p)).flatten.filterMap
      p.services.find?, s ∈ p.services :=
    fun s hs => (mem_toStart.mp (hperm.mem_iff.mp hs)).1
  have hfree : FreeFor cmds unpaused ((dependencyLevels p (docker.toStart p)).flatten.filterMap
      p.services.find?) := by
    intro s hs hkey
    rw [hkeys', (reconcileNetwork_ok hnet).1] at hkey
    exact hcmds.fresh s (hservices s hs) (hkeys hkey)
  obtain ⟨run, hrun⟩ := startLevels_succeed hcmds hservices
    (((hperm.map Service.name).nodup_iff).mpr (toStart_nodup p docker)) hfree
  unfold selectiveApply
  rw [if_neg (by simp [hcmds.residency]), hpre, hpull, hremoved]
  simp only [bind, Except.bind, hnet, hun, hrun]
  exact ⟨_, run, rfl⟩

end Succeed

/-! ## applies, and anything else in between -/

/-- An apply with its commands, or anything else that happens to the project. -/
inductive ApplyEvent where
  | attempt (cmds : Commands)
  | elsewhere (docker : Docker)

def applyStep (p : Project) (docker : Docker) : ApplyEvent → Docker
  | .attempt cmds => (attemptApply p docker cmds).docker
  | .elsewhere docker' => docker'

/-- Containers may change their states and go away, and containers that are
nobody's may come, but none that Compose created for a service of the render. -/
def Elsewhere (p : Project) (docker : Docker) : ApplyEvent → Prop
  | .attempt _ => True
  | .elsewhere docker' => ∀ c' ∈ docker'.containers,
      (∃ c ∈ docker.containers, c' = { c with state := c'.state }) ∨
        p.key c' = none ∧ c'.composeService ∉ p.services.keys

section Run

variable {p : Project} {docker : Docker}

/-- A container of another state is owned alike. -/
theorem Project.Owns.of_known {docker' : Docker} (h : p.Owns docker)
    (hknown : ∀ c' ∈ docker'.containers,
      (∃ c ∈ docker.containers, c' = { c with state := c'.state }) ∨
        (∀ k, p.key c' = some k → k.1 = c'.composeService) ∧
          ((p.key c' = none ∨ c'.deploymentId ∈ p.degraded) →
            c'.composeService ∉ p.services.keys)) : p.Owns docker' := by
  constructor
  case created =>
    intro c' hc' k hkey
    cases hknown c' hc' with
    | inr hnew => exact hnew.1 k hkey
    | inl hold =>
        obtain ⟨c, hc, heq⟩ := hold
        rw [heq] at hkey ⊢
        exact h.created c hc k hkey
  case apart =>
    intro c' hc' hleft
    cases hknown c' hc' with
    | inr hnew => exact hnew.2 hleft
    | inl hold =>
        obtain ⟨c, hc, heq⟩ := hold
        rw [heq] at hleft ⊢
        exact h.apart c hc hleft

/-- Neither an apply nor anything else takes ownership out of order. -/
theorem Project.Owns.step (h : p.Owns docker) (hleaves : p.LeavesDegraded) {e : ApplyEvent}
    (he : Elsewhere p docker e) : p.Owns (applyStep p docker e) := by
  cases e with
  | attempt cmds =>
      refine h.of_known fun c' hc' => ?_
      cases (midway_attemptApply h.startsApart cmds).known c' hc' with
      | inl hold =>
          obtain ⟨c, hc, honward⟩ := hold
          exact .inl ⟨c, hc, honward.same⟩
      | inr hnew =>
          obtain ⟨s, hs, rfl⟩ := hnew
          refine .inr ⟨fun k hkey => ?_, fun hleft => ?_⟩
          · rw [key_newContainer, Option.some.injEq] at hkey
            rw [← hkey]
            rfl
          · cases hleft with
            | inl hnone => contradiction
            | inr hdegraded => exact absurd hdegraded (hleaves s (mem_toStart.mp hs).1)
  | elsewhere docker' =>
      refine h.of_known fun c' hc' => (he c' hc').imp_right fun hnew => ?_
      refine ⟨fun k hkey => ?_, fun _ => hnew.2⟩
      rw [hnew.1] at hkey
      contradiction

/-- After any applies of one render, each stopped anywhere, with anything else
happening in between: the next apply removes and replaces nothing that serves,
is nobody's, or lost its place; it completes unless it is refused or a command
fails; and what it leaves when it completes serves the whole render, so that
every later apply finds nothing to do. -/
theorem retries_settle (hgpu : p.GpuDisjoint) (hleaves : p.LeavesDegraded) (h : p.Owns docker)
    {es : List ApplyEvent} (hes : AllSteps (applyStep p) (Elsewhere p) docker es) :
    let now := run (applyStep p) docker es
    (∀ cmds, ∀ c ∈ now.containers, ¬ p.departs c → c.containerId ∉ (attemptApply p now cmds).gone ∧
      ∃ c' ∈ (attemptApply p now cmds).docker.containers, Onward c c') ∧
    (∀ cmds, preflight p now = none → cmds.Succeed p now →
      ∃ outcome run, selectiveApply p cmds now = .ok (outcome, run)) ∧
    ∀ cmds outcome run, selectiveApply p cmds now = .ok (outcome, run) →
      SafeApply p now run ∧ Settled p run.docker ∧ ∀ cmds', cmds'.residency →
        ∃ again, selectiveApply p cmds' run.docker = .ok (again, { docker := run.docker }) ∧
          again.removed = [] ∧ again.started = [] := by
  intro now
  have hnow : p.Owns now := AllSteps.run_inv (fun d e hd he => hd.step hleaves he) h hes
  have hapart : StartsApart p now := hnow.startsApart
  refine ⟨fun cmds c hc hstay => ?_, fun cmds hpre hcmds => completes hpre hcmds,
    fun cmds outcome run hok => ?_⟩
  · have hmidway := midway_attemptApply hapart cmds
    exact ⟨hmidway.gone c hc hstay, hmidway.stays c hc hstay⟩
  · have hsettled := settled_of_ok hok hapart
    refine ⟨(completed_of_ok hok).safe (selectiveApply_ok hok).1 hgpu hapart, hsettled,
      fun cmds' hres => ⟨_, hsettled.apply hres, rfl, rfl⟩⟩

end Run

/-- The service's container with an older configuration, and one that nobody
manages. -/
def staleContainer : Docker where
  containers := Table.ofList
    [{ containerId := "old", deploymentId := "d", state := .running, gpus := [0], service := "m",
       composeService := "m", fingerprint := "before", labelled := true },
     { containerId := "other", deploymentId := "", state := .running, service := "",
       composeService := "other" }]

/-- Starting the service fails, after the old container is gone. -/
def noStart : Commands := { answering with up := fun _ => .error [] }

/-- The other container stops meanwhile. -/
def otherStops : Docker where
  containers := Table.ofList
    [{ containerId := "other", deploymentId := "", state := .exited, service := "",
       composeService := "other" }]

/-- After two failures the next apply starts the service, and nothing is left to do. -/
theorem staleContainer_settles :
    let now := run (applyStep oneService) staleContainer
      [.attempt noStart, .elsewhere otherStops, .attempt noStart]
    ∃ outcome run, selectiveApply oneService answering now = .ok (outcome, run) ∧
      outcome.started = ["m"] ∧ Settled oneService run.docker := by
  have howns : oneService.Owns staleContainer := by
    constructor
    · intro c hc k hkey
      cases hc with
      | head => obtain rfl := Option.some.inj hkey; rfl
      | tail _ hc =>
          obtain rfl := List.mem_singleton.mp hc
          contradiction
    · intro c hc hleft
      cases hc with
      | head => cases hleft with
        | inl hnone => contradiction
        | inr hdegraded => contradiction
      | tail _ hc =>
          obtain rfl := List.mem_singleton.mp hc
          decide
  have hsteps : AllSteps (applyStep oneService) (Elsewhere oneService) staleContainer
      [.attempt noStart, .elsewhere otherStops, .attempt noStart] := by
    refine ⟨trivial, fun c hc => ?_, trivial, trivial⟩
    obtain rfl := List.mem_singleton.mp hc
    exact .inr ⟨rfl, by decide⟩
  have hleaves : oneService.LeavesDegraded := fun s _ => List.not_mem_nil
  obtain ⟨-, -, hdone⟩ := retries_settle oneService_disjoint hleaves howns hsteps
  exact ⟨_, _, rfl, rfl, (hdone answering _ _ rfl).2.1⟩

end InferStack
