import InferStack.Compose.ApplySafety
import InferStack.Controller

/-!
# InferStack.Compose.Apply

The Compose backend's apply, as the controller sees it.

Around the selective apply it reads the rendered file, retires the routes of
departing upstreams before anything is removed, and verifies the gateway's
routes at the end.  What it reports and whether it touched the gateway's
container are two things: `composeApply_untouched` and `composeApply_touched`
say how they are related.
-/

namespace InferStack

open Kit

/-- The gateway's service. -/
def litellmService : String := "litellm"

/-- How the calls of one apply come out. -/
structure ApplyCalls extends Commands where
  /-- There is a rendered file. -/
  rendered : Bool := true
  /-- It can be read, and has fingerprints. -/
  readable : Bool := true
  /-- A dynamic gateway is rendered. -/
  dynamic : Bool := true
  /-- Whether the routes to departing upstreams are gone. -/
  retired : Except Failure Bool := .ok true
  /-- Whether the gateway's routes are as desired, in time. -/
  verified : Bool := true

/-- The error the controller sees. -/
def ApplyError.failure : ApplyError → Failure
  | .residencyUnknown => .residencyUnknown
  | .pull _ | .rm | .unpause | .up _ => .failed
  | _ => .applyAborted

/-- The backend's apply: what it reports, and the runtime it leaves. -/
def composeApply (p : Project) (calls : ApplyCalls) (docker : Docker) :
    ApplyOutcome × ApplyRun :=
  let untouched : ApplyRun := { docker := docker }
  let dynamic := calls.dynamic ∧ litellmService ∈ p.services.keys
  if ¬ calls.rendered then (.complete, untouched)
  else if ¬ calls.readable then (.incomplete false, untouched)
  else match (if dynamic then calls.retired else .ok true) with
    | .error e => (.raised e, untouched)
    | .ok false => (.incomplete false, untouched)
    | .ok true =>
        match selectiveApply p calls.toCommands docker with
        | .error failure => (.raised failure.error.failure, failure.run)
        | .ok (_, run) =>
            (if dynamic ∧ ¬ calls.verified then .incomplete true else .complete, run)

/-- The gateway's container was removed, replaced or started. -/
def gatewayTouched (docker : Docker) (run : ApplyRun) : Bool :=
  (run.started.map Prod.fst).contains litellmService ||
    docker.containers.rows.any fun c =>
      c.composeService = litellmService && run.gone.contains c.containerId

theorem gatewayTouched_start (docker docker' : Docker) :
    gatewayTouched docker { docker := docker' } = false := by
  simp [gatewayTouched]

section Apply

variable {p : Project} {calls : ApplyCalls} {docker : Docker}

/-- An apply that says that it did not reach the runtime did not. -/
theorem composeApply_untouched (h : (composeApply p calls docker).1 = .incomplete false) :
    gatewayTouched docker (composeApply p calls docker).2 = false := by
  unfold composeApply at h ⊢
  dsimp only at h ⊢
  split
  · exact gatewayTouched_start docker docker
  · rename_i hrendered
    rw [if_neg hrendered] at h
    split
    · exact gatewayTouched_start docker docker
    · rename_i hreadable
      rw [if_neg hreadable] at h
      split
      · exact gatewayTouched_start docker docker
      · exact gatewayTouched_start docker docker
      · rename_i hretired
        rw [hretired] at h
        dsimp only at h ⊢
        cases hsel : selectiveApply p calls.toCommands docker with
        | error failure => simp [hsel] at h
        | ok r =>
            simp only [hsel] at h
            split at h <;> simp at h

/-- An apply that returns having reached the runtime started the gateway, if no
container has its new configuration. -/
theorem composeApply_touched (hrendered : calls.rendered = true) {s : Service}
    (hs : s ∈ p.services) (hname : s.name = litellmService) (hopt : s.name ∉ p.optional)
    (hnew : ∀ c ∈ docker.containers, p.key c ≠ some (p.wanted s.name))
    (h : (composeApply p calls docker).1 = .complete ∨
      (composeApply p calls docker).1 = .incomplete true) :
    gatewayTouched docker (composeApply p calls docker).2 = true := by
  have hstart : s ∈ docker.toStart p := by
    by_contra hnot
    obtain ⟨c, hc, -, hkey⟩ := kept_of_not_toStart hs hopt hnot
    exact hnew c hc hkey
  unfold composeApply at h ⊢
  dsimp only at h ⊢
  rw [if_neg (by simp [hrendered])] at h ⊢
  split
  · rename_i hreadable
    simp [hreadable] at h
  · rename_i hreadable
    rw [if_neg hreadable] at h
    split
    · rename_i hretired
      simp [hretired] at h
    · rename_i hretired
      simp [hretired] at h
    · rename_i hretired
      rw [hretired] at h
      dsimp only at h ⊢
      cases hsel : selectiveApply p calls.toCommands docker with
      | error failure => simp [hsel] at h
      | ok r =>
          obtain ⟨outcome, run⟩ := r
          have hstarted := ((completed_of_ok hsel).started (s.name, calls.newId s.name)).mpr
            ⟨s, hstart, rfl⟩
          have hin : litellmService ∈ run.started.map Prod.fst :=
            List.mem_map.mpr ⟨_, hstarted, hname⟩
          simp only [gatewayTouched, List.contains_iff_mem.mpr hin, Bool.true_or]

end Apply

end InferStack
