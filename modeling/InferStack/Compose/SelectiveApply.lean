import InferStack.Kit.Levels
import InferStack.Residency
import Mathlib.Data.String.Basic

/-!
# InferStack.Compose.SelectiveApply

Making the Compose project match a render, touching only what differs.

Selective apply classifies every container of a strict snapshot (kept,
departing, or left alone), refuses what it cannot do safely, and only then
removes and starts.  It never removes an orphan or a degraded deployment's
container itself, but `docker compose up` does: it replaces every container
created for a service it starts.  `selectiveApply_safe_iff` says exactly when
that reaches a container that had to be left alone.
-/

namespace InferStack

open Kit

/-! ## what is rendered -/

/-- The part of a rendered service that selective apply reads. -/
structure Service where
  name : String
  image : Option String := none
  /-- The device ids of its GPU reservation. -/
  gpus : List Nat := []
  /-- Its address on the project's fixed network. -/
  address : Option String := none
  /-- Services it depends on; `true` when the condition is `service_healthy`. -/
  dependsOn : List (String × Bool) := []
  deploymentId : String := ""
  deriving DecidableEq

/-- A rendered project, with what the sidecar and the ledger say about it. -/
structure Project where
  services : Table Service Service.name
  fingerprints : String → String
  /-- Deployments that lost their place; their containers are left alone. -/
  degraded : List String := []
  /-- Optional residents: kept when running, never started. -/
  optional : List String := []
  /-- Ownership adopted at migration: container id to service and fingerprint. -/
  adopted : Dict String (String × String) := ∅
  /-- The subnet the render wants for the fixed network. -/
  subnet : Option String := none

/-- What Docker has: the project's containers, and the fixed network's subnet
and attached containers, if it exists. -/
structure Docker where
  containers : Table Container Container.containerId
  network : Option (Option String × List String) := none

/-! ## classifying containers -/

section Classify

variable (p : Project)

/-- The service and fingerprint a container is known by: its labels, or what
was adopted for it.  An orphan has none. -/
def Project.key (c : Container) : Option (String × String) :=
  if c.labelled then some (c.service, c.fingerprint) else p.adopted.get? c.containerId

/-- The key a service's container should have. -/
def Project.wanted (name : String) : String × String := (name, p.fingerprints name)

/-- The container serves a wanted configuration: it is running, restarting or
paused under the key of a rendered service. -/
def Project.keeps (c : Container) : Bool :=
  c.warm && (p.key c).any fun k => k.1 ∈ p.services.keys ∧ k = p.wanted k.1

/-- Managed, not kept, and not of a degraded deployment. -/
def Project.departs (c : Container) : Bool :=
  (p.key c).isSome && !p.keeps c && c.deploymentId ∉ p.degraded

def Docker.kept (docker : Docker) : List Container := docker.containers.rows.filter p.keeps

def Docker.departing (docker : Docker) : List Container :=
  docker.containers.rows.filter p.departs

def Docker.orphans (docker : Docker) : List Container :=
  docker.containers.rows.filter fun c => p.key c = none

/-- The services that already have a kept container. -/
def Docker.keptServices (docker : Docker) : List String :=
  (docker.kept p).filterMap fun c => (p.key c).map Prod.fst

/-- The services to start: no kept container, and not optional. -/
def Docker.toStart (docker : Docker) : List Service :=
  p.services.rows.filter fun s => s.name ∉ docker.keptServices p ∧ s.name ∉ p.optional

end Classify

/-! ## refusing -/

/-- Why an apply stops. -/
inductive ApplyError where
  /-- The snapshot could not be read. -/
  | residencyUnknown
  /-- Several containers have a service's wanted configuration. -/
  | ambiguous (service : String) (count : Nat)
  /-- A departing container is still being removed. -/
  | removing (containerId : String)
  /-- An unmanaged or a degraded container occupies a GPU a service needs. -/
  | occupied (containerId : String) (gpu : Nat) (service : String)
  /-- A kept service holds a GPU rendered for another. -/
  | heldByKept (containerId : String) (gpu : Nat) (service : String)
  /-- An unmanaged container holds a service's address. -/
  | addressHeld (containerId address service : String)
  /-- A subnet change with containers attached that will not be removed. -/
  | attached (containerIds : List String)
  | pull (image : String)
  | rm
  /-- The removed containers did not disappear in time. -/
  | barrier
  /-- A subnet change with containers attached after the removals. -/
  | stillAttached (containerIds : List String)
  | networkRm
  | unpause
  | unhealthy (services : List String)
  | up (services : List String)
  deriving DecidableEq, Repr

/-- Errors raised before anything is removed. -/
def ApplyError.beforeRemoval : ApplyError → Bool
  | .residencyUnknown | .ambiguous .. | .removing .. | .occupied .. | .heldByKept ..
  | .addressHeld .. | .attached .. | .pull .. => true
  | _ => false

section Preflight

variable (p : Project) (docker : Docker)

/-- Several containers with one wanted key: refuse to guess which one serves. -/
def ambiguousService : Option ApplyError :=
  p.services.rows.findSome? fun s =>
    let count := (docker.containers.rows.filter fun c => p.key c = some (p.wanted s.name)).length
    if 1 < count then some (.ambiguous s.name count) else none

def stillRemoving : Option ApplyError :=
  (docker.departing p).findSome? fun c =>
    if c.state = .removing then some (.removing c.containerId) else none

/-- One GPU of a service to start: every occupant must be departing. -/
def gpuBlocked (s : Service) (gpu : Nat) : Option ApplyError :=
  let occupants := docker.containers.rows.filter (·.occupies gpu)
  (occupants.findSome? fun c =>
    if p.keeps c || p.departs c then none else some (.occupied c.containerId gpu s.name)) <|>
  (occupants.findSome? fun c =>
    if p.keeps c && (p.key c).all (fun k => k.1 ≠ s.name)
    then some (.heldByKept c.containerId gpu s.name) else none)

def gpusBlocked : Option ApplyError :=
  (docker.toStart p).findSome? fun s => s.gpus.findSome? (gpuBlocked p docker s)

def addressBlocked : Option ApplyError :=
  (docker.toStart p).findSome? fun s => s.address.bind fun address =>
    docker.containers.rows.findSome? fun c =>
      if address ∈ c.ips ∧ p.key c = none
      then some (.addressHeld c.containerId address s.name) else none

/-- Containers of a network whose subnet must change, other than departing ones. -/
def networkBlocked : Option ApplyError :=
  match p.subnet, docker.network with
  | some wanted, some (actual, attached) =>
      let foreign := attached.filter (· ∉ (docker.departing p).map Container.containerId)
      if actual ≠ some wanted ∧ foreign ≠ [] then some (.attached foreign) else none
  | _, _ => none

/-- Every check made before anything is pulled or removed. -/
def preflight : Option ApplyError :=
  ambiguousService p docker <|> stillRemoving p docker <|> gpusBlocked p docker <|>
    addressBlocked p docker <|> networkBlocked p docker

end Preflight

/-! ## acting -/

/-- How the Docker commands of one apply come out.  A failing `rm` or `up` has
done a part of its list. -/
structure Commands where
  /-- The snapshot, and the later one that confirms removal, can be read. -/
  residency : Bool := true
  barrier : Bool := true
  pull : String → Bool := fun _ => true
  rm : Except (List String) Unit := .ok ()
  networkRm : Bool := true
  unpause : Bool := true
  healthy : List String → Bool := fun _ => true
  up : List String → Except (List String) Unit := fun _ => .ok ()
  /-- The id of the container created for a service. -/
  newId : String → String

/-- The runtime in the course of an apply, and what was done to it. -/
structure ApplyRun where
  docker : Docker
  /-- Containers removed or replaced. -/
  gone : List String := []
  /-- Services started, with the containers created for them. -/
  started : List (String × String) := []

/-- An apply that stopped, and what it left. -/
structure ApplyFailure where
  error : ApplyError
  run : ApplyRun

/-- What a completed apply reports. -/
structure SelectiveApplyOutcome where
  keptServices : List String
  removed : List String
  started : List String
  orphans : List String
  deriving DecidableEq

/-- `docker rm -f` removes exactly the named containers. -/
def ApplyRun.remove (run : ApplyRun) (ids : List String) : ApplyRun :=
  { run with
    docker :=
      { containers := run.docker.containers.filter fun c => c.containerId ∉ ids
        network := run.docker.network.map fun n => (n.1, n.2.filter (· ∉ ids)) }
    gone := run.gone ++ ids }

/-- The container Compose creates for a service. -/
def newContainer (p : Project) (newId : String → String) (s : Service) : Container where
  containerId := newId s.name
  deploymentId := s.deploymentId
  state := .running
  gpus := s.gpus
  service := s.name
  composeService := s.name
  fingerprint := p.fingerprints s.name
  labelled := true
  ips := s.address.toList

/-- `docker compose up --no-deps S` replaces every container created for `S`. -/
def ApplyRun.up (p : Project) (newId : String → String) (run : ApplyRun) (s : Service) :
    Option ApplyRun :=
  let others := run.docker.containers.filter fun c => c.composeService ≠ s.name
  (others.insert? (newContainer p newId s)).map fun containers =>
    { docker := { run.docker with containers := containers }
      gone := run.gone ++
        (run.docker.containers.rows.filter fun c => c.composeService = s.name).map
          Container.containerId
      started := run.started ++ [(s.name, newId s.name)] }

/-- `docker unpause` on the named containers. -/
def ApplyRun.unpaused (run : ApplyRun) (ids : List String) : ApplyRun :=
  let containers := run.docker.containers.map
    (fun c => if c.containerId ∈ ids then { c with state := .running } else c)
    (fun c => by split <;> rfl)
  { run with docker := { run.docker with containers := containers } }

section Act

variable (p : Project) (cmds : Commands)

/-- The first image that is missing and cannot be pulled. -/
def pullMissing (services : List Service) : Option ApplyError :=
  ((services.filterMap Service.image).insertionSort (· ≤ ·)).findSome? fun image =>
    if cmds.pull image then none else some (.pull image)

/-- Remove the departing containers, and confirm they are gone. -/
def removeDeparting (docker : Docker) : Except ApplyFailure ApplyRun :=
  let run : ApplyRun := { docker := docker }
  let ids := (docker.departing p).map Container.containerId
  if ids = [] then .ok run
  else match cmds.rm with
    | .error done => .error ⟨.rm, run.remove (ids.filter (· ∈ done))⟩
    | .ok () => if cmds.barrier then .ok (run.remove ids) else .error ⟨.barrier, run.remove ids⟩

/-- Drop the fixed network when its subnet must change; Compose makes it again. -/
def reconcileNetwork (run : ApplyRun) : Except ApplyFailure ApplyRun :=
  match p.subnet, run.docker.network with
  | some wanted, some (actual, attached) =>
      if actual = some wanted then .ok run
      else if attached ≠ [] then .error ⟨.stillAttached attached, run⟩
      else if cmds.networkRm then .ok { run with docker := { run.docker with network := none } }
      else .error ⟨.networkRm, run⟩
  | _, _ => .ok run

/-- Unpause the kept containers, but for optional residents. -/
def unpauseKept (docker : Docker) (run : ApplyRun) : Except ApplyFailure ApplyRun :=
  let paused := (docker.kept p).filter fun c =>
    c.state = .paused ∧ (p.key c).all (fun k => k.1 ∉ p.optional)
  if paused = [] then .ok run
  else if cmds.unpause then .ok (run.unpaused (paused.map Container.containerId))
  else .error ⟨.unpause, run⟩

/-- The services a level waits for: `--no-deps` skips the condition. -/
def healthyDeps (level : List Service) : List String :=
  (level.flatMap fun s => (s.dependsOn.filter Prod.snd).map Prod.fst).eraseDups.insertionSort
    (· ≤ ·)

/-- Start services one after another, as far as Compose gets. -/
def upAll (run : ApplyRun) (level : List Service) : Option ApplyRun :=
  level.foldlM (ApplyRun.up p cmds.newId) run

/-- Start one dependency level. -/
def startLevel (run : ApplyRun) (names : List String) : Except ApplyFailure ApplyRun :=
  let level := names.filterMap p.services.find?
  if healthyDeps level ≠ [] ∧ ¬ cmds.healthy (healthyDeps level) then
    .error ⟨.unhealthy (healthyDeps level), run⟩
  else match cmds.up names with
    | .error done =>
        .error ⟨.up names, (upAll p cmds run (level.filter (·.name ∈ done))).getD run⟩
    | .ok () => ((upAll p cmds run level).map .ok).getD (.error ⟨.up names, run⟩)

/-- Start order of the services to start. -/
def dependencyLevels (services : List Service) : List (List String) :=
  levels (fun n => ((p.services.find? n).map (·.dependsOn.map Prod.fst)).getD [])
    (services.map Service.name)

/-- Make the project match the render. -/
def selectiveApply (docker : Docker) : Except ApplyFailure (SelectiveApplyOutcome × ApplyRun) :=
  if ¬ cmds.residency then .error ⟨.residencyUnknown, { docker := docker }⟩
  else match preflight p docker <|> pullMissing cmds (docker.toStart p) with
    | some e => .error ⟨e, { docker := docker }⟩
    | none => do
        let run ← removeDeparting p cmds docker
        let run ← reconcileNetwork p cmds run
        let run ← unpauseKept p cmds docker run
        let run ← (dependencyLevels p (docker.toStart p)).foldlM (startLevel p cmds) run
        pure (
          { keptServices := docker.keptServices p
            removed := (docker.departing p).map Container.containerId
            started := (docker.toStart p).map Service.name
            orphans := (docker.orphans p).map Container.containerId }, run)

end Act

end InferStack
