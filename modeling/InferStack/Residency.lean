import InferStack.Models

/-!
# InferStack.Residency

A strict snapshot of the project's containers as Docker reports them, and the
questions the controller asks of it.  What was rendered plays no part here.
-/

namespace InferStack

open Kit

/-- A container's status.  `other` is any word Docker may add. -/
inductive ContainerState where
  | created
  | running
  | paused
  | restarting
  | removing
  | exited
  | dead
  | other (status : String)
  deriving DecidableEq, Repr

/-- States that hold, or will reclaim on their own, a warm model. -/
def ContainerState.warm : ContainerState → Bool
  | .running | .restarting | .paused => true
  | _ => false

/-- One container of the project. -/
structure Container where
  containerId : String
  /-- Empty for infrastructure: gateway, database, UI, proxy. -/
  deploymentId : String
  state : ContainerState
  gpus : List Nat := []
  /-- The reservation could not be mapped to indices. -/
  allGpus : Bool := false
  /-- The service label, or else the Compose service. -/
  service : String
  /-- The service Compose created it for. -/
  composeService : String
  fingerprint : String := ""
  /-- It carries both ownership labels, service and fingerprint. -/
  labelled : Bool := false
  ips : List String := []
  deriving DecidableEq, Repr

def Container.warm (c : Container) : Bool := c.state.warm

def Container.occupies (c : Container) (gpu : Nat) : Bool := c.allGpus || gpu ∈ c.gpus

/-- A snapshot.  On Kubernetes one deployment may run as several units. -/
structure Residency where
  containers : Table Container Container.containerId := ∅
  replicated : Bool := false
  deriving DecidableEq

namespace Residency

/-- Every unit of a deployment, in any state. -/
def units (r : Residency) (g : String) : List Container :=
  r.containers.rows.filter fun c => c.deploymentId = g

def warmUnits (r : Residency) (g : String) : List Container := (r.units g).filter Container.warm

/-- Several units claim a deployment that may have only one. -/
def isConflicted (r : Residency) (g : String) : Bool := !r.replicated && 1 < (r.units g).length

/-- The deployment is running: at least one warm unit, and no conflict. -/
def isResident (r : Residency) (g : String) : Bool :=
  !r.isConflicted g && !(r.warmUnits g).isEmpty

/-- The deployment's one warm unit, if it has exactly one unit. -/
def uniqueUnit (r : Residency) (g : String) : Option Container :=
  match r.units g with
  | [c] => if c.warm then some c else none
  | _ => none

/-- The GPUs a resident deployment holds, `none` when they are unknown. -/
def residentGpus (r : Residency) (g : String) : Option (List Nat) :=
  if !r.isResident g || (r.warmUnits g).any Container.allGpus then none
  else some (((r.warmUnits g).flatMap Container.gpus).eraseDups.insertionSort (· ≤ ·))

end Residency

end InferStack
