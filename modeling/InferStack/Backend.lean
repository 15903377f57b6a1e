import InferStack.Ledger
import InferStack.Placement
import InferStack.Residency

/-!
# InferStack.Backend

What the controller asks of a backend that places on this host: a GPU planner,
a renderer of the desired set, the published profile's settings, and the
secrets a render needs.

The controller is generic over it.  `π` is the published profile, `δ` the digest
of the rendered files and `φ` the files a later render reads back.  The digest
here is the data digested, so equal digests are equal files.
-/

namespace InferStack

open Kit

/-! ## failures -/

/-- Why an admission was refused. -/
inductive AdmissionReason where
  /-- What is running cannot be read, so nothing is admitted. -/
  | unreadable
  /-- No new GPU while these LIVE deployments have no committed allocation. -/
  | unallocated (deployments : List String)
  /-- An unresolved deployment from before allocations takes no new demand. -/
  | preAllocation (deployment : String)
  | gpusGone (deployment : String)
  | placement (deployment : String) (why : PlacementFailure)
  | unplaced (deployment : String)
  /-- The render excluded it: `service` is already used by `holder`. -/
  | nameTaken (deployment service holder : String)
  | unrenderable (deployment : String)
  | held (gpus : List Nat) (deployment : String) (owners : List String)
  deriving DecidableEq

/-- The errors an operation ends with.  `interrupt` stands for the exceptions
that are not `Exception`: Ctrl-C and its like. -/
inductive Failure where
  | convergeAborted
  | placement (reasons : List AdmissionReason)
  | profileMismatch
  | residencyUnknown
  | runtimeUnsettled
  | applyAborted
  | admissionConflict
  | failed
  | interrupt
  deriving DecidableEq

/-! ## rendering -/

/-- A deployment a render had to exclude, because its name is taken. -/
structure RenderExclusion where
  deployment : String
  service : String
  holder : String
  deriving DecidableEq

/-- Every input of a render. -/
structure RenderInput (π φ : Type) where
  desired : List Deployment
  assignments : Holdings String Nat
  profile : π
  /-- The subnet and the address table, once a network is migrated. -/
  network : Option (String × Dict String String)
  /-- The managed secrets the render asked for. -/
  secrets : Dict String String
  /-- The managed `.env` as the render sees it. -/
  env : Dict String String
  files : φ

/-- What a render produces. -/
structure Rendered (δ : Type) where
  excluded : List RenderExclusion := []
  digest : δ
  /-- The extended address table. -/
  addresses : Option (Dict String String) := none

/-- Placed deployments without a service. -/
def Rendered.unrenderable {δ : Type} (r : Rendered δ) : List String :=
  r.excluded.map RenderExclusion.deployment

/-- A backend that places on this host. -/
structure Backend (π δ φ : Type) where
  host : Host
  /-- The policy of deployments whose spec omits one. -/
  reclaimDefault : String
  /-- Whether this kind of backend can render from a profile. -/
  compatible : π → Bool
  /-- A profile with its settings and no published endpoint. -/
  settingsOnly : π → π
  /-- How an acquire would advance the published profile, if at all. -/
  acquireProfile : Store π δ → Option Residency → π → Int → Except Failure (Option π)
  /-- Whether the published endpoints define the requests identically. -/
  validateRequests : π → List EndpointRequest → Bool
  /-- The managed secrets a render asks for. -/
  secretNames : π → List String
  /-- The placement block with the VRAM facts known on this host. -/
  enrichPlacement : Spec → Placement
  render : RenderInput π φ → Except Failure (Rendered δ)
  /-- The files an approved render leaves for later ones. -/
  remember : RenderInput π φ → φ

variable {π δ φ : Type}

/-- Attach the VRAM facts to a vLLM deployment. -/
def Backend.enrich (B : Backend π δ φ) (d : Deployment) : Deployment :=
  if d.engine = .vllm then { d with spec := { d.spec with placement := B.enrichPlacement d.spec } }
  else d

@[simp] theorem Backend.enrich_id (B : Backend π δ φ) (d : Deployment) :
    (B.enrich d).id = d.id := by
  unfold enrich
  split <;> rfl

@[simp] theorem Backend.enrich_state (B : Backend π δ φ) (d : Deployment) :
    (B.enrich d).state = d.state := by
  unfold enrich
  split <;> rfl

@[simp] theorem Backend.enrich_createdAt (B : Backend π δ φ) (d : Deployment) :
    (B.enrich d).createdAt = d.createdAt := by
  unfold enrich
  split <;> rfl

/-! ## managed secrets -/

/-- A generated secret is never empty. -/
abbrev Secret := { s : String // s ≠ "" }

/-- The managed `.env` and the secrets a preview has generated but not written. -/
structure ManagedEnv where
  env : Dict String String := ∅
  staged : Dict String String := ∅

namespace ManagedEnv

/-- A stored value counts only if it is not empty. -/
def present (d : Dict String String) (name : String) : Option String :=
  (d.get? name).filter (· ≠ "")

/-- A secret of the managed `.env`, made on first use: written, or only staged
while a preview is computed. -/
def secret (m : ManagedEnv) (staging : Bool) (name : String) (new : Secret) :
    String × ManagedEnv :=
  match present m.env name with
  | some value => (value, m)
  | none =>
      let value := (present m.staged name).getD new.val
      if staging then (value, { m with staged := m.staged.set name value })
      else (value, { env := m.env.set name value
                     staged := m.staged.filter (·.1 ≠ name) })

/-- The managed secrets `names`, in order. -/
def secrets (m : ManagedEnv) (staging : Bool) (names : List String) (new : String → Secret) :
    Dict String String × ManagedEnv :=
  names.foldl (fun (acc : Dict String String × ManagedEnv) name =>
    let (value, m) := acc.2.secret staging name (new name)
    (acc.1.set name value, m)) (∅, m)

/-- What a render sees: the file, plus what is staged and not yet written. -/
def visible (m : ManagedEnv) : Dict String String := m.staged.putAll m.env.rows

end ManagedEnv

end InferStack
