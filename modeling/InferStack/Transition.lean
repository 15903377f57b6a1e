import InferStack.Kit.Proc
import InferStack.Ledger

/-!
# InferStack.Transition

Explicit, archived backend transitions under the publication lock.

`rotateBackend` verifies that the frozen backend is quiescent, archives the
ledger and starts a new epoch.  Its steps are the transactions of the ledger and
the calls of the old backend; it holds the publication lock, so only the
lock-free renew comes between them.  Each step says which renewals land right
before it.
-/

namespace InferStack

open Kit

/-! ## the ledger file -/

/-- What `ledger_archives` records of an archived epoch. -/
structure Archive where
  path : String
  backend : Option String
  nextBackend : Option String
  leases : Nat
  deployments : Nat
  createdAt : Int
  deriving DecidableEq

/-- A SQLite ledger with its list of archives. -/
structure LedgerFile (π δ : Type) where
  store : Store π δ
  archives : List Archive

/-- A lock-free renew, at its clock reading. -/
structure Renewal where
  leaseId : String
  ttlSeconds : Option Int
  now : Int
  deriving DecidableEq

variable {π δ : Type}

/-- The store after some lock-free renews. -/
def Store.renewing (s : Store π δ) (rs : List Renewal) : Store π δ :=
  rs.foldl (fun s r => (renewIfLive s r.leaseId r.ttlSeconds r.now).2) s

/-- Why a rotation ends early. -/
inductive RotateError where
  /-- The rotation is refused. -/
  | profileMismatch (detail : String)
  /-- It is interrupted, or the code it calls raises. -/
  | raised
  deriving DecidableEq

/-- Atomically replace archived history with a new backend snapshot.  Of the
other records only the counters and the archives stay. -/
def LedgerFile.startBackendEpoch [DecidableEq π] (f : LedgerFile π δ) (profile : π)
    (archive : Archive) (expectedProfile : π) (expectedVersion : Nat) :
    Except RotateError (LedgerFile π δ) :=
  if f.store.profile ≠ some expectedProfile ∨ f.store.admissionStateVersion ≠ expectedVersion then
    .error (.profileMismatch "Ledger changed during rotation; review and retry")
  else
    .ok { store :=
            { (Store.empty : Store π δ) with
              profile := some profile
              desiredGen := f.store.desiredGen + 1
              admissionStateVersion := f.store.admissionStateVersion + 1 }
          archives := f.archives ++ [archive] }

/-! ## the program -/

/-- What a rotation asks of a recovery profile. -/
structure ProfileOps (π : Type) where
  backend : π → Option String
  /-- Why its catalogs do not combine, if they do not. -/
  catalogsError : π → Option String
  /-- The profile with no catalogs published yet. -/
  withoutCatalogs : π → π
  /-- The digest of a profile and an admission version. -/
  signature : π → Nat → String

/-- The command that is run: the profile it resolves to, whether the old backend
could be made, and where the ledger keeps its archives, if it is a file. -/
structure RotateCommand (π : Type) where
  target : Option π
  oldBackend : Bool
  /-- The path of an archive, by backend and signature. -/
  archivePath : Option (String → String → String)
  apply : Bool

/-- The ledger, the archives on disk, and the profile the target backend renders
from. -/
structure EpochWorld (π δ : Type) where
  ledger : LedgerFile π δ
  files : Dict String (LedgerFile π δ) := ∅
  rendersFrom : Option π := none
  /-- When the reset came, and what it found; no step reads it. -/
  reset : Option (Int × Store π δ) := none

/-- What a step may ask of its environment. -/
structure EpochInput where
  /-- The lock-free renews that land before the step. -/
  renewals : List Renewal := []
  now : Int := 0
  /-- What the old backend still owns, or why it cannot tell. -/
  runtime : Except String (List String) := .ok []
  /-- An interruption before the step, or an error of the code it calls. -/
  fault : Option RotateError := none

abbrev Rotate (π δ α : Type) := Proc (EpochWorld π δ) EpochInput RotateError α

/-- The summary of a rotation. -/
structure RotateResult where
  fromBackend : Option String
  toBackend : Option String
  changed : Bool := false
  archive : Option String := none
  archives : List Archive
  leases : Option Nat := none
  deployments : Option Nat := none
  detail : String
  deriving DecidableEq

def EpochWorld.renewing (w : EpochWorld π δ) (rs : List Renewal) : EpochWorld π δ :=
  { w with ledger := { w.ledger with store := w.ledger.store.renewing rs } }

/-- One step, after the renews that land before it. -/
def epochStep {α : Type} (f : EpochInput → EpochWorld π δ → Except RotateError α × EpochWorld π δ) :
    Rotate π δ α :=
  Proc.act fun i w =>
    match i.fault with
    | some e => (.error e, w.renewing i.renewals)
    | none => f i (w.renewing i.renewals)

/-- A step that reads. -/
def epochRead {α : Type} (f : EpochInput → EpochWorld π δ → α) : Rotate π δ α :=
  epochStep fun i w => (.ok (f i w), w)

/-- Publish a consistent archive of the ledger. -/
def backupTo (path : String) : Rotate π δ Unit :=
  epochStep fun _ w => (.ok (), { w with files := w.files.set path w.ledger })

def useProfileCandidate (profile : π) : Rotate π δ Unit :=
  epochStep fun _ w => (.ok (), { w with rendersFrom := some profile })

def startBackendEpoch [DecidableEq π] (profile : π) (archive : Archive) (expectedProfile : π)
    (expectedVersion : Nat) : Rotate π δ Unit :=
  epochStep fun i w =>
    match w.ledger.startBackendEpoch profile archive expectedProfile expectedVersion with
    | .error e => (.error e, w)
    | .ok ledger => (.ok (), { w with ledger := ledger, reset := some (i.now, w.ledger.store) })

variable [DecidableEq π] (P : ProfileOps π)

/-- Archive the ledger of a quiescent backend, and start a new epoch. -/
def commitRotation (c : RotateCommand π) (target current : π) (archives : List Archive)
    (path : String) (leases deployments version : Nat) (preview : RotateResult) :
    Rotate π δ RotateResult :=
  if c.apply then do
    let fresh := P.withoutCatalogs target
    useProfileCandidate fresh
    backupTo path
    let createdAt ← epochRead fun i _ => i.now
    let archive : Archive :=
      ⟨path, P.backend current, P.backend target, leases, deployments, createdAt⟩
    startBackendEpoch fresh archive current version
    pure { preview with changed := true, archives := archives ++ [archive] }
  else pure preview

/-- Verify that nothing of the frozen backend runs, and go on. -/
def verifyQuiescent (c : RotateCommand π) (target current : π) (archives : List Archive)
    (leases : List Lease) (deployments : Nat) : Rotate π δ RotateResult :=
  if ¬ c.oldBackend then
    throw (.profileMismatch "Cannot verify the old backend; rotation refused")
  else do
    let running ← epochRead fun i _ => i.runtime
    match running with
    | .error ex => throw (.profileMismatch
        ("Cannot verify old backend quiescence: " ++ ex ++ "; rotation refused"))
    | .ok (name :: names) => throw (.profileMismatch
        ("ledger rotate refused: old backend still owns runtime objects: " ++
          ", ".intercalate (name :: names) ++ ". Run infer-stack stack down --backend=" ++
          (P.backend current).getD ""))
    | .ok [] => do
        let version ← epochRead fun _ w => w.ledger.store.admissionStateVersion
        match c.archivePath with
        | none => throw (.profileMismatch
            "ledger rotate requires a file-backed ledger for history archives")
        | some archivePath =>
            let path := archivePath ((P.backend current).getD "") (P.signature current version)
            commitRotation P c target current archives path leases.length deployments version
              { fromBackend := P.backend current
                toBackend := P.backend target
                archive := some path
                archives := archives
                leases := some leases.length
                deployments := some deployments
                detail := "Old runtime is quiescent; archive history and start a new recovery epoch" }

/-- Verify that no lease protects anything, and go on. -/
def verifyNoLease (c : RotateCommand π) (target current : π) (archives : List Archive) :
    Rotate π δ RotateResult := do
  let leases ← epochRead fun i w => (status w.ledger.store true i.now).1
  let deployments ← epochRead fun i w => (status w.ledger.store true i.now).2
  match (leases.filter (·.state = .active)).map Lease.id with
  | id :: ids => throw (.profileMismatch
      ("ledger rotate refused: active leases remain: " ++ ", ".intercalate (id :: ids) ++
        ". Release them using --backend=" ++ (P.backend current).getD "" ++ " first"))
  | [] => verifyQuiescent P c target current archives leases deployments.length

/-- Verify the frozen backend is quiescent, archive history, start a new epoch. -/
def rotateBackend (c : RotateCommand π) : Rotate π δ RotateResult :=
  match c.target with
  | none => throw (.profileMismatch
      "ledger rotate requires a configured Compose or KubeAI backend")
  | some target =>
      if P.backend target ≠ some "compose" ∧ P.backend target ≠ some "kubeai" then
        throw (.profileMismatch "ledger rotate requires a configured Compose or KubeAI backend")
      else
        match P.catalogsError target with
        | some detail => throw (.profileMismatch detail)
        | none => do
            let current ← epochRead fun _ w => w.ledger.store.profile
            let archives ← epochRead fun _ w => w.ledger.archives
            match current with
            | none => throw (.profileMismatch
                "No active recovery snapshot to rotate; acquire normally starts one")
            | some current =>
                if P.backend current = P.backend target then
                  pure { fromBackend := P.backend current
                         toBackend := P.backend target
                         archives := archives
                         detail := "Recovery backend already matches the configured backend; " ++
                           "no rotation needed" }
                else verifyNoLease P c target current archives

end InferStack
