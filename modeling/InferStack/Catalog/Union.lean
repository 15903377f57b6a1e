import InferStack.Catalog

/-!
# InferStack.Catalog.Union

The published union: several catalogs presented as one.

Identical definitions of a name are merged; the same name defined differently is
a conflict.  An acquire adopts its own catalogs into the published ones
(`adoptCatalogSources`): it merges, drops from the published sources the names
in conflict, and tries again, for a bounded number of rounds.
-/

namespace InferStack

open Kit

/-! ## what a name means -/

/-- A request as plain data, as its digest sees it. -/
def EndpointRequest.semantic (r : EndpointRequest) : EndpointRequest := { r with spec := r.spec.stored }

/-- An endpoint's meaning as plain data. -/
def ResolvedEndpoint.semantic (r : ResolvedEndpoint) : ResolvedEndpoint :=
  { r with target := match r.target with
      | .managed request => .managed request.semantic
      | .external target => .external target }

/-- What an endpoint name means in a catalog, or why it means nothing. -/
inductive EndpointKey where
  | means (meaning : ResolvedEndpoint)
  | unresolvable (why : CatalogError)
  deriving DecidableEq

def Catalog.endpointKey (c : Catalog) (name : String) : EndpointKey :=
  match c.resolveEndpoint name none with
  | .ok r => .means r.semantic
  | .error e => .unresolvable e

/-! ## sources -/

/-- The references of an endpoint are in its catalog. -/
def Catalog.refers (c : Catalog) (ep : EndpointSpec) : Bool :=
  ep.external.isSome || match ep.engine with
    | .vllm => ep.model ∈ c.models.keys
    | .ollama => ep.host.any (· ∈ c.hosts.keys) && ep.model ≠ ""
    | .reserved => false

/-- A catalog that `from_dict` accepts, as far as its references go. -/
def Catalog.valid (c : Catalog) : Bool :=
  c.endpoints.rows.all c.refers && c.bundles.rows.all fun b => b.2.all (· ∈ c.endpoints.keys)

/-- A runtime as canonical JSON: every mapping in the order of its keys. -/
def Runtime.canonical (rt : Runtime) : Runtime :=
  { rt with
    env := storedEnv rt.env
    mounts := rt.mounts.sorted
    simulator := rt.simulator.map fun sim => { sim with flags := sim.flags.sorted } }

/-- A source as canonical JSON. -/
structure SourceDigest where
  models : List (String × ModelSpec)
  hosts : List (String × RuntimeHostSpec)
  endpoints : List (String × EndpointSpec)
  bundles : List (String × List String)
  deriving DecidableEq

/-- The stable digest of a source; key order does not matter.  There is none of
a mapping whose keys cannot be put in order. -/
def canonicalDigest (c : Catalog) : Option SourceDigest :=
  if c.endpoints.rows.all fun ep => EnvKey.sortable ep.runtime.env.keys then
    some {
      models := Dict.sortEntries (c.models.rows.map fun m => (m.name, m))
      hosts := Dict.sortEntries (c.hosts.rows.map fun h => (h.name, h))
      endpoints := Dict.sortEntries (c.endpoints.rows.map fun ep =>
        (ep.name, { ep with runtime := ep.runtime.canonical }))
      bundles := Dict.sortEntries c.bundles.rows }
  else none

/-! ## the union -/

/-- Why sources make no union. -/
inductive UnionError where
  | invalid
  /-- A source cannot be digested. -/
  | unsortable
  /-- Names defined differently in two sources; none when adoption did not settle. -/
  | conflict (names : List String)
  deriving DecidableEq

/-- Several catalogs presented as one. -/
structure CatalogUnion where
  /-- The first catalog that defines each endpoint. -/
  owner : Dict String Catalog := ∅
  bundles : Dict String (List String) := ∅
  deriving DecidableEq

namespace CatalogUnion

/-- What a union's endpoint means. -/
def endpointKey (u : CatalogUnion) (name : String) : Option EndpointKey :=
  (u.owner.get? name).map (·.endpointKey name)

def addEndpoint (c : Catalog) (u : CatalogUnion) (ep : EndpointSpec) :
    Except UnionError CatalogUnion :=
  match u.owner.get? ep.name with
  | some owner =>
      if owner.endpointKey ep.name ≠ c.endpointKey ep.name then .error (.conflict [ep.name])
      else .ok u
  | none => .ok { u with owner := u.owner.set ep.name c }

def addBundle (u : CatalogUnion) (b : String × List String) : Except UnionError CatalogUnion :=
  if (u.bundles.get? b.1).any (· ≠ b.2) then .error (.conflict [b.1])
  else .ok { u with bundles := u.bundles.set b.1 b.2 }

def addCatalog (u : CatalogUnion) (c : Catalog) : Except UnionError CatalogUnion := do
  let u ← c.endpoints.rows.foldlM (addEndpoint c) u
  c.bundles.rows.foldlM addBundle u

/-- Names that are an endpoint here and a bundle there. -/
def clash (u : CatalogUnion) : List String :=
  (u.bundles.keys.filter (· ∈ u.owner.keys)).insertionSort (· ≤ ·)

def ofCatalogs (catalogs : List Catalog) : Except UnionError CatalogUnion := do
  let u ← catalogs.foldlM addCatalog {}
  if u.clash = [] then pure u else throw (.conflict u.clash)

def fromSources (sources : List Catalog) : Except UnionError CatalogUnion :=
  if sources.all Catalog.valid then ofCatalogs sources else .error .invalid

end CatalogUnion

/-! ## adoption -/

/-- The sources with a digest not seen before. -/
def dedupe (seen : List SourceDigest) : List Catalog → Except UnionError (List Catalog)
  | [] => .ok []
  | c :: cs =>
      match canonicalDigest c with
      | none => .error .unsortable
      | some digest =>
          if digest ∈ seen then dedupe seen cs
          else do pure (c :: (← dedupe (seen ++ [digest]) cs))

/-- Append compatible sources, deduplicated by content. -/
def mergeCatalogSources (published incoming : List Catalog) : Except UnionError (List Catalog) := do
  let out ← dedupe [] (published ++ incoming)
  let _ ← CatalogUnion.fromSources out
  pure out

/-- A source without the endpoints and bundles named `names`, and without the
bundles that name an endpoint dropped here. -/
def Catalog.drop (c : Catalog) (names : List String) : Catalog :=
  let dropped := c.endpoints.keys.filter (· ∈ names)
  { c with
    endpoints := c.endpoints.filter fun ep => ep.name ∉ names
    bundles := c.bundles.filter fun b => b.1 ∉ names && b.2.all (· ∉ dropped) }

/-- The sources without `names`; a source left with nothing goes. -/
def dropCatalogNames (sources : List Catalog) (names : List String) : List Catalog :=
  (sources.map (·.drop names)).filter fun c => c.endpoints.rows ≠ [] || c.bundles.rows ≠ []

/-- The endpoints of a source that the union defines identically. -/
def repeatedNames (mine : CatalogUnion) (c : Catalog) : List String :=
  if c.valid then
    c.endpoints.keys.filter fun name => mine.endpointKey name = some (c.endpointKey name)
  else []

/-- Merge, dropping from the published sources what is redefined, unless a
resident workload runs it. -/
def settleRounds (incoming : List Catalog) (pinned : List String) :
    Nat → List Catalog → Except UnionError (List Catalog)
  | 0, _ => .error (.conflict [])
  | rounds + 1, base =>
      match mergeCatalogSources base incoming with
      | .error (.conflict names) =>
          if names = [] ∨ ∃ n ∈ names, n ∈ pinned then .error (.conflict names)
          else settleRounds incoming pinned rounds (dropCatalogNames base names)
      | result => result

/-- The published endpoint definitions after an acquire or access. -/
def adoptCatalogSources (published incoming : List Catalog) (pinned : List String) :
    Except UnionError (List Catalog) := do
  -- what the invocation repeats identically lives in its own source
  let base ← if incoming = [] then pure published else do
    let mine ← CatalogUnion.fromSources incoming
    pure (dropCatalogNames published (published.flatMap (repeatedNames mine)))
  settleRounds incoming pinned 64 base

end InferStack
