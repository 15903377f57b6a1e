import InferStack.Catalog
import InferStack.Ledger.Overlay
import InferStack.Ledger.Run

/-!
# InferStack.Ledger.Coalescing

What a coalesced request gets, over ledgers filled from a catalog.

A request that sets `max_model_len` lands on a deployment recorded with at
least that window.  A request that omits it records no capacity at all, so
any deployment of its key will do, while the window advertised under its alias
is the engine's default.  `provides_planLoop_iff` reduces a whole plan to its
requests: each that omits it must take a deployment with at least the default
window.
-/

namespace InferStack

open Kit

variable {π δ : Type}

/-! ## rows a catalog fills in -/

/-- The recorded capacity is that of the runtime the row launches. -/
def Sized (d : Deployment) : Prop := d.capacity = vllmCapacity d.spec.runtime

theorem Sized.stable : RowStable Sized where
  withState _ _ _ _ h := h
  withAllocation _ _ h := h
  withServed _ _ _ h := h
  stored _ h := h

/-- A deployment created for a vLLM request is sized. -/
theorem FromVllm.sized {r : EndpointRequest} (h : FromVllm r) (id : String) (now : Int) :
    Sized (newDeployment id now r) := h.fields.1

/-- A row that covers a window runs with it. -/
theorem Sized.window {d : Deployment} (h : Sized d) {n : Int}
    (hcap : ∃ got, d.capacity.get? "max_model_len" = some got ∧ n ≤ got) :
    n ≤ effectiveMaxModelLen d.spec.runtime := by
  obtain ⟨got, hget, hle⟩ := hcap
  rw [h, vllmCapacity] at hget
  cases hlen : d.spec.runtime.maxModelLen with
  | none => simp [hlen] at hget
  | some m =>
      rw [hlen] at hget
      have hset : Dict.get? (Dict.set (∅ : Capacity) "max_model_len" m) "max_model_len" =
        some got := hget
      have hgot : m = got := by rwa [Dict.get?_set_self, Option.some.injEq] at hset
      rw [effectiveMaxModelLen, hlen, Option.getD_some, hgot]
      exact hle

/-! ## what a claim is owed -/

/-- The deployment a claim names runs with the window its alias advertises, and
covers the capacity it asks for. -/
def Provides (deployments : Table Deployment Deployment.id) (rg : EndpointRequest × String) :
    Prop :=
  ∃ d, deployments.find? rg.2 = some d ∧
    (∀ n ∈ rg.1.served.maxInputTokens, n ≤ effectiveMaxModelLen d.spec.runtime) ∧
    capacitySatisfies d.capacity rg.1.capacity

instance (deployments : Table Deployment Deployment.id) (rg : EndpointRequest × String) :
    Decidable (Provides deployments rg) :=
  decidable_of_iff ((deployments.find? rg.2).any fun d =>
      rg.1.served.maxInputTokens.all (· ≤ effectiveMaxModelLen d.spec.runtime) ∧
        capacitySatisfies d.capacity rg.1.capacity) (by
    simp [Provides, Option.any_eq_true, Option.all_eq_true])

/-- A request that omits `max_model_len` would first take a deployment that runs
with at least the default window. -/
def NotUndersized (s : Store π δ) (resident : String → Bool) (p : PlanState)
    (r : EndpointRequest) : Prop :=
  r.spec.runtime.maxModelLen = none →
    ∀ c ∈ (rankedCandidates s resident p r).head?,
      vllmDefaultMaxModelLen ≤ effectiveMaxModelLen c.1.spec.runtime

/-- What providing reads of a row: reviving it or serving another alias keeps it. -/
theorem provides_congr {t t' : Table Deployment Deployment.id} {rg : EndpointRequest × String}
    (h : (t'.find? rg.2).map (fun d => (d.spec, d.capacity)) =
      (t.find? rg.2).map (fun d => (d.spec, d.capacity))) : Provides t' rg ↔ Provides t rg := by
  unfold Provides
  cases ht : t.find? rg.2 with
  | none =>
      rw [ht, Option.map_none, Option.map_eq_none_iff] at h
      simp [h]
  | some d =>
      rw [ht, Option.map_some] at h
      obtain ⟨d', hd', heq⟩ := Option.map_eq_some_iff.mp h
      have hspec : d'.spec = d.spec := congrArg Prod.fst heq
      have hcap : d'.capacity = d.capacity := congrArg Prod.snd heq
      simp [hd', hspec, hcap]

/-! ## one request -/

section Plan

variable {s : Store π δ} {resident : String → Bool} {now : Int} {newId : Nat → String}
  {p : PlanState} {r : EndpointRequest}

/-- A request without capacities takes the first candidate there is. -/
theorem chooseDeployment_of_no_capacity (hshared : r.sharing = .shared)
    (hcap : r.capacity = ∅) :
    chooseDeployment s resident p r = ((rankedCandidates s resident p r).head?).map Prod.fst := by
  have hall : ∀ existing, capacitySatisfies existing r.capacity = true := by
    intro existing; rw [hcap]; rfl
  have hfun : (fun c : Deployment × Bool => capacitySatisfies c.1.capacity r.capacity) =
      fun _ => true := funext fun c => hall c.1.capacity
  unfold chooseDeployment
  rw [if_neg (by simp [hshared]), hfun]
  cases rankedCandidates s resident p r <;> rfl

/-- The row one request leaves for its own claim. -/
theorem find?_reuse_self (p : PlanState) (r : EndpointRequest) (c : Deployment) :
    (p.reuse r c).view.find? c.id = some (c.revive.serving r.endpoint r.served) := by
  show (p.view.put _).find? c.id = _
  rw [Table.find?_put, if_pos (by simp)]

/-- Reviving a row and serving another alias keep its spec and capacity. -/
theorem Deployment.spec_capacity_reuse (c : Deployment) (e : String) (m : Served) :
    ((c.revive.serving e m).spec, (c.revive.serving e m).capacity) = (c.spec, c.capacity) := by
  have hrevive : (c.revive.spec, c.revive.capacity) = (c.spec, c.capacity) := by
    unfold Deployment.revive; split <;> rfl
  rw [← hrevive]
  unfold Deployment.serving
  split <;> rfl

/-- The claim of one request is provided for exactly when the request is not
undersized. -/
theorem provides_planRequest (resident : String → Bool) (now : Int) (newId : Nat → String)
    (hrows : AllRows Sized s) (hp : PlanRows Sized p) (hr : FromVllm r)
    (hshared : r.sharing = .shared) :
    ∃ g, (planRequest s resident now newId p r).claims = p.claims ++ [(r, g)] ∧
      (Provides (planRequest s resident now newId p r).view (r, g) ↔
        NotUndersized s resident p r) := by
  obtain ⟨hcap, hlen⟩ := hr.fields
  unfold planRequest
  cases hchoose : chooseDeployment s resident p r with
  | none =>
      -- a new deployment launches what was asked for, and nothing was there to take
      refine ⟨_, rfl, iff_of_true ?_ ?_⟩
      · have hrow : (p.create r (newDeployment (newId p.claims.length) now r)).view.find?
            (newId p.claims.length) = some (newDeployment (newId p.claims.length) now r) := by
          show (p.view.put _).find? _ = _
          rw [Table.find?_put]
          exact if_pos rfl
        refine ⟨_, hrow, ?_, ?_⟩
        · intro n hn
          rw [hlen, Option.mem_some_iff] at hn
          exact hn.symm.le
        · rw [capacitySatisfies_iff]
          intro key need hneed
          exact ⟨need, Dict.get?_eq_some.mpr hneed, le_rfl⟩
      · intro hnone c hc
        have hempty : r.capacity = ∅ := by rw [hcap, vllmCapacity, hnone]
        rw [chooseDeployment_of_no_capacity hshared hempty, Option.mem_def.mp hc] at hchoose
        contradiction
  | some c =>
      refine ⟨c.id, rfl, ?_⟩
      have hcov := (chooseDeployment_spec hchoose).2.1
      have hsized : Sized c := hp.choice hrows hchoose
      have hview : Provides (p.reuse r c).view (r, c.id) ↔
          effectiveMaxModelLen r.spec.runtime ≤ effectiveMaxModelLen c.spec.runtime := by
        have heq := Deployment.spec_capacity_reuse c r.endpoint r.served
        have hspec := congrArg Prod.fst heq
        have hcapacity := congrArg Prod.snd heq
        simp only at hspec hcapacity
        simp [Provides, find?_reuse_self p r c, hspec, hcapacity, hlen, hcov]
      rw [hview]
      cases hset : r.spec.runtime.maxModelLen with
      | some n =>
          -- the recorded capacity covers the window that was asked for
          have hrow : (("max_model_len", n) : String × Int) ∈ r.capacity := by
            rw [hcap, vllmCapacity, hset]
            have hset : ("max_model_len", n) ∈ Dict.set (∅ : Capacity) "max_model_len" n :=
              Table.mem_put.mpr (.inl rfl)
            exact hset
          have hwindow : n ≤ effectiveMaxModelLen c.spec.runtime :=
            hsized.window (capacitySatisfies_iff.mp hcov _ _ hrow)
          refine iff_of_true ?_ ?_
          · rw [effectiveMaxModelLen, hset]
            exact hwindow
          · simp [NotUndersized, hset]
      | none =>
          have hempty : r.capacity = ∅ := by rw [hcap, vllmCapacity, hset]
          have hhead : ∃ pending, (rankedCandidates s resident p r).head? = some (c, pending) := by
            rw [chooseDeployment_of_no_capacity hshared hempty] at hchoose
            obtain ⟨cp, hcp, rfl⟩ := Option.map_eq_some_iff.mp hchoose
            exact ⟨cp.2, hcp⟩
          obtain ⟨pending, hhead⟩ := hhead
          simp [NotUndersized, hset, hhead, effectiveMaxModelLen]

/-- Ids the factory makes are new: to the store, and to one another. -/
def FreshIds (s : Store π δ) (newId : Nat → String) : Prop :=
  Function.Injective newId ∧ ∀ i, newId i ∉ s.deployments.keys

/-- Rows of the view are stored, or carry an id made for an earlier request. -/
structure IdsInv (s : Store π δ) (newId : Nat → String) (p : PlanState) : Prop where
  view : ∀ g ∈ p.view.keys, g ∈ s.deployments.keys ∨ ∃ i < p.claims.length, g = newId i
  claims : ∀ rg ∈ p.claims, rg.2 ∈ p.view.keys

/-- A row chosen from outside the view is a stored row. -/
theorem chosen_keys (hp : PlanInv s p) (h : chooseDeployment s resident p r = some c) :
    c ∈ p.view ∨ c.id ∉ p.view.keys ∧ c.id ∈ s.deployments.keys := by
  cases hp.choice h with
  | inl hview => exact .inl hview
  | inr hstored =>
      exact .inr ⟨hstored.1, by
        rw [Table.mem_keys_iff]
        exact Option.isSome_iff_exists.mpr ⟨c, hstored.2.1⟩⟩

theorem IdsInv.planRequest (hids : IdsInv s newId p) (hp : PlanInv s p) :
    IdsInv s newId (planRequest s resident now newId p r) := by
  have hlift : ∀ g, (g ∈ s.deployments.keys ∨ ∃ i < p.claims.length, g = newId i) →
      g ∈ s.deployments.keys ∨ ∃ i < p.claims.length + 1, g = newId i := by grind
  unfold InferStack.planRequest
  cases hchoose : chooseDeployment s resident p r with
  | none =>
      constructor
      · intro g hg
        dsimp only [PlanState.create, PlanState.reuse]
        rw [List.length_append, List.length_singleton]
        cases Table.mem_keys_put.mp hg with
        | inl heq => exact .inr ⟨p.claims.length, Nat.lt_succ_self _, heq⟩
        | inr hold => exact hlift g (hids.view g hold)
      · intro rg hrg
        cases List.mem_append.mp hrg with
        | inl hold => exact Table.mem_keys_put.mpr (.inr (hids.claims rg hold))
        | inr hnew =>
            rw [List.mem_singleton.mp hnew]
            exact Table.mem_keys_put.mpr (.inl rfl)
  | some c =>
      have hcid : (c.revive.serving r.endpoint r.served).id = c.id := by simp
      constructor
      · intro g hg
        dsimp only [PlanState.create, PlanState.reuse]
        rw [List.length_append, List.length_singleton]
        cases Table.mem_keys_put.mp hg with
        | inr hold => exact hlift g (hids.view g hold)
        | inl heq =>
            rw [heq, hcid]
            cases chosen_keys hp hchoose with
            | inl hview => exact hlift _ (hids.view _ (Table.mem_keys.mpr ⟨c, hview, rfl⟩))
            | inr hstored => exact .inl hstored.2
      · intro rg hrg
        cases List.mem_append.mp hrg with
        | inl hold => exact Table.mem_keys_put.mpr (.inr (hids.claims rg hold))
        | inr hnew =>
            rw [List.mem_singleton.mp hnew]
            exact Table.mem_keys_put.mpr (.inl hcid.symm)

/-- A request leaves what earlier claims are owed as it was. -/
theorem provides_planRequest_old (hfresh : FreshIds s newId) (hids : IdsInv s newId p)
    (hp : PlanInv s p) {rg : EndpointRequest × String} (hrg : rg.2 ∈ p.view.keys) :
    Provides (planRequest s resident now newId p r).view rg ↔ Provides p.view rg := by
  refine provides_congr ?_
  unfold planRequest
  cases hchoose : chooseDeployment s resident p r with
  | none =>
      have hne : newId p.claims.length ≠ rg.2 := by
        intro heq
        cases hids.view rg.2 hrg with
        | inl hstored => exact hfresh.2 _ (heq ▸ hstored)
        | inr hearlier =>
            obtain ⟨i, hi, hi'⟩ := hearlier
            have := hfresh.1 (heq.trans hi')
            omega
      show ((p.view.put _).find? rg.2).map _ = _
      rw [Table.find?_put]
      exact congrArg _ (if_neg hne)
  | some c =>
      show ((p.view.put _).find? rg.2).map _ = _
      rw [Table.find?_put, Deployment.serving_id, Deployment.revive_id]
      by_cases hid : c.id = rg.2
      · have hview : p.view.find? rg.2 = some c := by
          cases chosen_keys hp hchoose with
          | inl hmem => exact hid ▸ Table.mem_iff_find?.mp hmem
          | inr hnew => exact absurd (hid ▸ hrg) hnew.1
        rw [if_pos hid, hview, Option.map_some, Option.map_some, Deployment.spec_capacity_reuse]
      · rw [if_neg hid]

/-! ## a whole plan -/

/-- What the loop state of a plan satisfies at every request. -/
structure CoalesceInv (s : Store π δ) (newId : Nat → String) (p : PlanState) : Prop where
  plan : PlanInv s p
  rows : PlanRows Sized p
  ids : IdsInv s newId p

theorem CoalesceInv.planRequest (h : CoalesceInv s newId p) (hrows : AllRows Sized s)
    (hr : FromVllm r) : CoalesceInv s newId (planRequest s resident now newId p r) where
  plan := planRequest_inv h.plan r
  rows := h.rows.planRequest Sized.stable hrows resident now newId fun id => hr.sized id now
  ids := h.ids.planRequest h.plan

/-- Every claim is provided for exactly when no request on the way was undersized. -/
theorem provides_planLoop_iff (resident : String → Bool) (now : Int)
    (hfresh : FreshIds s newId) (hrows : AllRows Sized s)
    {requests : List EndpointRequest} (hreq : ∀ r ∈ requests, FromVllm r ∧ r.sharing = .shared)
    (h : CoalesceInv s newId p) :
    (∀ rg ∈ (run (planRequest s resident now newId) p requests).claims,
        Provides (run (planRequest s resident now newId) p requests).view rg) ↔
      (∀ rg ∈ p.claims, Provides p.view rg) ∧
        AllSteps (planRequest s resident now newId) (NotUndersized s resident) p requests := by
  induction requests generalizing p with
  | nil => simp [AllSteps]
  | cons r rs ih =>
      have hr := hreq r List.mem_cons_self
      have hrest : ∀ r' ∈ rs, FromVllm r' ∧ r'.sharing = .shared :=
        fun r' hr' => hreq r' (List.mem_cons_of_mem r hr')
      rw [run_cons, ih hrest (h.planRequest hrows hr.1), AllSteps, ← and_assoc]
      refine and_congr_left fun _ => ?_
      -- the claims after this request: the earlier ones, and its own
      obtain ⟨g, hclaims, hown⟩ :=
        provides_planRequest resident now newId hrows h.rows hr.1 hr.2
      rw [hclaims, List.forall_mem_append, List.forall_mem_singleton, hown]
      refine and_congr_left fun _ => forall₂_congr fun rg hrg => ?_
      exact provides_planRequest_old hfresh h.ids h.plan (h.ids.claims rg hrg)

end Plan

/-! ## a small deployment under a wide alias -/

/-- One model under two aliases of one upstream name: `small` limits its window,
`wide` takes the default. -/
def twoWindows (smallWindow : Int) : Catalog where
  models := Table.ofList [{ name := "m", source := "org/model" }]
  endpoints := Table.ofList
    [{ name := "small", model := "m", servedName := some "chat"
       runtime := { maxModelLen := some smallWindow } },
     { name := "wide", model := "m", servedName := some "chat" }]

/-- The request of the limited alias. -/
def smallRequest (smallWindow : Int) : EndpointRequest :=
  resolveVllm { name := "m", source := "org/model" }
    { name := "small", model := "m", servedName := some "chat"
      runtime := { maxModelLen := some smallWindow } } .shared

/-- The request of the alias with the default window. -/
def wideRequest : EndpointRequest :=
  resolveVllm { name := "m", source := "org/model" }
    { name := "wide", model := "m", servedName := some "chat" } .shared

theorem smallRequest_fromVllm (n : Int) : FromVllm (smallRequest n) :=
  ⟨twoWindows n, "small", none, none, _, rfl, rfl, rfl⟩

theorem wideRequest_fromVllm : FromVllm wideRequest :=
  ⟨twoWindows 0, "wide", none, none, _, rfl, rfl, rfl⟩

/-- The limited alias has been acquired. -/
def smallAcquired (smallWindow : Int) : List (Int × LedgerOp Unit Unit) :=
  [(0, .acquire "l1" "a" none none [smallRequest smallWindow] (fun _ => "grp") ∅ none none)]

theorem smallAcquired_asks (n : Int) :
    AllSteps ledgerStep (Asks FromVllm) (LedgerState.init 0) (smallAcquired n) := by
  refine ⟨?_, trivial⟩
  intro requests newId hreq r hr
  obtain ⟨rfl, -⟩ := Prod.mk.inj (Option.some.inj hreq)
  rw [List.mem_singleton.mp hr]
  exact smallRequest_fromVllm n

/-- Ids told apart by their length. -/
def lengthId (i : Nat) : String := String.ofList (List.replicate i 'x')

theorem lengthId_injective : Function.Injective lengthId := by
  intro i j h
  have hlist := congrArg String.toList h
  simpa [lengthId] using congrArg List.length hlist

/-- No other id is one of them. -/
theorem lengthId_ne {id : String} (hid : ∃ c ∈ id.toList, c ≠ 'x') (i : Nat) : lengthId i ≠ id := by
  rintro rfl
  obtain ⟨c, hmem, hne⟩ := hid
  rw [lengthId, String.toList_ofList] at hmem
  exact hne (List.eq_of_mem_replicate hmem)

/-- The wide alias lands on the 4096-token deployment and advertises 8192. -/
theorem wide_on_small :
    let s := (run ledgerStep (LedgerState.init 0) (smallAcquired 4096)).store
    let o := planAcquire s [wideRequest] (fun _ => false) 0 lengthId
    AllSteps ledgerStep (Asks FromVllm) (LedgerState.init 0) (smallAcquired 4096) ∧
      (∀ r ∈ [wideRequest], FromVllm r ∧ r.sharing = .shared) ∧ FreshIds s lengthId ∧
      ¬ ∀ rg ∈ o.claims, Provides o.deployments rg := by
  refine ⟨smallAcquired_asks 4096, ?_, ⟨lengthId_injective, ?_⟩, by decide⟩
  · exact List.forall_mem_singleton.mpr ⟨wideRequest_fromVllm, rfl⟩
  · intro i hi
    have hne : lengthId i ≠ "grp" := lengthId_ne (by simp) i
    exact hne (List.mem_singleton.mp hi)

end InferStack
