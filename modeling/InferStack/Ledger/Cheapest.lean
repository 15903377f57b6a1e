import InferStack.Ledger.Choice

/-!
# InferStack.Ledger.Cheapest

A whole plan, request by request: what each request claims, what is created and
revived for it, and what the deployments will serve.  A request is judged by the
plan of the requests before it, which may have created or revived deployments
it can use.
-/

namespace InferStack

open Kit

variable {π δ : Type}

/-! ## the whole plan -/

/-- A request the plan creates a deployment for: a dedicated one, or one that no
deployment is eligible for. -/
def Creates (s : Store π δ) (p : PlanState) (r : EndpointRequest) : Prop :=
  r.sharing = .dedicated ∨ ¬ ∃ c pending, Eligible s p r c pending

/-- A plan that takes the cheapest deployment for each request in turn. -/
structure CheapestPlan (s : Store π δ) (resident : String → Bool) (now : Int)
    (newId : Nat → String) (requests : List EndpointRequest) (o : AcquireOverlay) : Prop where
  /-- Each request yields one claim, in order. -/
  claims : o.claims.map Prod.fst = requests
  cheapest : ∀ before r after, requests = before ++ r :: after →
    ¬ Creates s (planLoop s resident now newId before) r →
    ∃ c pending, Cheapest s resident (planLoop s resident now newId before) r c pending ∧
      o.claims[before.length]? = some (r, c.id)
  fresh : ∀ before r after, requests = before ++ r :: after →
    Creates s (planLoop s resident now newId before) r →
    o.claims[before.length]? = some (r, newId before.length) ∧
      newId before.length ∉ s.deployments.keys ∧
      ∃ d ∈ o.created, d.id = newId before.length ∧ FitsClaim r d
  /-- No other request gets a dedicated request's deployment. -/
  dedicated : ∀ (i : Nat) (r : EndpointRequest) (g : String), o.claims[i]? = some (r, g) →
    r.sharing = .dedicated → ∀ j r', o.claims[j]? = some (r', g) → j = i
  created : ∀ g ∈ o.created.keys, ∃ before r after, requests = before ++ r :: after ∧
    g = newId before.length ∧ Creates s (planLoop s resident now newId before) r
  /-- What is revived is what was claimed of the IDLE rows. -/
  revived : ∀ g, g ∈ o.revived ↔
    (∃ d, s.getDeployment g = some d ∧ d.state = .idle) ∧ g ∈ o.claims.map Prod.snd
  once : (o.created.keys ++ o.revived).Nodup
  shown : ∀ g, g ∈ o.deployments.keys ↔ g ∈ o.claims.map Prod.snd
  served : ∀ d ∈ o.deployments, d.served = servedBy o.claims d.id (baseServed s d.id)
  /-- A stored row will serve what it did, and what was claimed of it. -/
  updates : ∀ d ∈ s.deployments,
    (o.servedUpdates.get? d.id).getD d.served = servedBy o.claims d.id d.served

section Whole

variable {s : Store π δ} {resident : String → Bool} {now : Int} {newId : Nat → String}
  {p : PlanState} {r : EndpointRequest}

theorem planLoop_snoc (before : List EndpointRequest) (r : EndpointRequest) :
    planLoop s resident now newId (before ++ [r]) =
      planRequest s resident now newId (planLoop s resident now newId before) r :=
  List.foldl_concat _ _ _ _

theorem planRequest_claims : (planRequest s resident now newId p r).claims =
    p.claims ++ [(r, ((chooseDeployment s resident p r).map Deployment.id).getD
      (newId p.claims.length))] := by
  unfold planRequest
  cases chooseDeployment s resident p r <;> rfl

theorem planRequest_created (g : String) : g ∈ (planRequest s resident now newId p r).created.keys ↔
    g ∈ p.created.keys ∨ (chooseDeployment s resident p r = none ∧ g = newId p.claims.length) := by
  unfold planRequest
  cases chooseDeployment s resident p r with
  | none =>
      show g ∈ (p.created.put _).keys ↔ _
      rw [Table.mem_keys_put, or_comm]
      simp [newDeployment]
  | some c =>
      unfold PlanState.reuse
      by_cases hin : c.id ∈ p.created.keys
      · have hid : (c.revive.serving r.endpoint r.served).id = c.id := by simp
        dsimp only
        rw [if_pos hin, Table.mem_keys_put, hid]
        grind
      · dsimp only
        rw [if_neg hin]
        simp

theorem creates_iff : chooseDeployment s resident p r = none ↔ Creates s p r := by
  unfold Creates
  by_cases hded : r.sharing = .dedicated
  · have hnone : chooseDeployment s resident p r = none := by
      unfold chooseDeployment
      exact if_pos hded
    simp [hnone, hded]
  · rw [chooseDeployment_eq_none hded]
    simp [hded]

variable (s resident now newId)

theorem planLoop_claims_fst (requests : List EndpointRequest) :
    (planLoop s resident now newId requests).claims.map Prod.fst = requests := by
  induction requests using List.reverseRecOn with
  | nil => rfl
  | append_singleton rs r ih =>
      rw [planLoop_snoc, planRequest_claims, List.map_append, ih]
      rfl

theorem planLoop_claims_length (requests : List EndpointRequest) :
    (planLoop s resident now newId requests).claims.length = requests.length := by
  have hlen := congrArg List.length
    (planLoop_claims_fst s resident now newId requests)
  simpa using hlen

/-- Later requests add to the claims and to what is created. -/
theorem planLoop_grows (before after : List EndpointRequest) :
    (∃ more, (planLoop s resident now newId (before ++ after)).claims =
        (planLoop s resident now newId before).claims ++ more) ∧
      ∀ g ∈ (planLoop s resident now newId before).created.keys,
        g ∈ (planLoop s resident now newId (before ++ after)).created.keys := by
  induction after using List.reverseRecOn with
  | nil => simp
  | append_singleton rs r ih =>
      obtain ⟨⟨more, hmore⟩, hcreated⟩ := ih
      rw [← List.append_assoc, planLoop_snoc]
      constructor
      · rw [planRequest_claims, hmore, List.append_assoc]
        exact ⟨_, rfl⟩
      · intro g hg
        exact (planRequest_created g).mpr (.inl (hcreated g hg))

/-- The claims of the requests before one, its own, and the others. -/
theorem planLoop_claims_split (before : List EndpointRequest) (r : EndpointRequest)
    (after : List EndpointRequest) :
    ∃ more, (planLoop s resident now newId (before ++ r :: after)).claims =
      (planLoop s resident now newId before).claims ++
        (r, ((chooseDeployment s resident (planLoop s resident now newId before) r).map
          Deployment.id).getD (newId before.length)) :: more := by
  have hsplit : before ++ r :: after = (before ++ [r]) ++ after := by simp
  obtain ⟨more, hmore⟩ := (planLoop_grows s resident now newId (before ++ [r]) after).1
  have hlen := planLoop_claims_length s resident now newId before
  refine ⟨more, ?_⟩
  rw [hsplit, hmore, planLoop_snoc, planRequest_claims, hlen, List.append_assoc]
  rfl

/-- The claim of a request. -/
theorem planLoop_claim (before : List EndpointRequest) (r : EndpointRequest)
    (after : List EndpointRequest) :
    (planLoop s resident now newId (before ++ r :: after)).claims[before.length]? =
      some (r, ((chooseDeployment s resident (planLoop s resident now newId before) r).map
        Deployment.id).getD (newId before.length)) := by
  obtain ⟨more, hmore⟩ := planLoop_claims_split s resident now newId before r after
  have hlen := planLoop_claims_length s resident now newId before
  rw [hmore, List.getElem?_append_right (by omega), hlen, Nat.sub_self]
  rfl

/-- What a plan creates, it created for a request that none was eligible for. -/
theorem planLoop_created (requests : List EndpointRequest) :
    ∀ g ∈ (planLoop s resident now newId requests).created.keys,
      ∃ before r after, requests = before ++ r :: after ∧ g = newId before.length ∧
        Creates s (planLoop s resident now newId before) r := by
  induction requests using List.reverseRecOn with
  | nil => simp [planLoop, Table.keys]
  | append_singleton rs r ih =>
      intro g hg
      rw [planLoop_snoc] at hg
      cases (planRequest_created g).mp hg with
      | inl hold =>
          obtain ⟨before, r', after, rfl, heq, hcreates⟩ := ih g hold
          exact ⟨before, r', after ++ [r], by simp, heq, hcreates⟩
      | inr hnew =>
          rw [planLoop_claims_length] at hnew
          exact ⟨rs, r, [], rfl, hnew.2, creates_iff.mp hnew.1⟩

end Whole

/-- The plan of an acquire takes the cheapest deployment for each request in
turn, and creates one only where none is eligible. -/
theorem planAcquire_cheapest (s : Store π δ) (resident : String → Bool) (now : Int)
    (newId : Nat → String) (hfresh : FreshIds s newId) (requests : List EndpointRequest) :
    CheapestPlan s resident now newId requests (planAcquire s requests resident now newId) := by
  have hon : PlanOn s newId (planLoop s resident now newId requests) :=
    planLoop_on hfresh requests
  have hclaimed := planLoop_claimInv s resident now newId requests
  have hview : ∀ d, d ∈ (planAcquire s requests resident now newId).deployments ↔
      d ∈ (planLoop s resident now newId requests).view := fun d => by
    rw [Table.mem_iff_find?, Table.mem_iff_find?, find?_planAcquire]
  have hviewKeys : ∀ g, g ∈ (planLoop s resident now newId requests).view.keys ↔
      g ∈ (planLoop s resident now newId requests).claims.map Prod.snd := by
    intro g
    constructor
    · exact hclaimed.claimed g
    · intro hg
      obtain ⟨rg, hrg, rfl⟩ := List.mem_map.mp hg
      exact hon.plan.claims rg hrg
  have hnew : ∀ d ∈ s.deployments,
      d.id ∉ (planLoop s resident now newId requests).created.keys :=
    fun d hd hin => (hon.made _ hin).1 (Table.mem_keys.mpr ⟨d, hd, rfl⟩)
  constructor
  case claims => exact planLoop_claims_fst s resident now newId requests
  case cheapest =>
    rintro before r after rfl hreuse
    rw [← creates_iff] at hreuse
    obtain ⟨c, hchoose⟩ := Option.ne_none_iff_exists'.mp hreuse
    have hbefore : PlanOn s newId (planLoop s resident now newId before) :=
      planLoop_on hfresh before
    obtain ⟨pending, hcheapest⟩ := hbefore.chooseDeployment_cheapest hchoose
    have hclaim := planLoop_claim s resident now newId before r after
    rw [hchoose] at hclaim
    exact ⟨c, pending, hcheapest, hclaim⟩
  case fresh =>
    rintro before r after rfl hcreates
    have hnone : chooseDeployment s resident (planLoop s resident now newId before) r = none :=
      creates_iff.mpr hcreates
    have hclaim := planLoop_claim s resident now newId before r after
    rw [hnone] at hclaim
    have hcreated : newId before.length ∈
        (planLoop s resident now newId (before ++ r :: after)).created.keys := by
      have hgrows := (planLoop_grows s resident now newId (before ++ [r]) after).2
      have hsplit : before ++ r :: after = (before ++ [r]) ++ after := by simp
      rw [hsplit]
      apply hgrows
      rw [planLoop_snoc, planRequest_created, planLoop_claims_length]
      exact .inr ⟨hnone, rfl⟩
    obtain ⟨d, hd, hid⟩ := Table.mem_keys.mp hcreated
    obtain ⟨v, hv, hfits⟩ := hon.fits _ (List.mem_of_getElem? hclaim)
    have hsame : d = v := by
      obtain ⟨hvmem, hvid⟩ := Table.find?_eq_some.mp hv
      exact Table.eq_of_key_eq (hon.plan.created d hd).1 hvmem (hid.trans hvid.symm)
    exact ⟨hclaim, hfresh.2 _, d, hd, hid, hsame ▸ hfits⟩
  case dedicated =>
    intro i r g hi hded
    exact (hon.dedicated i r g hi hded).2.2
  case created => exact planLoop_created s resident now newId requests
  case revived =>
    intro g
    rw [show (planAcquire s requests resident now newId).claims =
      (planLoop s resident now newId requests).claims from rfl, ← hviewKeys]
    constructor
    · intro hg
      obtain ⟨hkey, hidle⟩ := hon.plan.revived g hg
      exact ⟨hidle, hkey⟩
    · rintro ⟨⟨d, hd, hidle⟩, hkey⟩
      obtain ⟨v, hv, rfl⟩ := Table.mem_keys.mp hkey
      obtain ⟨hdmem, hdid⟩ := Table.find?_eq_some.mp hd
      obtain ⟨d', hd', hcl⟩ := hon.plan.stored v hv (hdid ▸ hnew d hdmem)
      obtain rfl : d = d' := Option.some.inj (hd.symm.trans hd')
      exact hdid ▸ hcl.revived.mp hidle
  case once =>
    rw [List.nodup_append]
    refine ⟨Table.nodup _, hon.plan.nodup, fun a ha b hb heq => ?_⟩
    obtain ⟨-, d, hd, -⟩ := hon.plan.revived b hb
    obtain ⟨hdmem, hdid⟩ := Table.find?_eq_some.mp hd
    exact hnew d hdmem (hdid ▸ heq ▸ ha)
  case shown =>
    intro g
    refine Iff.trans ?_ (hviewKeys g)
    rw [Table.mem_keys_iff, Table.mem_keys_iff, find?_planAcquire]
  case served =>
    intro d hd
    exact hon.served d ((hview d).mp hd)
  case updates => exact fun d hd => hon.updates hd

/-- The alias without a window lands on the 4096-token deployment; a wider window
and a dedicated request get new ones, and a second wide request joins the first. -/
theorem planAcquire_cheapest_small :
    let s := (run ledgerStep (LedgerState.init 0) (smallAcquired 4096)).store
    let requests := [wideRequest, smallRequest 16384,
      { smallRequest 4096 with sharing := .dedicated }, smallRequest 8192]
    CheapestPlan s (fun _ => false) 0 lengthId requests
        (planAcquire s requests (fun _ => false) 0 lengthId) ∧
      (planAcquire s requests (fun _ => false) 0 lengthId).claims.map Prod.snd =
        ["grp", lengthId 1, lengthId 2, lengthId 1] := by
  have hne : ∀ i, lengthId i ≠ "grp" := lengthId_ne (by simp)
  have hfresh : FreshIds (run ledgerStep (LedgerState.init 0) (smallAcquired 4096)).store
      lengthId :=
    ⟨lengthId_injective, fun i hi => hne i (List.mem_singleton.mp hi)⟩
  exact ⟨planAcquire_cheapest _ (fun _ => false) 0 lengthId hfresh _, by decide⟩

end InferStack
