import InferStack.Kit.Ranked
import InferStack.Ledger.Coalescing

/-!
# InferStack.Ledger.Choice

Which deployment the next request of a plan gets.

* `PlanOn` — the claims, the ids and the served maps of the plan so far;
* `chooseDeployment_cheapest` — a reused deployment is the cheapest there is;
* `chooseDeployment_eq_none` — a new one is made only if there is none.
-/

namespace InferStack

open Kit

variable {π δ : Type}

/-! ## what a request may use -/

/-- A deployment a shared request may use, as the plan so far leaves it: a stored
one that is LIVE or IDLE, or one the plan is about to create (`pending`). -/
structure Eligible (s : Store π δ) (p : PlanState) (r : EndpointRequest) (c : Deployment)
    (pending : Bool) : Prop where
  offered :
    (pending = false ∧ ∃ row ∈ s.deployments, row.compatKey = r.compatKey ∧ row.sharing = .shared ∧
      (row.state = .live ∨ row.state = .idle) ∧ c = (p.view.find? row.id).getD row) ∨
    (pending = true ∧ c ∈ p.created ∧ c.compatKey = r.compatKey ∧ c.sharing = .shared)
  capacity : capacitySatisfies c.capacity r.capacity

/-- Of two deployments of one cost, the one created first. -/
def CreatedFirst (p : PlanState) (pending : Bool) (c c' : Deployment) : Prop :=
  if pending then c = c' ∨ [c, c'].Sublist p.created.rows else c.createdAt ≤ c'.createdAt

/-- What using a deployment takes. -/
inductive UseCost
  /-- LIVE: nothing to place or start. -/
  | live
  /-- This plan is already creating it. -/
  | created
  /-- IDLE, but still resident: a revival with nothing to start. -/
  | resident
  /-- Any other IDLE one. -/
  | idle
  deriving DecidableEq

/-- What using a deployment takes, from its state, whether this plan creates it,
and whether it is resident. -/
def useCost (resident : String → Bool) (d : Deployment) (pending : Bool) : UseCost :=
  if pending then .created
  else if d.state = .live then .live
  else if resident d.id then .resident
  else .idle

/-- LIVE, then created by this plan, then resident IDLE, then any other IDLE. -/
def UseCost.less : UseCost → UseCost → Prop
  | .live, other => other ≠ .live
  | .created, other => other = .resident ∨ other = .idle
  | .resident, other => other = .idle
  | .idle, _ => False

/-- The cheapest deployment for a request, the first created of the cheapest. -/
structure Cheapest (s : Store π δ) (resident : String → Bool) (p : PlanState)
    (r : EndpointRequest) (c : Deployment) (pending : Bool) : Prop where
  eligible : Eligible s p r c pending
  least : ∀ c' pending', Eligible s p r c' pending' →
    (useCost resident c pending).less (useCost resident c' pending') ∨
      (useCost resident c pending = useCost resident c' pending' ∧ pending = pending' ∧
        CreatedFirst p pending c c')

/-- The number the planner sorts by. -/
def UseCost.rank : UseCost → Nat
  | .live => 0
  | .created => 1
  | .resident => 2
  | .idle => 3

theorem UseCost.less_iff (a b : UseCost) : a.less b ↔ a.rank < b.rank := by
  cases a <;> cases b <;> simp [less, rank]

theorem UseCost.rank_inj {a b : UseCost} : a.rank = b.rank ↔ a = b := by
  cases a <;> cases b <;> simp [rank]

theorem planCost_eq (resident : String → Bool) (d : Deployment) (pending : Bool) :
    planCost resident d pending = (useCost resident d pending).rank := by
  unfold planCost useCost
  cases pending with
  | true => simp [UseCost.rank]
  | false =>
      by_cases hlive : d.state = .live
      · simp [hlive, UseCost.rank]
      · cases hresident : resident d.id <;> simp [hlive, UseCost.rank]

section Choice

variable {s : Store π δ} {resident : String → Bool} {p : PlanState} {r : EndpointRequest}
  {c : Deployment}

theorem mem_planCandidates {pending : Bool} : (c, pending) ∈ planCandidates s p r ↔
    (pending = false ∧ ∃ row ∈ s.deployments, row.compatKey = r.compatKey ∧ row.sharing = .shared ∧
      (row.state = .live ∨ row.state = .idle) ∧ c = (p.view.find? row.id).getD row) ∨
    (pending = true ∧ c ∈ p.created ∧ c.compatKey = r.compatKey ∧ c.sharing = .shared) := by
  unfold planCandidates
  rw [List.mem_append, List.mem_map, List.mem_map]
  constructor
  · intro h
    cases h with
    | inl hstored =>
        obtain ⟨row, hrow, heq⟩ := hstored
        obtain ⟨hc, hp⟩ := Prod.mk.inj heq
        obtain ⟨hmem, hkey, hshared, hstate⟩ := Store.mem_deploymentsByCompat.mp hrow
        exact .inl ⟨hp.symm, row, hmem, hkey, hshared, by simpa using hstate, hc.symm⟩
    | inr hcreated =>
        obtain ⟨d, hd, heq⟩ := hcreated
        obtain ⟨rfl, hp⟩ := Prod.mk.inj heq
        have hsel := List.mem_filter.mp hd
        have hboth := of_decide_eq_true hsel.2
        exact .inr ⟨hp.symm, hsel.1, hboth.1, hboth.2⟩
  · intro h
    cases h with
    | inl hstored =>
        obtain ⟨rfl, row, hmem, hkey, hshared, hstate, rfl⟩ := hstored
        exact .inl ⟨row, Store.mem_deploymentsByCompat.mpr
          ⟨hmem, hkey, hshared, by simpa using hstate⟩, rfl⟩
    | inr hcreated =>
        obtain ⟨rfl, hmem, hkey, hshared⟩ := hcreated
        exact .inr ⟨c, List.mem_filter.mpr ⟨hmem, by simp [hkey, hshared]⟩, rfl⟩

theorem eligible_iff {pending : Bool} : Eligible s p r c pending ↔
    (c, pending) ∈ planCandidates s p r ∧ capacitySatisfies c.capacity r.capacity := by
  rw [mem_planCandidates]
  exact ⟨fun h => ⟨h.offered, h.capacity⟩, fun h => ⟨h.1, h.2⟩⟩

end Choice

/-! ## the plan so far -/

/-- What serving some claims makes of a served map. -/
def servedBy (claims : List (EndpointRequest × String)) (g : String)
    (served : Dict String Served) : Dict String Served :=
  (claims.filter (·.2 = g)).foldl (fun m rg => m.set rg.1.endpoint rg.1.served) served

/-- What a deployment serves before the plan; a new one serves nothing. -/
def baseServed (s : Store π δ) (g : String) : Dict String Served :=
  ((s.getDeployment g).map Deployment.served).getD ∅

/-- A row that a request may have claimed. -/
structure FitsClaim (r : EndpointRequest) (d : Deployment) : Prop where
  sharing : d.sharing = r.sharing ∨ (r.sharing ≠ .dedicated ∧ d.sharing = .shared)
  compatKey : d.compatKey = r.compatKey
  capacity : capacitySatisfies d.capacity r.capacity

/-- The loop state of a plan, on the ledger it reads. -/
structure PlanOn (s : Store π δ) (newId : Nat → String) (p : PlanState) : Prop where
  plan : PlanInv s p
  /-- What it creates is new to the ledger, under the id of its request. -/
  made : ∀ g ∈ p.created.keys, g ∉ s.deployments.keys ∧ ∃ i < p.claims.length, g = newId i
  /-- Each row of the view serves what it did and what was claimed of it. -/
  served : ∀ v ∈ p.view, v.served = servedBy p.claims v.id (baseServed s v.id)
  fits : ∀ rg ∈ p.claims, ∃ v, p.view.find? rg.2 = some v ∧ FitsClaim rg.1 v
  /-- A dedicated request has a deployment of its own. -/
  dedicated : ∀ i r g, p.claims[i]? = some (r, g) → r.sharing = .dedicated →
    g = newId i ∧ g ∈ p.created.keys ∧ ∀ j r', p.claims[j]? = some (r', g) → j = i
  /-- What it creates is written with all it serves. -/
  whole : ∀ g ∈ p.created.keys, p.servedUpdates.get? g = none

theorem PlanOn.empty (s : Store π δ) (newId : Nat → String) : PlanOn s newId {} where
  plan := .empty s
  made := by simp [Table.keys]
  served := by simp
  fits := by simp
  dedicated := by simp
  whole := by simp [Table.keys]

theorem servedBy_snoc (claims : List (EndpointRequest × String)) (rg : EndpointRequest × String)
    (g : String) (m : Dict String Served) : servedBy (claims ++ [rg]) g m =
      if rg.2 = g then (servedBy claims g m).set rg.1.endpoint rg.1.served
      else servedBy claims g m := by
  unfold servedBy
  rw [List.filter_append]
  by_cases h : rg.2 = g
  · simp [h]
  · simp [h]

/-- Without a claim of it a deployment serves what it did. -/
theorem servedBy_of_unclaimed {claims : List (EndpointRequest × String)} {g : String}
    (h : ∀ rg ∈ claims, rg.2 ≠ g) (m : Dict String Served) : servedBy claims g m = m := by
  have hnil : claims.filter (·.2 = g) = [] :=
    List.filter_eq_nil_iff.mpr fun rg hrg => by simpa using h rg hrg
  unfold servedBy
  rw [hnil]
  rfl

@[simp] theorem Deployment.revive_served (d : Deployment) : d.revive.served = d.served := by
  unfold revive
  split <;> rfl

theorem Deployment.serving_served (d : Deployment) (e : String) (m : Served) :
    (d.serving e m).served = d.served.set e m := by
  unfold serving
  split
  · rename_i hsame
    rw [Dict.set_of_get? hsame]
  · rfl

/-- Reusing a row keeps its sharing, its key and its capacity. -/
theorem Deployment.reuse_row (d : Deployment) (e : String) (m : Served) :
    (d.revive.serving e m).sharing = d.sharing ∧
      (d.revive.serving e m).compatKey = d.compatKey ∧
      (d.revive.serving e m).capacity = d.capacity := by
  rw [Deployment.serving_eq]
  unfold revive
  split <;> exact ⟨rfl, rfl, rfl⟩

/-- Reusing a row keeps what a claim reads of it. -/
theorem FitsClaim.reuse {r : EndpointRequest} {d : Deployment} (h : FitsClaim r d) (e : String)
    (m : Served) : FitsClaim r (d.revive.serving e m) := by
  have hrow := d.reuse_row e m
  exact ⟨by rw [hrow.1]; exact h.sharing, by rw [hrow.2.1]; exact h.compatKey,
    by rw [hrow.2.2]; exact h.capacity⟩

theorem capacitySatisfies_self (c : Capacity) : capacitySatisfies c c = true := by
  rw [capacitySatisfies_iff]
  intro key need hneed
  exact ⟨need, Dict.get?_eq_some.mpr hneed, le_refl need⟩

theorem FitsClaim.new (id : String) (now : Int) (r : EndpointRequest) :
    FitsClaim r (newDeployment id now r) := ⟨.inl rfl, rfl, capacitySatisfies_self r.capacity⟩

section Plan

variable {s : Store π δ} {resident : String → Bool} {now : Int} {newId : Nat → String}
  {p : PlanState} {r : EndpointRequest} {c : Deployment}

/-- The plan's view of a stored row differs in its state, its GPUs and what it
serves. -/
theorem PlanOn.view_row (h : PlanOn s newId p) {row : Deployment} (hrow : row ∈ s.deployments) :
    ∃ state gpus served, (p.view.find? row.id).getD row =
      { row with state := state, assignedGpus := gpus, served := served } := by
  cases hv : p.view.find? row.id with
  | none => exact ⟨row.state, row.assignedGpus, row.served, rfl⟩
  | some v =>
      obtain ⟨hmem, hid⟩ := Table.find?_eq_some.mp hv
      have hnew : v.id ∉ p.created.keys := by
        intro hin
        exact (h.made _ hin).1 (hid ▸ Table.mem_keys.mpr ⟨row, hrow, rfl⟩)
      obtain ⟨d, hd, hcl⟩ := h.plan.stored v hmem hnew
      have hsame : d = row := by
        rw [hid] at hd
        exact Option.some.inj (hd.symm.trans (Table.mem_iff_find?.mp hrow))
      subst hsame
      rw [Option.getD_some, hcl.row]
      unfold Deployment.revive
      split
      · exact ⟨_, _, _, rfl⟩
      · exact ⟨_, _, _, rfl⟩

/-- A reused deployment is shared, and of the request's key. -/
theorem PlanOn.chosen (h : PlanOn s newId p) (hchoose : chooseDeployment s resident p r = some c) :
    r.sharing ≠ .dedicated ∧ c.sharing = .shared ∧ FitsClaim r c := by
  obtain ⟨hded, hcap, hc⟩ := chooseDeployment_spec hchoose
  cases hc with
  | inl hstored =>
      obtain ⟨row, hrow, hkey, hsh, -, rfl⟩ := hstored
      obtain ⟨state, gpus, served, heq⟩ := h.view_row hrow
      rw [heq] at hcap ⊢
      exact ⟨hded, hsh, .inr ⟨hded, hsh⟩, hkey, hcap⟩
  | inr hcreated =>
      exact ⟨hded, hcreated.2.2, .inr ⟨hded, hcreated.2.2⟩, hcreated.2.1, hcap⟩

/-- The next id is new to the plan. -/
theorem PlanOn.newId_fresh (h : PlanOn s newId p) (hfresh : FreshIds s newId) :
    newId p.claims.length ∉ p.view.keys := by
  intro hin
  obtain ⟨v, hv, hid⟩ := Table.mem_keys.mp hin
  by_cases hc : v.id ∈ p.created.keys
  · obtain ⟨-, i, hi, heq⟩ := h.made _ hc
    have hsame := hfresh.1 (hid.symm.trans heq)
    omega
  · obtain ⟨d, hd, -⟩ := h.plan.stored v hv hc
    have hkey : v.id ∈ s.deployments.keys := by
      rw [Table.mem_keys_iff]
      exact Option.isSome_iff_exists.mpr ⟨d, hd⟩
    exact hfresh.2 p.claims.length (hid ▸ hkey)

theorem getElem?_snoc_eq {α : Type} {l : List α} {a b : α} {i : Nat}
    (h : (l ++ [a])[i]? = some b) : (i = l.length ∧ a = b) ∨ (i < l.length ∧ l[i]? = some b) := by
  rw [List.getElem?_append] at h
  split at h
  · rename_i hlt
    exact .inr ⟨hlt, h⟩
  · rename_i hge
    have hone : i - l.length = 0 := by
      by_contra hne
      rw [List.getElem?_eq_none (by simp; omega)] at h
      contradiction
    rw [hone] at h
    exact .inl ⟨by omega, Option.some.inj h⟩

theorem PlanOn.create (h : PlanOn s newId p) (hfresh : FreshIds s newId)
    (hchoose : chooseDeployment s resident p r = none) :
    PlanOn s newId (p.create r (newDeployment (newId p.claims.length) now r)) := by
  have hnew := h.newId_fresh hfresh
  have hplan : PlanInv s (planRequest s resident now newId p r) := planRequest_inv h.plan r
  unfold planRequest at hplan
  rw [hchoose] at hplan
  have hunclaimed : ∀ rg ∈ p.claims, rg.2 ≠ newId p.claims.length :=
    fun rg hrg heq => hnew (heq ▸ h.plan.claims rg hrg)
  have hlen : (p.claims ++ [(r, newId p.claims.length)]).length = p.claims.length + 1 := by simp
  refine ⟨hplan, fun g hg => ?_, fun v hv => ?_, fun rg hrg => ?_, fun i r' g hi hded => ?_,
    fun g hg => ?_⟩
  · cases Table.mem_keys_put.mp hg with
    | inl heq => exact ⟨heq ▸ hfresh.2 _, p.claims.length, by simp [PlanState.create], heq⟩
    | inr hold =>
        obtain ⟨hstored, i, hi, heq⟩ := h.made g hold
        exact ⟨hstored, i, by simp [PlanState.create]; omega, heq⟩
  · show v.served = servedBy (p.claims ++ [(r, newId p.claims.length)]) v.id _
    rw [servedBy_snoc]
    cases Table.mem_put.mp hv with
    | inl heq =>
        subst heq
        have hbase : baseServed s (newId p.claims.length) = ∅ := by
          have hnone : s.getDeployment (newId p.claims.length) = none :=
            Table.find?_of_not_mem_keys (hfresh.2 _)
          unfold baseServed
          rw [hnone]
          rfl
        show _ = if newId p.claims.length = newId p.claims.length then _ else _
        rw [if_pos rfl]
        show _ = (servedBy p.claims (newId p.claims.length) _).set _ _
        rw [servedBy_of_unclaimed hunclaimed]
        show _ = (baseServed s (newId p.claims.length)).set _ _
        rw [hbase]
        rfl
    | inr hold =>
        have hne : newId p.claims.length ≠ v.id := Ne.symm hold.2
        rw [if_neg hne]
        exact h.served v hold.1
  · show ∃ v, (p.view.put _).find? rg.2 = some v ∧ _
    rw [Table.find?_put]
    cases List.mem_append.mp hrg with
    | inl hold =>
        obtain ⟨v, hv, hfit⟩ := h.fits rg hold
        have hne : (newDeployment (newId p.claims.length) now r).id ≠ rg.2 :=
          Ne.symm (hunclaimed rg hold)
        exact ⟨v, by rw [if_neg hne]; exact hv, hfit⟩
    | inr hlast =>
        rw [List.mem_singleton.mp hlast]
        exact ⟨_, if_pos rfl, .new _ now r⟩
  · cases getElem?_snoc_eq hi with
    | inl hlast =>
        obtain ⟨rfl, heq⟩ := hlast
        obtain ⟨rfl, rfl⟩ := Prod.mk.inj heq
        refine ⟨rfl, Table.mem_keys_put.mpr (.inl rfl), fun j r' hj => ?_⟩
        cases getElem?_snoc_eq hj with
        | inl hlast => exact hlast.1
        | inr hold => exact absurd rfl (hunclaimed _ (List.mem_of_getElem? hold.2))
    | inr hold =>
        obtain ⟨heq, hcreated, honly⟩ := h.dedicated i r' g hold.2 hded
        refine ⟨heq, Table.mem_keys_put.mpr (.inr hcreated), fun j r'' hj => ?_⟩
        cases getElem?_snoc_eq hj with
        | inl hlast =>
            have hg : newId p.claims.length = g := (Prod.mk.inj hlast.2).2
            exact absurd hg.symm (hunclaimed _ (List.mem_of_getElem? hold.2))
        | inr hj' => exact honly j r'' hj'.2
  · cases Table.mem_keys_put.mp hg with
    | inr hold => exact h.whole g hold
    | inl heq =>
        show p.servedUpdates.get? g = none
        cases hget : p.servedUpdates.get? g with
        | none => rfl
        | some m =>
            have hview := h.plan.updates g m hget
            rw [heq] at hview
            exact absurd hview hnew

theorem PlanOn.reuse (h : PlanOn s newId p) (hchoose : chooseDeployment s resident p r = some c) :
    PlanOn s newId (p.reuse r c) := by
  obtain ⟨hshared, hcshared, hfit⟩ := h.chosen hchoose
  have hplan : PlanInv s (p.reuse r c) := h.plan.reuse hchoose
  have hid : (c.revive.serving r.endpoint r.served).id = c.id := by simp
  have hview : ∀ v, p.view.find? c.id = some v → v = c := by
    intro v hv
    cases chosen_keys h.plan hchoose with
    | inl hin => exact Option.some.inj (hv.symm.trans (Table.mem_iff_find?.mp hin))
    | inr hnot => exact absurd (Table.mem_keys_iff.mpr (by rw [hv]; rfl)) hnot.1
  have hkeys : ∀ g, g ∈ (p.reuse r c).created.keys ↔ g ∈ p.created.keys := by
    intro g
    unfold PlanState.reuse
    dsimp only
    split
    · rename_i hin
      rw [Table.mem_keys_put, hid]
      exact ⟨fun hg => hg.elim (fun heq => heq ▸ hin) id, .inr⟩
    · exact Iff.rfl
  have hcserved : c.served = servedBy p.claims c.id (baseServed s c.id) := by
    cases h.plan.choice hchoose with
    | inl hin => exact h.served c hin
    | inr hstored =>
        have hunclaimed : ∀ rg ∈ p.claims, rg.2 ≠ c.id :=
          fun rg hrg heq => hstored.1 (heq ▸ h.plan.claims rg hrg)
        rw [servedBy_of_unclaimed hunclaimed, baseServed, hstored.2.1]
        rfl
  refine ⟨hplan, fun g hg => ?_, fun v hv => ?_, fun rg hrg => ?_, fun i r' g hi hded => ?_,
    fun g hg => ?_⟩
  · obtain ⟨hstored, i, hi, heq⟩ := h.made g ((hkeys g).mp hg)
    exact ⟨hstored, i, by simp [PlanState.reuse]; omega, heq⟩
  · show v.served = servedBy (p.claims ++ [(r, c.id)]) v.id _
    rw [servedBy_snoc]
    cases Table.mem_put.mp hv with
    | inl heq =>
        subst heq
        rw [hid, if_pos rfl, Deployment.serving_served, Deployment.revive_served, ← hcserved]
    | inr hold =>
        have hne : c.id ≠ v.id := fun heq => hold.2 (heq ▸ hid.symm)
        rw [if_neg hne]
        exact h.served v hold.1
  · show ∃ v, (p.view.put _).find? rg.2 = some v ∧ _
    rw [Table.find?_put, hid]
    cases List.mem_append.mp hrg with
    | inl hold =>
        obtain ⟨v, hv, hfits⟩ := h.fits rg hold
        by_cases heq : c.id = rg.2
        · rw [if_pos heq]
          have hvc := hview v (heq ▸ hv)
          subst hvc
          exact ⟨_, rfl, hfits.reuse _ _⟩
        · rw [if_neg heq]
          exact ⟨v, hv, hfits⟩
    | inr hlast =>
        rw [List.mem_singleton.mp hlast]
        exact ⟨_, if_pos rfl, hfit.reuse _ _⟩
  · cases getElem?_snoc_eq hi with
    | inl hlast =>
        obtain ⟨rfl, -⟩ := Prod.mk.inj hlast.2
        contradiction
    | inr hold =>
        obtain ⟨heq, hcreated, honly⟩ := h.dedicated i r' g hold.2 hded
        refine ⟨heq, (hkeys g).mpr hcreated, fun j r'' hj => ?_⟩
        cases getElem?_snoc_eq hj with
        | inr hj' => exact honly j r'' hj'.2
        | inl hlast =>
            -- what was reused is shared, the dedicated request's own is not
            obtain ⟨-, hg⟩ := Prod.mk.inj hlast.2
            obtain ⟨v, hv, hfits⟩ := h.fits _ (List.mem_of_getElem? hold.2)
            have hvc := hview v (hg ▸ hv)
            subst hvc
            cases hfits.sharing with
            | inl hsame =>
                rw [hcshared, hded] at hsame
                contradiction
            | inr hother => exact absurd hded hother.1
  · have hold := h.whole g ((hkeys g).mp hg)
    show Dict.get? (if _ then p.servedUpdates else p.servedUpdates.set c.id _) g = none
    split
    · exact hold
    · rename_i hset
      have hne : c.id ≠ g := fun heq => hset (.inr (heq ▸ (hkeys g).mp hg))
      rw [Dict.get?_set, if_neg hne]
      exact hold

/-- One request of a plan. -/
theorem PlanOn.planRequest (h : PlanOn s newId p) (hfresh : FreshIds s newId) :
    PlanOn s newId (planRequest s resident now newId p r) := by
  unfold InferStack.planRequest
  cases hchoose : chooseDeployment s resident p r with
  | none => exact h.create hfresh hchoose
  | some c => exact h.reuse hchoose

theorem planLoop_on (hfresh : FreshIds s newId) (requests : List EndpointRequest) :
    PlanOn s newId (planLoop s resident now newId requests) := by
  unfold planLoop
  have hgen : ∀ p, PlanOn s newId p →
      PlanOn s newId (requests.foldl (InferStack.planRequest s resident now newId) p) := by
    induction requests with
    | nil => exact fun p hp => hp
    | cons r rs ih => exact fun p hp => ih _ (hp.planRequest hfresh)
  exact hgen {} (.empty s newId)

/-- A stored row will serve what it did, and what was claimed of it. -/
theorem PlanOn.updates (h : PlanOn s newId p) {d : Deployment} (hd : d ∈ s.deployments) :
    (p.servedUpdates.get? d.id).getD d.served = servedBy p.claims d.id d.served := by
  have hstored : s.getDeployment d.id = some d := Table.mem_iff_find?.mp hd
  have hnew : d.id ∉ p.created.keys :=
    fun hin => (h.made _ hin).1 (Table.mem_keys.mpr ⟨d, hd, rfl⟩)
  by_cases hkey : d.id ∈ p.view.keys
  · obtain ⟨v, hv, hid⟩ := Table.mem_keys.mp hkey
    obtain ⟨d', hd', hcl⟩ := h.plan.stored v hv (hid ▸ hnew)
    obtain rfl : d = d' := Option.some.inj (hstored.symm.trans (hid ▸ hd'))
    have hbase : baseServed s v.id = d.served := by
      rw [hid, baseServed, hstored]
      rfl
    have hserved := h.served v hv
    rw [hbase, hid] at hserved
    exact hcl.served.symm.trans hserved
  · have hnone : p.servedUpdates.get? d.id = none := by
      cases hget : p.servedUpdates.get? d.id with
      | none => rfl
      | some m => exact absurd (h.plan.updates _ m hget) hkey
    have hunclaimed : ∀ rg ∈ p.claims, rg.2 ≠ d.id :=
      fun rg hrg heq => hkey (heq ▸ h.plan.claims rg hrg)
    rw [hnone, servedBy_of_unclaimed hunclaimed]
    rfl

/-! ## the choice -/

/-- A plan has one candidate of an id. -/
theorem PlanOn.nodup_candidateIds (h : PlanOn s newId p) :
    ((planCandidates s p r).map fun x => x.1.id).Nodup := by
  have hids : ∀ g ∈ s.deploymentsByCompat r.compatKey .shared [.live, .idle],
      ((p.view.find? g.id).getD g).id = g.id := by
    intro g hg
    obtain ⟨_, _, _, hrow⟩ := h.view_row (Store.mem_deploymentsByCompat.mp hg).1
    rw [hrow]
  have hstored : ((s.deploymentsByCompat r.compatKey .shared [.live, .idle]).map
      Deployment.id).Nodup :=
    ((List.perm_insertionSort _ _).map Deployment.id).nodup_iff.mpr
      ((List.filter_sublist.map Deployment.id).nodup s.deployments.nodup)
  have hmap : ((s.deploymentsByCompat r.compatKey .shared [.live, .idle]).map
      fun g => ((p.view.find? g.id).getD g).id) =
        (s.deploymentsByCompat r.compatKey .shared [.live, .idle]).map Deployment.id :=
    List.map_congr_left hids
  unfold planCandidates
  rw [List.map_append, List.map_map, List.map_map]
  refine List.nodup_append.mpr ⟨?_, ?_, ?_⟩
  · exact hmap ▸ hstored
  · exact (List.filter_sublist.map Deployment.id).nodup p.created.nodup
  · intro a ha b hb heq
    obtain ⟨g, hg, rfl⟩ := List.mem_map.mp ha
    obtain ⟨d, hd, rfl⟩ := List.mem_map.mp hb
    have hsame : g.id = d.id := (hids g hg).symm.trans heq
    have hnot := (h.made d.id (Table.mem_keys.mpr ⟨d, List.mem_of_mem_filter hd, rfl⟩)).1
    exact hnot (hsame ▸ Table.mem_keys.mpr ⟨g, (Store.mem_deploymentsByCompat.mp hg).1, rfl⟩)

theorem PlanOn.nodup_planCandidates (h : PlanOn s newId p) : (planCandidates s p r).Nodup :=
  h.nodup_candidateIds.of_map _

/-- Candidates in the order of the list were created in that order. -/
theorem PlanOn.createdFirst (h : PlanOn s newId p) {c' : Deployment} {pending : Bool}
    (hpair : [(c, pending), (c', pending)].Sublist (planCandidates s p r)) :
    CreatedFirst p pending c c' := by
  unfold planCandidates at hpair
  have hsame := hpair.filter (fun x => x.2 = pending)
  rw [List.filter_append] at hsame
  unfold CreatedFirst
  cases pending with
  | false =>
      rw [if_neg (by decide)]
      have hstored : [(c, false), (c', false)].Sublist
          ((s.deploymentsByCompat r.compatKey .shared [.live, .idle]).map
            fun g => ((p.view.find? g.id).getD g, false)) := by
        simpa [List.filter_map, Function.comp_def] using hsame
      obtain ⟨rows, hrows, heq⟩ := List.sublist_map_iff.mp hstored
      obtain ⟨row, rest, rfl, hrow, hrest⟩ := List.map_eq_cons_iff.mp heq.symm
      obtain ⟨row', rest', rfl, hrow', hrest'⟩ := List.map_eq_cons_iff.mp hrest
      have hnil : rest' = [] := List.map_eq_nil_iff.mp hrest'
      subst hnil
      replace hrow := congrArg Prod.fst hrow
      replace hrow' := congrArg Prod.fst hrow'
      dsimp only at hrow hrow'
      have hsorted : (s.deploymentsByCompat r.compatKey .shared [.live, .idle]).Pairwise
          fun a b => a.createdAt ≤ b.createdAt := List.pairwise_insertionSort _ _
      have hle : row.createdAt ≤ row'.createdAt := by simpa using hsorted.sublist hrows
      have hmem : ∀ d ∈ [row, row'], d ∈ s.deployments :=
        fun d hd => (Store.mem_deploymentsByCompat.mp (hrows.subset hd)).1
      obtain ⟨_, _, _, hview⟩ := h.view_row (hmem row (by simp))
      obtain ⟨_, _, _, hview'⟩ := h.view_row (hmem row' (by simp))
      rw [← hrow, ← hrow', hview, hview']
      exact hle
  | true =>
      rw [if_pos rfl]
      have hcreated : [(c, true), (c', true)].Sublist
          ((p.created.rows.filter fun g => g.compatKey = r.compatKey ∧ g.sharing = .shared).map
            fun g => (g, true)) := by
        simpa [List.filter_map, Function.comp_def] using hsame
      have hrows : [c, c'].Sublist (p.created.rows.filter fun g =>
          g.compatKey = r.compatKey ∧ g.sharing = .shared) := by
        simpa [Function.comp_def] using hcreated.map Prod.fst
      exact .inr (hrows.trans List.filter_sublist)

/-- The costs tell a deployment of this plan from a stored one. -/
theorem pending_of_useCost_eq {c' : Deployment} {pending pending' : Bool}
    (h : useCost resident c pending = useCost resident c' pending') : pending = pending' := by
  have hone : ∀ (d : Deployment) (b : Bool), useCost resident d b = .created ↔ b = true := by
    intro d b
    unfold useCost
    grind
  have hboth : (pending = true) ↔ (pending' = true) := by rw [← hone c, ← hone c', h]
  simpa using hboth

theorem rankedCandidates_eq : rankedCandidates s resident p r =
    ranked (fun c : Deployment × Bool => planCost resident c.1 c.2) (planCandidates s p r) := rfl

/-- A reused deployment is the cheapest for the request. -/
theorem PlanOn.chooseDeployment_cheapest (h : PlanOn s newId p)
    (hchoose : chooseDeployment s resident p r = some c) :
    ∃ pending, Cheapest s resident p r c pending := by
  unfold chooseDeployment at hchoose
  split at hchoose
  · contradiction
  · rw [rankedCandidates_eq] at hchoose
    obtain ⟨⟨c', pending⟩, hfind, rfl⟩ := Option.map_eq_some_iff.mp hchoose
    obtain ⟨hmem, hcap, hleast⟩ := cheapest_of_find? h.nodup_planCandidates hfind
    refine ⟨pending, eligible_iff.mpr ⟨hmem, hcap⟩, fun d pending' hd => ?_⟩
    obtain ⟨hdmem, hdcap⟩ := eligible_iff.mp hd
    have hless := hleast (d, pending') hdmem hdcap
    rw [planCost_eq, planCost_eq, ← UseCost.less_iff, UseCost.rank_inj] at hless
    cases hless with
    | inl hlt => exact .inl hlt
    | inr htie =>
        obtain ⟨hcost, horder⟩ := htie
        have hpending : pending = pending' := pending_of_useCost_eq hcost
        subst hpending
        refine .inr ⟨hcost, rfl, ?_⟩
        cases horder with
        | inr hpair => exact h.createdFirst hpair
        | inl hsame =>
            obtain ⟨rfl, -⟩ := Prod.mk.inj hsame
            cases pending with
            | false => exact le_refl c'.createdAt
            | true => exact .inl rfl

/-- A deployment is created only if none is eligible. -/
theorem chooseDeployment_eq_none (hshared : r.sharing ≠ .dedicated) :
    chooseDeployment s resident p r = none ↔ ¬ ∃ c pending, Eligible s p r c pending := by
  unfold chooseDeployment
  rw [if_neg hshared, Option.map_eq_none_iff, rankedCandidates_eq, find?_ranked_eq_none]
  constructor
  · rintro hnone ⟨c, pending, hc⟩
    obtain ⟨hmem, hcap⟩ := eligible_iff.mp hc
    have hfail := hnone (c, pending) hmem
    simp [hcap] at hfail
  · intro hnone b hb
    by_contra hcap
    exact hnone ⟨b.1, b.2, eligible_iff.mpr ⟨hb, by simpa using hcap⟩⟩

end Plan

end InferStack
