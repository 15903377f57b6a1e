import InferStack.Ledger.Choice

/-!
# InferStack.Ledger.Offers

Which windows a plan is offered, key by key.

The rows of one key are a list of windows, each with what its use takes
(`storedOffers`).  A request is offered the first LIVE one that covers its
window, else the first created by the plan, else the first resident IDLE one,
else the first IDLE one (`firstOffer`); what it takes is LIVE from then on, and
a row created for it comes last (`takeOffer`).  Requests of other keys do not
matter.

* `planOffers_planRequest` — one request of a plan takes what it is offered;
* `provides_iff_offersSuffice` — a plan gives every request the window its alias
  advertises exactly when each request that omits its window is offered one of
  at least the default;
* `offersSuffice_of_wide` — which is so where no window of the key is smaller.
-/

namespace InferStack

open Kit

variable {π δ : Type}

/-! ## the offers of one key -/

/-- A shared row, as a request of its key sees it. -/
structure Offer where
  /-- The `max_model_len` it was launched with. -/
  window : Option Int
  cost : UseCost
  deriving DecidableEq

/-- Whether a row covers a request: a window asked for must have been set, and
at least as large. -/
def covers (need window : Option Int) : Bool := need.all fun n => window.any fun w => n ≤ w

/-- The window a row runs with. -/
def Offer.effective (x : Offer) : Int := x.window.getD vllmDefaultMaxModelLen

/-- What a request is offered first. -/
def firstOffer (offers : List Offer) (need : Option Int) : Option Offer :=
  [UseCost.live, .created, .resident, .idle].findSome? fun c =>
    offers.find? fun x => x.cost = c ∧ covers need x.window

/-- A row in use is LIVE, or still being created. -/
def Offer.used (x : Offer) : Offer :=
  { x with cost := if x.cost = .created then .created else .live }

/-- The offers once a request has taken what it is offered, or a new row. -/
def takeOffer (offers : List Offer) (need : Option Int) : List Offer :=
  match firstOffer offers need with
  | some x => offers.replace x x.used
  | none => offers ++ [⟨need, .created⟩]

/-- Each request that omits its window is offered a row with at least the
default one. -/
def OffersSuffice : List Offer → List (Option Int) → Prop
  | _, [] => True
  | offers, need :: needs =>
      (need = none → ∀ x ∈ firstOffer offers need, vllmDefaultMaxModelLen ≤ x.effective) ∧
        OffersSuffice (takeOffer offers need) needs

instance OffersSuffice.decidable : ∀ offers needs, Decidable (OffersSuffice offers needs)
  | _, [] => isTrue trivial
  | offers, need :: needs =>
      have := OffersSuffice.decidable (takeOffer offers need) needs
      inferInstanceAs (Decidable (_ ∧ _))

/-- A row as an offer. -/
def offerOf (resident : String → Bool) (d : Deployment) (pending : Bool) : Offer :=
  ⟨d.spec.runtime.maxModelLen, useCost resident d pending⟩

/-- The LIVE and IDLE shared rows of a key, oldest first. -/
def storedOffers (s : Store π δ) (resident : String → Bool) (key : CompatKey) : List Offer :=
  (s.deploymentsByCompat key .shared [.live, .idle]).map (offerOf resident · false)

/-- The windows the requests of a key ask for. -/
def neededWindows (requests : List EndpointRequest) (key : CompatKey) : List (Option Int) :=
  (requests.filter (·.compatKey = key)).map (·.spec.runtime.maxModelLen)

theorem firstOffer_mem {offers : List Offer} {need : Option Int} {x : Offer}
    (h : firstOffer offers need = some x) : x ∈ offers := by
  obtain ⟨c, -, hfind⟩ := List.exists_of_findSome?_eq_some h
  exact List.mem_of_find?_eq_some hfind

/-- The offers after a request: as before, in use, or the new row. -/
theorem mem_takeOffer {offers : List Offer} {need : Option Int} {y : Offer}
    (h : y ∈ takeOffer offers need) :
    y ∈ offers ∨ (∃ x ∈ offers, y = x.used) ∨ y = ⟨need, .created⟩ := by
  unfold takeOffer at h
  cases hfirst : firstOffer offers need with
  | none =>
      rw [hfirst] at h
      cases List.mem_append.mp h with
      | inl hold => exact .inl hold
      | inr hnew => exact .inr (.inr (List.mem_singleton.mp hnew))
  | some x =>
      rw [hfirst] at h
      cases mem_of_mem_replace h with
      | inl hold => exact .inl hold
      | inr hused => exact .inr (.inl ⟨x, firstOffer_mem hfirst, hused⟩)

/-- Where no window of a key is smaller than the default, every offer suffices. -/
theorem offersSuffice_of_wide {offers : List Offer} {needs : List (Option Int)}
    (hoffers : ∀ x ∈ offers, vllmDefaultMaxModelLen ≤ x.effective)
    (hneeds : ∀ n, some n ∈ needs → vllmDefaultMaxModelLen ≤ n) : OffersSuffice offers needs := by
  induction needs generalizing offers with
  | nil => trivial
  | cons need needs ih =>
      refine ⟨fun _ x hx => hoffers x (firstOffer_mem hx), ih (fun y hy => ?_) fun n hn => ?_⟩
      · cases mem_takeOffer hy with
        | inl hold => exact hoffers y hold
        | inr hrest =>
            cases hrest with
            | inl hused =>
                obtain ⟨x, hx, rfl⟩ := hused
                exact hoffers x hx
            | inr hnew =>
                subst hnew
                cases need with
                | none => exact le_refl _
                | some n => exact hneeds n List.mem_cons_self
      · exact hneeds n (List.mem_cons_of_mem _ hn)

/-! ## the offers of a plan -/

/-- The shared deployments of a key, as a plan sees them. -/
def candidatesOf (s : Store π δ) (p : PlanState) (key : CompatKey) : List (Deployment × Bool) :=
  (s.deploymentsByCompat key .shared [.live, .idle]).map
      (fun g => ((p.view.find? g.id).getD g, false)) ++
    (p.created.rows.filter (fun g => g.compatKey = key ∧ g.sharing = .shared)).map
      (fun g => (g, true))

theorem planCandidates_eq (s : Store π δ) (p : PlanState) (r : EndpointRequest) :
    planCandidates s p r = candidatesOf s p r.compatKey := rfl

/-- The offers of a key in the midst of a plan. -/
def planOffers (s : Store π δ) (resident : String → Bool) (p : PlanState) (key : CompatKey) :
    List Offer :=
  (candidatesOf s p key).map fun c => offerOf resident c.1 c.2

theorem planOffers_start (s : Store π δ) (resident : String → Bool) (key : CompatKey) :
    planOffers s resident {} key = storedOffers s resident key := by
  unfold planOffers candidatesOf storedOffers
  rw [List.map_append, List.map_map]
  exact List.append_nil _

section Plan

variable {s : Store π δ} {resident : String → Bool} {now : Int} {newId : Nat → String}
  {p : PlanState} {r : EndpointRequest} {c : Deployment} {key : CompatKey}

/-- A row of a catalog covers a request of one as its window does. -/
theorem capacitySatisfies_eq_covers {d : Deployment} (hd : Sized d) (hr : FromVllm r) :
    capacitySatisfies d.capacity r.capacity =
      covers r.spec.runtime.maxModelLen d.spec.runtime.maxModelLen := by
  rw [hd, hr.fields.1]
  unfold vllmCapacity covers
  cases r.spec.runtime.maxModelLen with
  | none => rfl
  | some n =>
      cases d.spec.runtime.maxModelLen with
      | none => rfl
      | some w => exact Bool.and_true _

/-- The candidate a request would take is what it is offered first. -/
theorem firstOffer_planOffers (hsized : ∀ x ∈ planCandidates s p r, Sized x.1) (hr : FromVllm r) :
    firstOffer (planOffers s resident p r.compatKey) r.spec.runtime.maxModelLen =
      ((rankedCandidates s resident p r).find? fun x =>
        capacitySatisfies x.1.capacity r.capacity).map fun x => offerOf resident x.1 x.2 := by
  -- the first offer of one cost is the first candidate of that cost
  have hclass : ∀ cost : UseCost, (planOffers s resident p r.compatKey).find?
      (fun x => x.cost = cost ∧ covers r.spec.runtime.maxModelLen x.window) =
        ((planCandidates s p r).find? fun x => planCost resident x.1 x.2 = cost.rank ∧
          capacitySatisfies x.1.capacity r.capacity).map fun x => offerOf resident x.1 x.2 := by
    intro cost
    unfold planOffers
    rw [← planCandidates_eq, List.find?_map, ← List.head?_filter, ← List.head?_filter]
    congr 2
    refine List.filter_congr fun x hx => ?_
    refine decide_eq_decide.mpr ?_
    rw [planCost_eq, UseCost.rank_inj, capacitySatisfies_eq_covers (hsized x hx) hr]
    rfl
  have hranks : ∀ x ∈ planCandidates s p r, planCost resident x.1 x.2 ∈
      [UseCost.live, .created, .resident, .idle].map UseCost.rank := by
    intro x _
    rw [planCost_eq]
    cases useCost resident x.1 x.2 <;> decide
  unfold firstOffer
  rw [rankedCandidates_eq, find?_ranked (by decide) hranks, List.findSome?_map,
    List.map_findSome?]
  exact congrArg (List.findSome? · _) (funext hclass)

/-! ## one request -/

/-- A created row is a candidate of its key, after the others. -/
theorem candidatesOf_create (h : PlanOn s newId p) (hfresh : FreshIds s newId)
    (hshared : r.sharing = .shared) :
    candidatesOf s (p.create r (newDeployment (newId p.claims.length) now r)) key =
      candidatesOf s p key ++ if r.compatKey = key
        then [(newDeployment (newId p.claims.length) now r, true)] else [] := by
  have hid : (newDeployment (newId p.claims.length) now r).id = newId p.claims.length := rfl
  have hstored : ∀ g ∈ s.deploymentsByCompat key .shared [.live, .idle],
      (((p.view.put (newDeployment (newId p.claims.length) now r)).find? g.id).getD g, false) =
        ((p.view.find? g.id).getD g, false) := by
    intro g hg
    have hne : newId p.claims.length ≠ g.id := by
      intro heq
      have hmem := (Store.mem_deploymentsByCompat.mp hg).1
      exact hfresh.2 p.claims.length (heq ▸ Table.mem_keys.mpr ⟨g, hmem, rfl⟩)
    rw [Table.find?_put, hid, if_neg hne]
  have hnew : newId p.claims.length ∉ p.created.keys := by
    intro hin
    obtain ⟨d, hd, hdid⟩ := Table.mem_keys.mp hin
    exact h.newId_fresh hfresh (Table.mem_keys.mpr ⟨d, (h.plan.created d hd).1, hdid⟩)
  have hrows : (p.created.put (newDeployment (newId p.claims.length) now r)).rows =
      p.created.rows ++ [newDeployment (newId p.claims.length) now r] := Table.rows_put_new hnew
  unfold candidatesOf PlanState.create
  dsimp only
  rw [List.map_congr_left hstored, hrows, List.filter_append, List.map_append, List.append_assoc]
  congr 2
  by_cases hkey : r.compatKey = key
  · have hsel : (newDeployment (newId p.claims.length) now r).compatKey = key ∧
        (newDeployment (newId p.claims.length) now r).sharing = .shared := ⟨hkey, hshared⟩
    simp [hkey, hsel]
  · have hnot : (newDeployment (newId p.claims.length) now r).compatKey ≠ key := hkey
    simp [hkey, hnot]

/-- A row of the plan's own that is reused keeps its place and its key. -/
theorem created_reuse (h : PlanOn s newId p)
    (hchoose : chooseDeployment s resident p r = some c) :
    ((p.reuse r c).created.rows.filter fun g => g.compatKey = key ∧ g.sharing = .shared) =
      (p.created.rows.filter fun g => g.compatKey = key ∧ g.sharing = .shared).map fun g =>
        if g.id = c.id then c.revive.serving r.endpoint r.served else g := by
  have hid : (c.revive.serving r.endpoint r.served).id = c.id := by simp
  by_cases hin : c.id ∈ p.created.keys
  · have hput : (p.reuse r c).created.rows = p.created.rows.map fun b =>
        if b.id = c.id then c.revive.serving r.endpoint r.served else b := by
      have hrows := Table.rows_put_old (t := p.created)
        (a := c.revive.serving r.endpoint r.served) (hid ▸ hin)
      rw [hid] at hrows
      unfold PlanState.reuse
      dsimp only
      rw [if_pos hin]
      exact hrows
    have hown : ∀ b ∈ p.created.rows, b.id = c.id → b = c := by
      intro b hb heq
      have hview := (h.plan.created b hb).1
      cases h.plan.choice hchoose with
      | inl hc => exact Table.eq_of_key_eq hview hc heq
      | inr hnew => exact absurd (Table.mem_keys.mpr ⟨b, hview, heq⟩) hnew.1
    have hkept := c.reuse_row r.endpoint r.served
    rw [hput, List.filter_map]
    refine congrArg (List.map _) (List.filter_congr fun b hb => ?_)
    by_cases heq : b.id = c.id
    · simp [hkept, hown b hb heq]
    · simp [heq]
  · have hsame : (p.reuse r c).created = p.created := by
      unfold PlanState.reuse
      exact if_neg hin
    rw [hsame]
    conv_lhs => rw [← List.map_id (p.created.rows.filter _)]
    refine List.map_congr_left fun g hg => (if_neg fun heq => ?_).symm
    exact hin (Table.mem_keys.mpr ⟨g, List.mem_of_mem_filter hg, heq⟩)

/-- A reused row is changed in place. -/
theorem candidatesOf_reuse (h : PlanOn s newId p)
    (hchoose : chooseDeployment s resident p r = some c) :
    candidatesOf s (p.reuse r c) key = (candidatesOf s p key).map fun x =>
      if x.1.id = c.id then (c.revive.serving r.endpoint r.served, x.2) else x := by
  have hid : (c.revive.serving r.endpoint r.served).id = c.id := by simp
  unfold candidatesOf
  rw [created_reuse h hchoose, List.map_append]
  congr 1
  · rw [List.map_map]
    refine List.map_congr_left fun g hg => ?_
    obtain ⟨_, _, _, hrow⟩ := h.view_row (Store.mem_deploymentsByCompat.mp hg).1
    have hgid : ((p.view.find? g.id).getD g).id = g.id := by rw [hrow]
    show (((p.view.put _).find? g.id).getD g, false) = _
    rw [Table.find?_put, hid, Function.comp, hgid]
    by_cases hc : c.id = g.id
    · rw [if_pos hc, if_pos hc.symm]
      rfl
    · rw [if_neg hc, if_neg (Ne.symm hc)]
  · rw [List.map_map, List.map_map]
    refine List.map_congr_left fun b _ => ?_
    by_cases heq : b.id = c.id
    · simp [heq]
    · simp [heq]

/-- A candidate is a row of the view, or a stored row that the plan has not seen. -/
theorem mem_candidatesOf (h : PlanOn s newId p) {x : Deployment × Bool}
    (hx : x ∈ candidatesOf s p key) : x.1.compatKey = key ∧
      (x.1 ∈ p.view ∨ (x.1.id ∉ p.view.keys ∧ x.1 ∈ s.deployments)) := by
  cases List.mem_append.mp hx with
  | inl hstored =>
      obtain ⟨g, hg, rfl⟩ := List.mem_map.mp hstored
      obtain ⟨hmem, hkey, -, -⟩ := Store.mem_deploymentsByCompat.mp hg
      obtain ⟨_, _, _, hrow⟩ := h.view_row hmem
      refine ⟨by rw [hrow]; exact hkey, ?_⟩
      cases hview : p.view.find? g.id with
      | some v => exact .inl (Table.find?_eq_some.mp hview).1
      | none =>
          refine .inr ⟨fun hin => ?_, hmem⟩
          rw [Option.getD_none, Table.mem_keys_iff, hview] at hin
          contradiction
  | inr hcreated =>
      obtain ⟨d, hd, rfl⟩ := List.mem_map.mp hcreated
      have hsel := List.mem_filter.mp hd
      exact ⟨(of_decide_eq_true hsel.2).1, .inl (h.plan.created d hsel.1).1⟩

/-- Candidates of one id have one key. -/
theorem candidate_key (h : PlanOn s newId p) {key' : CompatKey} {x y : Deployment × Bool}
    (hx : x ∈ candidatesOf s p key) (hy : y ∈ candidatesOf s p key') (hid : x.1.id = y.1.id) :
    key = key' := by
  obtain ⟨rfl, hxrow⟩ := mem_candidatesOf h hx
  obtain ⟨rfl, hyrow⟩ := mem_candidatesOf h hy
  have hsame : x.1 = y.1 := by
    cases hxrow with
    | inl hxview =>
        cases hyrow with
        | inl hyview => exact Table.eq_of_key_eq hxview hyview hid
        | inr hynew => exact absurd (Table.mem_keys.mpr ⟨_, hxview, hid⟩) hynew.1
    | inr hxnew =>
        cases hyrow with
        | inl hyview => exact absurd (Table.mem_keys.mpr ⟨_, hyview, hid.symm⟩) hxnew.1
        | inr hynew => exact Table.eq_of_key_eq hxnew.2 hynew.2 hid
  rw [hsame]

/-- A reused row is in use. -/
theorem offerOf_reuse (hstate : c.state = .live ∨ c.state = .idle) (pending : Bool) :
    offerOf resident (c.revive.serving r.endpoint r.served) pending =
      (offerOf resident c pending).used := by
  have hspec := congrArg Prod.fst (c.spec_capacity_reuse r.endpoint r.served)
  have hlive : (c.revive.serving r.endpoint r.served).state = .live := by
    rw [Deployment.serving_state, Deployment.revive_state hstate]
  dsimp only at hspec
  unfold offerOf Offer.used useCost
  rw [hspec, hlive]
  cases pending with
  | true => rfl
  | false =>
      cases hstate with
      | inl hwas => simp [hwas]
      | inr hwas => cases hresident : resident c.id <;> simp [hwas]

/-- A new row is the last offer of its key. -/
theorem planOffers_create (h : PlanOn s newId p) (hfresh : FreshIds s newId)
    (hshared : r.sharing = .shared) :
    planOffers s resident (p.create r (newDeployment (newId p.claims.length) now r)) key =
      planOffers s resident p key ++ if r.compatKey = key
        then [⟨r.spec.runtime.maxModelLen, .created⟩] else [] := by
  unfold planOffers
  rw [candidatesOf_create h hfresh hshared, List.map_append]
  split <;> rfl

theorem planOffers_reuse_eq (h : PlanOn s newId p)
    (hchoose : chooseDeployment s resident p r = some c) :
    planOffers s resident (p.reuse r c) key = ((candidatesOf s p key).map fun x =>
      if x.1.id = c.id then (c.revive.serving r.endpoint r.served, x.2) else x).map
        fun x => offerOf resident x.1 x.2 := by
  unfold planOffers
  rw [candidatesOf_reuse h hchoose]

section Chosen

variable {a : Deployment × Bool}
  (hchosen : (rankedCandidates s resident p r).find?
    (fun x => capacitySatisfies x.1.capacity r.capacity) = some a)
  (hchoose : chooseDeployment s resident p r = some a.1)

include hchosen hchoose

omit hchoose in
theorem mem_of_chosen : a ∈ candidatesOf s p r.compatKey :=
  mem_ranked.mp (List.mem_of_find?_eq_some hchosen)

/-- The row that a request takes is in use, at its place. -/
theorem planOffers_reuse (h : PlanOn s newId p)
    (hsized : ∀ x ∈ planCandidates s p r, Sized x.1) (hr : FromVllm r) :
    planOffers s resident (p.reuse r a.1) r.compatKey =
      (planOffers s resident p r.compatKey).replace (offerOf resident a.1 a.2)
        (offerOf resident a.1 a.2).used := by
  have hmem := mem_of_chosen hchosen
  have hstate : a.1.state = .live ∨ a.1.state = .idle := by
    cases h.plan.choice hchoose with
    | inl hview => exact .inl (h.plan.view_live hview)
    | inr hnew => exact hnew.2.2
  -- the first of its window and its cost is the first of its cost that covers
  have hfirst := (classes_of_find? (rankedCandidates_eq ▸ hchosen)).2
  have hclass : ∀ b ∈ candidatesOf s p r.compatKey,
      offerOf resident b.1 b.2 = offerOf resident a.1 a.2 →
        decide (planCost resident b.1 b.2 = planCost resident a.1 a.2 ∧
          capacitySatisfies b.1.capacity r.capacity = true) = true := by
    intro b hb heq
    obtain ⟨hwindow, hcost⟩ := Offer.mk.inj heq
    have hcovers := List.find?_some hchosen
    rw [capacitySatisfies_eq_covers (hsized a hmem) hr, ← hwindow,
      ← capacitySatisfies_eq_covers (hsized b hb) hr] at hcovers
    rw [planCost_eq, planCost_eq, hcost]
    exact decide_eq_true ⟨rfl, hcovers⟩
  have hswap := map_eq_replace (g := fun x : Deployment × Bool =>
    (a.1.revive.serving r.endpoint r.served, x.2)) h.nodup_candidateIds hfirst hclass
  have hused : offerOf resident (a.1.revive.serving r.endpoint r.served) a.2 =
      (offerOf resident a.1 a.2).used := offerOf_reuse hstate a.2
  rw [planOffers_reuse_eq h hchoose, ← hused]
  exact hswap

/-- The rows of other keys stay as they are. -/
theorem planOffers_reuse_ne (h : PlanOn s newId p) (hkey : r.compatKey ≠ key) :
    planOffers s resident (p.reuse r a.1) key = planOffers s resident p key := by
  have hsame : ((candidatesOf s p key).map fun x => if x.1.id = a.1.id
      then (a.1.revive.serving r.endpoint r.served, x.2) else x) = candidatesOf s p key := by
    conv_rhs => rw [← List.map_id (candidatesOf s p key)]
    refine List.map_congr_left fun x hx => if_neg fun heq => ?_
    exact hkey (candidate_key h hx (mem_of_chosen hchosen) heq).symm
  rw [planOffers_reuse_eq h hchoose, hsame]
  rfl

end Chosen

/-- One request takes what the rows of its key offer it, and nothing of others. -/
theorem planOffers_planRequest (h : PlanOn s newId p) (hfresh : FreshIds s newId)
    (hsized : ∀ x ∈ planCandidates s p r, Sized x.1) (hr : FromVllm r)
    (hshared : r.sharing = .shared) :
    planOffers s resident (planRequest s resident now newId p r) key =
      if r.compatKey = key then takeOffer (planOffers s resident p key) r.spec.runtime.maxModelLen
      else planOffers s resident p key := by
  have hoffer : firstOffer (planOffers s resident p r.compatKey) r.spec.runtime.maxModelLen = _ :=
    firstOffer_planOffers hsized hr
  have hfind : chooseDeployment s resident p r = ((rankedCandidates s resident p r).find?
      fun x => capacitySatisfies x.1.capacity r.capacity).map Prod.fst := by
    unfold chooseDeployment
    rw [if_neg (by simp [hshared])]
  unfold planRequest
  cases hchosen : (rankedCandidates s resident p r).find?
      fun x => capacitySatisfies x.1.capacity r.capacity with
  | none =>
      rw [hchosen] at hfind hoffer
      rw [hfind]
      refine (planOffers_create h hfresh hshared).trans ?_
      by_cases hkey : r.compatKey = key
      · subst hkey
        rw [if_pos rfl, if_pos rfl, takeOffer, hoffer]
        rfl
      · rw [if_neg hkey, if_neg hkey, List.append_nil]
  | some a =>
      rw [hchosen] at hfind hoffer
      rw [hfind]
      by_cases hkey : r.compatKey = key
      · subst hkey
        rw [if_pos rfl, takeOffer, hoffer]
        exact planOffers_reuse hchosen hfind h hsized hr
      · rw [if_neg hkey]
        exact planOffers_reuse_ne hchosen hfind h hkey

/-! ## a whole plan -/

/-- The candidates of a plan over a catalog's rows are a catalog's rows. -/
theorem sized_planCandidates (h : PlanOn s newId p) (hrows : AllRows Sized s)
    (hp : PlanRows Sized p) : ∀ x ∈ planCandidates s p r, Sized x.1 := by
  intro x hx
  cases (mem_candidatesOf h hx).2 with
  | inl hview => exact hp.view x.1 hview
  | inr hnew => exact hrows x.1.id x.1 (Table.mem_iff_find?.mp hnew.2)

/-- A request that omits its window takes what it is offered first. -/
theorem notUndersized_iff (hsized : ∀ x ∈ planCandidates s p r, Sized x.1) (hr : FromVllm r) :
    NotUndersized s resident p r ↔ (r.spec.runtime.maxModelLen = none →
      ∀ x ∈ firstOffer (planOffers s resident p r.compatKey) r.spec.runtime.maxModelLen,
        vllmDefaultMaxModelLen ≤ x.effective) := by
  unfold NotUndersized
  refine forall_congr' fun hnone => ?_
  have hall : (fun x : Deployment × Bool => capacitySatisfies x.1.capacity r.capacity) =
      fun _ => true := by
    funext x
    rw [hr.fields.1, vllmCapacity, hnone]
    rfl
  rw [firstOffer_planOffers hsized hr, hall]
  cases rankedCandidates s resident p r <;>
    simp [Offer.effective, offerOf, effectiveMaxModelLen]

theorem neededWindows_cons (rs : List EndpointRequest) : neededWindows (r :: rs) key =
    if r.compatKey = key then r.spec.runtime.maxModelLen :: neededWindows rs key
    else neededWindows rs key := by
  unfold neededWindows
  by_cases hkey : r.compatKey = key
  · simp [hkey]
  · simp [hkey]

/-- No request of a plan is undersized exactly when the offers of each key suffice. -/
theorem allSteps_notUndersized_iff (hfresh : FreshIds s newId) (hrows : AllRows Sized s)
    {requests : List EndpointRequest} (hreq : ∀ r ∈ requests, FromVllm r ∧ r.sharing = .shared)
    (h : PlanOn s newId p) (hp : PlanRows Sized p) :
    AllSteps (planRequest s resident now newId) (NotUndersized s resident) p requests ↔
      ∀ key, OffersSuffice (planOffers s resident p key) (neededWindows requests key) := by
  induction requests generalizing p with
  | nil => exact iff_of_true trivial fun _ => trivial
  | cons r rs ih =>
      obtain ⟨hr, hshared⟩ := hreq r List.mem_cons_self
      have hrest : ∀ r' ∈ rs, FromVllm r' ∧ r'.sharing = .shared :=
        fun r' hr' => hreq r' (List.mem_cons_of_mem r hr')
      have hsized := sized_planCandidates (r := r) h hrows hp
      have hnext : PlanRows Sized (planRequest s resident now newId p r) :=
        hp.planRequest Sized.stable hrows resident now newId fun id => hr.sized id now
      have hstep : ∀ key, planOffers s resident (planRequest s resident now newId p r) key =
          if r.compatKey = key
          then takeOffer (planOffers s resident p key) r.spec.runtime.maxModelLen
          else planOffers s resident p key :=
        fun key => planOffers_planRequest h hfresh hsized hr hshared
      rw [AllSteps, ih hrest (h.planRequest hfresh) hnext, notUndersized_iff hsized hr]
      constructor
      · intro hboth key
        have hlater := hboth.2 key
        rw [hstep key] at hlater
        rw [neededWindows_cons]
        by_cases hkey : r.compatKey = key
        · subst hkey
          rw [if_pos rfl] at hlater ⊢
          exact ⟨hboth.1, hlater⟩
        · rw [if_neg hkey] at hlater ⊢
          exact hlater
      · intro hall
        have hown := hall r.compatKey
        rw [neededWindows_cons, if_pos rfl] at hown
        refine ⟨hown.1, fun key => ?_⟩
        rw [hstep key]
        by_cases hkey : r.compatKey = key
        · subst hkey
          rw [if_pos rfl]
          exact hown.2
        · have hother := hall key
          rw [neededWindows_cons, if_neg hkey] at hother
          rw [if_neg hkey]
          exact hother

end Plan

/-- Over a ledger filled from a catalog, a plan for shared catalog requests
gives every request a deployment that runs with the window its alias advertises
and covers its capacity, exactly when the rows of each key suffice for the
windows asked of them. -/
theorem provides_iff_offersSuffice (start : Int) (es : List (Int × LedgerOp π δ))
    (hes : AllSteps ledgerStep (Asks FromVllm) (LedgerState.init start) es)
    (requests : List EndpointRequest) (hreq : ∀ r ∈ requests, FromVllm r ∧ r.sharing = .shared)
    (resident : String → Bool) (now : Int) (newId : Nat → String)
    (hfresh : FreshIds (run ledgerStep (LedgerState.init start) es).store newId) :
    let s := (run ledgerStep (LedgerState.init start) es).store
    let o := planAcquire s requests resident now newId
    (∀ rg ∈ o.claims, Provides o.deployments rg) ↔
      ∀ key, OffersSuffice (storedOffers s resident key) (neededWindows requests key) := by
  intro s o
  have hrows : AllRows Sized s :=
    (RowsInv.run Sized.stable (fun r hr id now => hr.sized id now) start hes).rows
  have hstart : CoalesceInv s newId {} :=
    ⟨PlanInv.empty s, ⟨by simp, by simp⟩, ⟨by simp [Table.keys], by simp⟩⟩
  have hplan : PlanInv s (planLoop s resident now newId requests) :=
    planLoop_inv s resident now newId requests
  have hover : ∀ rg ∈ o.claims, (Provides o.deployments rg ↔
      Provides (planLoop s resident now newId requests).view rg) :=
    fun rg hrg => provides_congr (congrArg _ (find?_overlay hplan hrg))
  have hiff := provides_planLoop_iff resident now hfresh hrows hreq hstart
  have hoffers : AllSteps (planRequest s resident now newId) (NotUndersized s resident) {}
      requests ↔ ∀ key, OffersSuffice (planOffers s resident {} key)
        (neededWindows requests key) :=
    allSteps_notUndersized_iff hfresh hrows hreq (.empty s newId) hstart.rows
  have hkeys : ∀ key, planOffers s resident {} key = storedOffers s resident key :=
    planOffers_start s resident
  rw [forall₂_congr hover]
  refine hiff.trans ((and_iff_right (by simp)).trans (hoffers.trans ?_))
  exact forall_congr' fun key => by rw [hkeys key]

/-- The limited alias was released with 4096 tokens, and acquired with 16384. -/
def smallAndLarge : List (Int × LedgerOp Unit Unit) :=
  [(0, .acquire "l1" "a" none none [smallRequest 4096] (fun _ => "grp") ∅ none none),
   (1, .release "l1"),
   (2, .acquire "l2" "a" none none [smallRequest 16384] (fun _ => "big") ∅ none none)]

theorem smallAndLarge_asks :
    AllSteps ledgerStep (Asks FromVllm) (LedgerState.init 0) smallAndLarge := by
  have hone : ∀ (n : Int) (id : String) requests newId,
      some ([smallRequest n], fun _ : Nat => id) = some (requests, newId) →
        ∀ r ∈ requests, FromVllm r := by
    intro n id requests newId hreq r hr
    obtain ⟨rfl, -⟩ := Prod.mk.inj (Option.some.inj hreq)
    rw [List.mem_singleton.mp hr]
    exact smallRequest_fromVllm n
  refine ⟨hone 4096 "grp", fun requests newId hreq => ?_, hone 16384 "big", trivial⟩
  contradiction

theorem smallAndLarge_fresh :
    FreshIds (run ledgerStep (LedgerState.init 0) smallAndLarge).store lengthId := by
  have hkeys : (run ledgerStep (LedgerState.init 0) smallAndLarge).store.deployments.keys =
      ["grp", "big"] := by decide +kernel
  refine ⟨lengthId_injective, fun i hi => ?_⟩
  rw [hkeys] at hi
  cases List.mem_cons.mp hi with
  | inl hgrp => exact lengthId_ne (by simp) i hgrp
  | inr hbig => exact lengthId_ne (by simp) i (List.mem_singleton.mp hbig)

/-- The LIVE deployment of 16384 tokens is taken before the IDLE one of 4096. -/
theorem wide_on_large :
    let s := (run ledgerStep (LedgerState.init 0) smallAndLarge).store
    let o := planAcquire s [wideRequest] (fun _ => false) 3 lengthId
    ∀ rg ∈ o.claims, Provides o.deployments rg := by
  refine (provides_iff_offersSuffice 0 smallAndLarge smallAndLarge_asks [wideRequest]
    (List.forall_mem_singleton.mpr ⟨wideRequest_fromVllm, rfl⟩) (fun _ => false) 3 lengthId
    smallAndLarge_fresh).mpr fun key => ?_
  rw [neededWindows_cons]
  by_cases hkey : wideRequest.compatKey = key
  · subst hkey
    decide +kernel
  · rw [if_neg hkey]
    trivial

end InferStack
