import InferStack.Ledger.Cheapest
import Mathlib.Data.List.NodupEquivFin

/-!
# InferStack.Ledger.Binding

What an overlay binds itself to when it is planned, and what it leaves when it
commits.

`Binds` collects what a plan claims, creates and will serve, on the rows it can
choose: the LIVE and IDLE ones.  It stays true until the commit
(`Waits.step`), because whatever makes a deployment LIVE or IDLE, or takes it
from there, bumps the admission version.  `Acquired.row` and `Acquired.claim`
read off it what the rows and the claims are after the commit.
-/

namespace InferStack

open Kit

variable {π δ : Type}

/-! ## what an overlay binds itself to -/

/-- A row a plan can choose. -/
structure Standing (s : Store π δ) (d : Deployment) : Prop where
  row : s.getDeployment d.id = some d
  state : d.state = .live ∨ d.state = .idle

/-- Of what an overlay creates, a shared deployment is for a request, the first
that claims it, that no stored deployment would do for. -/
def Needed (s : Store π δ) (o : AcquireOverlay) : Prop :=
  ∀ d ∈ o.created, d.sharing = .shared →
    ∃ before r after, o.claims = before ++ (r, d.id) :: after ∧ (∀ rg ∈ before, rg.2 ≠ d.id) ∧
      d.compatKey = r.compatKey ∧
      ∀ row, Standing s row → row.compatKey = r.compatKey → row.sharing = .shared →
        ¬ capacitySatisfies row.capacity r.capacity

/-- What an overlay claims, creates and serves, on a ledger it may commit to. -/
structure Binds (s : Store π δ) (o : AcquireOverlay) : Prop where
  on : OverlayOn s o
  fits : ∀ rg ∈ o.claims, ∃ v ∈ o.deployments, v.id = rg.2 ∧ FitsClaim rg.1 v
  dedicated : ∀ (i : Nat) (r : EndpointRequest) (g : String), o.claims[i]? = some (r, g) →
    r.sharing = .dedicated →
    g ∈ o.created.keys ∧ ∀ j r', o.claims[j]? = some (r', g) → j = i
  whole : ∀ g ∈ o.created.keys, o.servedUpdates.get? g = none
  creates : ∀ d ∈ o.created, d.served = servedBy o.claims d.id ∅
  updates : ∀ d, Standing s d →
    (o.servedUpdates.get? d.id).getD d.served = servedBy o.claims d.id d.served
  needed : Needed s o

/-- An overlay binds itself to the rows a plan can choose, and to no other. -/
theorem Binds.of_standing {s s' : Store π δ} {o : AcquireOverlay} (h : Binds s o)
    (hsame : ∀ d, Standing s d ↔ Standing s' d) : Binds s' o where
  on := {
    created := h.on.created
    stored := by
      intro v hv hnew
      obtain ⟨d, hd, hdemand⟩ := h.on.stored v hv hnew
      have hid : v.id = d.id := hdemand.id
      have hstate : d.state = .live ∨ d.state = .idle :=
        hdemand.cases.imp (fun hc => hc.1) (fun hc => hc.1)
      have hstands := (hsame d).mp ⟨hid ▸ hd, hstate⟩
      exact ⟨d, hid ▸ hstands.row, hdemand⟩
    revived := by
      intro g hg
      obtain ⟨hkey, d, hd, hidle⟩ := h.on.revived g hg
      have hid : d.id = g := (Table.find?_eq_some.mp hd).2
      have hstands := (hsame d).mp ⟨hid.symm ▸ hd, .inr hidle⟩
      exact ⟨hkey, d, hid ▸ hstands.row, hidle⟩
    updates := h.on.updates
    claims := h.on.claims }
  fits := h.fits
  dedicated := h.dedicated
  whole := h.whole
  creates := h.creates
  updates d hd := h.updates d ((hsame d).mpr hd)
  needed := by
    intro d hd hshared
    obtain ⟨before, r, after, hclaims, hfirst, hkey, hnone⟩ := h.needed d hd hshared
    exact ⟨before, r, after, hclaims, hfirst, hkey, fun row hrow => hnone row ((hsame row).mpr hrow)⟩

/-- A request that creates a deployment would do with no stored one. -/
theorem PlanOn.not_satisfied {s : Store π δ} {newId : Nat → String} {p : PlanState}
    {r : EndpointRequest} (h : PlanOn s newId p) (hcreates : Creates s p r)
    (hshared : r.sharing ≠ .dedicated) (row : Deployment) (hrow : Standing s row)
    (hkey : row.compatKey = r.compatKey) (hsharing : row.sharing = .shared) :
    ¬ capacitySatisfies row.capacity r.capacity := by
  intro hcap
  have hnone := hcreates.resolve_left hshared
  have hmem : row ∈ s.deployments := Table.mem_iff_find?.mpr hrow.row
  obtain ⟨state, gpus, served, hview⟩ := h.view_row hmem
  refine hnone ⟨(p.view.find? row.id).getD row, false, ?_, ?_⟩
  · exact .inl ⟨rfl, row, hmem, hkey, hsharing, hrow.state, rfl⟩
  · rw [hview]
    exact hcap

/-- What a plan binds itself to. -/
theorem planAcquire_binds {s : Store π δ} {newId : Nat → String} (hfresh : FreshIds s newId)
    (requests : List EndpointRequest) (resident : String → Bool) (now : Int) :
    Binds s (planAcquire s requests resident now newId) := by
  have hon : PlanOn s newId (planLoop s resident now newId requests) :=
    planLoop_on hfresh requests
  have hover := planAcquire_overlayOn s requests resident now newId
  have hview : ∀ d, d ∈ (planAcquire s requests resident now newId).deployments ↔
      d ∈ (planLoop s resident now newId requests).view := fun d => by
    rw [Table.mem_iff_find?, Table.mem_iff_find?, find?_planAcquire]
  constructor
  case on => exact hover
  case fits =>
    intro rg hrg
    obtain ⟨v, hv, hfit⟩ := hon.fits rg hrg
    obtain ⟨hmem, hid⟩ := Table.find?_eq_some.mp hv
    exact ⟨v, (hview v).mpr hmem, hid, hfit⟩
  case dedicated =>
    intro i r g hi hded
    exact (hon.dedicated i r g hi hded).2
  case whole => exact hon.whole
  case creates =>
    intro d hd
    have hserved := hon.served d (hon.plan.created d hd).1
    have hnew : s.getDeployment d.id = none :=
      Table.find?_of_not_mem_keys (hon.made d.id (Table.mem_keys.mpr ⟨d, hd, rfl⟩)).1
    unfold baseServed at hserved
    rw [hnew] at hserved
    exact hserved
  case updates =>
    intro d hd
    exact hon.updates (Table.mem_iff_find?.mpr hd.row)
  case needed =>
    intro d hd hshared
    obtain ⟨before, r, after, rfl, hid, hcreates⟩ :=
      planLoop_created s resident now newId requests d.id (Table.mem_keys.mpr ⟨d, hd, rfl⟩)
    have hbefore : PlanOn s newId (planLoop s resident now newId before) :=
      planLoop_on hfresh before
    obtain ⟨more, hclaims⟩ := planLoop_claims_split s resident now newId before r after
    have hnone : chooseDeployment s resident (planLoop s resident now newId before) r = none :=
      creates_iff.mpr hcreates
    rw [hnone] at hclaims
    have hclaims : (planLoop s resident now newId (before ++ r :: after)).claims =
        (planLoop s resident now newId before).claims ++ (r, d.id) :: more := hid ▸ hclaims
    -- the created row is the one its first request claims
    have hfits : FitsClaim r d := by
      obtain ⟨v, hv, hfit⟩ := hon.fits (r, d.id) (by rw [hclaims]; simp)
      obtain ⟨hmem, hvid⟩ := Table.find?_eq_some.mp hv
      have hsame : d = v := Table.eq_of_key_eq (hon.plan.created d hd).1 hmem hvid.symm
      exact hsame ▸ hfit
    have hnotded : r.sharing ≠ .dedicated := by
      intro hded
      cases hfits.sharing with
      | inl hsame =>
          rw [hshared, hded] at hsame
          contradiction
      | inr hother => exact hother.1 hded
    refine ⟨_, r, more, hclaims, fun rg hrg heq => ?_, hfits.compatKey,
      hbefore.not_satisfied hcreates hnotded⟩
    have hlen := planLoop_claims_length s resident now newId before
    have hfreshId := hbefore.newId_fresh hfresh
    rw [hlen] at hfreshId
    exact hfreshId (hid ▸ heq ▸ hbefore.plan.claims rg hrg)

/-- The claims of an overlay on a dedicated deployment. -/
theorem Binds.dedicated_length {s : Store π δ} {o : AcquireOverlay} (h : Binds s o) {g : String}
    (hded : ∀ rg ∈ o.claims, rg.2 = g → rg.1.sharing = .dedicated) :
    (o.claims.filter (·.2 = g)).length ≤ 1 := by
  by_contra hmany
  -- two claims of it stand at two places of the list
  obtain ⟨i, j, hne, hi, hj⟩ : ∃ i j : Nat, i ≠ j ∧
      (∃ r, o.claims[i]? = some (r, g)) ∧ ∃ r, o.claims[j]? = some (r, g) := by
    match hlist : o.claims.filter (·.2 = g) with
    | [] => rw [hlist] at hmany; simp at hmany
    | [a] => rw [hlist] at hmany; simp at hmany
    | a :: b :: rest =>
        have hsub : [a, b].Sublist o.claims := by
          have hfront : [a, b].Sublist (o.claims.filter (·.2 = g)) := by
            rw [hlist]
            exact List.sublist_append_left [a, b] rest
          exact hfront.trans List.filter_sublist
        have hg : ∀ x ∈ [a, b], x.2 = g := by
          intro x hx
          have hin : x ∈ o.claims.filter (·.2 = g) := by
            rw [hlist]
            exact List.mem_append_left rest hx
          simpa using (List.mem_filter.mp hin).2
        obtain ⟨f, hf⟩ := List.sublist_iff_exists_orderEmbedding_getElem?_eq.mp hsub
        refine ⟨f 0, f 1, fun heq => absurd (f.injective heq) (by decide), ⟨a.1, ?_⟩, ⟨b.1, ?_⟩⟩
        · rw [← hf 0, ← hg a (by simp)]
          rfl
        · rw [← hf 1, ← hg b (by simp)]
          rfl
  obtain ⟨r, hr⟩ := hi
  obtain ⟨r', hr'⟩ := hj
  have hsharing := hded _ (List.mem_of_getElem? hr) rfl
  exact hne ((h.dedicated i r g hr hsharing).2 j r' hr').symm

/-! ## what a commit writes -/

/-- Serving more claims keeps what was served. -/
theorem isSome_servedBy {claims : List (EndpointRequest × String)} {g e : String}
    {m : Dict String Served} (h : (m.get? e).isSome) :
    ((servedBy claims g m).get? e).isSome := by
  induction claims using List.reverseRecOn with
  | nil => exact h
  | append_singleton rest rg ih =>
      rw [servedBy_snoc]
      split
      · rw [Dict.get?_set]
        split
        · rfl
        · exact ih
      · exact ih

/-- A claim's alias is served. -/
theorem isSome_servedBy_claim {claims : List (EndpointRequest × String)}
    {rg : EndpointRequest × String} (h : rg ∈ claims) (m : Dict String Served) :
    ((servedBy claims rg.2 m).get? rg.1.endpoint).isSome := by
  induction claims using List.reverseRecOn with
  | nil => contradiction
  | append_singleton rest last ih =>
      rw [servedBy_snoc]
      cases List.mem_append.mp h with
      | inl hold =>
          split
          · rw [Dict.get?_set]
            split
            · rfl
            · exact ih hold
          · exact ih hold
      | inr hlast =>
          obtain rfl := List.mem_singleton.mp hlast
          rw [if_pos rfl, Dict.get?_set_self]
          rfl

/-- Rows that coalescing cannot tell apart. -/
structure SameKind (d d' : Deployment) : Prop where
  sharing : d'.sharing = d.sharing
  compatKey : d'.compatKey = d.compatKey
  capacity : d'.capacity = d.capacity

theorem SameKind.refl (d : Deployment) : SameKind d d := ⟨rfl, rfl, rfl⟩

theorem FitsClaim.of_sameKind {r : EndpointRequest} {d d' : Deployment} (h : FitsClaim r d)
    (hkind : SameKind d d') : FitsClaim r d' := by
  refine ⟨?_, ?_, ?_⟩
  · rw [hkind.sharing]
    exact h.sharing
  · rw [hkind.compatKey]
    exact h.compatKey
  · rw [hkind.capacity]
    exact h.capacity

section Acquire

variable {s s' : Store π δ} {leaseId owner : String} {ttl : Option Int} {o : AcquireOverlay}
  {allocations : Dict String (List Nat)} {digest : Option δ} {profile : Option π}

/-- Nothing is stored yet under an id an acquire creates. -/
theorem Acquired.getDeployment_created
    (h : Acquired s s' leaseId owner ttl o allocations digest profile) {g : String}
    (hg : g ∈ o.created.keys) : s.getDeployment g = none := by
  obtain ⟨d, hd, rfl⟩ := Table.mem_keys.mp hg
  exact Table.find?_of_not_mem_keys (h.created_fresh d hd)

/-- A row after a commit is one that was stored, serving what is claimed of it
too, or one the overlay creates. -/
theorem Acquired.row (h : Acquired s s' leaseId owner ttl o allocations digest profile)
    (hbinds : Binds s o) {g : String} {d' : Deployment} (hd' : s'.getDeployment g = some d') :
    (∃ d, s.getDeployment g = some d ∧ SameKind d d' ∧
        d'.served = servedBy o.claims g d.served) ∨
      (∃ d ∈ o.created, d.id = g ∧ SameKind d d' ∧ d'.served = servedBy o.claims g ∅) := by
  rw [h.getDeployment] at hd'
  cases hs : s.getDeployment g with
  | some d =>
      have hbase : (s.getDeployment g).or ((o.created.find? g).map Deployment.stored) = some d := by
        rw [hs]
        rfl
      obtain ⟨t, ht⟩ := acquiredRow_eq s o allocations hbase
      obtain rfl := Option.some.inj (ht.symm.trans hd')
      have hid : d.id = g := (Table.find?_eq_some.mp hs).2
      refine .inl ⟨d, rfl, ⟨rfl, rfl, rfl⟩, ?_⟩
      show (o.servedUpdates.get? g).getD d.served = _
      by_cases hkey : g ∈ o.deployments.keys
      · -- a claimed row is one the plan could choose
        obtain ⟨v, hv, hvid⟩ := Table.mem_keys.mp hkey
        have hnew : v.id ∉ o.created.keys := by
          intro hin
          have hnone := h.getDeployment_created hin
          rw [hvid, hs] at hnone
          contradiction
        obtain ⟨e, he, hdemand⟩ := hbinds.on.stored v hv hnew
        obtain rfl : d = e := Option.some.inj (hs.symm.trans (hvid ▸ he))
        have hstands : Standing s d :=
          ⟨hid.symm ▸ hs, hdemand.cases.imp (fun hc => hc.1) (fun hc => hc.1)⟩
        have hserved := hbinds.updates d hstands
        rwa [hid] at hserved
      · have hnone : o.servedUpdates.get? g = none := by
          cases hget : o.servedUpdates.get? g with
          | none => rfl
          | some m => exact absurd (hbinds.on.updates g m hget) hkey
        have hunclaimed : ∀ rg ∈ o.claims, rg.2 ≠ g :=
          fun rg hrg heq => hkey (heq ▸ hbinds.on.claims rg hrg)
        rw [hnone, servedBy_of_unclaimed hunclaimed]
        rfl
  | none =>
      cases hc : o.created.find? g with
      | none =>
          have hbase :
              (s.getDeployment g).or ((o.created.find? g).map Deployment.stored) = none := by
            rw [hs, hc]
            rfl
          rw [acquiredRow_none s o allocations hbase] at hd'
          contradiction
      | some c =>
          obtain ⟨hmem, hid⟩ := Table.find?_eq_some.mp hc
          have hbase : (s.getDeployment g).or ((o.created.find? g).map Deployment.stored) =
              some c.stored := by
            rw [hs, hc]
            rfl
          obtain ⟨t, ht⟩ := acquiredRow_eq s o allocations hbase
          obtain rfl := Option.some.inj (ht.symm.trans hd')
          refine .inr ⟨c, hmem, hid, ⟨rfl, rfl, rfl⟩, ?_⟩
          have hwhole := hbinds.whole g (hid ▸ Table.mem_keys.mpr ⟨c, hmem, rfl⟩)
          show (o.servedUpdates.get? g).getD c.served = _
          rw [hwhole, ← hid]
          exact hbinds.creates c hmem

/-- What an acquire claims fits the request, and serves its alias. -/
theorem Acquired.claim (h : Acquired s s' leaseId owner ttl o allocations digest profile)
    (hbinds : Binds s o) {rg : EndpointRequest × String} (hrg : rg ∈ o.claims) :
    ∃ d', s'.getDeployment rg.2 = some d' ∧ FitsClaim rg.1 d' ∧
      (d'.served.get? rg.1.endpoint).isSome := by
  have hkey : rg.2 ∈ s'.deployments.keys := by
    have hclaim : (⟨leaseId, rg.1.endpoint, rg.2⟩ : Claim) ∈ s'.claims := by
      rw [h.claims]
      exact List.mem_append_right _ (List.mem_map.mpr ⟨rg, hrg, rfl⟩)
    exact s'.claim_deployment _ hclaim
  rw [Table.mem_keys_iff] at hkey
  obtain ⟨d', hd'⟩ := Option.isSome_iff_exists.mp hkey
  obtain ⟨v, hv, hvid, hfit⟩ := hbinds.fits rg hrg
  refine ⟨d', hd', ?_⟩
  cases h.row hbinds hd' with
  | inl hstored =>
      obtain ⟨d, hd, hkind, hserved⟩ := hstored
      have hnew : v.id ∉ o.created.keys := by
        intro hin
        have hnone := h.getDeployment_created hin
        rw [hvid, hd] at hnone
        contradiction
      obtain ⟨e, he, hdemand⟩ := hbinds.on.stored v hv hnew
      obtain rfl : d = e := Option.some.inj (hd.symm.trans (hvid ▸ he))
      have hfits : FitsClaim rg.1 d := by
        rw [hdemand.row] at hfit
        exact hfit.of_sameKind ⟨rfl, rfl, rfl⟩
      refine ⟨hfits.of_sameKind hkind, ?_⟩
      rw [hserved]
      exact isSome_servedBy_claim hrg d.served
  | inr hcreated =>
      obtain ⟨d, hd, hid, hkind, hserved⟩ := hcreated
      have hsame : d = v :=
        Table.eq_of_key_eq (hbinds.on.created d hd).1 hv (hid.trans hvid.symm)
      refine ⟨(hsame ▸ hfit).of_sameKind hkind, ?_⟩
      rw [hserved]
      exact isSome_servedBy_claim hrg ∅

end Acquire

/-! ## plans waiting for their commit -/

/-- The admission version moved on, or the rows a plan can choose are the same. -/
def VersionGuards (s s' : Store π δ) : Prop :=
  s.admissionStateVersion < s'.admissionStateVersion ∨
    (s.admissionStateVersion = s'.admissionStateVersion ∧ ∀ d, Standing s d ↔ Standing s' d)

/-- An overlay that may still commit binds itself to the ledger. -/
structure Waits (s : Store π δ) (o : AcquireOverlay) : Prop where
  version : o.stateVersion ≤ s.admissionStateVersion
  binds : o.stateVersion = s.admissionStateVersion → Binds s o

theorem Waits.step {s s' : Store π δ} {o : AcquireOverlay} (h : Waits s o)
    (hguard : VersionGuards s s') : Waits s' o := by
  have hle := h.version
  cases hguard with
  | inl hlt => exact ⟨by omega, fun heq => absurd heq (by omega)⟩
  | inr hsame =>
      obtain ⟨heq, hstands⟩ := hsame
      exact ⟨by omega, fun hversion => (h.binds (by omega)).of_standing hstands⟩

theorem VersionGuards.of_rows {s s' : Store π δ}
    (hversion : s'.admissionStateVersion = s.admissionStateVersion)
    (hrows : ∀ g, s'.getDeployment g = s.getDeployment g) : VersionGuards s s' := by
  refine .inr ⟨hversion.symm, fun d => ?_⟩
  constructor
  · exact fun h => ⟨(hrows d.id).trans h.row, h.state⟩
  · exact fun h => ⟨(hrows d.id).symm.trans h.row, h.state⟩

/-- A step that bumps the version whenever it moves a row. -/
theorem VersionGuards.of_bump {s s' : Store π δ} {changed : Bool}
    (hversion : s'.admissionStateVersion = s.admissionStateVersion + changed.toNat)
    (hrows : changed = false → ∀ g, s'.getDeployment g = s.getDeployment g) :
    VersionGuards s s' := by
  cases changed with
  | true => exact .inl (by rw [hversion]; exact Nat.lt_succ_self _)
  | false => exact .of_rows hversion (hrows rfl)

/-- The rows that are left are the rows there were, in another state or on other
GPUs, and no claim is new. -/
structure OnlyMoves (s s' : Store π δ) : Prop where
  row : ∀ g d', s'.getDeployment g = some d' →
    ∃ d, s.getDeployment g = some d ∧ SameKind d d' ∧ d'.served = d.served
  claims : s'.claims ⊆ s.claims

theorem OnlyMoves.refl (s : Store π δ) : OnlyMoves s s :=
  ⟨fun _ d hd => ⟨d, hd, .refl d, rfl⟩, List.Subset.refl _⟩

theorem OnlyMoves.of_state {s s' : Store π δ} {ids : List String} {state : DeploymentState}
    {now : Int} (hget : ∀ g, s'.getDeployment g =
      if g ∈ ids then (s.getDeployment g).map (·.withState state now) else s.getDeployment g)
    (hclaims : s'.claims = s.claims) : OnlyMoves s s' := by
  refine ⟨fun g d' hd' => ?_, hclaims ▸ List.Subset.refl _⟩
  rw [hget] at hd'
  split at hd'
  · obtain ⟨d, hd, rfl⟩ := Option.map_eq_some_iff.mp hd'
    exact ⟨d, hd, ⟨rfl, rfl, rfl⟩, rfl⟩
  · exact ⟨d', hd', .refl d', rfl⟩

theorem claims_release (s : Store π δ) (leaseId : String) (now : Int) :
    (release s leaseId now).2.claims = s.claims := by
  cases release_cases s leaseId now with
  | inl hsame => rw [hsame.2.1]
  | inr hreleased =>
      obtain ⟨l, idled, -, -, -, -, hstore⟩ := hreleased
      rw [hstore, Store.claims_bumpWhen]
      rfl

theorem onlyMoves_renew (s : Store π δ) (leaseId : String) (ttl : Option Int)
    (allocations : Dict String (List Nat)) (now : Int) :
    OnlyMoves s (renew s leaseId ttl allocations now).2 := by
  cases renew_cases s leaseId ttl allocations now with
  | inl hsame =>
      rw [hsame.2]
      exact .refl s
  | inr hrenewed =>
      obtain ⟨l, -, -, hstore⟩ := hrenewed
      rw [hstore]
      constructor
      · intro g d' hd'
        rw [getDeployment_renewedStore] at hd'
        split at hd'
        · rw [Option.map_map] at hd'
          obtain ⟨d, hd, rfl⟩ := Option.map_eq_some_iff.mp hd'
          refine ⟨d, hd, ?_⟩
          cases allocations.get? g with
          | none => exact ⟨⟨rfl, rfl, rfl⟩, rfl⟩
          | some gpus => exact ⟨⟨rfl, rfl, rfl⟩, rfl⟩
        · exact ⟨d', hd', .refl d', rfl⟩
      · have hclaims : (renewedStore s leaseId ttl allocations now).claims = s.claims := by
          unfold renewedStore
          rw [Store.claims_bumpWhen]
          rfl
        rw [hclaims]
        exact List.Subset.refl _

theorem guards_renew (s : Store π δ) (leaseId : String) (ttl : Option Int)
    (allocations : Dict String (List Nat)) (now : Int) :
    VersionGuards s (renew s leaseId ttl allocations now).2 := by
  cases renew_cases s leaseId ttl allocations now with
  | inl hsame =>
      rw [hsame.2]
      exact .of_rows rfl fun _ => rfl
  | inr hrenewed =>
      obtain ⟨l, -, -, hstore⟩ := hrenewed
      rw [hstore]
      refine .of_bump version_renewedStore fun hnone g => ?_
      have hnil : idleAmong s (s.deploymentIds leaseId) = [] := by simpa using hnone
      rw [getDeployment_renewedStore, hnil, if_neg List.not_mem_nil]

theorem onlyMoves_prune (s : Store π δ) : OnlyMoves s (pruneTerminal s) := by
  constructor
  · intro g d' hd'
    have hget : (pruneTerminal s).getDeployment g =
        (s.getDeployment g).filter (fun d => d.state ∉ [DeploymentState.stopped]) :=
      Table.find?_filter g
    rw [hget, Option.filter_eq_some_iff] at hd'
    exact ⟨d', hd'.1, .refl d', rfl⟩
  · exact List.filter_subset_self _

/-- A prune deletes STOPPED rows, which no plan chooses. -/
theorem guards_prune (s : Store π δ) : VersionGuards s (pruneTerminal s) := by
  refine .inr ⟨rfl, fun d => ?_⟩
  have hget : (pruneTerminal s).getDeployment d.id =
      (s.getDeployment d.id).filter (fun d => d.state ∉ [DeploymentState.stopped]) :=
    Table.find?_filter d.id
  constructor
  · intro h
    refine ⟨?_, h.state⟩
    have hstate : d.state ∉ [DeploymentState.stopped] := by
      cases h.state with
      | inl hlive => simp [hlive]
      | inr hidle => simp [hidle]
    rw [hget, h.row, Option.filter_some_pos (by simpa using hstate)]
  · intro h
    have hrow := h.row
    rw [hget, Option.filter_eq_some_iff] at hrow
    exact ⟨hrow.1, h.state⟩

end InferStack
