import InferStack.Ledger.Claims

/-!
# InferStack.Ledger.Serving

What a deployment serves, over runs of the ledger.

A deployment is launched with the spec of the request that creates it, and takes
on the alias of each request that coalesces onto it.  `ServingInv.run` says of
every reachable ledger that an alias is served as some claim on record asked for
it, and that a deployment is launched as a request of its key that was asked.
-/

namespace InferStack

open Kit

variable {π δ : Type}

/-! ## launched as a catalog request -/

/-- The engine, the upstream name and the host are those of a request of the
deployment's key. -/
structure LaunchedAs (r : EndpointRequest) (d : Deployment) : Prop where
  compatKey : d.compatKey = r.compatKey
  engine : d.engine = r.engine
  servedModelName : d.spec.servedModelName = r.spec.servedModelName
  host : d.spec.host = r.spec.host

/-- Launched as some request of a kind. -/
def Launched (Q : EndpointRequest → Prop) (d : Deployment) : Prop := ∃ r, Q r ∧ LaunchedAs r d

section Launched

variable {Q : EndpointRequest → Prop}

/-- No write of the ledger touches what a deployment was launched with. -/
theorem Launched.stable : RowStable (Launched Q) where
  withState := fun _ _ _ _ ⟨r, hr, h⟩ => ⟨r, hr, h.compatKey, h.engine, h.servedModelName, h.host⟩
  withAllocation := fun _ _ ⟨r, hr, h⟩ => ⟨r, hr, h.compatKey, h.engine, h.servedModelName, h.host⟩
  withServed := fun _ _ _ ⟨r, hr, h⟩ => ⟨r, hr, h.compatKey, h.engine, h.servedModelName, h.host⟩
  stored := fun _ ⟨r, hr, h⟩ => ⟨r, hr, h.compatKey, h.engine, h.servedModelName, h.host⟩

theorem launched_newDeployment {r : EndpointRequest} (h : Q r) (id : String) (now : Int) :
    Launched Q (newDeployment id now r) :=
  ⟨r, h, rfl, rfl, rfl, rfl⟩

end Launched

section Rows

variable {R : Deployment → Prop} {Q : EndpointRequest → Prop}

/-- An operation that asks for requests of one kind keeps every row of the kind
they create. -/
theorem RowsInv.next (hR : RowStable R) (hQ : ∀ r, Q r → ∀ id now, R (newDeployment id now r))
    {st : LedgerState π δ} (h : RowsInv R st) {e : Int × LedgerOp π δ} (hask : Asks Q st e) :
    RowsInv R (ledgerStep st e) := by
  have hplan : ∀ requests newId, e.2.requests = some (requests, newId) → ∀ resident,
      ∀ d ∈ (planAcquire st.store requests resident e.1 newId).created, R d :=
    fun requests newId hreq resident => planAcquire_rows hR h.rows resident e.1 newId
      fun r hr id => hQ r (hask requests newId hreq r hr) id e.1
  refine ⟨h.rows.step hR h.overlays e fun requests newId hreq => hplan _ _ hreq _, ?_⟩
  obtain ⟨now, op⟩ := e
  cases op with
  | plan requests resident newId =>
      intro o ho
      cases List.mem_append.mp ho with
      | inl hold => exact h.overlays o hold
      | inr hnew =>
          obtain rfl := List.mem_singleton.mp hnew
          exact hplan requests newId rfl resident
  | _ => exact h.overlays

end Rows

/-! ## served as a claim asked for -/

/-- What is served after some claims was served before, or is a claim's. -/
theorem get?_servedBy {claims : List (EndpointRequest × String)} {g e : String}
    {m : Dict String Served} {v : Served} (h : (servedBy claims g m).get? e = some v) :
    (∃ rg ∈ claims, rg.2 = g ∧ rg.1.endpoint = e ∧ rg.1.served = v) ∨ m.get? e = some v := by
  induction claims using List.reverseRecOn with
  | nil => exact .inr h
  | append_singleton rest last ih =>
      have hrest : (servedBy rest g m).get? e = some v →
          (∃ rg ∈ rest ++ [last], rg.2 = g ∧ rg.1.endpoint = e ∧ rg.1.served = v) ∨
            m.get? e = some v := by
        intro hold
        refine (ih hold).imp_left ?_
        rintro ⟨rg, hrg, hfacts⟩
        exact ⟨rg, List.mem_append_left _ hrg, hfacts⟩
      rw [servedBy_snoc] at h
      by_cases hg : last.2 = g
      · rw [if_pos hg, Dict.get?_set] at h
        by_cases he : last.1.endpoint = e
        · rw [if_pos he] at h
          exact .inl ⟨last, by simp, hg, he, Option.some.inj h⟩
        · rw [if_neg he] at h
          exact hrest h
      · rw [if_neg hg] at h
        exact hrest h

/-- A claim on record asked a deployment to serve an alias so. -/
def Asked (t : TracedState π δ) (g alias_ : String) (payload : Served) : Prop :=
  ∃ rec ∈ t.history, rec.deploymentId = g ∧ rec.request.endpoint = alias_ ∧
    rec.request.served = payload

/-- What is on record of a deployment stays there while the ledger holds it. -/
theorem Asked.next {t : TracedState π δ} {g a : String} {m : Served} (h : Asked t g a m)
    {st : LedgerState π δ} (hg : g ∈ st.store.deployments.keys) (new : List ClaimRecord) :
    Asked (t.next st new) g a m := by
  obtain ⟨rec, hrec, hid, hfacts⟩ := h
  exact ⟨rec, TracedState.mem_history_next.mpr ⟨.inl hrec, hid ▸ hg⟩, hid, hfacts⟩

/-- Every alias is served as asked. -/
def ServesAsked (t : TracedState π δ) : Prop :=
  ∀ g d, t.ledger.store.getDeployment g = some d →
    ∀ a m, d.served.get? a = some m → Asked t g a m

/-- A step that commits no acquire serves nothing new. -/
theorem ServesAsked.moves {t : TracedState π δ} {st : LedgerState π δ} (h : ServesAsked t)
    (hmoves : OnlyMoves t.ledger.store st.store) : ServesAsked (t.next st []) := by
  intro g d' hd' a m hm
  have hkey : g ∈ st.store.deployments.keys := by
    rw [Table.mem_keys_iff]
    exact Option.isSome_iff_exists.mpr ⟨d', hd'⟩
  obtain ⟨d, hd, -, hserved⟩ := hmoves.row g d' hd'
  rw [hserved] at hm
  exact (h g d hd a m hm).next hkey []

/-- An acquire that commits serves what it claims. -/
theorem ServesAsked.commits {t : TracedState π δ} {st : LedgerState π δ} (h : ServesAsked t)
    {leaseId owner : String} {ttl : Option Int} {o : AcquireOverlay}
    {allocations : Dict String (List Nat)} {digest : Option δ} {profile : Option π}
    (hacq : Acquired t.ledger.store st.store leaseId owner ttl o allocations digest profile)
    (hbinds : Binds t.ledger.store o) :
    ServesAsked (t.next st (o.claims.map fun rg => ⟨leaseId, rg.1, rg.2⟩)) := by
  intro g d' hd' a m hm
  have hkey : g ∈ st.store.deployments.keys := by
    rw [Table.mem_keys_iff]
    exact Option.isSome_iff_exists.mpr ⟨d', hd'⟩
  have hclaimed : (∃ rg ∈ o.claims, rg.2 = g ∧ rg.1.endpoint = a ∧ rg.1.served = m) →
      Asked (t.next st (o.claims.map fun rg => ⟨leaseId, rg.1, rg.2⟩)) g a m := by
    rintro ⟨rg, hrg, hid, hfacts⟩
    refine ⟨⟨leaseId, rg.1, rg.2⟩, TracedState.mem_history_next.mpr ⟨.inr ?_, hid ▸ hkey⟩, hid, hfacts⟩
    exact List.mem_map.mpr ⟨rg, hrg, rfl⟩
  cases hacq.row hbinds hd' with
  | inl hstored =>
      obtain ⟨d, hd, -, hserved⟩ := hstored
      rw [hserved] at hm
      cases get?_servedBy hm with
      | inl hclaim => exact hclaimed hclaim
      | inr hold => exact (h g d hd a m hold).next hkey _
  | inr hcreated =>
      obtain ⟨d, -, -, -, hserved⟩ := hcreated
      rw [hserved] at hm
      cases get?_servedBy hm with
      | inl hclaim => exact hclaimed hclaim
      | inr hold => exact absurd hold (by simp [Dict.get?, Table.find?])

/-! ## the requests on record -/

/-- What is claimed, and what plans claim, was asked for. -/
structure RecordsAsked (Q : EndpointRequest → Prop) (t : TracedState π δ) : Prop where
  history : ∀ rec ∈ t.history, Q rec.request
  overlays : ∀ o ∈ t.ledger.overlays, ∀ rg ∈ o.claims, Q rg.1

section Asked

variable {Q : EndpointRequest → Prop} {s : Store π δ} {requests : List EndpointRequest}
  {resident : String → Bool} {now : Int} {newId : Nat → String}

/-- A plan claims for the requests it was asked. -/
theorem planAcquire_asked (h : ∀ r ∈ requests, Q r) :
    ∀ rg ∈ (planAcquire s requests resident now newId).claims, Q rg.1 := by
  intro rg hrg
  have hmem : rg.1 ∈ (planLoop s resident now newId requests).claims.map Prod.fst :=
    List.mem_map_of_mem hrg
  rw [planLoop_claims_fst] at hmem
  exact h rg.1 hmem

/-- What an operation commits was asked for, now or when it was planned. -/
theorem committed_asked {st : LedgerState π δ} {e : Int × LedgerOp π δ} (hask : Asks Q st e)
    (hoverlays : ∀ o ∈ st.overlays, ∀ rg ∈ o.claims, Q rg.1) :
    ∀ rec ∈ committed st e, Q rec.request := by
  have hattempt : ∀ leaseId o result, attempt st e = some (leaseId, o, result) →
      ∀ rg ∈ o.claims, Q rg.1 := by
    intro leaseId o result h
    obtain ⟨now, op⟩ := e
    cases op with
    | acquire l owner ttl overlay requests newId allocations digest profile =>
        cases overlay with
        | none =>
            obtain ⟨rfl, rfl, rfl⟩ : l = leaseId ∧ _ = o ∧ _ = result := by simpa [attempt] using h
            exact planAcquire_asked (hask requests newId rfl)
        | some i =>
            obtain ⟨o', ho, heq⟩ := Option.map_eq_some_iff.mp h
            obtain ⟨rfl, rfl, rfl⟩ : l = leaseId ∧ o' = o ∧ _ = result := by simpa using heq
            exact hoverlays o' (List.mem_of_getElem? ho)
    | _ => contradiction
  intro rec hrec
  unfold committed at hrec
  split at hrec
  · rename_i leaseId o s' heq
    obtain ⟨rg, hrg, rfl⟩ := List.mem_map.mp hrec
    exact hattempt leaseId o (.ok s') heq rg hrg
  · contradiction

theorem RecordsAsked.op {t : TracedState π δ} (h : RecordsAsked Q t) {now : Int}
    {op : LedgerOp π δ} (hask : Asks Q t.ledger (now, op)) :
    RecordsAsked Q (tracedStep t (.op now op)) := by
  refine ⟨fun rec hrec => ?_, ?_⟩
  · cases (TracedState.mem_history_next.mp hrec).1 with
    | inl hold => exact h.history rec hold
    | inr hnew => exact committed_asked hask h.overlays rec hnew
  · cases op with
    | plan requests resident newId =>
        intro o ho
        cases List.mem_append.mp ho with
        | inl hold => exact h.overlays o hold
        | inr hnew =>
            obtain rfl := List.mem_singleton.mp hnew
            exact planAcquire_asked (hask requests newId rfl)
    | _ => exact h.overlays

end Asked

/-! ## runs -/

/-- Every request a call plans for satisfies `Q`. -/
def CallAsks (Q : EndpointRequest → Prop) (t : TracedState π δ) : LedgerCall π δ → Prop
  | .op now op => Asks Q t.ledger (now, op)
  | .record _ => True

/-- What holds of the deployments of a reachable ledger whose acquires ask for
requests that satisfy `Q`. -/
structure ServingInv (Q : EndpointRequest → Prop) (t : TracedState π δ) : Prop where
  claims : ClaimsInv t
  rows : RowsInv (Launched Q) t.ledger
  asked : ServesAsked t
  records : RecordsAsked Q t

theorem ServingInv.init (Q : EndpointRequest → Prop) (start : Int) :
    ServingInv Q (TracedState.init start : TracedState π δ) where
  claims := .init start
  rows := ⟨fun g d hd => by
    simp [TracedState.init, LedgerState.init, Store.empty, Store.getDeployment, Table.find?] at hd,
    fun o ho => by simp [TracedState.init, LedgerState.init] at ho⟩
  asked := fun g d hd => by
    simp [TracedState.init, LedgerState.init, Store.empty, Store.getDeployment, Table.find?] at hd
  records := ⟨fun rec hrec => by simp [TracedState.init] at hrec,
    fun o ho => by simp [TracedState.init, LedgerState.init] at ho⟩

theorem ServesAsked.op {t : TracedState π δ} (h : ServesAsked t) (hclaims : ClaimsInv t)
    {now : Int} {op : LedgerOp π δ} (hfresh : FreshPlans t (.op now op)) :
    ServesAsked (tracedStep t (.op now op)) := by
  by_cases hcommits : ∃ leaseId o s', attempt t.ledger (now, op) = some (leaseId, o, .ok s')
  · obtain ⟨leaseId, o, s', hattempt⟩ := hcommits
    obtain ⟨⟨owner, ttl, allocations, digest, profile, hresult⟩, hafter⟩ :=
      applyOp_attempt hattempt
    have hacq := acquire_ok hresult.symm
    have hids : ∀ requests newId, (now, op).2.requests = some (requests, newId) →
        FreshIds t.ledger.store newId := hfresh
    have hbinds := hclaims.binds hids hattempt hacq.version
    have hstore : (ledgerStep t.ledger (now, op)).store = s' := hafter
    rw [← hstore] at hacq
    have hcommitted : committed t.ledger (now, op) =
        o.claims.map fun rg => ⟨leaseId, rg.1, rg.2⟩ := by
      unfold committed
      rw [hattempt]
    have hnext := h.commits hacq hbinds
    rwa [← hcommitted] at hnext
  · have hnot : ∀ leaseId o s', attempt t.ledger (now, op) ≠ some (leaseId, o, .ok s') :=
      fun leaseId o s' heq => hcommits ⟨leaseId, o, s', heq⟩
    have hnone : committed t.ledger (now, op) = [] := by
      unfold committed
      split
      · rename_i leaseId o s' heq
        exact absurd heq (hnot leaseId o s')
      · rfl
    have hnext := h.moves (moves_of_not_committed hnot).1
    rwa [← hnone] at hnext

theorem ServingInv.step {Q : EndpointRequest → Prop} {t : TracedState π δ} (h : ServingInv Q t) {c : LedgerCall π δ}
    (hfresh : FreshPlans t c) (hasks : CallAsks Q t c) : ServingInv Q (tracedStep t c) := by
  have hclaims := (h.claims.step hfresh).1
  cases c with
  | op now op =>
      refine ⟨hclaims, ?_, h.asked.op h.claims hfresh, h.records.op hasks⟩
      exact h.rows.next Launched.stable (fun r hr id now => launched_newDeployment hr id now) hasks
  | record op =>
      have hrows := (op.rows t.ledger.store).1
      have hget : ∀ g, (op.apply t.ledger.store).getDeployment g =
          t.ledger.store.getDeployment g := by
        intro g
        unfold Store.getDeployment
        rw [hrows]
      refine ⟨hclaims, ⟨fun g d hd => h.rows.rows g d (hget g ▸ hd), h.rows.overlays⟩, ?_, ?_⟩
      · intro g d hd a m hm
        have hkey : g ∈ (op.apply t.ledger.store).deployments.keys := by
          rw [Table.mem_keys_iff]
          exact Option.isSome_iff_exists.mpr ⟨d, hd⟩
        exact (h.asked g d (hget g ▸ hd) a m hm).next hkey []
      · refine ⟨fun rec hrec => ?_, h.records.overlays⟩
        have hold : rec ∈ t.history := by simpa using (TracedState.mem_history_next.mp hrec).1
        exact h.records.history rec hold

/-- Along a run whose acquires ask for requests of one kind, deployments serve what
was asked, launched as one of their key. -/
theorem ServingInv.run {Q : EndpointRequest → Prop} (start : Int)
    {calls : List (LedgerCall π δ)}
    (h : AllSteps tracedStep (fun t c => FreshPlans t c ∧ CallAsks Q t c)
      (TracedState.init start) calls) :
    ServingInv Q (run tracedStep (TracedState.init start) calls) :=
  AllSteps.run_inv (fun _ _ ht hc => ht.step hc.1 hc.2) (.init Q start) h

end InferStack
