import InferStack.Ledger

/-!
# InferStack.Ledger.Plan

What a plan may contain.  `PlanInv` relates the loop state of `planAcquire` to
the store it reads, and `planRequest_inv` keeps it over one request; the facts
about a finished plan are read off `planLoop_inv`:

* a chosen deployment is either created by the plan or a stored LIVE or IDLE
  row, unchanged but for its state, its allocation and its served map;
* exactly the IDLE rows among them are listed as revived.
-/

namespace InferStack

open Kit

variable {π δ : Type}

/-! ## rows a plan touches -/

@[simp] theorem Deployment.revive_id (d : Deployment) : d.revive.id = d.id := by
  unfold revive; split <;> rfl

@[simp] theorem Deployment.serving_id (d : Deployment) (e : String) (m : Served) :
    (d.serving e m).id = d.id := by
  unfold serving; split <;> rfl

@[simp] theorem Deployment.serving_state (d : Deployment) (e : String) (m : Served) :
    (d.serving e m).state = d.state := by
  unfold serving; split <;> rfl

theorem Deployment.revive_of_live {d : Deployment} (h : d.state = .live) : d.revive = d := by
  simp [revive, h]

theorem Deployment.revive_state {d : Deployment} (h : d.state = .live ∨ d.state = .idle) :
    d.revive.state = .live := by
  rcases h with h | h <;> simp [revive, h]

/-- Serving one more alias changes only the served map. -/
theorem Deployment.serving_eq (d : Deployment) (e : String) (m : Served) :
    d.serving e m = { d with served := (d.serving e m).served } := by
  unfold serving; split <;> rfl

/-- The row `v` of a plan's view stands for the stored row `d`. -/
structure Claimed (p : PlanState) (d v : Deployment) : Prop where
  state : d.state = .live ∨ d.state = .idle
  row : v = { d.revive with served := v.served }
  revived : d.state = .idle ↔ d.id ∈ p.revived
  served : v.served = (p.servedUpdates.get? d.id).getD d.served

/-- The loop invariant of `planAcquire`. -/
structure PlanInv (s : Store π δ) (p : PlanState) : Prop where
  /-- What the plan created is in its view, LIVE. -/
  created : ∀ d ∈ p.created, d ∈ p.view ∧ d.state = .live
  /-- Anything else in the view stands for a stored row. -/
  stored : ∀ v ∈ p.view, v.id ∉ p.created.keys →
    ∃ d, s.getDeployment v.id = some d ∧ Claimed p d v
  claims : ∀ rg ∈ p.claims, rg.2 ∈ p.view.keys
  revived : ∀ g ∈ p.revived, g ∈ p.view.keys ∧
    ∃ d, s.getDeployment g = some d ∧ d.state = .idle
  nodup : p.revived.Nodup
  updates : ∀ g m, p.servedUpdates.get? g = some m → g ∈ p.view.keys

theorem PlanInv.empty (s : Store π δ) : PlanInv s {} where
  created := by simp
  stored := by simp
  claims := by simp
  revived := by simp
  nodup := List.nodup_nil
  updates := by simp

/-- Every row of the view is LIVE. -/
theorem PlanInv.view_live {s : Store π δ} {p : PlanState} (h : PlanInv s p)
    {v : Deployment} (hv : v ∈ p.view) : v.state = .live := by
  by_cases hc : v.id ∈ p.created.keys
  · obtain ⟨d, hd, hid⟩ := Table.mem_keys.mp hc
    obtain ⟨hdv, hlive⟩ := h.created d hd
    rw [← Table.eq_of_key_eq hdv hv hid]; exact hlive
  · obtain ⟨d, -, hcl⟩ := h.stored v hv hc
    rw [hcl.row]
    exact Deployment.revive_state hcl.state

/-! ## choosing -/

/-- What a choice satisfies: it covers the request's capacity, and it is a
stored candidate as the plan sees it or one of the plan's own deployments. -/
theorem chooseDeployment_spec {s : Store π δ} {resident : String → Bool} {p : PlanState}
    {r : EndpointRequest} {c : Deployment} (h : chooseDeployment s resident p r = some c) :
    r.sharing ≠ .dedicated ∧ capacitySatisfies c.capacity r.capacity ∧
      ((∃ g ∈ s.deployments, g.compatKey = r.compatKey ∧ g.sharing = .shared ∧
          (g.state = .live ∨ g.state = .idle) ∧ c = (p.view.find? g.id).getD g) ∨
        (c ∈ p.created ∧ c.compatKey = r.compatKey ∧ c.sharing = .shared)) := by
  unfold chooseDeployment at h
  split at h
  · contradiction
  · rename_i hded
    obtain ⟨⟨c', pending⟩, hfind, rfl⟩ := Option.map_eq_some_iff.mp h
    have hcap : capacitySatisfies c'.capacity r.capacity := by
      simpa using List.find?_some hfind
    have hmem : (c', pending) ∈ planCandidates s p r := by
      have hranked := List.mem_of_find?_eq_some hfind
      rwa [rankedCandidates, List.mem_insertionSort] at hranked
    refine ⟨hded, hcap, ?_⟩
    rcases List.mem_append.mp hmem with hstored | hcreated
    · obtain ⟨g, hg, heq⟩ := List.mem_map.mp hstored
      obtain ⟨hgs, hkey, hsh, hst⟩ := Store.mem_deploymentsByCompat.mp hg
      simp only [Prod.mk.injEq] at heq
      exact .inl ⟨g, hgs, hkey, hsh, by simpa using hst, heq.1.symm⟩
    · obtain ⟨g, hg, heq⟩ := List.mem_map.mp hcreated
      simp only [Prod.mk.injEq] at heq
      obtain ⟨rfl, -⟩ := heq
      have hg' := List.mem_filter.mp hg
      exact .inr ⟨hg'.1, by simpa using hg'.2⟩

/-! ## one request -/

/-- A choice is a row of the view, or a stored row the plan has not seen. -/
theorem PlanInv.choice {s : Store π δ} {resident : String → Bool} {p : PlanState}
    {r : EndpointRequest} {c : Deployment} (hp : PlanInv s p)
    (h : chooseDeployment s resident p r = some c) :
    c ∈ p.view ∨ (c.id ∉ p.view.keys ∧ s.getDeployment c.id = some c ∧
      (c.state = .live ∨ c.state = .idle)) := by
  obtain ⟨-, -, ⟨g, hg, -, -, hst, rfl⟩ | ⟨hc, -⟩⟩ := chooseDeployment_spec h
  · cases hv : p.view.find? g.id with
    | some c => exact .inl (Table.find?_eq_some.mp hv).1
    | none =>
        refine .inr ⟨?_, Table.mem_iff_find?.mp hg, hst⟩
        rw [Table.mem_keys_iff, Option.getD_none, hv]; simp
  · exact .inl (hp.created c hc).1

/-- Assigning one row `d` of the view keeps the invariant, if `d` is the plan's
own LIVE deployment or stands for a stored row, and nothing changes elsewhere. -/
theorem PlanInv.put {s : Store π δ} {p q : PlanState} {d : Deployment} (hp : PlanInv s p)
    (hview : q.view = p.view.put d)
    (hd : (q.created = p.created.put d ∧ d.state = .live) ∨
      (q.created = p.created ∧ d.id ∉ p.created.keys ∧
        ∃ e, s.getDeployment d.id = some e ∧ Claimed q e d))
    (hclaims : ∀ rg ∈ q.claims, rg ∈ p.claims ∨ rg.2 = d.id)
    (hrevived : ∀ g, g ≠ d.id → (g ∈ q.revived ↔ g ∈ p.revived))
    (hidle : d.id ∈ q.revived → ∃ e, s.getDeployment d.id = some e ∧ e.state = .idle)
    (hnodup : q.revived.Nodup)
    (hupdates : ∀ g, g ≠ d.id → q.servedUpdates.get? g = p.servedUpdates.get? g) :
    PlanInv s q := by
  have hkeys : ∀ g, g ∈ q.view.keys ↔ g = d.id ∨ g ∈ p.view.keys := by
    intro g; rw [hview, Table.mem_keys_put]
  have hcreated : ∀ e ∈ q.created, e = d ∧ d.state = .live ∨ e ∈ p.created ∧ e.id ≠ d.id := by
    rcases hd with ⟨hc, hlive⟩ | ⟨hc, hnot, -⟩ <;> rw [hc] <;> intro e he
    · rcases Table.mem_put.mp he with rfl | h
      · exact .inl ⟨rfl, hlive⟩
      · exact .inr h
    · exact .inr ⟨he, fun heq => hnot (Table.mem_keys.mpr ⟨e, he, heq⟩)⟩
  constructor
  case created =>
    intro e he
    rw [hview, Table.mem_put]
    rcases hcreated e he with ⟨rfl, hlive⟩ | ⟨he, hne⟩
    · exact ⟨.inl rfl, hlive⟩
    · exact ⟨.inr ⟨(hp.created e he).1, hne⟩, (hp.created e he).2⟩
  case stored =>
    intro v hv hnot
    have hvd : v = d ∨ v.id ≠ d.id ∧ v ∈ p.view := by
      rw [hview, Table.mem_put] at hv
      rcases hv with rfl | ⟨hv, hne⟩
      · exact .inl rfl
      · exact .inr ⟨hne, hv⟩
    rcases hvd with rfl | ⟨hne, hv⟩
    · rcases hd with ⟨hc, -⟩ | ⟨-, -, he⟩
      · rw [hc, Table.mem_keys_put] at hnot; exact absurd (.inl rfl) hnot
      · exact he
    · have hnot' : v.id ∉ p.created.keys := by
        rcases hd with ⟨hc, -⟩ | ⟨hc, -⟩
        · rw [hc, Table.mem_keys_put, not_or] at hnot; exact hnot.2
        · rwa [hc] at hnot
      obtain ⟨e, he, hcl⟩ := hp.stored v hv hnot'
      have heid : e.id ≠ d.id := by rw [(Table.find?_eq_some.mp he).2]; exact hne
      exact ⟨e, he, hcl.state, hcl.row, by rw [hrevived _ heid]; exact hcl.revived,
        by rw [hupdates _ heid]; exact hcl.served⟩
  case claims =>
    intro rg hrg
    rw [hkeys]
    rcases hclaims rg hrg with h | h
    · exact .inr (hp.claims rg h)
    · exact .inl h
  case revived =>
    intro g hg
    by_cases hgd : g = d.id
    · subst hgd; exact ⟨(hkeys _).mpr (.inl rfl), hidle hg⟩
    · obtain ⟨hmem, he⟩ := hp.revived g ((hrevived g hgd).mp hg)
      exact ⟨(hkeys g).mpr (.inr hmem), he⟩
  case nodup => exact hnodup
  case updates =>
    intro g m hm
    by_cases hgd : g = d.id
    · exact (hkeys g).mpr (.inl hgd)
    · rw [hupdates g hgd] at hm
      exact (hkeys g).mpr (.inr (hp.updates g m hm))

/-- Reusing a row keeps the invariant. -/
theorem PlanInv.reuse {s : Store π δ} {resident : String → Bool} {p : PlanState}
    {r : EndpointRequest} {c : Deployment} (hp : PlanInv s p)
    (h : chooseDeployment s resident p r = some c) : PlanInv s (p.reuse r c) := by
  unfold PlanState.reuse
  obtain ⟨d, hd⟩ : ∃ d, d = c.revive.serving r.endpoint r.served := ⟨_, rfl⟩
  rw [← hd]
  have hdid : d.id = c.id := by simp [hd]
  have hclaims : ∀ rg ∈ p.claims ++ [(r, c.id)], rg ∈ p.claims ∨ rg.2 = d.id := by
    intro rg hrg
    rcases List.mem_append.mp hrg with h | h
    · exact .inl h
    · rw [List.mem_singleton] at h; exact .inr (by rw [h, hdid])
  have hset : ∀ m g, g ≠ d.id → (p.servedUpdates.set c.id m).get? g = p.servedUpdates.get? g := by
    intro m g hg
    rw [Dict.get?_set, if_neg]
    rw [← hdid]; exact Ne.symm hg
  rcases hp.choice h with hc | ⟨hnew, hstored, hstate⟩
  · -- a row of the view is LIVE: nothing is revived
    have hlive : c.state = .live := hp.view_live hc
    have hrev : c.revive = c := Deployment.revive_of_live hlive
    have hdlive : d.state = .live := by simp [hd, hrev, hlive]
    have hnotidle : ¬ c.state = .idle := by simp [hlive]
    by_cases hcc : c.id ∈ p.created.keys
    · refine hp.put rfl (.inl ⟨by simp [hcc], hdlive⟩) hclaims ?_ ?_ ?_ ?_
      · intro g _; simp [hnotidle]
      · rw [hdid]
        simp only [hnotidle, if_false]
        exact fun hg => (hp.revived _ hg).2
      · simpa [hnotidle] using hp.nodup
      · intro g _; simp [hcc]
    · obtain ⟨e, he, hcl⟩ := hp.stored c hc hcc
      have heid : e.id = c.id := (Table.find?_eq_some.mp he).2
      refine hp.put rfl (.inr ⟨by simp [hcc], by rwa [hdid], e, by rwa [hdid], ?_⟩)
        hclaims ?_ ?_ ?_ ?_
      · refine ⟨hcl.state, ?_, by simpa [hnotidle] using hcl.revived, ?_⟩
        · rw [hd, hrev, Deployment.serving_eq c, hcl.row]
        · by_cases hsv : c.served.get? r.endpoint = some r.served
          · simp only [hsv, true_or, if_true, hd, hrev, Deployment.serving]
            exact hcl.served
          · simp [hsv, hcc, heid]
      · intro g _; simp [hnotidle]
      · rw [hdid]
        simp only [hnotidle, if_false]
        exact fun hg => (hp.revived _ hg).2
      · simpa [hnotidle] using hp.nodup
      · intro g hg
        dsimp only
        split
        · rfl
        · exact hset _ g hg
  · -- a stored row the plan has not seen: an IDLE one is revived here
    have hcc : c.id ∉ p.created.keys := by
      intro hk
      obtain ⟨e, he, hid⟩ := Table.mem_keys.mp hk
      exact hnew (Table.mem_keys.mpr ⟨e, (hp.created e he).1, hid⟩)
    have hnotrev : c.id ∉ p.revived := fun hg => hnew (hp.revived _ hg).1
    have hnoupd : p.servedUpdates.get? c.id = none := by
      cases hg : p.servedUpdates.get? c.id with
      | none => rfl
      | some m => exact absurd (hp.updates _ m hg) hnew
    refine hp.put rfl (.inr ⟨by simp [hcc], by rwa [hdid], c, by rwa [hdid], ?_⟩)
      hclaims ?_ ?_ ?_ ?_
    · refine ⟨hstate, by rw [hd, Deployment.serving_eq], ?_, ?_⟩
      · by_cases hi : c.state = .idle <;> simp [hi, hnotrev]
      · by_cases hsv : c.served.get? r.endpoint = some r.served
        · have hrsv : c.revive.served = c.served := by unfold Deployment.revive; split <;> rfl
          simp [hsv, hd, Deployment.serving, hrsv, hnoupd]
        · simp [hsv, hcc]
    · intro g hg
      rw [hdid] at hg
      by_cases hi : c.state = .idle <;> simp [hi, hg]
    · rw [hdid]
      intro hg
      by_cases hi : c.state = .idle
      · exact ⟨c, hstored, hi⟩
      · simp only [hi, if_false] at hg; exact absurd hg hnotrev
    · by_cases hi : c.state = .idle <;> simp only [hi, if_true, if_false]
      · exact List.nodup_append.mpr ⟨hp.nodup, List.nodup_singleton _, by
          rintro a ha b hb rfl; exact hnotrev (List.mem_singleton.mp hb ▸ ha)⟩
      · exact hp.nodup
    · intro g hg
      dsimp only
      split
      · rfl
      · exact hset _ g hg

/-- One iteration of the planning loop keeps the invariant. -/
theorem planRequest_inv {s : Store π δ} {resident : String → Bool} {now : Int}
    {newId : Nat → String} {p : PlanState} (hp : PlanInv s p) (r : EndpointRequest) :
    PlanInv s (planRequest s resident now newId p r) := by
  unfold planRequest
  cases h : chooseDeployment s resident p r with
  | some c => exact hp.reuse h
  | none =>
      refine hp.put rfl (.inl ⟨rfl, rfl⟩) ?_ (fun g _ => Iff.rfl) (fun hg => (hp.revived _ hg).2)
        hp.nodup (fun g _ => rfl)
      intro rg hrg
      rcases List.mem_append.mp hrg with h | h
      · exact .inl h
      · rw [List.mem_singleton] at h; exact .inr (by rw [h])

/-- The invariant holds of every plan. -/
theorem planLoop_inv (s : Store π δ) (resident : String → Bool) (now : Int)
    (newId : Nat → String) (requests : List EndpointRequest) :
    PlanInv s (planLoop s resident now newId requests) := by
  unfold planLoop
  have hgen : ∀ p, PlanInv s p →
      PlanInv s (requests.foldl (planRequest s resident now newId) p) := by
    induction requests with
    | nil => exact fun p hp => hp
    | cons r rs ih => exact fun p hp => ih _ (planRequest_inv hp r)
  exact hgen {} (PlanInv.empty s)

end InferStack
