import InferStack.Placement.Greedy

/-!
# InferStack.Placement.Room

A plan places all that some other plan has placed.

Where there is room for a set of deployments (`Room`), each plan of just that set
finds room for all of it (`Room.plan_plain`, `Room.plan_demand`); and the
placements of any plan of more are such a room (`room_of_placed`).
-/

namespace InferStack

open Kit

/-- No GPU has a negative memory. -/
def Host.Sized (host : Host) : Prop := ∀ i, 0 ≤ host.memory i

theorem Host.sized_of_gpus {host : Host} (h : ∀ gpu ∈ host.gpus, 0 ≤ gpu.memoryGib) :
    host.Sized := by
  intro i
  unfold memory
  cases hfind : host.gpus.find? i with
  | none => simp
  | some gpu => simpa using h gpu (Table.find?_eq_some.mp hfind).1

/-- GPUs for each of some deployments: what is kept, what it asks for, or what
fits, and nothing twice. -/
structure Room (host : Host) (allowedGpus : Option (List Nat)) (kept : Dict String (List Nat))
    (ds : List Deployment) (given : Deployment → List Nat) : Prop where
  keeps : ∀ d ∈ ds, ∀ want, kept.get? d.id = some want →
    given d = want ∧ ∀ i ∈ want, i ∈ availableIndices host none
  explicit : ∀ d ∈ ds, kept.get? d.id = none → ∀ want, explicitIndices d = some want →
    given d = want ∧ ∀ i ∈ want, i ∈ availableIndices host allowedGpus
  fitted : ∀ d ∈ ds, kept.get? d.id = none → explicitIndices d = none →
    Fitted host (availableIndices host allowedGpus) d (given d)
  disjoint : ∀ d ∈ ds, ∀ e ∈ ds, d.id ≠ e.id → ∀ i ∈ given d, i ∉ given e

/-! ## giving out the room -/

/-- A plan gives out nothing but the room. -/
def GrantsOnly (ds : List Deployment) (given : Deployment → List Nat) (p : GpuPlan) : Prop :=
  ∀ g xs, p.assignments.get? g = some xs → ∃ e ∈ ds, e.id = g ∧ given e = xs

/-- A step that gives some deployments their room, if it is free. -/
structure Grants (ds : List Deployment) (given : Deployment → List Nat)
    (chosen : Deployment → Prop) (step : GpuPlan → Deployment → GpuPlan) : Prop where
  gives : ∀ d ∈ ds, chosen d → ∀ p : GpuPlan, p.assignments.Free (given d) → ∀ g,
    (step p d).assignments.get? g = if g = d.id then some (given d) else p.assignments.get? g
  leaves : ∀ d ∈ ds, ¬ chosen d → ∀ p, (step p d).assignments = p.assignments

section Grants

variable {ds : List Deployment} {given : Deployment → List Nat} {p : GpuPlan}

theorem GrantsOnly.empty : GrantsOnly ds given {} := fun g xs hxs => by contradiction

/-- The room of a deployment without GPUs is free. -/
theorem GrantsOnly.free (h : GrantsOnly ds given p)
    (hdisjoint : ∀ d ∈ ds, ∀ e ∈ ds, d.id ≠ e.id → ∀ i ∈ given d, i ∉ given e)
    {d : Deployment} (hd : d ∈ ds) (hnone : p.assignments.get? d.id = none) :
    p.assignments.Free (given d) := by
  intro i hi hused
  obtain ⟨g, xs, hxs, hin⟩ := Holdings.mem_used.mp hused
  obtain ⟨e, he, rfl, rfl⟩ := h g xs hxs
  have hne : d.id ≠ e.id := by
    intro heq
    rw [← heq, hnone] at hxs
    contradiction
  exact hdisjoint d hd e he hne i hi hin

variable {chosen : Deployment → Prop} {step : GpuPlan → Deployment → GpuPlan}
  {layer : List Deployment}

theorem Grants.tail {d : Deployment} (h : Grants (d :: layer) given chosen step) :
    Grants layer given chosen step :=
  ⟨fun e he => h.gives e (List.mem_cons_of_mem d he),
    fun e he => h.leaves e (List.mem_cons_of_mem d he)⟩

/-- What the first of such steps leaves. -/
theorem Grants.head {d : Deployment} (h : Grants (d :: layer) given chosen step)
    (hdisjoint : ∀ d ∈ ds, ∀ e ∈ ds, d.id ≠ e.id → ∀ i ∈ given d, i ∉ given e) (hd : d ∈ ds)
    (hnone : p.assignments.get? d.id = none) (hp : GrantsOnly ds given p) :
    (chosen d → (step p d).assignments.get? d.id = some (given d)) ∧
      (∀ g, (chosen d → d.id ≠ g) →
        (step p d).assignments.get? g = p.assignments.get? g) ∧
      GrantsOnly ds given (step p d) := by
  by_cases hchosen : chosen d
  · have hfree := hp.free hdisjoint hd hnone
    have hget := h.gives d List.mem_cons_self hchosen p hfree
    refine ⟨fun _ => by rw [hget, if_pos rfl], fun g hg => ?_, fun g xs hxs => ?_⟩
    · rw [hget, if_neg (hg hchosen).symm]
    · rw [hget] at hxs
      by_cases hg : g = d.id
      · rw [if_pos hg] at hxs
        exact ⟨d, hd, hg.symm, Option.some.inj hxs⟩
      · rw [if_neg hg] at hxs
        exact hp g xs hxs
  · have hsame : (step p d).assignments = p.assignments :=
      h.leaves d List.mem_cons_self hchosen p
    refine ⟨fun hyes => absurd hyes hchosen, fun g _ => by rw [hsame], fun g xs hxs => ?_⟩
    rw [hsame] at hxs
    exact hp g xs hxs

/-- What a layer of such steps leaves. -/
theorem Grants.foldl (h : Grants layer given chosen step)
    (hdisjoint : ∀ d ∈ ds, ∀ e ∈ ds, d.id ≠ e.id → ∀ i ∈ given d, i ∉ given e)
    (hlayer : layer ⊆ ds) (hnodup : (layer.map Deployment.id).Nodup)
    (hnone : ∀ d ∈ layer, p.assignments.get? d.id = none) (hp : GrantsOnly ds given p) :
    (∀ d ∈ layer, chosen d → (layer.foldl step p).assignments.get? d.id = some (given d)) ∧
      (∀ g, (∀ d ∈ layer, chosen d → d.id ≠ g) →
        (layer.foldl step p).assignments.get? g = p.assignments.get? g) ∧
      GrantsOnly ds given (layer.foldl step p) := by
  induction layer generalizing p with
  | nil => exact ⟨by simp, fun _ _ => rfl, hp⟩
  | cons d layer ih =>
      obtain ⟨hnot, hnodup'⟩ := List.nodup_cons.mp hnodup
      have hapart : ∀ e ∈ layer, d.id ≠ e.id :=
        fun e he heq => hnot (heq ▸ List.mem_map_of_mem he)
      obtain ⟨hhead, hothers, honly⟩ :=
        h.head hdisjoint (hlayer List.mem_cons_self) (hnone d List.mem_cons_self) hp
      have hleft : ∀ e ∈ layer, (step p d).assignments.get? e.id = none := by
        intro e he
        rw [hothers e.id fun _ => hapart e he]
        exact hnone e (List.mem_cons_of_mem d he)
      have hsub : layer ⊆ ds := fun e he => hlayer (List.mem_cons_of_mem d he)
      obtain ⟨hown, hrest, hdone⟩ := ih h.tail hsub hnodup' hleft honly
      refine ⟨fun e he hchosen => ?_, fun g hg => ?_, hdone⟩
      · cases List.mem_cons.mp he with
        | inr hin => exact hown e hin hchosen
        | inl heq =>
            subst heq
            rw [List.foldl_cons, hrest e.id fun f hf _ => (hapart f hf).symm]
            exact hhead hchosen
      · rw [List.foldl_cons, hrest g fun e he => hg e (List.mem_cons_of_mem d he)]
        exact hothers g (hg d List.mem_cons_self)

end Grants

/-! ## the layers -/

section Layers

variable {host : Host} {allowedGpus : Option (List Nat)} {kept : Dict String (List Nat)}
  {ds layer : List Deployment} {given : Deployment → List Nat}

theorem Room.grants_hard (h : Room host allowedGpus kept ds given) (hlayer : layer ⊆ ds) :
    Grants layer given (fun d => (kept.get? d.id).isSome)
      (planHard (availableIndices host none) kept) := by
  constructor
  · intro d hd hchosen p hfree g
    obtain ⟨want, hwant⟩ := Option.isSome_iff_exists.mp hchosen
    obtain ⟨rfl, hpool⟩ := h.keeps d (hlayer hd) want hwant
    unfold planHard
    rw [hwant]
    dsimp only
    rw [dif_pos ⟨hpool, hfree⟩]
    exact GpuPlan.get?_place hfree g
  · intro d hd hchosen p
    unfold planHard
    rw [Option.not_isSome_iff_eq_none.mp hchosen]

theorem Room.grants_pinned (h : Room host allowedGpus kept ds given) (hlayer : layer ⊆ ds) :
    Grants layer given (fun d => (kept.get? d.id).isSome)
      (planPinned host (availableIndices host none) kept) := by
  constructor
  · intro d hd hchosen p hfree g
    obtain ⟨want, hwant⟩ := Option.isSome_iff_exists.mp hchosen
    obtain ⟨rfl, hpool⟩ := h.keeps d (hlayer hd) want hwant
    unfold planPinned
    rw [hwant]
    dsimp only
    rw [dif_pos ⟨hpool, hfree⟩, GpuPlan.assignments_warn]
    exact GpuPlan.get?_place hfree g
  · intro d hd hchosen p
    unfold planPinned
    rw [Option.not_isSome_iff_eq_none.mp hchosen]

/-- New placements at explicit indices. -/
theorem Room.grants_explicit (h : Room host allowedGpus kept ds given)
    (hlayer : ∀ d ∈ layer, d ∈ ds ∧ kept.get? d.id = none) : Grants layer given
      (fun d => (explicitIndices d).isSome)
      (planExplicit host (availableIndices host allowedGpus)) := by
  constructor
  · intro d hd hchosen p hfree g
    obtain ⟨hmem, hnone⟩ := hlayer d hd
    obtain ⟨want, hwant⟩ := Option.isSome_iff_exists.mp hchosen
    obtain ⟨rfl, hpool⟩ := h.explicit d hmem hnone want hwant
    unfold planExplicit
    rw [hwant]
    dsimp only
    by_cases hnil : given d = []
    · rw [dif_pos hnil, hnil]
      exact GpuPlan.get?_place _ g
    · have hvalid : (given d).filter (· ∉ availableIndices host allowedGpus) = [] :=
        List.filter_eq_nil_iff.mpr fun i hi => by simpa using hpool i hi
      rw [dif_neg hnil, dif_pos hfree, if_pos hvalid, GpuPlan.assignments_warn]
      exact GpuPlan.get?_place hfree g
  · intro d hd hchosen p
    unfold planExplicit
    rw [Option.not_isSome_iff_eq_none.mp hchosen]

end Layers

/-! ## whole plans -/

section Whole

variable {host : Host} {allowedGpus : Option (List Nat)} {kept : Dict String (List Nat)}
  {ds layer : List Deployment} {given : Deployment → List Nat} {p : GpuPlan}

/-- What is fitted has the memory it needs. -/
theorem Fitted.roomy (hsized : host.Sized) {pool xs : List Nat} {d : Deployment}
    (h : Fitted host pool d xs) : ∀ i ∈ xs, roomy host d i := fun i hi =>
  decide_eq_true (h.memory i hi (.inr (hsized i)))

/-- New placements find their room. -/
theorem Room.new_placed (h : Room host allowedGpus kept ds given) (hsized : host.Sized)
    (hlayer : ∀ d ∈ layer, d ∈ ds ∧ kept.get? d.id = none)
    (hnodup : (layer.map Deployment.id).Nodup) (hblank : ∀ d ∈ layer, p.entry d.id = {})
    (hp : GrantsOnly ds given p) {d : Deployment} (hd : d ∈ layer) :
    ∃ xs, (planNew host (availableIndices host allowedGpus) p layer).assignments.get? d.id =
      some xs := by
  have hpool := nodup_availableIndices host allowedGpus
  have hnone : ∀ e ∈ layer, p.assignments.get? e.id = none :=
    fun e he => congrArg PlanEntry.gpus (hblank e he)
  obtain ⟨hown, hother, honly⟩ := (h.grants_explicit hlayer).foldl h.disjoint
    (fun e he => (hlayer e he).1) hnodup hnone hp
  cases hexplicit : explicitIndices d with
  | some want =>
      -- placed at its explicit indices, which the fit leaves alone
      have hnotfit : d.id ∉ (fitOrder host (availableIndices host allowedGpus) layer).map
          Deployment.id := by
        intro hmem
        obtain ⟨e, he, hid⟩ := List.mem_map.mp hmem
        have hsame : e = d := List.inj_on_of_nodup_map hnodup (mem_fitOrder.mp he).1 hd hid
        have hfit := (mem_fitOrder.mp he).2
        rw [hsame, hexplicit] at hfit
        contradiction
      refine ⟨given d, ?_⟩
      have hentry := (planFit_layer host hpool).foldl_other
        (p := layer.foldl (planExplicit host (availableIndices host allowedGpus)) p) hnotfit
      exact (congrArg PlanEntry.gpus hentry).trans (hown d hd (by simp [hexplicit]))
  | none =>
      have hleft : ∀ e ∈ fitOrder host (availableIndices host allowedGpus) layer,
          (layer.foldl (planExplicit host (availableIndices host allowedGpus)) p).assignments.get?
            e.id = none := by
        intro e he
        obtain ⟨hin, hfit⟩ := mem_fitOrder.mp he
        rw [hother e.id fun f hf hchosen hid => ?_]
        · exact hnone e hin
        · have hsame : f = e := List.inj_on_of_nodup_map hnodup hf hin hid
          rw [hsame, hfit] at hchosen
          contradiction
      have hfitted : ∀ e ∈ fitOrder host (availableIndices host allowedGpus) layer,
          Fitted host (availableIndices host allowedGpus) e (given e) := by
        intro e he
        obtain ⟨hin, hfit⟩ := mem_fitOrder.mp he
        exact h.fitted e (hlayer e hin).1 (hlayer e hin).2 hfit
      have hmeets : Meets requiredGpuCount (InferStack.roomy host)
          (freePool (availableIndices host allowedGpus)
            (layer.foldl (planExplicit host (availableIndices host allowedGpus)) p))
          (fitOrder host (availableIndices host allowedGpus) layer) given := by
        constructor
        case nodup => exact fun e he => (hfitted e he).nodup
        case count => exact fun e he => (hfitted e he).count
        case good => exact fun e he => (hfitted e he).roomy hsized
        case supply =>
          intro e he i hi
          have hin := (hlayer e (mem_fitOrder.mp he).1).1
          have hfree := honly.free h.disjoint hin (hleft e he)
          exact List.mem_filter.mpr ⟨(hfitted e he).pool i hi, by simpa using hfree i hi⟩
        case disjoint =>
          have hids : (fitOrder host (availableIndices host allowedGpus) layer).Pairwise
              fun d e => d.id ≠ e.id := List.pairwise_map.mp (nodup_fitOrder hnodup)
          refine hids.imp_of_mem fun hd he hne => ?_
          exact h.disjoint _ (hlayer _ (mem_fitOrder.mp hd).1).1 _
            (hlayer _ (mem_fitOrder.mp he).1).1 hne
      obtain ⟨xs, hxs⟩ := planNew_complete hpool hnodup hblank hmeets d
        (mem_fitOrder.mpr ⟨hd, hexplicit⟩)
      exact ⟨xs, congrArg PlanEntry.gpus hxs⟩

/-- A plan that has given out what is kept places the rest too. -/
theorem Room.rest_placed (h : Room host allowedGpus kept ds given) (hsized : host.Sized)
    (hnodup : (ds.map Deployment.id).Nodup) {sel : Deployment → Prop} [DecidablePred sel]
    (hsel : ∀ d ∈ ds, sel d → kept.get? d.id = none ∧ p.entry d.id = {})
    (hrest : ∀ d ∈ ds, ¬ sel d → ∃ xs, p.assignments.get? d.id = some xs)
    (hp : GrantsOnly ds given p) : ∀ d ∈ ds, ∃ xs,
      (planNew host (availableIndices host allowedGpus) p
        ((sortedDeployments ds).filter sel)).assignments.get? d.id = some xs := by
  intro d hd
  have hsorted := nodup_sortedDeployments hnodup
  have hmem : d ∈ sortedDeployments ds := mem_sortedDeployments.mpr hd
  have hchosen : ∀ e ∈ (sortedDeployments ds).filter sel,
      e ∈ ds ∧ kept.get? e.id = none ∧ p.entry e.id = {} := by
    intro e he
    obtain ⟨hin, hyes⟩ := List.mem_filter.mp he
    have hin := mem_sortedDeployments.mp hin
    exact ⟨hin, hsel e hin (of_decide_eq_true hyes)⟩
  by_cases hyes : sel d
  · have hin : d ∈ (sortedDeployments ds).filter sel :=
      List.mem_filter.mpr ⟨hmem, decide_eq_true hyes⟩
    exact h.new_placed hsized (fun e he => ⟨(hchosen e he).1, (hchosen e he).2.1⟩)
      (nodup_ids_filter hsorted _) (fun e he => (hchosen e he).2.2) hp hin
  · obtain ⟨xs, hxs⟩ := hrest d hd hyes
    have hnot : d.id ∉ ((sortedDeployments ds).filter sel).map Deployment.id :=
      not_mem_ids_filter hsorted hmem (decide_eq_false hyes)
    exact ⟨xs, (planNew_other hnot).trans hxs⟩

/-- A plan around soft pins places all there is room for. -/
theorem Room.plan_plain {pinned : Dict String (List Nat)}
    (h : Room host allowedGpus pinned ds given) (hsized : host.Sized)
    (hnodup : (ds.map Deployment.id).Nodup) : ∀ d ∈ ds, ∃ xs,
      (planPlacement host allowedGpus pinned none ds).assignments.get? d.id = some xs := by
  have hsorted := nodup_sortedDeployments hnodup
  have hordered : sortedDeployments ds ⊆ ds := fun d hd => mem_sortedDeployments.mp hd
  have hnil : ∀ d ∈ sortedDeployments ds, ({} : GpuPlan).assignments.get? d.id = none :=
    fun _ _ => rfl
  obtain ⟨hown, -, honly⟩ := (h.grants_pinned hordered).foldl h.disjoint hordered hsorted hnil
    .empty
  unfold planPlacement
  dsimp only
  refine h.rest_placed hsized hnodup (fun d hd hnone => ?_) (fun d hd hsome => ?_) honly
  · have hmem : d ∈ sortedDeployments ds := mem_sortedDeployments.mpr hd
    -- a pin that there is room for has been kept
    have hpin : pinned.get? d.id = none := by
      by_contra hpin
      have hgiven := hown d hmem (Option.isSome_iff_ne_none.mpr hpin)
      rw [hnone] at hgiven
      contradiction
    have hlayer := planPinned_layer host (availableIndices host none) pinned
    obtain ⟨o, ho, hentry⟩ := hlayer.foldl_own hsorted (p := {}) hmem rfl
    unfold KeepsOn at ho
    rw [hpin] at ho
    rw [hentry, ho]
    exact ⟨hpin, rfl⟩
  · exact Option.ne_none_iff_exists'.mp hsome

/-- So does a plan around hard allocations, of demand alone. -/
theorem Room.plan_demand {pinned : Dict String (List Nat)} {i : PlacementInputs}
    (h : Room host allowedGpus i.hard ds given) (hsized : host.Sized)
    (hnodup : (ds.map Deployment.id).Nodup) (hrequired : ∀ d ∈ ds, d.id ∈ i.requiredIds) :
    ∀ d ∈ ds, ∃ xs,
      (planPlacement host allowedGpus pinned (some i) ds).assignments.get? d.id = some xs := by
  have hsorted := nodup_sortedDeployments hnodup
  have hordered : sortedDeployments ds ⊆ ds := fun d hd => mem_sortedDeployments.mp hd
  have hnil : ∀ d ∈ sortedDeployments ds, ({} : GpuPlan).assignments.get? d.id = none :=
    fun _ _ => rfl
  obtain ⟨hown, -, honly⟩ := (h.grants_hard hordered).foldl h.disjoint hordered hsorted hnil .empty
  have hnoOptional : (sortedDeployments ds).filter (fun d =>
      i.hard.get? d.id = none ∧ d.id ∉ i.requiredIds) = [] := by
    refine List.filter_eq_nil_iff.mpr fun e he hsel => ?_
    exact (of_decide_eq_true hsel).2 (hrequired e (hordered he))
  unfold planPlacement
  dsimp only
  rw [hnoOptional, List.foldl_nil]
  refine h.rest_placed hsized hnodup (fun d hd hsel => ?_) (fun d hd hsel => ?_) honly
  · have hlayer := planHard_layer (availableIndices host none) i.hard
    obtain ⟨o, ho, hentry⟩ := hlayer.foldl_own hsorted (p := {}) (mem_sortedDeployments.mpr hd) rfl
    unfold KeepsOn at ho
    rw [hsel.1] at ho
    rw [hentry, ho]
    exact ⟨hsel.1, rfl⟩
  · have hsome : (i.hard.get? d.id).isSome := by
      by_contra hnone
      exact hsel ⟨Option.not_isSome_iff_eq_none.mp hnone, hrequired d hd⟩
    exact ⟨given d, hown d (mem_sortedDeployments.mpr hd) hsome⟩

end Whole

/-! ## the room of a plan -/

/-- How a plan placed a deployment: on the GPUs kept for it, or anew. -/
def PlacedAs (host : Host) (allowedGpus : Option (List Nat)) (plan : GpuPlan)
    (kept : Option (List Nat)) (d : Deployment) : Prop :=
  match kept with
  | some want =>
      plan.assignments.get? d.id = some want ∧ ∀ i ∈ want, i ∈ availableIndices host none
  | none => ∃ xs, plan.assignments.get? d.id = some xs ∧
      DecidesNew host (availableIndices host allowedGpus) d (.assigned xs)

section Placed

variable {host : Host} {allowedGpus : Option (List Nat)} {pinned : Dict String (List Nat)}
  {ds : List Deployment}

/-- A plan assigns nothing to what it is not asked for. -/
theorem get?_planPlacement_of_not_mem {i : PlacementInputs} {g : String}
    (hg : g ∉ ds.map Deployment.id) :
    (planPlacement host allowedGpus pinned (some i) ds).assignments.get? g = none := by
  have hsorted : g ∉ (sortedDeployments ds).map Deployment.id := by
    intro hmem
    obtain ⟨d, hd, hid⟩ := List.mem_map.mp hmem
    exact hg (hid ▸ List.mem_map_of_mem (mem_sortedDeployments.mp hd))
  have hfilter : ∀ sel : Deployment → Bool,
      g ∉ ((sortedDeployments ds).filter sel).map Deployment.id := by
    intro sel hmem
    exact hsorted ((List.filter_sublist.map Deployment.id).subset hmem)
  unfold planPlacement
  dsimp only
  rw [planOptional_step.foldl_other (hfilter _), planNew_other (hfilter _)]
  have hlayer := planHard_layer (availableIndices host none) i.hard
  exact congrArg PlanEntry.gpus (hlayer.foldl_other (p := {}) hsorted)

/-- A new placement is explicit or fitted. -/
theorem placed_new {plan : GpuPlan} {d : Deployment} {o : PlanOutcome}
    (h : DecidesNew host (availableIndices host allowedGpus) d o)
    (hentry : plan.entry d.id = o.entry) (hplaced : (plan.assignments.get? d.id).isSome) :
    PlacedAs host allowedGpus plan none d := by
  obtain ⟨xs, hxs⟩ := Option.isSome_iff_exists.mp hplaced
  have hgpus : o.entry.gpus = some xs := (congrArg PlanEntry.gpus hentry).symm.trans hxs
  cases o with
  | assigned ys =>
      obtain rfl := Option.some.inj hgpus
      exact ⟨ys, hxs, h⟩
  | failed why => contradiction
  | degraded => contradiction
  | displaced => contradiction

/-- What a plan of demand has placed. -/
theorem placed_of_admission (hnodup : (ds.map Deployment.id).Nodup) {i : PlacementInputs}
    {d : Deployment} (hd : d ∈ ds) (hrequired : d.id ∈ i.requiredIds)
    (hplaced : ((planPlacement host allowedGpus pinned (some i) ds).assignments.get? d.id).isSome) :
    PlacedAs host allowedGpus (planPlacement host allowedGpus pinned (some i) ds)
      (i.hard.get? d.id) d := by
  have hsound := planPlacement_sound host allowedGpus pinned (some i) ds hnodup
  cases hhard : i.hard.get? d.id with
  | some want =>
      have htask : planTask (some i) d = .hard want := by simp [planTask, hhard]
      cases hsound.hard d hd want htask with
      | inl hkept => exact ⟨congrArg PlanEntry.gpus hkept.1, hkept.2⟩
      | inr hdegraded =>
          have hnone : (planPlacement host allowedGpus pinned (some i) ds).assignments.get? d.id =
            none := congrArg PlanEntry.gpus hdegraded
          rw [hnone] at hplaced
          contradiction
  | none =>
      have htask : planTask (some i) d = .new := by simp [planTask, hhard, hrequired]
      cases hsound.new d hd htask with
      | inl hpin =>
          obtain ⟨want, hwant, -⟩ := hpin
          contradiction
      | inr hnew =>
          obtain ⟨o, ho, hentry⟩ := hnew
          exact placed_new ho hentry hplaced

/-- What a plan without pins has placed. -/
theorem placed_of_plain (hnodup : (ds.map Deployment.id).Nodup) {d : Deployment} (hd : d ∈ ds)
    (hpin : pinned.get? d.id = none)
    (hplaced : ((planPlacement host allowedGpus pinned none ds).assignments.get? d.id).isSome) :
    PlacedAs host allowedGpus (planPlacement host allowedGpus pinned none ds) none d := by
  have hsound := planPlacement_sound host allowedGpus pinned none ds hnodup
  cases hsound.new d hd rfl with
  | inl hkept =>
      obtain ⟨want, hwant, -⟩ := hkept
      rw [show softPin pinned none d = none from hpin] at hwant
      contradiction
  | inr hnew =>
      obtain ⟨o, ho, hentry⟩ := hnew
      exact placed_new ho hentry hplaced

/-- Deployments of one spec fit the same GPUs. -/
theorem DecidesNew.of_spec {pool : List Nat} {d e : Deployment} {o : PlanOutcome}
    (h : DecidesNew host pool e o) (hspec : e.spec = d.spec) : DecidesNew host pool d o := by
  have hexplicit : explicitIndices e = explicitIndices d := by
    unfold explicitIndices
    rw [hspec]
  have hcount : requiredGpuCount e = requiredGpuCount d := by
    unfold requiredGpuCount
    rw [hspec]
  have hgib : minVramPerGpu e = minVramPerGpu d := by
    unfold minVramPerGpu declaredMinVram weightShardCount
    rw [hspec]
  have hfitted : ∀ xs, Fitted host pool e xs → Fitted host pool d xs := fun xs hxs =>
    ⟨hxs.nodup, hcount ▸ hxs.count, hxs.pool, hgib ▸ hxs.memory⟩
  unfold DecidesNew at h ⊢
  rw [hexplicit] at h
  cases hindices : explicitIndices d with
  | some want => rwa [hindices] at h
  | none =>
      rw [hindices] at h
      refine h.imp_left fun hxs => ?_
      obtain ⟨xs, ho, hfit⟩ := hxs
      exact ⟨xs, ho, hfitted xs hfit⟩

/-- What a plan has placed is room for deployments of the same specs. -/
theorem room_of_placed {plan : GpuPlan} {kept : Dict String (List Nat)}
    {later : Deployment → Deployment} (hspec : ∀ d ∈ ds, (later d).spec = d.spec)
    (hapart : ∀ d ∈ ds, ∀ e ∈ ds, d.id ≠ e.id → (later d).id ≠ (later e).id)
    (hplaced : ∀ d ∈ ds, PlacedAs host allowedGpus plan (kept.get? d.id) (later d)) :
    Room host allowedGpus kept ds fun d => (plan.assignments.get? (later d).id).getD [] := by
  have hnew : ∀ d ∈ ds, kept.get? d.id = none → ∃ xs,
      plan.assignments.get? (later d).id = some xs ∧
        DecidesNew host (availableIndices host allowedGpus) d (.assigned xs) := by
    intro d hd hnone
    have h := hplaced d hd
    rw [hnone] at h
    obtain ⟨xs, hxs, hdecides⟩ := h
    exact ⟨xs, hxs, hdecides.of_spec (hspec d hd)⟩
  constructor
  case keeps =>
    intro d hd want hwant
    have h := hplaced d hd
    rw [hwant] at h
    exact ⟨by rw [h.1]; rfl, h.2⟩
  case explicit =>
    intro d hd hnone want hwant
    obtain ⟨xs, hxs, hdecides⟩ := hnew d hd hnone
    unfold DecidesNew at hdecides
    rw [hwant] at hdecides
    cases hdecides with
    | inr hfailed =>
        obtain ⟨why, hwhy⟩ := hfailed
        contradiction
    | inl hassigned =>
        obtain ⟨heq, hpool⟩ := hassigned
        obtain rfl := PlanOutcome.assigned.inj heq
        exact ⟨by rw [hxs]; rfl, hpool⟩
  case fitted =>
    intro d hd hnone hindices
    obtain ⟨xs, hxs, hdecides⟩ := hnew d hd hnone
    unfold DecidesNew at hdecides
    rw [hindices] at hdecides
    cases hdecides with
    | inr hfailed =>
        obtain ⟨why, hwhy⟩ := hfailed
        contradiction
    | inl hassigned =>
        obtain ⟨ys, heq, hfit⟩ := hassigned
        obtain rfl := PlanOutcome.assigned.inj heq
        rw [hxs]
        exact hfit
  case disjoint =>
    intro d hd e he hne i hi
    cases hxs : plan.assignments.get? (later d).id with
    | none =>
        rw [hxs] at hi
        contradiction
    | some xs =>
        cases hys : plan.assignments.get? (later e).id with
        | none => simp
        | some ys =>
            rw [hxs] at hi
            exact Holdings.disjoint hxs hys (hapart d hd e he hne) hi

end Placed

end InferStack
