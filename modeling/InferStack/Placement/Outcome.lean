import InferStack.Placement

/-!
# InferStack.Placement.Outcome

What a plan says of each deployment.

Each of the five layers decides about deployments of its own and leaves the rest
alone (`Layer`), so that a deployment's one outcome can be read off the layer it
belongs to:

* `Layer.foldl_own`, `Layer.foldl_other` — a layer over deployments of distinct ids;
* `planNew_decides` — explicit indices, then fit;
* `planPlacement_sound` — the whole plan.
-/

namespace InferStack

open Kit

/-! ## outcomes -/

/-- All a plan says of one deployment. -/
structure PlanEntry where
  gpus : Option (List Nat) := none
  errors : List PlacementFailure := []
  degraded : Nat := 0
  displaced : Nat := 0
  deriving DecidableEq

namespace GpuPlan

def entry (p : GpuPlan) (g : String) : PlanEntry where
  gpus := p.assignments.get? g
  errors := (p.errors.filter (·.1 = g)).map Prod.snd
  degraded := p.degraded.count g
  displaced := p.displaced.count g

end GpuPlan

/-- What a plan decides about a deployment. -/
inductive PlanOutcome where
  | assigned (gpus : List Nat)
  | failed (why : PlacementFailure)
  | degraded
  | displaced
  deriving DecidableEq

/-- The entry of a deployment that has one outcome, and no other. -/
def PlanOutcome.entry : PlanOutcome → PlanEntry
  | .assigned gpus => { gpus := some gpus }
  | .failed why => { errors := [why] }
  | .degraded => { degraded := 1 }
  | .displaced => { displaced := 1 }

theorem PlanOutcome.entry_inj {o o' : PlanOutcome} (h : o.entry = o'.entry) : o = o' := by
  cases o <;> cases o' <;> simp_all [PlanOutcome.entry]

/-- The entry of a deployment that may have been left alone. -/
def outcomeEntry (o : Option PlanOutcome) : PlanEntry := (o.map PlanOutcome.entry).getD {}

/-! ## layers -/

/-- A planning step that decides about its own deployment only, as `decides`
has it. -/
structure Layer (step : GpuPlan → Deployment → GpuPlan)
    (decides : Deployment → Option PlanOutcome → Prop) : Prop where
  other : ∀ p d g, g ≠ d.id → (step p d).entry g = p.entry g
  own : ∀ p d, p.entry d.id = {} → ∃ o, decides d o ∧ (step p d).entry d.id = outcomeEntry o

namespace GpuPlan

variable {p : GpuPlan} {d : Deployment} {want : List Nat} {h : p.assignments.Free want}

theorem entry_place (g : String) : (p.place d want h).entry g =
    if g = d.id then { p.entry g with gpus := some want } else p.entry g := by
  have hget := @get?_place p d want h g
  unfold entry
  rw [hget]
  split <;> rfl

theorem entry_fail (why : PlacementFailure) (g : String) : (p.fail d why).entry g =
    if g = d.id then { p.entry g with errors := (p.entry g).errors ++ [why] } else p.entry g := by
  by_cases hg : g = d.id
  · simp [entry, fail, hg]
  · simp [entry, fail, hg, Ne.symm hg]

theorem entry_degrade (g : String) :
    ({ p with degraded := p.degraded ++ [d.id] } : GpuPlan).entry g =
      if g = d.id then { p.entry g with degraded := (p.entry g).degraded + 1 } else p.entry g := by
  by_cases hg : g = d.id
  · simp [entry, hg]
  · simp [entry, hg, Ne.symm hg]

theorem entry_displace (g : String) :
    ({ p with displaced := p.displaced ++ [d.id] } : GpuPlan).entry g =
      if g = d.id then { p.entry g with displaced := (p.entry g).displaced + 1 } else p.entry g := by
  by_cases hg : g = d.id
  · simp [entry, hg]
  · simp [entry, hg, Ne.symm hg]

@[simp] theorem entry_warn (host : Host) (want : List Nat) (pinned : Bool) (g : String) :
    (p.warn host d want pinned).entry g = p.entry g := by
  unfold warn
  dsimp only
  split <;> rfl

end GpuPlan

namespace Layer

variable {step : GpuPlan → Deployment → GpuPlan} {decides : Deployment → Option PlanOutcome → Prop}

/-- The four things a step can do, and leaving the plan alone. -/
theorem of_cases (h : ∀ p d,
    (decides d none ∧ step p d = p) ∨
    (∃ want hfree, decides d (some (.assigned want)) ∧
      ∀ g, (step p d).entry g = (p.place d want hfree).entry g) ∨
    (∃ why, decides d (some (.failed why)) ∧ step p d = p.fail d why) ∨
    (decides d (some .degraded) ∧ step p d = { p with degraded := p.degraded ++ [d.id] }) ∨
    (decides d (some .displaced) ∧ step p d = { p with displaced := p.displaced ++ [d.id] })) :
    Layer step decides := by
  constructor
  · intro p d g hg
    rcases h p d with ⟨-, heq⟩ | ⟨want, hfree, -, heq⟩ | ⟨why, -, heq⟩ | ⟨-, heq⟩ | ⟨-, heq⟩
    · rw [heq]
    · rw [heq, GpuPlan.entry_place, if_neg hg]
    · rw [heq, GpuPlan.entry_fail, if_neg hg]
    · rw [heq, GpuPlan.entry_degrade, if_neg hg]
    · rw [heq, GpuPlan.entry_displace, if_neg hg]
  · intro p d hblank
    rcases h p d with ⟨ho, heq⟩ | ⟨want, hfree, ho, heq⟩ | ⟨why, ho, heq⟩ | ⟨ho, heq⟩ | ⟨ho, heq⟩
    · exact ⟨none, ho, by rw [heq, hblank]; rfl⟩
    · exact ⟨some (.assigned want), ho, by rw [heq, GpuPlan.entry_place, if_pos rfl, hblank]; rfl⟩
    · exact ⟨some (.failed why), ho, by rw [heq, GpuPlan.entry_fail, if_pos rfl, hblank]; rfl⟩
    · exact ⟨some .degraded, ho, by rw [heq, GpuPlan.entry_degrade, if_pos rfl, hblank]; rfl⟩
    · exact ⟨some .displaced, ho, by rw [heq, GpuPlan.entry_displace, if_pos rfl, hblank]; rfl⟩

theorem foldl_other (h : Layer step decides) {ds : List Deployment} {p : GpuPlan} {g : String}
    (hg : g ∉ ds.map Deployment.id) : (ds.foldl step p).entry g = p.entry g := by
  induction ds generalizing p with
  | nil => rfl
  | cons d ds ih =>
      simp only [List.map_cons, List.mem_cons, not_or] at hg
      rw [List.foldl_cons, ih hg.2, h.other p d g hg.1]

/-- A deployment that nothing was decided about gets its outcome from the layer. -/
theorem foldl_own (h : Layer step decides) {ds : List Deployment}
    (hnodup : (ds.map Deployment.id).Nodup) {p : GpuPlan} {d : Deployment} (hd : d ∈ ds)
    (hblank : p.entry d.id = {}) :
    ∃ o, decides d o ∧ (ds.foldl step p).entry d.id = outcomeEntry o := by
  induction ds generalizing p with
  | nil => contradiction
  | cons e ds ih =>
      rw [List.map_cons, List.nodup_cons] at hnodup
      rw [List.foldl_cons]
      cases List.mem_cons.mp hd with
      | inl heq =>
          subst heq
          obtain ⟨o, ho, hentry⟩ := h.own p d hblank
          exact ⟨o, ho, (h.foldl_other hnodup.1).trans hentry⟩
      | inr hin =>
          have hne : d.id ≠ e.id := fun heq => hnodup.1 (heq ▸ List.mem_map_of_mem hin)
          refine ih hnodup.2 hin ?_
          rw [h.other p e d.id hne, hblank]

end Layer

/-! ## the layers of a plan -/

/-- What keeping GPUs may decide: they stay, if they are in the pool, or are
given up as `otherwise`. -/
def KeepsOn (pool : List Nat) (hints : Dict String (List Nat)) (otherwise : Option PlanOutcome)
    (d : Deployment) (o : Option PlanOutcome) : Prop :=
  match hints.get? d.id with
  | none => o = none
  | some want => (o = some (.assigned want) ∧ ∀ i ∈ want, i ∈ pool) ∨ o = otherwise

/-- GPUs that fit a deployment: as many distinct ones as it needs, of the pool,
each with the memory it needs. -/
structure Fitted (host : Host) (pool : List Nat) (d : Deployment) (xs : List Nat) : Prop where
  nodup : xs.Nodup
  count : xs.length = requiredGpuCount d
  pool : ∀ i ∈ xs, i ∈ pool
  memory : ∀ i ∈ xs, 0 < minVramPerGpu d ∨ 0 ≤ host.memory i → minVramPerGpu d ≤ host.memory i

/-- What the explicit layer may decide. -/
def ExplicitOrFails (pool : List Nat) (d : Deployment) (o : Option PlanOutcome) : Prop :=
  match explicitIndices d with
  | none => o = none
  | some want =>
      (o = some (.assigned want) ∧ ∀ i ∈ want, i ∈ pool) ∨ ∃ why, o = some (.failed why)

/-- What the fit layer may decide. -/
def FitsOrFails (host : Host) (pool : List Nat) (d : Deployment) (o : Option PlanOutcome) : Prop :=
  (∃ xs, o = some (.assigned xs) ∧ Fitted host pool d xs) ∨ ∃ why, o = some (.failed why)

theorem planHard_layer (pinPool : List Nat) (hard : Dict String (List Nat)) :
    Layer (planHard pinPool hard) (KeepsOn pinPool hard (some .degraded)) := by
  refine .of_cases fun p d => ?_
  unfold KeepsOn
  rcases planHard_cases pinPool hard p d with
    ⟨hnone, heq⟩ | ⟨want, hwant, ⟨hfree, hin, heq⟩ | ⟨-, heq⟩⟩
  · rw [hnone]
    exact .inl ⟨rfl, heq⟩
  · rw [hwant]
    exact .inr (.inl ⟨want, hfree, .inl ⟨rfl, hin⟩, fun g => by rw [heq]⟩)
  · rw [hwant]
    exact .inr (.inr (.inr (.inl ⟨.inr rfl, heq⟩)))

theorem planPinned_layer (host : Host) (pinPool : List Nat) (pinned : Dict String (List Nat)) :
    Layer (planPinned host pinPool pinned) (KeepsOn pinPool pinned none) := by
  refine .of_cases fun p d => ?_
  unfold KeepsOn planPinned
  cases pinned.get? d.id with
  | none => exact .inl ⟨rfl, rfl⟩
  | some want =>
      dsimp only
      by_cases hvalid : (∀ i ∈ want, i ∈ pinPool) ∧ p.assignments.Free want
      · rw [dif_pos hvalid]
        exact .inr (.inl ⟨want, hvalid.2, .inl ⟨rfl, hvalid.1⟩, fun g => GpuPlan.entry_warn ..⟩)
      · rw [dif_neg hvalid]
        exact .inl ⟨.inr rfl, rfl⟩

theorem planOptional_layer (pinPool : List Nat) (hints : Dict String (List Nat)) :
    Layer (planOptional pinPool hints) (KeepsOn pinPool hints (some .displaced)) := by
  refine .of_cases fun p d => ?_
  unfold KeepsOn planOptional
  cases hints.get? d.id with
  | none => exact .inl ⟨rfl, rfl⟩
  | some want =>
      dsimp only
      by_cases hvalid : (∀ i ∈ want, i ∈ pinPool) ∧ p.assignments.Free want
      · rw [dif_pos hvalid]
        exact .inr (.inl ⟨want, hvalid.2, .inl ⟨rfl, hvalid.1⟩, fun g => rfl⟩)
      · rw [dif_neg hvalid]
        exact .inr (.inr (.inr (.inr ⟨.inr rfl, rfl⟩)))

theorem planExplicit_layer (host : Host) (pool : List Nat) :
    Layer (planExplicit host pool) (ExplicitOrFails pool) := by
  refine .of_cases fun p d => ?_
  unfold ExplicitOrFails planExplicit
  cases explicitIndices d with
  | none => exact .inl ⟨rfl, rfl⟩
  | some want =>
      dsimp only
      by_cases hnil : want = []
      · subst hnil
        rw [dif_pos rfl]
        exact .inr (.inl ⟨[], by simp [Holdings.Free], .inl ⟨rfl, by simp⟩, fun g => rfl⟩)
      · rw [dif_neg hnil]
        by_cases hfree : p.assignments.Free want
        · rw [dif_pos hfree]
          by_cases hvalid : want.filter (· ∉ pool) = []
          · rw [if_pos hvalid]
            have hin : ∀ i ∈ want, i ∈ pool := by
              intro i hi
              have hnot := List.filter_eq_nil_iff.mp hvalid i hi
              simpa using hnot
            exact .inr (.inl ⟨want, hfree, .inl ⟨rfl, hin⟩, fun g => GpuPlan.entry_warn ..⟩)
          · rw [if_neg hvalid]
            exact .inr (.inr (.inl ⟨_, .inr ⟨_, rfl⟩, rfl⟩))
        · rw [dif_neg hfree]
          exact .inr (.inr (.inl ⟨_, .inr ⟨_, rfl⟩, rfl⟩))

/-! ## fitting -/

theorem nodup_availableIndices (host : Host) (allowed : Option (List Nat)) :
    (availableIndices host allowed).Nodup := by
  have hgpus : ∀ gpus : List Gpu, gpus.Sublist host.gpus.rows → (gpus.map Gpu.index).Nodup :=
    fun gpus h => (h.map Gpu.index).nodup host.gpus.nodup
  have hall : ((if host.skipDisplay then host.gpus.rows.filter (!·.displayActive)
      else host.gpus.rows).map Gpu.index).Nodup := by
    split
    · exact hgpus _ List.filter_sublist
    · exact hgpus _ (List.Sublist.refl _)
  unfold availableIndices
  cases allowed with
  | none => exact hall.filter _
  | some allowed => exact (hall.filter _).filter _

/-- The GPUs that a fit takes are free ones that fit. -/
theorem fitIndices_ok {host : Host} {pool used : List Nat} (hpool : pool.Nodup) {d : Deployment}
    {xs : List Nat} (h : fitIndices host pool used d = .ok xs) :
    Fitted host pool d xs ∧ ∀ i ∈ xs, i ∉ used := by
  have hin := fitIndices_spec h
  have htake : ∀ l : List Nat, l.Nodup → ¬ l.length < requiredGpuCount d →
      (l.take (requiredGpuCount d)).Nodup ∧
        (l.take (requiredGpuCount d)).length = requiredGpuCount d := by
    intro l hl hlen
    exact ⟨(List.take_sublist _ _).nodup hl, by rw [List.length_take]; omega⟩
  suffices hfit : xs.Nodup ∧ xs.length = requiredGpuCount d ∧
      ∀ i ∈ xs, 0 < minVramPerGpu d ∨ 0 ≤ host.memory i → minVramPerGpu d ≤ host.memory i from
    ⟨⟨hfit.1, hfit.2.1, fun i hi => (hin i hi).1, hfit.2.2⟩, fun i hi => (hin i hi).2⟩
  unfold fitIndices at h
  dsimp only at h
  split at h
  · rename_i hgib
    split at h
    · contradiction
    · rename_i hlen
      obtain rfl := Except.ok.inj h
      have hfirst := htake _ (hpool.filter _) hlen
      refine ⟨hfirst.1, hfirst.2, fun i _ hmem => ?_⟩
      cases hmem with
      | inl hpos => exact absurd hpos (not_lt.mpr hgib)
      | inr hnonneg => exact le_trans hgib hnonneg
  · split at h
    · contradiction
    · split at h
      · contradiction
      · rename_i hlen
        have hfree : ((pool.filter fun i => minVramPerGpu d ≤ host.memory i).filter
            (· ∉ used)).Nodup := (hpool.filter _).filter _
        have heligible : ∀ i ∈ (pool.filter fun i => minVramPerGpu d ≤ host.memory i).filter
            (· ∉ used), minVramPerGpu d ≤ host.memory i := by
          intro i hi
          have hi' := (List.mem_filter.mp (List.mem_filter.mp hi).1).2
          simpa using hi'
        split at h
        · obtain rfl := Except.ok.inj h
          have hperm := List.perm_insertionSort (fun i j => host.memory i < host.memory j ∨
            (host.memory i = host.memory j ∧ i ≤ j))
            ((pool.filter fun i => minVramPerGpu d ≤ host.memory i).filter (· ∉ used))
          have hbest := htake _ (hperm.nodup_iff.mpr hfree) (by rwa [hperm.length_eq])
          refine ⟨(List.perm_insertionSort _ _).nodup_iff.mpr hbest.1, ?_, fun i hi _ => ?_⟩
          · rw [(List.perm_insertionSort _ _).length_eq]
            exact hbest.2
          · rw [List.mem_insertionSort] at hi
            exact heligible i (hperm.mem_iff.mp (List.mem_of_mem_take hi))
        · obtain rfl := Except.ok.inj h
          have hfirst := htake _ hfree hlen
          exact ⟨hfirst.1, hfirst.2, fun i hi _ => heligible i (List.mem_of_mem_take hi)⟩

theorem planFit_layer (host : Host) {pool : List Nat} (hpool : pool.Nodup) :
    Layer (planFit host pool) (FitsOrFails host pool) := by
  refine .of_cases fun p d => ?_
  unfold planFit
  split
  · exact .inr (.inr (.inl ⟨_, .inr ⟨_, rfl⟩, rfl⟩))
  · rename_i xs hfit
    exact .inr (.inl ⟨xs, (fitIndices_ok hpool hfit).2,
      .inl ⟨xs, rfl, (fitIndices_ok hpool hfit).1⟩, fun g => rfl⟩)

/-! ## whole plans -/

/-- What may be decided about a deployment without GPUs so far. -/
def DecidesNew (host : Host) (pool : List Nat) (d : Deployment) (o : PlanOutcome) : Prop :=
  match explicitIndices d with
  | some want => (o = .assigned want ∧ ∀ i ∈ want, i ∈ pool) ∨ ∃ why, o = .failed why
  | none => (∃ xs, o = .assigned xs ∧ Fitted host pool d xs) ∨ ∃ why, o = .failed why

/-- The deployments left to the fit phase, the most constrained first. -/
def fitOrder (host : Host) (pool : List Nat) (ds : List Deployment) : List Deployment :=
  (ds.filter fun d => explicitIndices d = none).insertionSort (fitBefore host pool)

theorem mem_fitOrder {host : Host} {pool : List Nat} {ds : List Deployment} {d : Deployment} :
    d ∈ fitOrder host pool ds ↔ d ∈ ds ∧ explicitIndices d = none := by
  unfold fitOrder
  rw [List.mem_insertionSort, List.mem_filter, decide_eq_true_eq]

theorem nodup_fitOrder {host : Host} {pool : List Nat} {ds : List Deployment}
    (h : (ds.map Deployment.id).Nodup) : ((fitOrder host pool ds).map Deployment.id).Nodup :=
  ((List.perm_insertionSort _ _).map Deployment.id).nodup_iff.mpr
    ((List.filter_sublist.map Deployment.id).nodup h)

section New

variable {host : Host} {pool : List Nat} {p : GpuPlan} {ds : List Deployment}

theorem planNew_entry_other (hpool : pool.Nodup) {g : String} (hg : g ∉ ds.map Deployment.id) :
    (planNew host pool p ds).entry g = p.entry g := by
  have hfit : g ∉ (fitOrder host pool ds).map Deployment.id := by
    intro hmem
    obtain ⟨d, hd, rfl⟩ := List.mem_map.mp hmem
    exact hg (List.mem_map_of_mem (mem_fitOrder.mp hd).1)
  unfold planNew
  exact ((planFit_layer host hpool).foldl_other hfit).trans
    ((planExplicit_layer host pool).foldl_other hg)

/-- A new placement is explicit or fitted, or fails. -/
theorem planNew_decides (hpool : pool.Nodup) (hnodup : (ds.map Deployment.id).Nodup)
    {d : Deployment} (hd : d ∈ ds) (hblank : p.entry d.id = {}) :
    ∃ o, DecidesNew host pool d o ∧ (planNew host pool p ds).entry d.id = o.entry := by
  obtain ⟨o, ho, hentry⟩ := (planExplicit_layer host pool).foldl_own hnodup hd hblank
  have hlast : ∀ g, (planNew host pool p ds).entry g =
      ((fitOrder host pool ds).foldl (planFit host pool)
        (ds.foldl (planExplicit host pool) p)).entry g := fun _ => rfl
  unfold ExplicitOrFails at ho
  unfold DecidesNew
  rw [hlast]
  cases hexplicit : explicitIndices d with
  | some want =>
      rw [hexplicit] at ho
      have hnotfit : d.id ∉ (fitOrder host pool ds).map Deployment.id := by
        intro hmem
        obtain ⟨e, he, hid⟩ := List.mem_map.mp hmem
        have hsame : e = d := List.inj_on_of_nodup_map hnodup (mem_fitOrder.mp he).1 hd hid
        have hnone := (mem_fitOrder.mp he).2
        rw [hsame, hexplicit] at hnone
        contradiction
      rw [(planFit_layer host hpool).foldl_other hnotfit, hentry]
      cases ho with
      | inl h => exact ⟨.assigned want, .inl ⟨rfl, h.2⟩, by rw [h.1]; rfl⟩
      | inr h =>
          obtain ⟨why, rfl⟩ := h
          exact ⟨.failed why, .inr ⟨why, rfl⟩, rfl⟩
  | none =>
      rw [hexplicit] at ho
      have hstill : (ds.foldl (planExplicit host pool) p).entry d.id = {} := by
        rw [hentry, ho]
        rfl
      have hfit : d ∈ fitOrder host pool ds := mem_fitOrder.mpr ⟨hd, hexplicit⟩
      obtain ⟨o', ho', hentry'⟩ := (planFit_layer host hpool).foldl_own (nodup_fitOrder hnodup)
        hfit hstill
      cases ho' with
      | inl h =>
          obtain ⟨xs, rfl, hxs⟩ := h
          exact ⟨.assigned xs, .inl ⟨xs, rfl, hxs⟩, hentry'⟩
      | inr h =>
          obtain ⟨why, rfl⟩ := h
          exact ⟨.failed why, .inr ⟨why, rfl⟩, hentry'⟩

end New

/-- How the planner looks at a deployment. -/
inductive PlanTask where
  | hard (want : List Nat)
  | new
  | optional (want : List Nat)
  /-- Not placed, and not an error. -/
  | ignored
  deriving DecidableEq

def planTask (inputs : Option PlacementInputs) (d : Deployment) : PlanTask :=
  match inputs with
  | none => .new
  | some inputs =>
      match inputs.hard.get? d.id with
      | some want => .hard want
      | none =>
          if d.id ∈ inputs.requiredIds then .new
          else match inputs.optionalHints.get? d.id with
            | some want => .optional want
            | none => .ignored

/-- A soft pin counts where demand does not decide. -/
def softPin (pinned : Dict String (List Nat)) (inputs : Option PlacementInputs) (d : Deployment) :
    Option (List Nat) :=
  match inputs with
  | none => pinned.get? d.id
  | some _ => none

/-- A sound plan of some deployments. -/
structure SoundPlan (host : Host) (allowedGpus : Option (List Nat))
    (pinned : Dict String (List Nat)) (inputs : Option PlacementInputs) (ds : List Deployment)
    (p : GpuPlan) : Prop where
  /-- No GPU is assigned twice. -/
  disjoint : ∀ d ∈ ds, ∀ e ∈ ds, d.id ≠ e.id → ∀ xs ys, p.assignments.get? d.id = some xs →
    p.assignments.get? e.id = some ys → ∀ i ∈ xs, i ∉ ys
  /-- A hard allocation stays as it is, in the whole pool, or is reported. -/
  hard : ∀ d ∈ ds, ∀ want, planTask inputs d = .hard want →
    (p.entry d.id = (PlanOutcome.assigned want).entry ∧ ∀ i ∈ want, i ∈ availableIndices host none) ∨
      p.entry d.id = PlanOutcome.degraded.entry
  /-- A new placement keeps its pin, or is explicit or fitted in the allowed pool. -/
  new : ∀ d ∈ ds, planTask inputs d = .new →
    (∃ want, softPin pinned inputs d = some want ∧
      p.entry d.id = (PlanOutcome.assigned want).entry ∧ ∀ i ∈ want, i ∈ availableIndices host none) ∨
    ∃ o, DecidesNew host (availableIndices host allowedGpus) d o ∧ p.entry d.id = o.entry
  /-- An optional resident stays, or is displaced. -/
  optional : ∀ d ∈ ds, ∀ want, planTask inputs d = .optional want →
    (p.entry d.id = (PlanOutcome.assigned want).entry ∧ ∀ i ∈ want, i ∈ availableIndices host none) ∨
      p.entry d.id = PlanOutcome.displaced.entry
  /-- One outcome for each deployment that is looked at, none for the others. -/
  one : ∀ d ∈ ds, planTask inputs d ≠ .ignored → ∃! o : PlanOutcome, p.entry d.id = o.entry
  ignored : ∀ d ∈ ds, planTask inputs d = .ignored → p.entry d.id = {}

theorem not_mem_ids_filter {ds : List Deployment} (hnodup : (ds.map Deployment.id).Nodup)
    {d : Deployment} (hd : d ∈ ds) {sel : Deployment → Bool} (hsel : sel d = false) :
    d.id ∉ (ds.filter sel).map Deployment.id := by
  intro hmem
  obtain ⟨e, he, hid⟩ := List.mem_map.mp hmem
  have hsame : e = d := List.inj_on_of_nodup_map hnodup (List.mem_filter.mp he).1 hd hid
  rw [hsame] at he
  have htrue := (List.mem_filter.mp he).2
  rw [hsel] at htrue
  contradiction

theorem nodup_ids_filter {ds : List Deployment} (hnodup : (ds.map Deployment.id).Nodup)
    (sel : Deployment → Bool) : ((ds.filter sel).map Deployment.id).Nodup :=
  (List.filter_sublist.map Deployment.id).nodup hnodup

/-- What a plan says of a deployment, by how the planner looks at it. -/
def PlanDecides (host : Host) (allowedGpus : Option (List Nat)) (pinned : Dict String (List Nat))
    (inputs : Option PlacementInputs) (d : Deployment) (entry : PlanEntry) : Prop :=
  match planTask inputs d with
  | .hard want =>
      (entry = (PlanOutcome.assigned want).entry ∧ ∀ i ∈ want, i ∈ availableIndices host none) ∨
        entry = PlanOutcome.degraded.entry
  | .new =>
      (∃ want, softPin pinned inputs d = some want ∧ entry = (PlanOutcome.assigned want).entry ∧
        ∀ i ∈ want, i ∈ availableIndices host none) ∨
      ∃ o, DecidesNew host (availableIndices host allowedGpus) d o ∧ entry = o.entry
  | .optional want =>
      (entry = (PlanOutcome.assigned want).entry ∧ ∀ i ∈ want, i ∈ availableIndices host none) ∨
        entry = PlanOutcome.displaced.entry
  | .ignored => entry = {}

section PlanDecides

variable {host : Host} {allowedGpus : Option (List Nat)} {pinned : Dict String (List Nat)}
  {ds : List Deployment} (hnodup : (ds.map Deployment.id).Nodup)

include hnodup

/-- Admission mode: the hard layer first, then new placements, then the optional
residents. -/
theorem planPlacement_decides_admission (inputs : PlacementInputs) {d : Deployment} (hd : d ∈ ds) :
    PlanDecides host allowedGpus pinned (some inputs) d
      ((planPlacement host allowedGpus pinned (some inputs) ds).entry d.id) := by
  have hpool := nodup_availableIndices host allowedGpus
  have hsorted := nodup_sortedDeployments hnodup
  have hmem : d ∈ sortedDeployments ds := mem_sortedDeployments.mpr hd
  have hhardLayer := planHard_layer (availableIndices host none) inputs.hard
  have hoptLayer := planOptional_layer (availableIndices host none) inputs.optionalHints
  obtain ⟨o, ho, hentry⟩ := hhardLayer.foldl_own hsorted (p := {}) hmem rfl
  unfold planPlacement
  dsimp only
  generalize hp1 : (sortedDeployments ds).foldl (planHard (availableIndices host none) inputs.hard)
    {} = p1 at hentry ⊢
  have hnewOther : ∀ {sel : Deployment → Bool}, sel d = false →
      (planNew host (availableIndices host allowedGpus) p1 ((sortedDeployments ds).filter sel)).entry
        d.id = p1.entry d.id :=
    fun hsel => planNew_entry_other hpool (not_mem_ids_filter hsorted hmem hsel)
  have hoptOther : ∀ {sel : Deployment → Bool} {q : GpuPlan}, sel d = false →
      (((sortedDeployments ds).filter sel).foldl
        (planOptional (availableIndices host none) inputs.optionalHints) q).entry d.id = q.entry d.id :=
    fun hsel => hoptLayer.foldl_other (not_mem_ids_filter hsorted hmem hsel)
  unfold KeepsOn at ho
  unfold PlanDecides planTask
  dsimp only
  cases hhard : inputs.hard.get? d.id with
  | some want =>
      rw [hhard] at ho
      rw [hoptOther (by simp [hhard]), hnewOther (by simp [hhard]), hentry]
      cases ho with
      | inl h => exact .inl ⟨by rw [h.1]; rfl, h.2⟩
      | inr h => exact .inr (by rw [h]; rfl)
  | none =>
      rw [hhard] at ho
      have hblank : p1.entry d.id = {} := by
        rw [hentry, ho]
        rfl
      dsimp only
      by_cases hrequired : d.id ∈ inputs.requiredIds
      · rw [if_pos hrequired, hoptOther (by simp [hrequired])]
        have hin : d ∈ (sortedDeployments ds).filter fun d =>
            inputs.hard.get? d.id = none ∧ d.id ∈ inputs.requiredIds :=
          List.mem_filter.mpr ⟨hmem, by simp [hhard, hrequired]⟩
        exact .inr (planNew_decides hpool (nodup_ids_filter hsorted _) hin hblank)
      · rw [if_neg hrequired]
        have hin : d ∈ (sortedDeployments ds).filter fun d =>
            inputs.hard.get? d.id = none ∧ d.id ∉ inputs.requiredIds :=
          List.mem_filter.mpr ⟨hmem, by simp [hhard, hrequired]⟩
        have hstill : (planNew host (availableIndices host allowedGpus) p1
            ((sortedDeployments ds).filter fun d =>
              inputs.hard.get? d.id = none ∧ d.id ∈ inputs.requiredIds)).entry d.id = {} := by
          rw [hnewOther (by simp [hrequired]), hblank]
        obtain ⟨o', ho', hentry'⟩ := hoptLayer.foldl_own (nodup_ids_filter hsorted _) hin hstill
        unfold KeepsOn at ho'
        rw [hentry']
        cases hhint : inputs.optionalHints.get? d.id with
        | none =>
            rw [hhint] at ho'
            rw [ho']
            rfl
        | some want =>
            rw [hhint] at ho'
            cases ho' with
            | inl h => exact .inl ⟨by rw [h.1]; rfl, h.2⟩
            | inr h => exact .inr (by rw [h]; rfl)

/-- Without inputs: soft pins first, then new placements. -/
theorem planPlacement_decides_plain {d : Deployment} (hd : d ∈ ds) :
    PlanDecides host allowedGpus pinned none d
      ((planPlacement host allowedGpus pinned none ds).entry d.id) := by
  have hpool := nodup_availableIndices host allowedGpus
  have hsorted := nodup_sortedDeployments hnodup
  have hmem : d ∈ sortedDeployments ds := mem_sortedDeployments.mpr hd
  have hlayer := planPinned_layer host (availableIndices host none) pinned
  obtain ⟨o, ho, hentry⟩ := hlayer.foldl_own hsorted (p := {}) hmem rfl
  unfold planPlacement
  dsimp only
  generalize hp1 : (sortedDeployments ds).foldl
    (planPinned host (availableIndices host none) pinned) {} = p1 at hentry ⊢
  have hnew : o = none → ∃ o, DecidesNew host (availableIndices host allowedGpus) d o ∧
      (planNew host (availableIndices host allowedGpus) p1 ((sortedDeployments ds).filter
        fun d => p1.assignments.get? d.id = none)).entry d.id = o.entry := by
    intro hnone
    have hblank : p1.entry d.id = {} := by
      rw [hentry, hnone]
      rfl
    have hgpus : p1.assignments.get? d.id = none := congrArg PlanEntry.gpus hblank
    have hin : d ∈ (sortedDeployments ds).filter fun d => p1.assignments.get? d.id = none :=
      List.mem_filter.mpr ⟨hmem, by simp [hgpus]⟩
    exact planNew_decides hpool (nodup_ids_filter hsorted _) hin hblank
  unfold KeepsOn at ho
  unfold PlanDecides planTask softPin
  dsimp only
  cases hpin : pinned.get? d.id with
  | none =>
      rw [hpin] at ho
      exact .inr (hnew ho)
  | some want =>
      rw [hpin] at ho
      cases ho with
      | inr hnone => exact .inr (hnew hnone)
      | inl hkept =>
          have hgpus : p1.assignments.get? d.id = some want := by
            have hfield := congrArg PlanEntry.gpus hentry
            rw [hkept.1] at hfield
            exact hfield
          have hsel : decide (p1.assignments.get? d.id = none) = false := by simp [hgpus]
          refine .inl ⟨want, rfl, ?_, hkept.2⟩
          rw [planNew_entry_other hpool (not_mem_ids_filter hsorted hmem hsel), hentry, hkept.1]
          rfl

end PlanDecides

theorem exists_outcome {host : Host} {allowedGpus : Option (List Nat)}
    {pinned : Dict String (List Nat)} {inputs : Option PlacementInputs} {d : Deployment}
    {entry : PlanEntry} (h : PlanDecides host allowedGpus pinned inputs d entry)
    (hconsidered : planTask inputs d ≠ .ignored) : ∃ o : PlanOutcome, entry = o.entry := by
  unfold PlanDecides at h
  cases htask : planTask inputs d with
  | ignored => contradiction
  | hard want =>
      rw [htask] at h
      cases h with
      | inl h => exact ⟨_, h.1⟩
      | inr h => exact ⟨_, h⟩
  | new =>
      rw [htask] at h
      rcases h with ⟨want, -, h, -⟩ | ⟨o, -, h⟩
      · exact ⟨_, h⟩
      · exact ⟨o, h⟩
  | optional want =>
      rw [htask] at h
      cases h with
      | inl h => exact ⟨_, h.1⟩
      | inr h => exact ⟨_, h⟩

/-- A plan of deployments with distinct ids is sound, whatever it is asked. -/
theorem planPlacement_sound (host : Host) (allowedGpus : Option (List Nat))
    (pinned : Dict String (List Nat)) (inputs : Option PlacementInputs) (ds : List Deployment)
    (hnodup : (ds.map Deployment.id).Nodup) :
    SoundPlan host allowedGpus pinned inputs ds
      (planPlacement host allowedGpus pinned inputs ds) := by
  have hdecided : ∀ d ∈ ds, PlanDecides host allowedGpus pinned inputs d
      ((planPlacement host allowedGpus pinned inputs ds).entry d.id) := by
    intro d hd
    cases inputs with
    | none => exact planPlacement_decides_plain hnodup hd
    | some inputs => exact planPlacement_decides_admission hnodup inputs hd
  constructor
  · intro d _ e _ hne xs ys hxs hys i hi
    exact Holdings.disjoint hxs hys hne hi
  · intro d hd want htask
    have h := hdecided d hd
    unfold PlanDecides at h
    rwa [htask] at h
  · intro d hd htask
    have h := hdecided d hd
    unfold PlanDecides at h
    rwa [htask] at h
  · intro d hd want htask
    have h := hdecided d hd
    unfold PlanDecides at h
    rwa [htask] at h
  · intro d hd hconsidered
    obtain ⟨o, ho⟩ := exists_outcome (hdecided d hd) hconsidered
    exact ⟨o, ho, fun o' ho' => PlanOutcome.entry_inj (ho'.symm.trans ho)⟩
  · intro d hd htask
    have h := hdecided d hd
    unfold PlanDecides at h
    rwa [htask] at h

/-- A large GPU, and a smaller one. -/
def mixedHost : Host where
  gpus := Table.ofList [⟨1, 80, false⟩, ⟨0, 16, false⟩]

/-- A one-GPU model that declares the memory it needs. -/
def sizedDeployment (id : String) (createdAt : Int) (gib : ℚ) : Deployment where
  id := id
  compatKey := ⟨.vllm, .reserved 1⟩
  engine := .vllm
  sharing := .shared
  capacity := ∅
  spec := { placement := { minVramGib := some gib } }
  served := ∅
  state := .live
  createdAt := createdAt
  updatedAt := createdAt

theorem planPlacement_sound_mixed : SoundPlan mixedHost (some [1]) ∅
    (some { requiredIds := ["b"], hard := Table.ofList [("a", [0])] })
    [sizedDeployment "a" 0 8, sizedDeployment "b" 1 40]
    (planPlacement mixedHost (some [1]) ∅
      (some { requiredIds := ["b"], hard := Table.ofList [("a", [0])] })
      [sizedDeployment "a" 0 8, sizedDeployment "b" 1 40]) :=
  planPlacement_sound _ _ _ _ _ (by decide)

end InferStack
