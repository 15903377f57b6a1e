import InferStack.Admission

/-!
# InferStack.Admission.View

What a view asks of the planner, and what the plan of a view does.

* `find?_viewRows` — a view shows the overlay's row, else the ledger's;
* `get?_hard` — a committed allocation is hard exactly for a LIVE row;
* `viewPlan_kept`, `viewPlan_degraded` — the plan of a view keeps every hard
  allocation, or reports it because its GPUs are gone or an older one holds them.
-/

namespace InferStack

open Kit

variable {π δ φ : Type}

/-! ## the rows of a view -/

/-- The rows a view of the ledger is computed from. -/
def ledgerView (s : Store π δ) (overlay : Option AcquireOverlay) : Table Deployment Deployment.id :=
  viewRows s.listDeployments overlay

theorem nodup_listDeployments (s : Store π δ) : (s.listDeployments.map Deployment.id).Nodup :=
  ((List.perm_insertionSort _ s.deployments.rows).map Deployment.id).nodup_iff.mpr
    s.deployments.nodup

theorem find?_ofList_listDeployments (s : Store π δ) (g : String) :
    (Table.ofList s.listDeployments : Table Deployment Deployment.id).find? g =
      s.getDeployment g := by
  have hmem : ∀ d, d ∈ (Table.ofList s.listDeployments : Table Deployment Deployment.id) ↔
      d ∈ s.deployments := fun d => by
    rw [Table.mem_ofList (nodup_listDeployments s), Store.mem_listDeployments]
  apply Option.ext
  intro d
  have hleft := Table.find?_eq_some (t := (Table.ofList s.listDeployments :
    Table Deployment Deployment.id)) (k := g) (a := d)
  have hright := Table.find?_eq_some (t := s.deployments) (k := g) (a := d)
  change _ ↔ s.deployments.find? g = some d
  rw [hleft, hright, hmem]

/-- A view shows the overlay's row, else the ledger's. -/
theorem find?_ledgerView (s : Store π δ) (overlay : Option AcquireOverlay) (g : String) :
    (ledgerView s overlay).find? g =
      (overlay.bind fun o => o.deployments.find? g).or (s.getDeployment g) := by
  cases overlay with
  | none => exact find?_ofList_listDeployments s g
  | some o =>
      have hput := Table.find?_putAll (t := (Table.ofList s.listDeployments :
        Table Deployment Deployment.id)) o.deployments.nodup g
      rw [find?_ofList_listDeployments] at hput
      exact hput

/-- Without an overlay a view is the ledger. -/
theorem mem_ledgerView_none {s : Store π δ} {d : Deployment} :
    d ∈ ledgerView s none ↔ d ∈ s.deployments := by
  rw [Table.mem_iff_find?, Table.mem_iff_find?, find?_ledgerView]
  rfl

/-! ## the planner's inputs -/

section Inputs

variable (B : Backend π δ φ) (ds : List Deployment) (residency : Option Residency)
  (overlay : Option AcquireOverlay)

/-- A row is required or optional, not both: the first is LIVE, the second IDLE. -/
theorem nodup_desired :
    ((admissionView B ds residency overlay).1.map Deployment.id).Nodup := by
  have hrows := (viewRows ds overlay).nodup
  change (List.map Deployment.id (_ ++ _)).Nodup
  rw [List.map_append]
  apply List.nodup_append.mpr
  have hsub : ∀ p : Deployment → Bool,
      (((viewRows ds overlay).rows.filter p).map Deployment.id).Nodup := fun p =>
    hrows.sublist (List.filter_sublist.map Deployment.id)
  have hlive : ∀ d ∈ (viewRows ds overlay).rows.filter (isRequired (freshIds overlay)),
      d ∈ viewRows ds overlay ∧ d.state = .live := fun d hd => by
    have hd := List.mem_filter.mp hd
    simp only [isRequired, Bool.and_eq_true, decide_eq_true_eq] at hd
    exact ⟨hd.1, hd.2.1⟩
  have hidle : ∀ d ∈ (viewRows ds overlay).rows.filter
      (fun d => (optionalHint B.reclaimDefault residency d).isSome),
      d ∈ viewRows ds overlay ∧ d.state = .idle := fun d hd => by
    have hd := List.mem_filter.mp hd
    unfold optionalHint at hd
    by_cases hstate : d.state = .idle ∧ keepsUp B.reclaimDefault d = true
    · exact ⟨hd.1, hstate.1⟩
    · simp [if_neg hstate] at hd
  refine ⟨hsub _, hsub _, fun g hg g' hg' heq => ?_⟩
  obtain ⟨d, hd, hdid⟩ := List.mem_map.mp hg
  obtain ⟨e, he, heid⟩ := List.mem_map.mp hg'
  have hde : d = e := Table.eq_of_key_eq (hlive d hd).1 (hidle e he).1
    (hdid.trans (heq.trans heid.symm))
  have hstate := (hlive d hd).2
  rw [hde, (hidle e he).2] at hstate
  contradiction

/-- A committed allocation is hard exactly for a LIVE row of the view. -/
theorem get?_hard {g : String} {gpus : List Nat} :
    (admissionView B ds residency overlay).2.hard.get? g = some gpus ↔
      ∃ d ∈ viewRows ds overlay, d.id = g ∧ d.state = .live ∧ d.assignedGpus = some gpus := by
  let required := (viewRows ds overlay).rows.filter (isRequired (freshIds overlay))
  let hard := required.filterMap fun d => d.assignedGpus.map fun gpus => (d.id, gpus)
  have hnodup : (hard.map Prod.fst).Nodup := by
    have hsub : (hard.map Prod.fst).Sublist (required.map Deployment.id) := by
      have hmap : hard.map Prod.fst =
          (required.filter fun d => d.assignedGpus.isSome).map Deployment.id := by
        change (List.filterMap _ required).map Prod.fst = _
        induction required with
        | nil => rfl
        | cons d ds ih => cases hgpus : d.assignedGpus <;> simp [hgpus, ih]
      rw [hmap]
      exact List.filter_sublist.map Deployment.id
    exact ((viewRows ds overlay).nodup.sublist (List.filter_sublist.map Deployment.id)).sublist hsub
  have hrow : (g, gpus) ∈ hard ↔
      ∃ d ∈ viewRows ds overlay, d.id = g ∧ d.state = .live ∧ d.assignedGpus = some gpus := by
    change (g, gpus) ∈ List.filterMap _ required ↔ _
    simp only [List.mem_filterMap, Option.map_eq_some_iff, Prod.mk.injEq, required,
      List.mem_filter, isRequired, Bool.and_eq_true, decide_eq_true_eq, Bool.or_eq_true]
    constructor
    · intro h
      obtain ⟨d, ⟨hd, hlive, -⟩, xs, hxs, hid, rfl⟩ := h
      exact ⟨d, hd, hid, hlive, hxs⟩
    · intro h
      obtain ⟨d, hd, hid, hlive, hxs⟩ := h
      exact ⟨d, ⟨hd, hlive, .inl (by simp [hxs])⟩, gpus, hxs, hid, rfl⟩
  have htable : (g, gpus) ∈ (Table.ofList hard : Dict String (List Nat)) ↔ (g, gpus) ∈ hard :=
    Table.mem_ofList hnodup
  rw [Dict.get?_eq_some]
  exact htable.trans hrow

/-- A required row is desired. -/
theorem mem_desired {d : Deployment} (hd : d ∈ viewRows ds overlay) (hlive : d.state = .live)
    (hgpus : d.assignedGpus.isSome) : d ∈ (admissionView B ds residency overlay).1 := by
  apply List.mem_append_left
  rw [List.mem_filter]
  exact ⟨hd, by simp [isRequired, hlive, hgpus]⟩

end Inputs

/-! ## the plan of a view -/

/-- The plan a render or preview of a view computes. -/
def viewPlan (B : Backend π δ φ) (allowed : Option (List Nat)) (ds : List Deployment)
    (residency : Option Residency) (overlay : Option AcquireOverlay) : GpuPlan :=
  planPlacement B.host allowed ∅ (some (admissionView B ds residency overlay).2)
    ((admissionView B ds residency overlay).1.map B.enrich)

/-- A render plans its view. -/
theorem plan_renderDocuments {B : Backend π δ φ} {settings : RenderSettings π φ}
    {network : Option (String × Dict String String)} {secrets : Dict String String}
    {managed : ManagedEnv} {ds : List Deployment} {residency : Option Residency}
    {overlay : Option AcquireOverlay} {docs : Documents π δ φ}
    (h : renderDocuments B settings network secrets managed
      (admissionView B ds residency overlay).1 (admissionView B ds residency overlay).2 = .ok docs) :
    docs.plan = viewPlan B settings.allowedGpus ds residency overlay := by
  unfold renderDocuments at h
  dsimp only at h
  cases hrender : B.render _ with
  | error e => rw [hrender] at h; contradiction
  | ok rendered =>
      rw [hrender] at h
      obtain rfl := Except.ok.inj h
      rfl

section Plan

variable {B : Backend π δ φ} {allowed : Option (List Nat)} {ds : List Deployment}
  {residency : Option Residency} {overlay : Option AcquireOverlay}

theorem before_enrich {d e : Deployment} : (B.enrich d).before (B.enrich e) ↔ d.before e := by
  simp [Deployment.before]

theorem viewPlan_admission : AdmissionPlan B.host (admissionView B ds residency overlay).2.hard
    ((admissionView B ds residency overlay).1.map B.enrich)
    (viewPlan B allowed ds residency overlay) := by
  apply planPlacement_admission
  have hids : ((admissionView B ds residency overlay).1.map B.enrich).map Deployment.id =
      (admissionView B ds residency overlay).1.map Deployment.id := by simp [List.map_map]
  rw [hids]
  exact nodup_desired B ds residency overlay

/-- A LIVE row keeps its allocation in the plan, or the plan reports it. -/
theorem viewPlan_kept (B : Backend π δ φ) (allowed : Option (List Nat))
    (residency : Option Residency) {d : Deployment} {gpus : List Nat} (hd : d ∈ viewRows ds overlay)
    (hlive : d.state = .live) (hgpus : d.assignedGpus = some gpus) :
    (viewPlan B allowed ds residency overlay).assignments.get? d.id = some gpus ∨
      d.id ∈ (viewPlan B allowed ds residency overlay).degraded := by
  have hdesired := mem_desired B ds residency overlay hd hlive (by simp [hgpus])
  have hhard := (get?_hard B ds residency overlay).mpr ⟨d, hd, rfl, hlive, hgpus⟩
  have hplan : AdmissionPlan B.host (admissionView B ds residency overlay).2.hard
      ((admissionView B ds residency overlay).1.map B.enrich)
      (viewPlan B allowed ds residency overlay) := viewPlan_admission
  have hkept := hplan.kept (B.enrich d) (List.mem_map_of_mem hdesired) gpus (by rwa [Backend.enrich_id])
  rwa [Backend.enrich_id] at hkept

/-- The plan reports an allocation because its GPUs are gone, or because an
older LIVE row of the view holds some of them. -/
theorem viewPlan_degraded {g : String}
    (hg : g ∈ (viewPlan B allowed ds residency overlay).degraded) :
    ∃ d ∈ viewRows ds overlay, d.id = g ∧ d.state = .live ∧ ∃ gpus, d.assignedGpus = some gpus ∧
      ((∃ i ∈ gpus, i ∉ availableIndices B.host none) ∨
        ∃ e ∈ viewRows ds overlay, e.before d ∧ e.id ≠ d.id ∧ e.state = .live ∧
          ∃ held, e.assignedGpus = some held ∧ ∃ i ∈ gpus, i ∈ held) := by
  obtain ⟨x, hx, rfl, gpus, hhard, hwhy⟩ := viewPlan_admission.degraded g hg
  obtain ⟨d', hd', rfl⟩ := List.mem_map.mp hx
  rw [Backend.enrich_id] at hhard ⊢
  obtain ⟨d, hd, hid, hlive, hgpus⟩ := (get?_hard B ds residency overlay).mp hhard
  have hdesired : ∀ e ∈ (admissionView B ds residency overlay).1, e ∈ viewRows ds overlay :=
    fun e he => by
      cases List.mem_append.mp he with
      | inl hin => exact (List.mem_filter.mp hin).1
      | inr hin => exact (List.mem_filter.mp hin).1
  obtain rfl : d = d' := Table.eq_of_key_eq hd (hdesired d' hd') hid
  refine ⟨d, hd, rfl, hlive, gpus, hgpus, ?_⟩
  cases hwhy with
  | inl hgone => exact .inl hgone
  | inr hheld =>
      obtain ⟨y, hy, hbefore, hne, held, hhold, hoverlap⟩ := hheld
      obtain ⟨e', he', rfl⟩ := List.mem_map.mp hy
      rw [before_enrich] at hbefore
      rw [Backend.enrich_id, Backend.enrich_id] at hne
      rw [Backend.enrich_id] at hhold
      obtain ⟨e, he, heid, helive, hegpus⟩ := (get?_hard B ds residency overlay).mp hhold
      obtain rfl : e = e' := Table.eq_of_key_eq he (hdesired e' he') heid
      exact .inr ⟨e, he, hbefore, hne, helive, held, hegpus, hoverlap⟩

theorem viewPlan_pool {g : String} {gpus : List Nat}
    (hg : (viewPlan B allowed ds residency overlay).assignments.get? g = some gpus) :
    ∀ i ∈ gpus, i ∈ availableIndices B.host none :=
  viewPlan_admission.pool g gpus hg

end Plan

/-! ## an admission -/

/-- An admitted overlay: its view was placed and rendered, nothing refuses a
claim, and what is fresh gets what the plan gives it. -/
structure AdmittedBy (B : Backend π δ φ) (s : Store π δ) (settings : RenderSettings π φ)
    (secrets : Dict String String) (managed : ManagedEnv) (o : AcquireOverlay)
    (residency : Option Residency) (a : Admission δ) (docs : Documents π δ φ) : Prop where
  known : residency.isSome
  rendered : let view := admissionView B s.listDeployments residency (some (previewOverlay residency o))
    renderDocuments B settings (networkTable s) secrets managed view.1 view.2 = .ok docs
  claims : ∀ g ∈ o.deployments.keys, refusals s docs g = []
  allocations : a.allocations = Table.ofList
    ((o.deployments.keys.filter (· ∈ freshIds (some o))).map fun g =>
      (g, (docs.plan.assignments.get? g).getD []))
  digest : a.digest = some docs.rendered.digest

theorem admitView_ok {B : Backend π δ φ} {s : Store π δ} {settings : RenderSettings π φ}
    {secrets : Dict String String} {managed : ManagedEnv} {o : AcquireOverlay}
    {residency : Option Residency} {a : Admission δ}
    (h : admitView B s settings secrets managed o residency = .ok a) (hreasons : a.reasons = []) :
    ∃ docs, AdmittedBy B s settings secrets managed o residency a docs := by
  unfold admitView at h
  by_cases hknown : residency.isNone = true
  · rw [if_pos hknown] at h
    obtain rfl := Except.ok.inj h
    simp at hreasons
  rw [if_neg hknown] at h
  dsimp only at h
  split at h
  · obtain rfl := Except.ok.inj h
    simp at hreasons
  · cases hdocs : renderDocuments B settings (networkTable s) secrets managed
      (admissionView B s.listDeployments residency (some (previewOverlay residency o))).1
      (admissionView B s.listDeployments residency (some (previewOverlay residency o))).2 with
    | error e => rw [hdocs] at h; contradiction
    | ok docs =>
        rw [hdocs] at h
        obtain rfl := Except.ok.inj h
        have hnil : o.deployments.keys.flatMap (refusals s docs) = [] := by
          by_contra hne
          simp only [if_neg hne, List.append_eq_nil_iff] at hreasons
          exact hne hreasons.1
        refine ⟨docs, Option.isSome_iff_ne_none.mpr (by simpa using hknown), hdocs, ?_, rfl, if_pos hnil⟩
        simpa using hnil

/-- An admission reads the deployment rows and the network of the ledger, no more. -/
theorem AdmittedBy.of_rows {B : Backend π δ φ} {s s' : Store π δ} {settings : RenderSettings π φ}
    {secrets : Dict String String} {managed : ManagedEnv} {o : AcquireOverlay}
    {residency : Option Residency} {a : Admission δ} {docs : Documents π δ φ}
    (h : AdmittedBy B s settings secrets managed o residency a docs)
    (hrows : s.deployments = s'.deployments) (hnetwork : networkTable s = networkTable s') :
    AdmittedBy B s' settings secrets managed o residency a docs := by
  have hlist : s.listDeployments = s'.listDeployments := by
    unfold Store.listDeployments
    rw [hrows]
  have hunresolved : unresolvedAllocations s [] = unresolvedAllocations s' [] := by
    unfold unresolvedAllocations
    rw [hlist]
  have hrefusals : ∀ g, refusals s docs g = refusals s' docs g := fun g => by
    unfold refusals
    rw [hunresolved]
  have hrendered := h.rendered
  rw [hlist, hnetwork] at hrendered
  exact ⟨h.known, hrendered, fun g hg => by rw [← hrefusals]; exact h.claims g hg, h.allocations,
    h.digest⟩

/-- A claim that nothing refuses is placed and rendered. -/
theorem refusals_eq_nil {s : Store π δ} {docs : Documents π δ φ} {g : String}
    (h : refusals s docs g = []) : g ∉ docs.plan.degraded ∧
      (docs.plan.assignments.get? g).isSome ∧ g ∉ docs.rendered.unrenderable := by
  unfold refusals at h
  split at h
  · contradiction
  split at h
  · contradiction
  rename_i hdegraded
  split at h
  · dsimp only at h
    split at h
    · contradiction
    · contradiction
  rename_i hplaced
  split at h
  · dsimp only at h
    split at h
    · contradiction
    · contradiction
  rename_i hrendered
  exact ⟨hdegraded, Option.isSome_iff_ne_none.mpr hplaced, hrendered⟩

/-- The allocations of an admission are the plan's, for what is fresh. -/
theorem AdmittedBy.get?_allocations {B : Backend π δ φ} {s : Store π δ}
    {settings : RenderSettings π φ} {secrets : Dict String String} {managed : ManagedEnv}
    {o : AcquireOverlay} {residency : Option Residency} {a : Admission δ} {docs : Documents π δ φ}
    (h : AdmittedBy B s settings secrets managed o residency a docs) (g : String) :
    a.allocations.get? g = if g ∈ o.deployments.keys ∧ g ∈ freshIds (some o)
      then docs.plan.assignments.get? g else none := by
  let gs := o.deployments.keys.filter (· ∈ freshIds (some o))
  let rows := gs.map fun g => (g, (docs.plan.assignments.get? g).getD [])
  have hrows : rows.map Prod.fst = gs := by simp [rows, Function.comp_def]
  have hnodup : (rows.map Prod.fst).Nodup := by
    rw [hrows]
    exact List.Nodup.filter _ o.deployments.nodup
  have hget : ∀ xs, a.allocations.get? g = some xs ↔ (g, xs) ∈ rows := fun xs => by
    rw [h.allocations, Dict.get?_eq_some]
    exact Table.mem_ofList hnodup
  have hmem : g ∈ gs ↔ g ∈ o.deployments.keys ∧ g ∈ freshIds (some o) := by
    simp [gs, List.mem_filter]
  by_cases hg : g ∈ o.deployments.keys ∧ g ∈ freshIds (some o)
  · have hplaced := (refusals_eq_nil (h.claims g hg.1)).2.1
    obtain ⟨xs, hxs⟩ := Option.isSome_iff_exists.mp hplaced
    rw [if_pos hg, hxs, hget]
    exact List.mem_map.mpr ⟨g, hmem.mpr hg, by rw [hxs]; rfl⟩
  · rw [if_neg hg]
    apply Option.eq_none_iff_forall_ne_some.mpr
    intro xs hxs
    obtain ⟨g', hg', heq⟩ := List.mem_map.mp ((hget xs).mp hxs)
    obtain ⟨rfl, -⟩ := Prod.mk.inj heq
    exact hg (hmem.mp hg')

end InferStack
