import Mathlib.Data.List.Sort
import Mathlib.Data.List.Perm.Basic
import Mathlib.Data.Set.Finite.List
import Mathlib.Data.Fintype.Card
import Mathlib.Logic.Relation

/-!
# InferStack.Kit.Levels

Start order of a dependency graph: names grouped into levels, each depending
only on earlier ones.  A cycle is started together, so every name is started
exactly once whatever the graph: `flatten_levels_perm`.  Without one a name starts
after all it depends on: `levels_earlier`.
-/

namespace Kit

variable {κ : Type*} [DecidableEq κ] {deps : κ → List κ}

/-- Whether the pending dependencies of a name have all started. -/
def ready (deps : κ → List κ) (started pending : List κ) (n : κ) : Bool :=
  (deps n).all fun d => d ∈ pending → d ∈ started

/-- The ready names, or all pending ones when a cycle leaves none ready. -/
def readyLevel (deps : κ → List κ) (started pending : List κ) : List κ :=
  if pending.filter (ready deps started pending) = [] then pending
  else pending.filter (ready deps started pending)

theorem readyLevel_ne_nil (deps : κ → List κ) (started : List κ) {pending : List κ}
    (h : pending ≠ []) :
    readyLevel deps started pending ≠ [] := by
  unfold readyLevel
  split
  · exact h
  · assumption

/-- A level and the names left over are the pending names. -/
theorem readyLevel_append_perm (deps : κ → List κ) (started pending : List κ) :
    (readyLevel deps started pending ++
      pending.filter (· ∉ readyLevel deps started pending)).Perm pending := by
  unfold readyLevel
  split
  · have hnone : pending.filter (· ∉ pending) = [] := by simp
    rw [hnone, List.append_nil]
  · have hrest : pending.filter (· ∉ pending.filter (ready deps started pending)) =
        pending.filter (fun n => !ready deps started pending n) := by
      refine List.filter_congr fun n hn => ?_
      simp [hn]
    rw [hrest]
    exact List.filter_append_perm _ _

/-- What has not started before a level is left pending unless it is in the level. -/
theorem filter_left {started pending : List κ} (hdisjoint : ∀ n ∈ pending, n ∉ started) :
    pending.filter (· ∉ started ++ readyLevel deps started pending) =
      pending.filter (· ∉ readyLevel deps started pending) := by
  refine List.filter_congr fun n hn => ?_
  simp [hdisjoint n hn]

/-- A round leaves fewer names pending. -/
theorem length_left_lt {started pending : List κ} (hpending : pending ≠ [])
    (hdisjoint : ∀ n ∈ pending, n ∉ started) :
    (pending.filter (· ∉ started ++ readyLevel deps started pending)).length < pending.length := by
  have hlen := (readyLevel_append_perm deps started pending).length_eq
  have hpos := List.length_pos_of_ne_nil (readyLevel_ne_nil deps started hpending)
  rw [List.length_append] at hlen
  rw [filter_left hdisjoint]
  omega

/-- Distinct names have no duplicates to drop. -/
theorem eraseDups_of_nodup {names : List κ} (h : names.Nodup) : names.eraseDups = names := by
  induction names with
  | nil => rfl
  | cons n ns ih =>
      obtain ⟨hn, hns⟩ := List.nodup_cons.mp h
      have hkeep : ns.filter (fun m => !m == n) = ns := by
        refine List.filter_eq_self.mpr fun m hm => ?_
        simpa using ne_of_mem_of_not_mem hm hn
      rw [List.eraseDups_cons, hkeep, ih hns]

variable [LinearOrder κ]

/-- The levels of `pending`; each round starts at least one name, so the number
of names is enough rounds. -/
def levelsFrom (deps : κ → List κ) : Nat → List κ → List κ → List (List κ)
  | 0, _, _ => []
  | fuel + 1, started, pending =>
      if pending = [] then []
      else
        let level := readyLevel deps started pending
        level.insertionSort (· ≤ ·) ::
          levelsFrom deps fuel (started ++ level) (pending.filter (· ∉ started ++ level))

/-- Start order of `names`, each once. -/
def levels (deps : κ → List κ) (names : List κ) : List (List κ) :=
  levelsFrom deps names.eraseDups.length [] names.eraseDups

theorem flatten_levelsFrom_perm {fuel : Nat} {started pending : List κ}
    (hfuel : pending.length ≤ fuel) (hdisjoint : ∀ n ∈ pending, n ∉ started) :
    (levelsFrom deps fuel started pending).flatten.Perm pending := by
  induction fuel generalizing started pending with
  | zero =>
      have hnil : pending = [] := List.eq_nil_of_length_eq_zero (by omega)
      rw [hnil]
      exact List.Perm.refl _
  | succ fuel ih =>
      unfold levelsFrom
      by_cases hnil : pending = []
      · rw [if_pos hnil, hnil]
        exact List.Perm.refl _
      · rw [if_neg hnil]
        have hshort := @length_left_lt _ _ deps _ _ hnil hdisjoint
        have hnew : ∀ n ∈ pending.filter
            (fun n => decide (n ∉ started ++ readyLevel deps started pending)),
            n ∉ started ++ readyLevel deps started pending :=
          fun n hn => of_decide_eq_true (List.mem_filter.mp hn).2
        have hsub := ih (by omega) hnew
        rw [List.flatten_cons]
        refine ((List.perm_insertionSort _ _).append hsub).trans ?_
        rw [filter_left hdisjoint]
        exact readyLevel_append_perm deps started pending

/-- Every name is in exactly one level, once. -/
theorem flatten_levels_perm_eraseDups (deps : κ → List κ) (names : List κ) :
    (levels deps names).flatten.Perm names.eraseDups :=
  flatten_levelsFrom_perm le_rfl (by simp)

theorem flatten_levels_perm (deps : κ → List κ) {names : List κ} (h : names.Nodup) :
    (levels deps names).flatten.Perm names := by
  have hperm := flatten_levels_perm_eraseDups deps names
  rwa [eraseDups_of_nodup h] at hperm

/-! ## the loop -/

/-- The rounds of the loop, from what has started and what is pending. -/
inductive Rounds (deps : κ → List κ) : List κ → List κ → List (List κ) → Prop
  | done (started : List κ) : Rounds deps started [] []
  | round {started pending : List κ} {order : List (List κ)} (hpending : pending ≠ [])
      (hrest : Rounds deps (started ++ readyLevel deps started pending)
        (pending.filter (· ∉ started ++ readyLevel deps started pending)) order) :
      Rounds deps started pending
        ((readyLevel deps started pending).insertionSort (· ≤ ·) :: order)

/-- The rounds come to an end. -/
theorem levelsFrom_rounds {fuel : Nat} {started pending : List κ} (hfuel : pending.length ≤ fuel)
    (hdisjoint : ∀ n ∈ pending, n ∉ started) :
    Rounds deps started pending (levelsFrom deps fuel started pending) := by
  induction fuel generalizing started pending with
  | zero =>
      have hnil : pending = [] := List.eq_nil_of_length_eq_zero (by omega)
      rw [hnil]
      exact .done started
  | succ fuel ih =>
      unfold levelsFrom
      by_cases hnil : pending = []
      · rw [if_pos hnil, hnil]
        exact .done started
      · rw [if_neg hnil]
        have hshort := @length_left_lt _ _ deps _ _ hnil hdisjoint
        refine .round hnil (ih (by omega) fun n hn => ?_)
        exact of_decide_eq_true (List.mem_filter.mp hn).2

theorem levels_rounds (deps : κ → List κ) (names : List κ) :
    Rounds deps [] names.eraseDups (levels deps names) :=
  levelsFrom_rounds le_rfl (by simp)

/-! ## without a cycle -/

/-- A name depends on another one of these. -/
def DependsIn (deps : κ → List κ) (names : List κ) (a b : κ) : Prop :=
  a ∈ names ∧ b ∈ names ∧ b ∈ deps a

omit [DecidableEq κ] [LinearOrder κ] in
/-- Names whose dependencies all have a lower rank have no cycle. -/
theorem acyclic_of_rank {names : List κ} (rank : κ → Nat)
    (h : ∀ a ∈ names, ∀ b ∈ deps a, b ∈ names → rank b < rank a) (n : κ) :
    ¬ Relation.TransGen (DependsIn deps names) n n := by
  have hlower : ∀ a b, Relation.TransGen (DependsIn deps names) a b → rank b < rank a := by
    intro a b hab
    induction hab with
    | single hstep => exact h a hstep.1 _ hstep.2.2 hstep.2.1
    | tail _ hstep ih => exact (h _ hstep.1 _ hstep.2.2 hstep.2.1).trans ih
  exact fun hcycle => lt_irrefl (rank n) (hlower n n hcycle)

omit [DecidableEq κ] [LinearOrder κ] in
/-- Without a cycle, some name depends on none of the others. -/
theorem exists_independent {names : List κ}
    (hacyclic : ∀ n, ¬ Relation.TransGen (DependsIn deps names) n n) (hne : names ≠ []) :
    ∃ n ∈ names, ∀ d ∈ deps n, d ∉ names := by
  let below : {n // n ∈ names} → {n // n ∈ names} → Prop := fun a b =>
    Relation.TransGen (DependsIn deps names) b.1 a.1
  have : Finite {n // n ∈ names} := (List.finite_toSet names).to_subtype
  have : IsTrans _ below := ⟨fun _ _ _ hab hbc => hbc.trans hab⟩
  have : Std.Irrefl below := ⟨fun a => hacyclic a.1⟩
  have hwf : WellFounded below := Finite.wellFounded_of_trans_of_irrefl below
  obtain ⟨first, hfirst⟩ := List.exists_mem_of_ne_nil names hne
  obtain ⟨n, -, hmin⟩ := hwf.has_min Set.univ ⟨⟨first, hfirst⟩, trivial⟩
  refine ⟨n.1, n.2, fun d hd hin => ?_⟩
  have hbelow : below ⟨d, hin⟩ n := .single ⟨n.2, hin, hd⟩
  exact hmin ⟨d, hin⟩ trivial hbelow

omit [LinearOrder κ] in
/-- A level of names without pending dependencies. -/
theorem mem_readyLevel_of_acyclic {started pending : List κ}
    (hacyclic : ∀ n, ¬ Relation.TransGen (DependsIn deps pending) n n)
    (hdisjoint : ∀ n ∈ pending, n ∉ started) {n : κ} (hn : n ∈ readyLevel deps started pending) :
    n ∈ pending ∧ ∀ d ∈ deps n, d ∉ pending := by
  have hready : ∀ m, ready deps started pending m = true ↔ ∀ d ∈ deps m, d ∉ pending := by
    intro m
    simp only [ready, List.all_eq_true, decide_eq_true_eq]
    exact forall₂_congr fun d _ => ⟨fun h hd => hdisjoint d hd (h hd), fun h hd => absurd hd h⟩
  unfold readyLevel at hn
  split at hn
  · rename_i hnone
    exfalso
    obtain ⟨m, hm, hfree⟩ := exists_independent hacyclic (List.ne_nil_of_mem hn)
    have hmem : m ∈ pending.filter (ready deps started pending) :=
      List.mem_filter.mpr ⟨hm, (hready m).mpr hfree⟩
    rw [hnone] at hmem
    contradiction
  · obtain ⟨hpending, hn⟩ := List.mem_filter.mp hn
    exact ⟨hpending, (hready n).mp hn⟩

/-- In a run without a cycle, what a name depends on has started before or is in an
earlier level. -/
theorem Rounds.earlier {started pending : List κ} {order : List (List κ)}
    (h : Rounds deps started pending order)
    (hacyclic : ∀ n, ¬ Relation.TransGen (DependsIn deps pending) n n)
    (hdisjoint : ∀ n ∈ pending, n ∉ started) {i : Nat} {level : List κ}
    (hlevel : order[i]? = some level) {n d : κ} (hn : n ∈ level) (hd : d ∈ deps n)
    (hpending : d ∈ pending) : ∃ j < i, ∃ before, order[j]? = some before ∧ d ∈ before := by
  induction h generalizing i with
  | done => simp at hpending
  | @round started pending order hne hrest ih =>
      have hfirst : ∀ m, m ∈ readyLevel deps started pending →
          m ∈ pending ∧ ∀ e ∈ deps m, e ∉ pending :=
        fun m hm => mem_readyLevel_of_acyclic hacyclic hdisjoint hm
      cases i with
      | zero =>
          obtain rfl := Option.some.inj hlevel
          rw [List.mem_insertionSort] at hn
          exact absurd hpending ((hfirst n hn).2 d hd)
      | succ i =>
          by_cases hstarts : d ∈ readyLevel deps started pending
          · exact ⟨0, by omega, _, rfl, by rwa [List.mem_insertionSort]⟩
          · have hleft : d ∈ pending.filter (· ∉ started ++ readyLevel deps started pending) := by
              simp [hpending, hstarts, hdisjoint d hpending]
            have hsub : ∀ a b,
                DependsIn deps (pending.filter (· ∉ started ++ readyLevel deps started pending)) a b →
                  DependsIn deps pending a b := fun a b hab =>
              ⟨(List.mem_filter.mp hab.1).1, (List.mem_filter.mp hab.2.1).1, hab.2.2⟩
            obtain ⟨j, hj, before, hbefore, hin⟩ :=
              ih (fun m hm => hacyclic m (Relation.TransGen.mono hsub m m hm))
                (fun m hm => of_decide_eq_true (List.mem_filter.mp hm).2) hlevel hleft
            exact ⟨j + 1, by omega, before, hbefore, hin⟩

theorem levels_earlier {names : List κ}
    (hacyclic : ∀ n, ¬ Relation.TransGen (DependsIn deps names) n n) {i : Nat} {level : List κ}
    (hlevel : (levels deps names)[i]? = some level) {n d : κ} (hn : n ∈ level) (hd : d ∈ deps n)
    (hnames : d ∈ names) :
    ∃ j < i, ∃ before, (levels deps names)[j]? = some before ∧ d ∈ before := by
  have hsame : ∀ a b, DependsIn deps names.eraseDups a b → DependsIn deps names a b := by
    intro a b h
    simpa [DependsIn] using h
  refine (levels_rounds deps names).earlier (fun m hm => ?_) (by simp) hlevel hn hd (by simpa)
  exact hacyclic m (Relation.TransGen.mono hsame m m hm)

end Kit
