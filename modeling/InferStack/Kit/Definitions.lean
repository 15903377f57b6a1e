import Mathlib.Data.List.Basic

/-!
# InferStack.Kit.Definitions

Names that may be defined several times, as long as the definitions agree.

* `Agree` — every name has one value;
* `Conflicts` — a definition that differs from an earlier one of its name;
* `firstConflict` — the first of a list of definitions to do so, with its rules
  for lists put together (`firstConflict_append`, `firstConflict_of_subset`) and
  for one that agrees in itself (`firstConflict_eq_find?`).
-/

namespace Kit

variable {κ ν : Type}

/-- Every name has one value. -/
def Agree (defs : List (κ × ν)) : Prop :=
  ∀ d ∈ defs, ∀ d' ∈ defs, d.1 = d'.1 → d.2 = d'.2

/-- A definition that differs from an earlier one of its name. -/
def Conflicts (seen : List (κ × ν)) (d : κ × ν) : Prop := ∃ d' ∈ seen, d'.1 = d.1 ∧ d'.2 ≠ d.2

instance [DecidableEq κ] [DecidableEq ν] (seen : List (κ × ν)) : DecidablePred (Conflicts seen) :=
  fun _ => inferInstanceAs (Decidable (∃ d' ∈ seen, _))

theorem Agree.subset {defs defs' : List (κ × ν)} (h : Agree defs) (hsub : ∀ d ∈ defs', d ∈ defs) :
    Agree defs' := fun d hd d' hd' => h d (hsub d hd) d' (hsub d' hd')

theorem Conflicts.mono {seen seen' : List (κ × ν)} {d : κ × ν} (h : Conflicts seen d)
    (hsub : ∀ d ∈ seen, d ∈ seen') : Conflicts seen' d := by
  obtain ⟨d', hd', heq, hne⟩ := h
  exact ⟨d', hsub d' hd', heq, hne⟩

theorem conflicts_congr {seen seen' : List (κ × ν)} (h : ∀ d, d ∈ seen ↔ d ∈ seen') (d : κ × ν) :
    Conflicts seen d ↔ Conflicts seen' d :=
  ⟨fun hc => hc.mono fun d => (h d).mp, fun hc => hc.mono fun d => (h d).mpr⟩

/-- Definitions that agree with each other never conflict. -/
theorem Agree.not_conflicts {defs : List (κ × ν)} (h : Agree defs) {d : κ × ν} (hd : d ∈ defs) :
    ¬ Conflicts defs d := by
  intro hc
  obtain ⟨d', hd', heq, hne⟩ := hc
  exact hne (h d' hd' d hd heq)

/-- One more definition. -/
theorem Agree.snoc {seen : List (κ × ν)} (h : Agree seen) {d : κ × ν} (hd : ¬ Conflicts seen d) :
    Agree (seen ++ [d]) := by
  intro a ha b hb heq
  simp only [List.mem_append, List.mem_singleton] at ha hb
  unfold Conflicts at hd
  push Not at hd
  rcases ha with ha | rfl <;> rcases hb with hb | rfl
  · exact h a ha b hb heq
  · exact hd a ha heq
  · exact (hd b hb heq.symm).symm
  · rfl

variable [DecidableEq κ] [DecidableEq ν]

/-- The first definition that differs from an earlier one. -/
def firstConflict (seen : List (κ × ν)) : List (κ × ν) → Option (κ × ν)
  | [] => none
  | d :: ds => if Conflicts seen d then some d else firstConflict (seen ++ [d]) ds

theorem firstConflict_congr {seen seen' : List (κ × ν)} (h : ∀ d, d ∈ seen ↔ d ∈ seen')
    (ds : List (κ × ν)) : firstConflict seen ds = firstConflict seen' ds := by
  induction ds generalizing seen seen' with
  | nil => rfl
  | cons d ds ih =>
      have hnext : ∀ d', d' ∈ seen ++ [d] ↔ d' ∈ seen' ++ [d] := by
        intro d'
        simp [h d']
      unfold firstConflict
      by_cases hc : Conflicts seen d
      · rw [if_pos hc, if_pos ((conflicts_congr h d).mp hc)]
      · rw [if_neg hc, if_neg fun hc' => hc ((conflicts_congr h d).mpr hc'), ih hnext]

theorem firstConflict_append (seen as bs : List (κ × ν)) :
    firstConflict seen (as ++ bs) = (firstConflict seen as).or (firstConflict (seen ++ as) bs) := by
  induction as generalizing seen with
  | nil => simp [firstConflict]
  | cons a as ih =>
      by_cases hc : Conflicts seen a
      · simp [firstConflict, hc]
      · simp [firstConflict, hc, ih]

/-- What has no conflict agrees. -/
theorem Agree.of_firstConflict {seen ds : List (κ × ν)} (h : Agree seen)
    (hnone : firstConflict seen ds = none) : Agree (seen ++ ds) := by
  induction ds generalizing seen with
  | nil => simpa using h
  | cons d ds ih =>
      unfold firstConflict at hnone
      split at hnone
      · contradiction
      · rename_i hd
        have hrest := ih (h.snoc hd) hnone
        simpa using hrest

/-- What agrees in itself conflicts first where it differs from what is there. -/
theorem firstConflict_eq_find? {base done want : List (κ × ν)} (h : Agree (done ++ want)) :
    firstConflict (base ++ done) want = want.find? (Conflicts base) := by
  induction want generalizing done with
  | nil => rfl
  | cons d want ih =>
      have hiff : Conflicts (base ++ done) d ↔ Conflicts base d := by
        constructor
        · intro hc
          obtain ⟨d', hd', heq, hne⟩ := hc
          cases List.mem_append.mp hd' with
          | inl hbase => exact ⟨d', hbase, heq, hne⟩
          | inr hdone =>
              have hsame := h d' (List.mem_append_left _ hdone) d
                (List.mem_append_right _ List.mem_cons_self) heq
              exact absurd hsame hne
        · intro hc
          exact hc.mono fun d' hd' => List.mem_append_left _ hd'
      have hnext : firstConflict (base ++ done ++ [d]) want = want.find? (Conflicts base) := by
        rw [List.append_assoc]
        refine ih ?_
        simpa using h
      unfold firstConflict
      by_cases hc : Conflicts base d
      · rw [if_pos (hiff.mpr hc)]
        simp [hc]
      · rw [if_neg fun hc' => hc (hiff.mp hc'), hnext]
        simp [hc]

/-- What agrees has no conflict. -/
theorem Agree.firstConflict_eq_none {ds : List (κ × ν)} (h : Agree ds) : firstConflict [] ds = none := by
  have hagree : Agree ([] ++ ds) := h
  have hfind := @firstConflict_eq_find? κ ν _ _ [] [] ds hagree
  rw [List.append_nil] at hfind
  rw [hfind, List.find?_eq_none]
  simp [Conflicts]

/-- What was seen before does not conflict. -/
theorem firstConflict_of_subset {seen ds : List (κ × ν)} (h : Agree seen) (hsub : ∀ d ∈ ds, d ∈ seen) :
    firstConflict seen ds = none := by
  have hagree : Agree ([] ++ ds) := h.subset (by simpa using hsub)
  have hfind : firstConflict (seen ++ []) ds = ds.find? (Conflicts seen) :=
    firstConflict_eq_find? hagree
  rw [List.append_nil] at hfind
  rw [hfind, List.find?_eq_none]
  intro d hd
  simpa using h.not_conflicts (hsub d hd)

end Kit
