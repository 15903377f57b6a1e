import Mathlib.Data.Set.Finite.List
import Mathlib.Logic.Relation
import Mathlib.Order.WellFounded
import Mathlib.Data.Fintype.Card
import Mathlib.Order.RelIso.Set

/-!
# InferStack.Kit.Descent

Questions that are right if their own draw is and all their steps are.

The steps are asked in order, up to the first that is wrong, and a step that is
the question itself is left out.  `descend` is bounded by a depth:

* `descend_answer` — an answer is right exactly if all reachable draws are;
* `exists_descend_iff` — there is an answer at some depth exactly if no question
  that is reached by asking asks for itself again.
-/

namespace Kit

variable {α : Type*} [DecidableEq α] (own : α → Bool) (steps : α → List α)

/-- Ask some steps of a question, up to the first that is wrong. -/
def descendSteps (ask : α → Option Bool) (q : α) : List α → Option Bool
  | [] => some true
  | k :: ks =>
      if k = q then descendSteps ask q ks
      else
        match ask k with
        | none => none
        | some false => some false
        | some true => descendSteps ask q ks

/-- Ask a question, at most so deep. -/
def descend : Nat → α → Option Bool
  | 0, _ => none
  | n + 1, q =>
      if own q then descendSteps (descend n) q (steps q)
      else some false

/-- A question and one of its steps. -/
def Step (q k : α) : Prop := k ∈ steps q

/-- The draws of all questions reached through the steps are right. -/
def AllRight (q : α) : Prop := ∀ k, Relation.ReflTransGen (Step steps) q k → own k = true

/-- A step that is asked: the question's own draw is right, it is another question, and all
other questions before it are right. -/
def Asks (q k : α) : Prop :=
  own q = true ∧ k ≠ q ∧ ∃ before after, steps q = before ++ k :: after ∧
    ∀ j ∈ before, j ≠ q → AllRight own steps j

/-- No question that is reached by asking asks for itself again. -/
def NoCircle (q : α) : Prop :=
  ∀ k, Relation.ReflTransGen (Asks own steps) q k → ¬ Relation.TransGen (Asks own steps) k k

variable {own steps}

omit [DecidableEq α] in
/-- A question is right if its draw is and all its other steps are. -/
theorem allRight_iff {q : α} : AllRight own steps q ↔
    own q = true ∧ ∀ k ∈ steps q, k ≠ q → AllRight own steps k := by
  constructor
  · intro h
    exact ⟨h q .refl, fun k hk _ j hj => h j (.head hk hj)⟩
  · rintro ⟨hown, hsteps⟩ j hj
    have hgen : ∀ i, Relation.ReflTransGen (Step steps) i j → (i = q → own j = true) ∧
        (AllRight own steps i → own j = true) := by
      intro i hi
      refine ⟨fun heq => ?_, fun h => h j hi⟩
      subst heq
      induction hi using Relation.ReflTransGen.head_induction_on with
      | refl => exact hown
      | @head a b hab hbj ih =>
          by_cases hself : b = a
          · subst hself
            exact ih hown hsteps hbj
          · exact hsteps b hab hself j hbj
    exact (hgen q hj).1 rfl

/-- What the steps of a question answer. -/
theorem descendSteps_answer {ask : α → Option Bool} {q : α} {ks : List α} {b : Bool}
    (h : descendSteps ask q ks = some b)
    (hask : ∀ k b, ask k = some b → (b = true ↔ AllRight own steps k)) :
    b = true ↔ ∀ k ∈ ks, k ≠ q → AllRight own steps k := by
  induction ks with
  | nil =>
      obtain rfl := Option.some.inj h
      simp
  | cons k ks ih =>
      unfold descendSteps at h
      by_cases heq : k = q
      · rw [if_pos heq] at h
        rw [ih h]
        simp [heq]
      · rw [if_neg heq] at h
        cases hk : ask k with
        | none =>
            rw [hk] at h
            contradiction
        | some a =>
            have hright := hask k a hk
            rw [hk] at h
            cases a with
            | false =>
                obtain rfl := Option.some.inj h
                have hwrong : ¬ AllRight own steps k := fun hall => by simpa using hright.mpr hall
                simp [heq, hwrong]
            | true =>
                have hall : AllRight own steps k := hright.mp rfl
                rw [ih h]
                simp [hall]

/-- An answer is right exactly if all reachable draws are. -/
theorem descend_answer {n : Nat} {q : α} {b : Bool} (h : descend own steps n q = some b) :
    b = true ↔ AllRight own steps q := by
  induction n generalizing q b with
  | zero => contradiction
  | succ n ih =>
      rw [allRight_iff]
      unfold descend at h
      by_cases hown : own q = true
      · rw [if_pos hown] at h
        rw [descendSteps_answer h fun k b hk => ih hk]
        simp [hown]
      · rw [if_neg hown] at h
        obtain rfl := Option.some.inj h
        simp [hown]

theorem descendSteps_mono {ask ask' : α → Option Bool} (hask : ∀ k b, ask k = some b → ask' k = some b)
    {q : α} {ks : List α} {b : Bool} (h : descendSteps ask q ks = some b) :
    descendSteps ask' q ks = some b := by
  induction ks with
  | nil => exact h
  | cons k ks ih =>
      unfold descendSteps at h ⊢
      by_cases heq : k = q
      · rw [if_pos heq] at h ⊢
        exact ih h
      · rw [if_neg heq] at h ⊢
        cases hk : ask k with
        | none =>
            rw [hk] at h
            contradiction
        | some a =>
            rw [hk] at h
            rw [hask k a hk]
            cases a with
            | false => exact h
            | true => exact ih h

/-- More depth changes no answer. -/
theorem descend_succ {n : Nat} {q : α} {b : Bool} (h : descend own steps n q = some b) :
    descend own steps (n + 1) q = some b := by
  induction n generalizing q b with
  | zero => contradiction
  | succ n ih =>
      unfold descend at h ⊢
      by_cases hown : own q = true
      · rw [if_pos hown] at h ⊢
        exact descendSteps_mono (fun k b hk => ih hk) h
      · rw [if_neg hown] at h ⊢
        exact h

theorem descend_mono {m n : Nat} (hmn : m ≤ n) {q : α} {b : Bool}
    (h : descend own steps m q = some b) : descend own steps n q = some b := by
  induction hmn with
  | refl => exact h
  | step _ ih => exact descend_succ ih

/-- If every step that is asked has an answer, the question has one. -/
theorem exists_descend_of_asks {q : α} (h : ∀ k, Asks own steps q k → ∃ n b,
    descend own steps n k = some b) : ∃ n b, descend own steps n q = some b := by
  by_cases hown : own q = true
  · have hgen : ∀ before after, steps q = before ++ after →
        (∀ j ∈ before, j ≠ q → AllRight own steps j) →
        ∃ n b, descendSteps (descend own steps n) q after = some b := by
      intro before after
      induction after generalizing before with
      | nil => intro _ _; exact ⟨0, true, rfl⟩
      | cons k after ih =>
          intro hsteps hbefore
          have hnext : (∀ j ∈ before ++ [k], j ≠ q → AllRight own steps j) →
              ∃ n b, descendSteps (descend own steps n) q after = some b :=
            fun hright => ih (before ++ [k]) (by simp [hsteps]) hright
          by_cases heq : k = q
          · obtain ⟨n, b, hrest⟩ := hnext (by
              intro j hj hne
              cases List.mem_append.mp hj with
              | inl hin => exact hbefore j hin hne
              | inr hin => exact absurd ((List.mem_singleton.mp hin).trans heq) hne)
            exact ⟨n, b, by rw [descendSteps, if_pos heq, hrest]⟩
          · obtain ⟨n, b, hk⟩ := h k ⟨hown, heq, before, after, hsteps, hbefore⟩
            cases b with
            | false => exact ⟨n, false, by rw [descendSteps, if_neg heq, hk]⟩
            | true =>
                obtain ⟨m, b, hrest⟩ := hnext (by
                  intro j hj hne
                  cases List.mem_append.mp hj with
                  | inl hin => exact hbefore j hin hne
                  | inr hin => exact List.mem_singleton.mp hin ▸ (descend_answer hk).mp rfl)
                have hmax := descend_mono (Nat.le_max_left n m) hk
                have hafter := descendSteps_mono
                  (fun k b hk => descend_mono (Nat.le_max_right n m) hk) hrest
                exact ⟨max n m, b, by rw [descendSteps, if_neg heq, hmax, hafter]⟩
    obtain ⟨n, b, hall⟩ := hgen [] (steps q) rfl (by simp)
    exact ⟨n + 1, b, by rw [descend, if_pos hown, hall]⟩
  · exact ⟨1, false, by rw [descend, if_neg hown]⟩

/-- An answer has an answer for every step that is asked. -/
theorem descend_of_asks {n : Nat} {q k : α} {b : Bool} (h : descend own steps (n + 1) q = some b)
    (hk : Asks own steps q k) : ∃ b', descend own steps n k = some b' := by
  obtain ⟨hown, hne, before, after, hsteps, hbefore⟩ := hk
  unfold descend at h
  rw [if_pos hown, hsteps] at h
  clear hsteps
  induction before with
  | nil =>
      rw [List.nil_append, descendSteps, if_neg hne] at h
      cases hask : descend own steps n k with
      | none =>
          rw [hask] at h
          contradiction
      | some b' => exact ⟨b', rfl⟩
  | cons j before ih =>
      have hrest := ih fun i hi => hbefore i (List.mem_cons_of_mem _ hi)
      rw [List.cons_append, descendSteps] at h
      by_cases heq : j = q
      · rw [if_pos heq] at h
        exact hrest h
      · rw [if_neg heq] at h
        cases hask : descend own steps n j with
        | none =>
            rw [hask] at h
            contradiction
        | some a =>
            obtain rfl : a = true := (descend_answer hask).mpr (hbefore j List.mem_cons_self heq)
            rw [hask] at h
            exact hrest h

/-- There is an answer exactly if asking always comes to an end. -/
theorem exists_descend_iff_acc {q : α} :
    (∃ n b, descend own steps n q = some b) ↔ Acc (fun k q => Asks own steps q k) q := by
  constructor
  · rintro ⟨n, b, h⟩
    induction n generalizing q b with
    | zero => contradiction
    | succ n ih =>
        refine ⟨q, fun k hk => ?_⟩
        obtain ⟨b', hb'⟩ := descend_of_asks h hk
        exact ih b' hb'
  · intro h
    induction h with
    | intro q _ ih => exact exists_descend_of_asks fun k hk => ih k hk

omit [DecidableEq α] in
theorem noCircle_of_acc {q : α} (h : Acc (fun k q => Asks own steps q k) q) :
    NoCircle own steps q := by
  intro k hk
  have hacc : Acc (fun k q => Asks own steps q k) k := by
    induction hk with
    | refl => exact h
    | tail _ hlast ih => exact ih.inv hlast
  clear hk
  induction hacc with
  | intro k _ ih =>
      intro hcircle
      obtain ⟨j, hkj, hjk⟩ := Relation.TransGen.head'_iff.mp hcircle
      exact ih j hkj (Relation.TransGen.tail' hjk hkj)

omit [DecidableEq α] in
/-- With finitely many steps, asking comes to an end unless it goes in a circle. -/
theorem acc_of_noCircle (hfinite : {k | ∃ q, k ∈ steps q}.Finite) {q : α}
    (h : NoCircle own steps q) : Acc (fun k q => Asks own steps q k) q := by
  have hreached : {k | Relation.ReflTransGen (Asks own steps) q k}.Finite := by
    refine (hfinite.insert q).subset fun k hk => ?_
    cases Relation.ReflTransGen.cases_tail hk with
    | inl heq => exact .inl heq
    | inr hlast =>
        obtain ⟨j, -, -, -, before, after, hsteps, -⟩ := hlast
        exact .inr ⟨j, by simp [hsteps]⟩
  have : Finite {k // Relation.ReflTransGen (Asks own steps) q k} := hreached
  let later : {k // Relation.ReflTransGen (Asks own steps) q k} →
      {k // Relation.ReflTransGen (Asks own steps) q k} → Prop :=
    fun k j => Relation.TransGen (Asks own steps) j.1 k.1
  have : IsTrans _ later := ⟨fun _ _ _ hab hbc => hbc.trans hab⟩
  have : Std.Irrefl later := ⟨fun k => h k.1 k.2⟩
  have hwf : WellFounded later := Finite.wellFounded_of_trans_of_irrefl later
  have hall : ∀ k : {k // Relation.ReflTransGen (Asks own steps) q k},
      Acc (fun k q => Asks own steps q k) k.1 := by
    intro k
    induction k using hwf.induction with
    | _ k ih => exact ⟨_, fun j hj => ih ⟨j, k.2.tail hj⟩ (.single hj)⟩
  exact hall ⟨q, .refl⟩

/-- There is an answer at some depth exactly if no question that is reached asks for itself. -/
theorem exists_descend_iff (hfinite : {k | ∃ q, k ∈ steps q}.Finite) {q : α} :
    (∃ n b, descend own steps n q = some b) ↔ NoCircle own steps q :=
  exists_descend_iff_acc.trans ⟨noCircle_of_acc, acc_of_noCircle hfinite⟩

end Kit
