import Mathlib.Data.List.Basic
import Mathlib.Order.Basic

/-!
# InferStack.Kit.Machine

Runs of a machine whose step is a function of the state and an event.

`AllSteps step P s es` says that `P` holds of every state and event along the
run of `es` from `s`.  The rules:

* `AllSteps.run_inv` — what every allowed step keeps holds at the end of a run
  of allowed steps;
* `AllSteps.of_inv` — an invariant that makes every allowed step good makes
  every step of an allowed run good;
* `allSteps_iff` — the run read prefix by prefix.
-/

namespace Kit

variable {σ ε : Type*} {step : σ → ε → σ} {P Q ok Inv : σ → ε → Prop}

/-- The state after a sequence of events. -/
def run (step : σ → ε → σ) (s : σ) (es : List ε) : σ := es.foldl step s

/-- A property of every step along a run. -/
def AllSteps (step : σ → ε → σ) (P : σ → ε → Prop) : σ → List ε → Prop
  | _, [] => True
  | s, e :: es => P s e ∧ AllSteps step P (step s e) es

instance AllSteps.decidable [∀ s e, Decidable (P s e)] :
    ∀ s es, Decidable (AllSteps step P s es)
  | _, [] => isTrue trivial
  | s, e :: es =>
      haveI := AllSteps.decidable (step s e) es
      inferInstanceAs (Decidable (P s e ∧ AllSteps step P (step s e) es))

@[simp] theorem run_nil (s : σ) : run step s [] = s := rfl

@[simp] theorem run_cons (s : σ) (e : ε) (es : List ε) :
    run step s (e :: es) = run step (step s e) es := rfl

theorem AllSteps.mono (h : ∀ s e, P s e → Q s e) {s : σ} {es : List ε}
    (hP : AllSteps step P s es) : AllSteps step Q s es := by
  induction es generalizing s with
  | nil => trivial
  | cons e es ih => exact ⟨h s e hP.1, ih hP.2⟩

theorem AllSteps.and {s : σ} {es : List ε} (hP : AllSteps step P s es)
    (hQ : AllSteps step Q s es) : AllSteps step (fun s e => P s e ∧ Q s e) s es := by
  induction es generalizing s with
  | nil => trivial
  | cons e es ih => exact ⟨⟨hP.1, hQ.1⟩, ih hP.2 hQ.2⟩

/-- What every allowed step keeps holds at the end of a run of allowed steps. -/
theorem AllSteps.run_inv {I : σ → Prop} (hstep : ∀ s e, I s → ok s e → I (step s e))
    {s : σ} {es : List ε} (h0 : I s) (hok : AllSteps step ok s es) : I (run step s es) := by
  induction es generalizing s with
  | nil => exact h0
  | cons e es ih => exact ih (hstep s e h0 hok.1) hok.2

/-- An invariant that makes every allowed step good makes every step of an
allowed run good. -/
theorem AllSteps.of_inv {I : σ → Prop} (hstep : ∀ s e, I s → ok s e → I (step s e))
    (hgood : ∀ s e, I s → ok s e → P s e) {s : σ} {es : List ε} (h0 : I s)
    (hok : AllSteps step ok s es) : AllSteps step P s es := by
  induction es generalizing s with
  | nil => trivial
  | cons e es ih => exact ⟨hgood s e h0 hok.1, ih (hstep s e h0 hok.1) hok.2⟩

theorem run_append (s : σ) (es es' : List ε) :
    run step s (es ++ es') = run step (run step s es) es' := List.foldl_append

/-- A run in two parts. -/
theorem allSteps_append {s : σ} {es es' : List ε} :
    AllSteps step P s (es ++ es') ↔ AllSteps step P s es ∧ AllSteps step P (run step s es) es' := by
  induction es generalizing s with
  | nil => simp [AllSteps]
  | cons e es ih =>
      rw [List.cons_append, AllSteps, ih, AllSteps, run_cons]
      exact and_assoc.symm

/-- A property of every step, read prefix by prefix. -/
theorem allSteps_iff {s : σ} {es : List ε} :
    AllSteps step P s es ↔ ∀ pre e, pre ++ [e] <+: es → P (run step s pre) e := by
  induction es generalizing s with
  | nil => simp [AllSteps]
  | cons e es ih =>
      rw [AllSteps, ih]
      constructor
      · rintro ⟨he, hes⟩ pre e' hpre
        cases pre with
        | nil =>
            obtain ⟨rfl, -⟩ := List.cons_prefix_cons.mp hpre
            exact he
        | cons a pre =>
            obtain ⟨rfl, hrest⟩ := List.cons_prefix_cons.mp hpre
            exact hes pre e' hrest
      · intro h
        refine ⟨h [] e (by simp), fun pre e' hpre => ?_⟩
        exact h (e :: pre) e' (List.cons_prefix_cons.mpr ⟨rfl, hpre⟩)

end Kit
