import InferStack.Kit.Machine

/-!
# InferStack.Kit.Stutter

Two runs of one machine, the second with extra events between the first's.

A relation that matched steps keep, and that an extra step of the second run
cannot break, relates the two ends (`run_stutter`), and the two runs put out the
same: what the extra events do cannot be observed.
-/

namespace Kit

variable {σ ε β : Type*} {step : σ → ε → σ}

/-- What a run puts out, step by step. -/
def outputs (step : σ → ε → σ) (out : σ → ε → Option β) : σ → List ε → List β
  | _, [] => []
  | s, e :: es => (out s e).toList ++ outputs step out (step s e) es

/-- Extra events that keep a relation and put nothing out leave no trace. -/
theorem run_stutter {R : σ → σ → Prop} {ok : σ → ε → Prop} {extra : ε → Bool}
    {out : σ → ε → Option β}
    (hmatch : ∀ s t e, extra e = false → ok s e → R s t →
      R (step s e) (step t e) ∧ out t e = out s e)
    (hextra : ∀ s t e, extra e = true → R s t → R s (step t e) ∧ out t e = none)
    {s t : σ} (hR : R s t) {es : List ε}
    (hok : AllSteps step ok s (es.filter fun e => !extra e)) :
    R (run step s (es.filter fun e => !extra e)) (run step t es) ∧
      outputs step out t es = outputs step out s (es.filter fun e => !extra e) := by
  induction es generalizing s t with
  | nil => exact ⟨hR, rfl⟩
  | cons e es ih =>
      cases hextra' : extra e with
      | true =>
          have hfilter : (e :: es).filter (fun e => !extra e) = es.filter fun e => !extra e := by
            simp [hextra']
          rw [hfilter] at hok ⊢
          obtain ⟨hstep, hnone⟩ := hextra s t e hextra' hR
          obtain ⟨hend, hout⟩ := ih hstep hok
          refine ⟨hend, ?_⟩
          rw [outputs, hnone, ← hout]
          rfl
      | false =>
          have hfilter : (e :: es).filter (fun e => !extra e) =
              e :: es.filter fun e => !extra e := by
            simp [hextra']
          rw [hfilter] at hok ⊢
          obtain ⟨hstep, hsame⟩ := hmatch s t e hextra' hok.1 hR
          obtain ⟨hend, hout⟩ := ih hstep hok.2
          refine ⟨hend, ?_⟩
          rw [outputs, outputs, hsame, hout]

end Kit
