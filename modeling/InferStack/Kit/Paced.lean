import InferStack.Kit.Stutter
import Mathlib.Tactic.Linarith

/-!
# InferStack.Kit.Paced

What a run has put out so far, as part of an invariant, and how much a machine
puts out that keeps a pace: it acts only while a mark is before the deadline, and
each act moves the mark on by a gap.
-/

namespace Kit

variable {σ ε β : Type*} {step : σ → ε → σ} {out : σ → ε → Option β} {ok : σ → ε → Prop}

theorem allSteps_true {P : σ → ε → Prop} (h : ∀ s e, P s e) :
    ∀ (s : σ) (es : List ε), AllSteps step P s es
  | _, [] => trivial
  | s, e :: es => ⟨h s e, allSteps_true h (step s e) es⟩

/-- An invariant of the state and of what was put out before it. -/
theorem outputs_inv {I : List β → σ → Prop}
    (hstep : ∀ bs s e, I bs s → ok s e → I (bs ++ (out s e).toList) (step s e))
    {bs : List β} {s : σ} (h0 : I bs s) {es : List ε} (hok : AllSteps step ok s es) :
    I (bs ++ outputs step out s es) (run step s es) := by
  induction es generalizing bs s with
  | nil => simpa [outputs] using h0
  | cons e es ih =>
      have hnext := ih (hstep bs s e h0 hok.1) hok.2
      rw [List.append_assoc] at hnext
      simpa [outputs] using hnext

/-- The acts so far, against a mark that stood at `first` before them. -/
structure Paced (mark : σ → Int) (gap deadline first : Int) (bs : List β) (s : σ) : Prop where
  moved : first + gap * bs.length ≤ mark s
  inTime : bs = [] ∨ first + gap * (bs.length - 1) < deadline

/-- A machine that acts only while its mark is before the deadline, and moves the
mark on by `gap` each time, acts at most once more than the gaps that fit. -/
theorem outputs_paced {mark : σ → Int} {gap deadline : Int}
    (hkeep : ∀ s e, ok s e → mark s ≤ mark (step s e))
    (hact : ∀ s e b, ok s e → out s e = some b →
      mark s < deadline ∧ mark s + gap ≤ mark (step s e))
    {s : σ} {es : List ε} (hok : AllSteps step ok s es) :
    outputs step out s es = [] ∨
      mark s + gap * ((outputs step out s es).length - 1) < deadline := by
  have hstep : ∀ bs t e, Paced mark gap deadline (mark s) bs t → ok t e →
      Paced mark gap deadline (mark s) (bs ++ (out t e).toList) (step t e) := by
    intro bs t e h hte
    cases hout : out t e with
    | none =>
        have hmoved := h.moved
        have hlater := hkeep t e hte
        simp only [Option.toList_none, List.append_nil]
        exact ⟨by omega, h.inTime⟩
    | some b =>
        obtain ⟨hbefore, hlater⟩ := hact t e b hte hout
        have hmoved := h.moved
        have hlength : ((bs ++ [b]).length : Int) = bs.length + 1 := by simp
        simp only [Option.toList_some]
        constructor
        · rw [hlength]
          linarith
        · right
          rw [hlength]
          linarith
  have hinv := outputs_inv hstep ⟨by simp, .inl rfl⟩ hok
  simpa using hinv.inTime

end Kit
