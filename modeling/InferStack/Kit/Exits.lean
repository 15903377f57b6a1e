import InferStack.Kit.Proc

/-!
# InferStack.Kit.Exits

How a program leaves a system it has to itself: no other program starts and
nobody kills it, but others go on moving the state.

What `Holds` says of the program then holds of what is left of it after any run
(`Sys.run_holds`), so where it has raised, its error postcondition holds
(`Sys.run_raised`).
-/

namespace Kit

/-- What a program has raised. -/
def Proc.raised {σ ι ε α : Type} : Proc σ ι ε α → Option ε
  | .raise e => some e
  | .ret _ => none
  | .atom _ _ => none

theorem Proc.raised_eq_some {σ ι ε α : Type} {p : Proc σ ι ε α} {e : ε} :
    p.raised = some e ↔ p = .raise e := by
  cases p <;> simp [Proc.raised]

namespace Sys

variable {σ ι ε α Op J : Type} {R : Rely σ ι} {enter : Op → σ → σ} {prog : Op → Proc σ ι ε α}
  {disturb : J → σ → σ} {Q : α → σ → Prop} {E : ε → σ → Prop}

/-- The running program steps on an allowed input, or others move the state. -/
def Alone (R : Rely σ ι) (sys : Sys σ ι ε α) (e : SysEvent Op ι J) : Prop :=
  match e with
  | .step input => R.ok sys.state input (sys.stepProc input).state
  | .disturb _ => True
  | .start _ => False
  | .crash => False

/-- What is left of the running program, if anything, still keeps its word. -/
def Leaves (R : Rely σ ι) (Q : α → σ → Prop) (E : ε → σ → Prop) (sys : Sys σ ι ε α) : Prop :=
  ∀ p, sys.running = some p → p.Holds R Q E sys.state

theorem Leaves.stepProc {sys : Sys σ ι ε α} (h : Leaves R Q E sys) {input : ι}
    (hok : R.ok sys.state input (sys.stepProc input).state) :
    Leaves R Q E (sys.stepProc input) := by
  cases hrun : sys.running with
  | none => simp [Leaves, Sys.stepProc, hrun]
  | some p =>
      have hp := h p hrun
      cases p with
      | ret a => simp [Leaves, Sys.stepProc, hrun]
      | raise e => simp [Leaves, Sys.stepProc, hrun]
      | atom f k =>
          have hok' : R.ok sys.state input (f input sys.state).2 := by
            simpa only [Sys.stepProc, hrun] using hok
          have hstep := (Proc.Stays.now hp).2 input hok'
          simp only [Leaves, Sys.stepProc, hrun]
          intro q hq
          obtain rfl := Option.some.inj hq
          cases hres : (f input sys.state).1 with
          | ok b =>
              rw [hres] at hstep
              exact hstep.2
          | error e =>
              rw [hres] at hstep
              exact hstep.2

theorem run_holds (hdisturb : ∀ j s, R.moved s (disturb j s)) {sys : Sys σ ι ε α}
    (h : Leaves R Q E sys) {es : List (SysEvent Op ι J)}
    (hes : AllSteps (next enter prog disturb) (Alone R) sys es) :
    Leaves R Q E (run (next enter prog disturb) sys es) := by
  refine AllSteps.run_inv (fun sys e h he => ?_) h hes
  cases e with
  | step input => exact h.stepProc he
  | disturb j => exact fun p hp => (h p hp).moved (hdisturb j _)
  | start op => exact he.elim
  | crash => exact he.elim

/-- Where the program has raised. -/
theorem run_raised (hdisturb : ∀ j s, R.moved s (disturb j s)) {sys : Sys σ ι ε α}
    (h : Leaves R Q E sys) {es : List (SysEvent Op ι J)}
    (hes : AllSteps (next enter prog disturb) (Alone R) sys es) {e : ε}
    (hraised : (run (next enter prog disturb) sys es).running = some (.raise e)) :
    E e (run (next enter prog disturb) sys es).state :=
  (Proc.Stays.now (run_holds hdisturb h hes _ hraised)).2

end Sys

end Kit
