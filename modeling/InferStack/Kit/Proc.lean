import InferStack.Kit.Machine

/-!
# InferStack.Kit.Proc

Programs of atomic steps on a shared state, and rely-guarantee rules for them.

A `Proc` is a program whose steps are atomic: each reads the state and one
input (what the environment answers), writes the state, and returns or raises.
Between two steps others may move the state; after any of them the program may
be killed for good.

* `Holds` — under the assumptions `Rely`, every state the program passes through
  satisfies the invariant, every step of it the guarantee, and its exits the
  postconditions;
* `Holds.mono`, `Holds.bind`, `Holds.handle` — the proof rules for one state;
* `Triple` — the same for every state of a stable assertion, with its rules;
* `Sys` — one program at a time over a state, with crashes and disturbances;
* `Sys.run_inv`, `Sys.allSteps_guar` — what holds of programs holds of runs;
* `exec` — a program run alone to its end, with its rules;
* `Each` — what every single step of a program does, and `Sys.allSteps_moves`,
  what every event of a run then does.
-/

namespace Kit

/-- A program of atomic steps: `σ` is the state, `ι` the input of a step, `ε`
the errors, `α` the result. -/
inductive Proc (σ ι ε : Type) (α : Type) : Type 1 where
  | ret (a : α)
  | raise (e : ε)
  | atom {β : Type} (f : ι → σ → Except ε β × σ) (k : β → Proc σ ι ε α)

namespace Proc

variable {σ ι ε α β : Type}

/-- Sequencing; an error skips what follows. -/
def bind (p : Proc σ ι ε α) (k : α → Proc σ ι ε β) : Proc σ ι ε β :=
  match p with
  | .ret a => k a
  | .raise e => .raise e
  | .atom f k' => .atom f fun b => (k' b).bind k

/-- Catch errors, also those a step raises. -/
def handle (p : Proc σ ι ε α) (h : ε → Proc σ ι ε α) : Proc σ ι ε α :=
  match p with
  | .ret a => .ret a
  | .raise e => h e
  | .atom f k =>
      .atom (fun i s => (.ok (f i s).1, (f i s).2)) fun r =>
        match r with
        | .ok b => (k b).handle h
        | .error e => h e

instance : Monad (Proc σ ι ε) where
  pure := ret
  bind := bind

instance : MonadExcept ε (Proc σ ι ε) where
  throw := raise
  tryCatch := handle

/-- One atomic step. -/
def act (f : ι → σ → Except ε α × σ) : Proc σ ι ε α := .atom f .ret

end Proc

/-! ## rely and guarantee -/

/-- What a program may assume of its inputs and of what others do between its
steps, and what it must keep. -/
structure Rely (σ ι : Type) where
  /-- The steps that may happen: from a state, on an input, to a state. -/
  ok : σ → ι → σ → Prop
  /-- How others may move the state between two steps. -/
  moved : σ → σ → Prop
  /-- What holds of every state. -/
  inv : σ → Prop
  /-- What every step does. -/
  guar : σ → σ → Prop
  refl : ∀ s, moved s s
  guar_refl : ∀ s, guar s s
  trans : ∀ s₁ s₂ s₃, moved s₁ s₂ → moved s₂ s₃ → moved s₁ s₃

namespace Proc

variable {σ ι ε α β : Type}

/-- The state satisfies the invariant and `P`, whatever others do next. -/
def Stays (R : Rely σ ι) (P : σ → Prop) (s : σ) : Prop :=
  ∀ s', R.moved s s' → R.inv s' ∧ P s'

/-- From the state `s`, the program keeps the invariant and the guarantee, and
exits with `Q` or, raising, with `E`. -/
def Holds (R : Rely σ ι) (p : Proc σ ι ε α) (Q : α → σ → Prop) (E : ε → σ → Prop) (s : σ) :
    Prop :=
  match p with
  | .ret a => Stays R (Q a) s
  | .raise e => Stays R (E e) s
  | .atom f k => Stays R (fun s' => ∀ i, R.ok s' i (f i s').2 → R.guar s' (f i s').2 ∧
      match (f i s').1 with
      | .ok b => (k b).Holds R Q E (f i s').2
      | .error e => Stays R (E e) (f i s').2) s

variable {R : Rely σ ι}

theorem Stays.now {P : σ → Prop} {s : σ} (h : Stays R P s) : R.inv s ∧ P s := h s (R.refl s)

theorem Stays.moved {P : σ → Prop} {s s' : σ} (h : Stays R P s) (hm : R.moved s s') :
    Stays R P s' := fun s'' hm' => h s'' (R.trans s s' s'' hm hm')

theorem Stays.mono {P P' : σ → Prop} {s : σ} (hP : ∀ s, R.inv s → P s → P' s) (h : Stays R P s) :
    Stays R P' s := by
  intro s' hm
  have hs' := h s' hm
  exact ⟨hs'.1, hP s' hs'.1 hs'.2⟩

/-- What others do leaves the obligation of a program in place. -/
theorem Holds.moved {p : Proc σ ι ε α} {Q : α → σ → Prop} {E : ε → σ → Prop} {s s' : σ}
    (h : p.Holds R Q E s) (hm : R.moved s s') : p.Holds R Q E s' := by
  cases p with
  | ret a => exact Stays.moved h hm
  | raise e => exact Stays.moved h hm
  | atom f k => exact Stays.moved h hm

theorem Holds.inv {p : Proc σ ι ε α} {Q : α → σ → Prop} {E : ε → σ → Prop} {s : σ}
    (h : p.Holds R Q E s) : R.inv s := by
  cases p with
  | ret a => exact (Stays.now h).1
  | raise e => exact (Stays.now h).1
  | atom f k => exact (Stays.now h).1

/-- Weaker postconditions. -/
theorem Holds.mono {p : Proc σ ι ε α} {Q Q' : α → σ → Prop} {E E' : ε → σ → Prop} {s : σ}
    (h : p.Holds R Q E s) (hQ : ∀ a s, R.inv s → Q a s → Q' a s)
    (hE : ∀ e s, R.inv s → E e s → E' e s) : p.Holds R Q' E' s := by
  induction p generalizing s with
  | ret a => exact Stays.mono (hQ a) h
  | raise e => exact Stays.mono (hE e) h
  | atom f k ih =>
      refine Stays.mono (fun s' _ hs' i hok => ?_) h
      have hstep := hs' i hok
      refine ⟨hstep.1, ?_⟩
      cases hres : (f i s').1 with
      | ok b => rw [hres] at hstep; exact ih b hstep.2
      | error e => rw [hres] at hstep; exact Stays.mono (hE e) hstep.2

/-- Sequencing: what the first part exits with is where the second starts. -/
theorem Holds.bind {p : Proc σ ι ε α} {k : α → Proc σ ι ε β} {Q : β → σ → Prop}
    {E : ε → σ → Prop} {s : σ}
    (h : p.Holds R (fun a => (k a).Holds R Q E) E s) : (p >>= k).Holds R Q E s := by
  induction p generalizing s with
  | ret a => exact (Stays.now h).2
  | raise e => exact h
  | atom f k' ih =>
      refine Stays.mono (fun s' _ hs' i hok => ?_) h
      have hstep := hs' i hok
      refine ⟨hstep.1, ?_⟩
      cases hres : (f i s').1 with
      | ok b => rw [hres] at hstep; exact ih b hstep.2
      | error e => rw [hres] at hstep; exact hstep.2

theorem Holds.pure {a : α} {Q : α → σ → Prop} {E : ε → σ → Prop} {s : σ}
    (h : Stays R (Q a) s) : (Pure.pure a : Proc σ ι ε α).Holds R Q E s := h

theorem Holds.throw {e : ε} {Q : α → σ → Prop} {E : ε → σ → Prop} {s : σ}
    (h : Stays R (E e) s) : (MonadExcept.throw e : Proc σ ι ε α).Holds R Q E s := h

/-- Catching: where the program raises is where the handler starts. -/
theorem Holds.handle {p : Proc σ ι ε α} {k : ε → Proc σ ι ε α} {Q : α → σ → Prop}
    {E : ε → σ → Prop} {s : σ}
    (h : p.Holds R Q (fun e => (k e).Holds R Q E) s) : (p.handle k).Holds R Q E s := by
  induction p generalizing s with
  | ret a => exact h
  | raise e => exact (Stays.now h).2
  | atom f k' ih =>
      rw [Proc.handle, Holds]
      intro s' hm
      refine ⟨(h s' hm).1, fun i hok => ?_⟩
      have hstep := (h s' hm).2 i hok
      refine ⟨hstep.1, ?_⟩
      cases hres : (f i s').1 with
      | ok b => rw [hres] at hstep; exact ih b hstep.2
      | error e => rw [hres] at hstep; exact (Stays.now hstep.2).2

/-- One atomic step. -/
theorem Holds.act {f : ι → σ → Except ε α × σ} {Q : α → σ → Prop} {E : ε → σ → Prop} {s : σ}
    (h : Stays R (fun s' => ∀ i, R.ok s' i (f i s').2 → R.guar s' (f i s').2 ∧
      match (f i s').1 with
      | .ok a => Stays R (Q a) (f i s').2
      | .error e => Stays R (E e) (f i s').2) s) : (Proc.act f).Holds R Q E s := by
  refine Stays.mono (fun s' _ hs' i hok => ?_) h
  have hstep := hs' i hok
  refine ⟨hstep.1, ?_⟩
  cases hres : (f i s').1 with
  | ok a => rw [hres] at hstep; exact hstep.2
  | error e => rw [hres] at hstep; exact hstep.2

/-! ## triples -/

/-- An assertion that others do not disturb, and that implies the invariant. -/
structure Assertion (R : Rely σ ι) where
  holds : σ → Prop
  inv : ∀ s, holds s → R.inv s
  moved : ∀ s s', holds s → R.moved s s' → holds s'

theorem Assertion.stays (P : Assertion R) {s : σ} (h : P.holds s) : Stays R P.holds s :=
  fun s' hm => ⟨P.inv s' (P.moved s s' h hm), P.moved s s' h hm⟩

/-- From every state of `P` the program keeps the invariant and the guarantee,
and exits in `Q` or, raising, in `E`. -/
def Triple (P : Assertion R) (p : Proc σ ι ε α) (Q : α → Assertion R) (E : ε → Assertion R) :
    Prop :=
  ∀ s, P.holds s → p.Holds R (fun a => (Q a).holds) (fun e => (E e).holds) s

namespace Triple

variable {P P' : Assertion R} {p : Proc σ ι ε α} {Q Q' : α → Assertion R} {E E' : ε → Assertion R}

theorem conseq (h : Triple P p Q E) (hP : ∀ s, P'.holds s → P.holds s)
    (hQ : ∀ a s, (Q a).holds s → (Q' a).holds s) (hE : ∀ e s, (E e).holds s → (E' e).holds s) :
    Triple P' p Q' E' :=
  fun s hs => (h s (hP s hs)).mono (fun a s _ => hQ a s) (fun e s _ => hE e s)

theorem bind {k : α → Proc σ ι ε β} {Q₂ : β → Assertion R} (h : Triple P p Q E)
    (hk : ∀ a, Triple (Q a) (k a) Q₂ E) : Triple P (p >>= k) Q₂ E :=
  fun s hs => ((h s hs).mono (fun a s _ ha => hk a s ha) (fun _ _ _ he => he)).bind

theorem handle {k : ε → Proc σ ι ε α} (h : Triple P p Q E') (hk : ∀ e, Triple (E' e) (k e) Q E) :
    Triple P (p.handle k) Q E :=
  fun s hs => ((h s hs).mono (fun _ _ _ ha => ha) (fun e s _ he => hk e s he)).handle

theorem pure {a : α} (h : ∀ s, P.holds s → (Q a).holds s) :
    Triple P (Pure.pure a : Proc σ ι ε α) Q E :=
  fun s hs => Holds.pure ((Q a).stays (h s hs))

theorem throw {e : ε} (h : ∀ s, P.holds s → (E e).holds s) :
    Triple P (MonadExcept.throw e : Proc σ ι ε α) Q E :=
  fun s hs => Holds.throw ((E e).stays (h s hs))

/-- One atomic step. -/
theorem act {f : ι → σ → Except ε α × σ}
    (h : ∀ s i, P.holds s → R.ok s i (f i s).2 → R.guar s (f i s).2 ∧
      (∀ a, (f i s).1 = .ok a → (Q a).holds (f i s).2) ∧
      (∀ e, (f i s).1 = .error e → (E e).holds (f i s).2)) : Triple P (Proc.act f) Q E := by
  intro s hs
  refine Holds.act (Stays.mono (fun s' _ hs' i hok => ?_) (P.stays hs))
  obtain ⟨hguar, hret, herr⟩ := h s' i hs' hok
  refine ⟨hguar, ?_⟩
  cases hres : (f i s').1 with
  | ok a => exact (Q a).stays (hret a hres)
  | error e => exact (E e).stays (herr e hres)

end Triple

end Proc

/-! ## one program at a time -/

/-- A state and the program that runs on it, if one does. -/
structure Sys (σ ι ε α : Type) where
  state : σ
  running : Option (Proc σ ι ε α) := none

/-- What happens to a system: a program starts (only when none runs), takes a
step, or is killed; someone else moves the state. -/
inductive SysEvent (Op ι J : Type) where
  | start (op : Op)
  | step (input : ι)
  | crash
  | disturb (j : J)

namespace Sys

variable {σ ι ε α Op J : Type}

/-- One step of the running program; a finished one leaves. -/
def stepProc (sys : Sys σ ι ε α) (input : ι) : Sys σ ι ε α :=
  match sys.running with
  | some (.atom f k) =>
      { state := (f input sys.state).2
        running := some <| match (f input sys.state).1 with
          | .ok b => k b
          | .error e => .raise e }
  | _ => { sys with running := none }

/-- One event. -/
def next (enter : Op → σ → σ) (prog : Op → Proc σ ι ε α) (disturb : J → σ → σ)
    (sys : Sys σ ι ε α) (e : SysEvent Op ι J) : Sys σ ι ε α :=
  match e with
  | .start op =>
      match sys.running with
      | none => { state := enter op sys.state, running := some (prog op) }
      | some _ => sys
  | .step input => sys.stepProc input
  | .crash => { sys with running := none }
  | .disturb j => { sys with state := disturb j sys.state }

/-- An event the assumptions allow. -/
def Allowed (R : Rely σ ι) (startOk : Op → σ → Prop) (sys : Sys σ ι ε α) (e : SysEvent Op ι J) :
    Prop :=
  match e with
  | .start op => sys.running.isSome ∨ startOk op sys.state
  | .step input => R.ok sys.state input (sys.stepProc input).state
  | _ => True

/-- The programs of a system keep its invariant and guarantee. -/
structure Kept (R : Rely σ ι) (startOk : Op → σ → Prop) (enter : Op → σ → σ)
    (prog : Op → Proc σ ι ε α) (disturb : J → σ → σ) : Prop where
  disturbed : ∀ j s, R.moved s (disturb j s)
  stable : ∀ s s', R.inv s → R.moved s s' → R.inv s'
  start : ∀ op s, R.inv s → startOk op s →
    (prog op).Holds R (fun _ _ => True) (fun _ _ => True) (enter op s)

/-- Between events: the invariant holds, and the running program goes on
keeping it, to leave in `E`. -/
structure Going (R : Rely σ ι) (E : σ → Prop) (sys : Sys σ ι ε α) : Prop where
  inv : R.inv sys.state
  running : ∀ p, sys.running = some p → p.Holds R (fun _ => E) (fun _ => E) sys.state

/-- The same, wherever the program leaves. -/
abbrev Good (R : Rely σ ι) (sys : Sys σ ι ε α) : Prop := Going R (fun _ => True) sys

/-- A step of the running program: it goes on, or it leaves in `E`. -/
theorem Going.step {R : Rely σ ι} {E : σ → Prop} {sys : Sys σ ι ε α} (h : Going R E sys)
    {input : ι} (hok : R.ok sys.state input (sys.stepProc input).state) :
    Going R E (sys.stepProc input) ∧
      (sys.running.isSome → (sys.stepProc input).running = none → E (sys.stepProc input).state) := by
  cases hrun : sys.running with
  | none => simp only [stepProc, hrun]; exact ⟨⟨h.inv, by simp⟩, by simp⟩
  | some p =>
      have hp := h.running p hrun
      cases p with
      | ret a =>
          have hend := (Proc.Stays.now hp).2
          simp only [stepProc, hrun]
          exact ⟨⟨h.inv, by simp⟩, fun _ _ => hend⟩
      | raise e =>
          have hend := (Proc.Stays.now hp).2
          simp only [stepProc, hrun]
          exact ⟨⟨h.inv, by simp⟩, fun _ _ => hend⟩
      | atom f k =>
          have hok' : R.ok sys.state input (f input sys.state).2 := by
            simpa only [stepProc, hrun] using hok
          have hstep := (Proc.Stays.now hp).2 input hok'
          simp only [stepProc, hrun]
          refine ⟨?_, fun _ hnone => by contradiction⟩
          cases hres : (f input sys.state).1 with
          | ok b =>
              rw [hres] at hstep
              refine ⟨hstep.2.inv, fun q hq => ?_⟩
              obtain rfl := Option.some.inj hq
              exact hstep.2
          | error err =>
              rw [hres] at hstep
              refine ⟨(Proc.Stays.now hstep.2).1, fun q hq => ?_⟩
              obtain rfl := Option.some.inj hq
              exact hstep.2

variable {R : Rely σ ι} {startOk : Op → σ → Prop} {enter : Op → σ → σ}
  {prog : Op → Proc σ ι ε α} {disturb : J → σ → σ}

theorem Good.next (hk : Kept R startOk enter prog disturb) {sys : Sys σ ι ε α} (h : Good R sys)
    {e : SysEvent Op ι J} (hok : Allowed R startOk sys e) :
    Good R (sys.next enter prog disturb e) := by
  cases e with
  | start op =>
      cases hrun : sys.running with
      | some p => simpa only [Sys.next, hrun] using h
      | none =>
          have hstart : startOk op sys.state := by
            cases hok with
            | inl hbusy => rw [hrun] at hbusy; contradiction
            | inr hs => exact hs
          have hholds := hk.start op sys.state h.inv hstart
          simp only [Sys.next, hrun]
          refine ⟨hholds.inv, fun p hp => ?_⟩
          obtain rfl := Option.some.inj hp
          exact hholds
  | step input => exact (Going.step h hok).1
  | crash => exact ⟨h.inv, by simp [Sys.next]⟩
  | disturb j =>
      refine ⟨hk.stable _ _ h.inv (hk.disturbed j _), fun p hp => ?_⟩
      exact (h.running p hp).moved (hk.disturbed j _)

/-- Along a run of allowed events the invariant holds. -/
theorem run_inv (hk : Kept R startOk enter prog disturb) {sys : Sys σ ι ε α} (h : Good R sys)
    {es : List (SysEvent Op ι J)}
    (hok : AllSteps (next enter prog disturb) (Allowed R startOk) sys es) :
    Good R (run (next enter prog disturb) sys es) :=
  AllSteps.run_inv (fun _ _ hg hok' => hg.next hk hok') h hok

/-- Along a run of allowed events every event keeps the guarantee, if starting
and being disturbed do. -/
theorem allSteps_guar (hk : Kept R startOk enter prog disturb) {sys : Sys σ ι ε α}
    (henter : ∀ op s, R.guar s (enter op s))
    (hdisturb : ∀ j s, R.guar s (disturb j s)) (h : Good R sys) {es : List (SysEvent Op ι J)}
    (hok : AllSteps (next enter prog disturb) (Allowed R startOk) sys es) :
    AllSteps (next enter prog disturb) (fun sys e =>
      R.guar sys.state (sys.next enter prog disturb e).state) sys es := by
  refine AllSteps.of_inv (fun _ _ hg hok' => hg.next hk hok') ?_ h hok
  intro sys' e hg hok'
  cases e with
  | start op =>
      cases hrun : sys'.running with
      | none => simp only [Sys.next, hrun]; exact henter op _
      | some p => simp only [Sys.next, hrun]; exact R.guar_refl _
  | step input =>
      cases hrun : sys'.running with
      | none => simp only [Sys.next, stepProc, hrun]; exact R.guar_refl _
      | some p =>
          cases p with
          | ret a => simp only [Sys.next, stepProc, hrun]; exact R.guar_refl _
          | raise e => simp only [Sys.next, stepProc, hrun]; exact R.guar_refl _
          | atom f k =>
              have hstepOk : R.ok sys'.state input (f input sys'.state).2 := by
                simpa only [Allowed, stepProc, hrun] using hok'
              have hstep := (Proc.Stays.now (hg.running _ hrun)).2 input hstepOk
              simp only [Sys.next, stepProc, hrun]
              exact hstep.1
  | crash => exact R.guar_refl _
  | disturb j => exact hdisturb j _

end Sys

/-! ## running alone -/

namespace Proc

variable {σ ι ε α β : Type}

theorem bind_assoc' {γ : Type} (p : Proc σ ι ε α) (k : α → Proc σ ι ε β) (l : β → Proc σ ι ε γ) :
    (p.bind k).bind l = p.bind fun a => (k a).bind l := by
  induction p with
  | ret a => rfl
  | raise e => rfl
  | atom f k' ih => simp only [bind, ih]

theorem bind_ret (p : Proc σ ι ε α) : p.bind .ret = p := by
  induction p with
  | ret a => rfl
  | raise e => rfl
  | atom f k' ih => simp only [bind, ih]

instance : LawfulMonad (Proc σ ι ε) :=
  LawfulMonad.mk' (Proc σ ι ε) (fun p => bind_ret p) (fun _ _ => rfl) (fun p k l => bind_assoc' p k l)

/-- Run a program to its end, each step on the next input; what is left of the
inputs is returned with the state. -/
def exec (p : Proc σ ι ε α) (inputs : Nat → ι) (s : σ) : Except ε α × (Nat → ι) × σ :=
  match p with
  | .ret a => (.ok a, inputs, s)
  | .raise e => (.error e, inputs, s)
  | .atom f k =>
      match (f (inputs 0) s).1 with
      | .ok b => (k b).exec (fun n => inputs (n + 1)) (f (inputs 0) s).2
      | .error e => (.error e, fun n => inputs (n + 1), (f (inputs 0) s).2)

@[simp] theorem exec_pure (a : α) (inputs : Nat → ι) (s : σ) :
    (pure a : Proc σ ι ε α).exec inputs s = (.ok a, inputs, s) := rfl

@[simp] theorem exec_throw (e : ε) (inputs : Nat → ι) (s : σ) :
    (throw e : Proc σ ι ε α).exec inputs s = (.error e, inputs, s) := rfl

theorem exec_atom_ok {f : ι → σ → Except ε β × σ} {k : β → Proc σ ι ε α} {inputs : Nat → ι}
    {s : σ} {b : β} (h : (f (inputs 0) s).1 = .ok b) :
    (atom f k).exec inputs s = (k b).exec (fun n => inputs (n + 1)) (f (inputs 0) s).2 := by
  rw [exec, h]

theorem exec_atom_error {f : ι → σ → Except ε β × σ} {k : β → Proc σ ι ε α} {inputs : Nat → ι}
    {s : σ} {e : ε} (h : (f (inputs 0) s).1 = .error e) :
    (atom f k).exec inputs s = (.error e, fun n => inputs (n + 1), (f (inputs 0) s).2) := by
  rw [exec, h]

theorem exec_act (f : ι → σ → Except ε α × σ) (inputs : Nat → ι) (s : σ) :
    (act f).exec inputs s = ((f (inputs 0) s).1, fun n => inputs (n + 1), (f (inputs 0) s).2) := by
  cases hres : (f (inputs 0) s).1 with
  | ok b => exact exec_atom_ok hres
  | error e => exact exec_atom_error hres

theorem exec_bind (p : Proc σ ι ε α) (k : α → Proc σ ι ε β) (inputs : Nat → ι) (s : σ) :
    (p >>= k).exec inputs s =
      match p.exec inputs s with
      | (.ok a, inputs', s') => (k a).exec inputs' s'
      | (.error e, inputs', s') => (.error e, inputs', s') := by
  induction p generalizing inputs s with
  | ret a => rfl
  | raise e => rfl
  | atom f k' ih =>
      change (atom f fun b => (k' b) >>= k).exec inputs s = _
      cases hres : (f (inputs 0) s).1 with
      | ok b =>
          rw [exec_atom_ok hres, exec_atom_ok hres]
          exact ih b _ _
      | error e => rw [exec_atom_error hres, exec_atom_error hres]

/-- A sequence that returns has run both its parts. -/
theorem exec_bind_ok {p : Proc σ ι ε α} {k : α → Proc σ ι ε β} {inputs inputs' : Nat → ι}
    {s s' : σ} {b : β} (h : (p >>= k).exec inputs s = (.ok b, inputs', s')) :
    ∃ a inputs₁ s₁, p.exec inputs s = (.ok a, inputs₁, s₁) ∧
      (k a).exec inputs₁ s₁ = (.ok b, inputs', s') := by
  rw [exec_bind] at h
  split at h
  · rename_i a inputs₁ s₁ hp
    exact ⟨a, inputs₁, s₁, hp, h⟩
  · simp at h

theorem exec_handle (p : Proc σ ι ε α) (k : ε → Proc σ ι ε α) (inputs : Nat → ι) (s : σ) :
    (p.handle k).exec inputs s =
      match p.exec inputs s with
      | (.ok a, inputs', s') => (.ok a, inputs', s')
      | (.error e, inputs', s') => (k e).exec inputs' s' := by
  induction p generalizing inputs s with
  | ret a => rfl
  | raise e => rfl
  | atom f k' ih =>
      rw [handle, exec_atom_ok rfl]
      cases hres : (f (inputs 0) s).1 with
      | ok b =>
          rw [exec_atom_ok hres]
          exact ih b _ _
      | error e => rw [exec_atom_error hres]

/-- The inputs left are the later ones. -/
theorem exec_inputs (p : Proc σ ι ε α) (inputs : Nat → ι) (s : σ) :
    ∃ used, (p.exec inputs s).2.1 = fun n => inputs (n + used) := by
  induction p generalizing inputs s with
  | ret a => exact ⟨0, rfl⟩
  | raise e => exact ⟨0, rfl⟩
  | atom f k ih =>
      cases hres : (f (inputs 0) s).1 with
      | ok b =>
          rw [exec_atom_ok hres]
          obtain ⟨used, hused⟩ := ih b (fun n => inputs (n + 1)) (f (inputs 0) s).2
          exact ⟨used + 1, hused⟩
      | error e =>
          rw [exec_atom_error hres]
          exact ⟨1, rfl⟩

end Proc

/-! ## every step -/

namespace Proc

variable {σ ι ε α β : Type} {K : ι → σ → σ → Prop}

/-- Every step of the program is one of `K`, whatever it finds. -/
def Each (K : ι → σ → σ → Prop) (p : Proc σ ι ε α) : Prop :=
  match p with
  | .ret _ => True
  | .raise _ => True
  | .atom f k => (∀ i s, K i s (f i s).2) ∧ ∀ b, (k b).Each K

namespace Each

theorem pure (a : α) : (Pure.pure a : Proc σ ι ε α).Each K := trivial

theorem throw (e : ε) : (MonadExcept.throw e : Proc σ ι ε α).Each K := trivial

theorem act {f : ι → σ → Except ε α × σ} (h : ∀ i s, K i s (f i s).2) : (Proc.act f).Each K :=
  ⟨h, fun _ => trivial⟩

theorem bind {p : Proc σ ι ε α} {k : α → Proc σ ι ε β} (hp : p.Each K) (hk : ∀ a, (k a).Each K) :
    (p >>= k).Each K := by
  induction p with
  | ret a => exact hk a
  | raise e => trivial
  | atom f k' ih => exact ⟨hp.1, fun b => ih b (hp.2 b)⟩

theorem handle {p : Proc σ ι ε α} {k : ε → Proc σ ι ε α} (hp : p.Each K)
    (hk : ∀ e, (k e).Each K) : (p.handle k).Each K := by
  induction p with
  | ret a => trivial
  | raise e => exact hk e
  | atom f k' ih =>
      rw [Proc.handle, Each]
      refine ⟨hp.1, fun r => ?_⟩
      cases r with
      | ok b => exact ih b (hp.2 b)
      | error e => exact hk e

/-- What every step does, a program run alone does. -/
theorem exec {R : σ → σ → Prop} (hrefl : ∀ s, R s s)
    (htrans : ∀ s₁ s₂ s₃, R s₁ s₂ → R s₂ s₃ → R s₁ s₃) {p : Proc σ ι ε α}
    (hp : p.Each fun _ => R) (inputs : Nat → ι) (s : σ) : R s (p.exec inputs s).2.2 := by
  induction p generalizing inputs s with
  | ret a => exact hrefl s
  | raise e => exact hrefl s
  | atom f k ih =>
      have hstep := hp.1 (inputs 0) s
      unfold Proc.exec
      cases (f (inputs 0) s).1 with
      | ok b => exact htrans _ _ _ hstep (ih b (hp.2 b) _ _)
      | error e => exact hstep

end Each

end Proc

namespace Sys

variable {σ ι ε α Op J : Type} {enter : Op → σ → σ} {prog : Op → Proc σ ι ε α}
  {disturb : J → σ → σ} {K : ι → σ → σ → Prop}

/-- What an event does to the state, when every step is one of `K`. -/
def Moves (K : ι → σ → σ → Prop) (enter : Op → σ → σ) (disturb : J → σ → σ) (s s' : σ) :
    SysEvent Op ι J → Prop
  | .start op => s' = s ∨ s' = enter op s
  | .step input => s' = s ∨ K input s s'
  | .crash => s' = s
  | .disturb j => s' = disturb j s

theorem moves_next (hprog : ∀ op, (prog op).Each K) {sys : Sys σ ι ε α}
    (hrun : ∀ p, sys.running = some p → p.Each K) (e : SysEvent Op ι J) :
    Moves K enter disturb sys.state (sys.next enter prog disturb e).state e ∧
      ∀ p, (sys.next enter prog disturb e).running = some p → p.Each K := by
  cases e with
  | start op =>
      cases hsys : sys.running with
      | none =>
          simp only [next, hsys, Moves]
          refine ⟨.inr trivial, fun p hp => ?_⟩
          obtain rfl := Option.some.inj hp
          exact hprog op
      | some p =>
          simp only [next, hsys, Moves]
          exact ⟨.inl trivial, fun q hq => hrun q (hsys.trans hq)⟩
  | step input =>
      cases hsys : sys.running with
      | none => simp [next, stepProc, hsys, Moves]
      | some p =>
          have hp := hrun p hsys
          cases p with
          | ret a => simp [next, stepProc, hsys, Moves]
          | raise e => simp [next, stepProc, hsys, Moves]
          | atom f k =>
              simp only [next, stepProc, hsys, Moves]
              refine ⟨.inr (hp.1 input sys.state), fun q hq => ?_⟩
              obtain rfl := Option.some.inj hq
              cases (f input sys.state).1 with
              | ok b => exact hp.2 b
              | error e => trivial
  | crash => simp [next, Moves]
  | disturb j => exact ⟨rfl, hrun⟩

variable (enter disturb) in
/-- Along a run every event does what the steps of the programs do. -/
theorem allSteps_moves (hprog : ∀ op, (prog op).Each K) {sys : Sys σ ι ε α}
    (hrun : ∀ p, sys.running = some p → p.Each K) (es : List (SysEvent Op ι J)) :
    AllSteps (next enter prog disturb) (fun sys e =>
      Moves K enter disturb sys.state (sys.next enter prog disturb e).state e) sys es := by
  induction es generalizing sys with
  | nil => trivial
  | cons e es ih =>
      obtain ⟨hmoves, hrest⟩ := moves_next hprog hrun e
      exact ⟨hmoves, ih hrest⟩

end Sys

end Kit
