import InferStack.Kit.Paced
import InferStack.Kit.Pool
import InferStack.Ledger.Protection

/-!
# InferStack.Controller.Waiting

Waiting for an acquired endpoint to answer, and making room for it.

A wait holds no lock: the ledger moves on between its rounds.  A round probes
the endpoints that have not answered yet, and may pick an idle deployment to
evict for those that are short of capacity; the eviction is a transaction of its
own, some steps later.  So the wait and the ledger are one machine, `waitStep`,
whose events are the ledger's operations and the steps of the wait.

* `wait_answers` — what a wait answers, read off the rounds it took;
* `wait_spares` — whom it evicts, and how often.
-/

namespace InferStack

open Kit

variable {π δ : Type}

/-! ## one round -/

/-- Result of a single readiness probe for one served endpoint. -/
structure Readiness where
  ready : Bool
  detail : String := ""
  fatal : Bool := false
  needsRoom : Bool := false

structure WaitResult where
  ready : Bool
  pending : List (String × String) := []
  failures : List (String × String × String) := []
  deriving DecidableEq

/-- Seconds between two evictions made to fit leased demand. -/
def roomCooldown : Int := 30

/-- The endpoints to wait on, deployment by deployment. -/
def waitPairs (deployments : List Deployment) (endpoints : Option (List String)) :
    List (Deployment × String) :=
  deployments.flatMap fun d =>
    ((d.served.keys.insertionSort (· ≤ ·)).filter fun ep => endpoints.all (ep ∈ ·)).map (d, ·)

/-- What one round of a wait reads: the probes, the backend's answer to which
idle deployments could free room, and the clock at the deadline, at the cooldown
and at the ledger's report. -/
structure Look where
  probe : Deployment → String → Readiness
  reclaimCandidates : Deployment → List Deployment → List String := fun _ _ => []
  checkedAt : Int
  roomAt : Int
  statusAt : Int

namespace Look

variable (l : Look) (pairs : List (Deployment × String))

/-- The endpoints that do not answer. -/
def pending : List (Deployment × String) := pairs.filter fun p => !(l.probe p.1 p.2).ready

/-- Of these, the ones that never will. -/
def failures : List (String × String × String) :=
  ((l.pending pairs).filter fun p => (l.probe p.1 p.2).fatal).map fun p =>
    (p.1.id, p.2, (l.probe p.1 p.2).detail)

/-- The deployments that wait for capacity. -/
def blocked : List Deployment :=
  Dict.values (Table.ofList (((l.pending pairs).filter fun p =>
    (l.probe p.1 p.2).needsRoom).map fun p => (p.1.id, p.1)))

end Look

def pairNames (pairs : List (Deployment × String)) : List (String × String) :=
  pairs.map fun p => (p.1.id, p.2)

/-- The longest idle first. -/
def idleBefore (a b : Deployment) : Prop :=
  a.updatedAt < b.updatedAt ∨ a.updatedAt = b.updatedAt ∧ a.id ≤ b.id

instance (a b : Deployment) : Decidable (idleBefore a b) :=
  inferInstanceAs (Decidable (_ ∨ _))

/-- The idle deployments, as a sweep would leave them. -/
def idleByAge (s : Store π δ) (now : Int) : List Deployment :=
  ((status s true now).2.filter (·.state = .idle)).insertionSort idleBefore

/-- The idle deployments that could free room, the longest idle first. -/
def victims (s : Store π δ) (l : Look) (blocked : List Deployment) : List Deployment :=
  (idleByAge s l.statusAt).filter fun g =>
    blocked.any fun b => g.id ∈ l.reclaimCandidates b (idleByAge s l.statusAt)

/-! ## the wait as a machine -/

/-- Where a wait stands: probing, about to evict a victim, publishing the
eviction, or done. -/
inductive WaitPhase where
  | probing
  | evicting (victim : String)
  | publishing
  | ended (result : WaitResult)
  | raised
  deriving DecidableEq

/-- A wait for `pairs`. -/
structure Wait where
  pairs : List (Deployment × String)
  deadline : Int
  lastRoom : Option Int := none
  phase : WaitPhase := .probing

namespace Wait

/-- The deployment a round picks to evict. -/
def victim (w : Wait) (s : Store π δ) (l : Look) : Option String :=
  if l.blocked w.pairs ≠ [] ∧ w.lastRoom.all (roomCooldown ≤ l.roomAt - ·) then
    (victims s l (l.blocked w.pairs)).head?.map Deployment.id
  else none

/-- One round. -/
def look (w : Wait) (s : Store π δ) (l : Look) : Wait :=
  if l.pending w.pairs = [] then { w with phase := .ended { ready := true } }
  else if l.failures w.pairs ≠ [] then
    { w with phase := .ended {
        ready := false, pending := pairNames (l.pending w.pairs), failures := l.failures w.pairs } }
  else if w.deadline ≤ l.checkedAt then
    { w with phase := .ended { ready := false, pending := pairNames (l.pending w.pairs) } }
  else
    { w with
      pairs := l.pending w.pairs
      phase := (w.victim s l).elim .probing .evicting }

end Wait

/-- A step: a transaction of any process at the ledger, a round of the wait, its
eviction, the end of that eviction's publication, or an exception. -/
inductive WaitEvent (π δ : Type) where
  | ledger (now : Int) (op : LedgerOp π δ)
  | look (l : Look)
  | evict (now : Int)
  | resume (now : Int)
  | raise

/-- A wait at a ledger. -/
structure WaitState (π δ : Type) where
  ledger : LedgerState π δ
  wait : Wait

/-- One step.  A step the wait is not at does nothing. -/
def waitStep (st : WaitState π δ) (e : WaitEvent π δ) : WaitState π δ :=
  match e, st.wait.phase with
  | .ledger now op, _ => { st with ledger := ledgerStep st.ledger (now, op) }
  | .look l, .probing =>
      ⟨{ st.ledger with now := l.statusAt }, st.wait.look st.ledger.store l⟩
  | .evict now, .evicting v =>
      ⟨ledgerStep st.ledger (now, .evictIdle (some [v])), { st.wait with phase := .publishing }⟩
  | .resume now, .publishing =>
      ⟨{ st.ledger with now := now },
        { st.wait with lastRoom := some now, phase := .probing }⟩
  | .raise, .ended _ => st
  | .raise, _ => { st with wait.phase := .raised }
  | _, _ => st

/-- The clock does not run backwards. -/
def WaitTimely (st : WaitState π δ) (e : WaitEvent π δ) : Prop :=
  match e with
  | .ledger now _ => st.ledger.now ≤ now
  | .look l => st.ledger.now ≤ l.checkedAt ∧ l.checkedAt ≤ l.roomAt ∧ l.roomAt ≤ l.statusAt
  | .evict now => st.ledger.now ≤ now
  | .resume now => st.ledger.now ≤ now
  | .raise => True

instance (st : WaitState π δ) (e : WaitEvent π δ) : Decidable (WaitTimely st e) :=
  match e with
  | .ledger _ _ | .evict _ | .resume _ => inferInstanceAs (Decidable (_ ≤ _))
  | .look _ => inferInstanceAs (Decidable (_ ≤ _ ∧ _ ≤ _ ∧ _ ≤ _))
  | .raise => inferInstanceAs (Decidable True)

/-- Start to wait. -/
def waitReady (ledger : LedgerState π δ) (deployments : List Deployment)
    (endpoints : Option (List String)) (timeout : Int) : WaitState π δ :=
  ⟨ledger, { pairs := waitPairs deployments endpoints, deadline := ledger.now + timeout }⟩

/-- The round that a step takes. -/
def roundOf (st : WaitState π δ) (e : WaitEvent π δ) : Option Look :=
  match e, st.wait.phase with
  | .look l, .probing => some l
  | _, _ => none

def WaitPhase.victim? : WaitPhase → Option String
  | .evicting v => some v
  | _ => none

/-- The victim that a step picks. -/
def pickOf (st : WaitState π δ) (e : WaitEvent π δ) : Option String :=
  (roundOf st e).bind fun l => (st.wait.look st.ledger.store l).phase.victim?

/-! ## what a wait answers -/

/-- No round found the endpoint ready. -/
def neverReady (seen : List Look) (p : Deployment × String) : Bool :=
  seen.all fun l => !(l.probe p.1 p.2).ready

theorem Look.pending_filter (l : Look) (pairs : List (Deployment × String)) (seen : List Look) :
    l.pending (pairs.filter (neverReady seen)) = pairs.filter (neverReady (seen ++ [l])) := by
  unfold Look.pending neverReady
  rw [List.filter_filter]
  congr 1
  funext p
  rw [List.all_append, Bool.and_comm]
  simp

theorem pairNames_eq_nil {pairs : List (Deployment × String)} : pairNames pairs = [] ↔ pairs = [] := by
  simp [pairNames]

/-- A round ends the wait, or leaves it with the endpoints that are pending. -/
theorem Wait.look_cases (w : Wait) (s : Store π δ) (l : Look) :
    (∃ r, w.look s l = { w with phase := .ended r } ∧
      r.pending = pairNames (l.pending w.pairs) ∧ (r.ready = true ↔ r.pending = []) ∧
      r.failures = l.failures w.pairs ∧
      (r.ready = true ∨ r.failures ≠ [] ∨ w.deadline ≤ l.checkedAt)) ∨
    (w.look s l = { w with
        pairs := l.pending w.pairs
        phase := (w.victim s l).elim .probing .evicting } ∧
      l.failures w.pairs = [] ∧ l.checkedAt < w.deadline) := by
  unfold Wait.look
  by_cases hnone : l.pending w.pairs = []
  · have hfail : l.failures w.pairs = [] := by simp [Look.failures, hnone]
    rw [if_pos hnone]
    exact .inl ⟨_, rfl, by simp [hnone, pairNames], by simp, hfail.symm, .inl rfl⟩
  · rw [if_neg hnone]
    by_cases hfail : l.failures w.pairs = []
    · rw [if_neg (not_not_intro hfail)]
      by_cases hlate : w.deadline ≤ l.checkedAt
      · rw [if_pos hlate]
        exact .inl ⟨_, rfl, rfl, by simp [pairNames_eq_nil, hnone], hfail.symm, .inr (.inr hlate)⟩
      · rw [if_neg hlate]
        exact .inr ⟨rfl, hfail, by omega⟩
    · rw [if_pos hfail]
      exact .inl ⟨_, rfl, rfl, by simp [pairNames_eq_nil, hnone], rfl, .inr (.inl hfail)⟩

/-- The answer of a wait for `pairs` whose rounds were `early` and then `last`. -/
structure WaitAnswers (pairs : List (Deployment × String)) (deadline : Int) (early : List Look)
    (last : Look) (r : WaitResult) : Prop where
  pending : r.pending = pairNames (pairs.filter (neverReady (early ++ [last])))
  ready : r.ready = true ↔ r.pending = []
  failures : r.failures = last.failures (pairs.filter (neverReady early))
  because : r.ready = true ∨ r.failures ≠ [] ∨ deadline ≤ last.checkedAt
  undecided : ∀ l ∈ early, l.checkedAt < deadline

/-- A wait after the rounds `seen`: it goes on before the deadline with the
endpoints no round found ready, or it has answered. -/
structure WaitCourse (pairs : List (Deployment × String)) (deadline : Int) (seen : List Look)
    (w : Wait) : Prop where
  deadline_eq : w.deadline = deadline
  going : (∀ r, w.phase ≠ .ended r) → w.pairs = pairs.filter (neverReady seen) ∧
    ∀ l ∈ seen, l.checkedAt < deadline
  ended : ∀ r, w.phase = .ended r → ∃ early last, seen = early ++ [last] ∧
    WaitAnswers pairs deadline early last r

theorem WaitCourse.look {pairs : List (Deployment × String)} {deadline : Int} {seen : List Look}
    {w : Wait} (h : WaitCourse pairs deadline seen w) (hphase : w.phase = .probing) (s : Store π δ)
    (l : Look) : WaitCourse pairs deadline (seen ++ [l]) (w.look s l) := by
  obtain ⟨hpairs, hseen⟩ := h.going (by simp [hphase])
  have hpending : l.pending w.pairs = pairs.filter (neverReady (seen ++ [l])) := by
    rw [hpairs, Look.pending_filter]
  cases w.look_cases s l with
  | inl hended =>
      obtain ⟨r, hw, hr, hready, hfail, hwhy⟩ := hended
      rw [hw]
      refine ⟨h.deadline_eq, fun hnot => absurd rfl (hnot r), fun r' hr' => ⟨seen, l, rfl, ?_⟩⟩
      obtain rfl : r = r' := WaitPhase.ended.inj hr'
      exact ⟨hr.trans (congrArg pairNames hpending), hready, hpairs ▸ hfail, h.deadline_eq ▸ hwhy,
        hseen⟩
  | inr hgoing =>
      obtain ⟨hw, -, hearly⟩ := hgoing
      rw [hw]
      refine ⟨h.deadline_eq, fun _ => ⟨hpending, fun l' hl' => ?_⟩, fun r hr => ?_⟩
      · cases List.mem_append.mp hl' with
        | inl hold => exact hseen l' hold
        | inr hnew =>
            rw [List.mem_singleton.mp hnew, ← h.deadline_eq]
            exact hearly
      · cases hv : w.victim s l with
        | none => simp [hv] at hr
        | some v => simp [hv] at hr

/-- A step takes a round, leaves the wait as it is, or moves a wait that has not
answered to another phase without an answer. -/
theorem waitStep_wait (st : WaitState π δ) (e : WaitEvent π δ) :
    (∃ l, e = .look l ∧ st.wait.phase = .probing ∧ roundOf st e = some l ∧
      (waitStep st e).wait = st.wait.look st.ledger.store l) ∨
    roundOf st e = none ∧ ((waitStep st e).wait = st.wait ∨
      (∀ r, st.wait.phase ≠ .ended r) ∧ (∀ r, (waitStep st e).wait.phase ≠ .ended r) ∧
        (waitStep st e).wait.pairs = st.wait.pairs ∧
        (waitStep st e).wait.deadline = st.wait.deadline) := by
  obtain ⟨ledger, pairs, deadline, lastRoom, phase⟩ := st
  cases e with
  | look l =>
      cases phase with
      | probing => exact .inl ⟨l, rfl, rfl, rfl, rfl⟩
      | evicting v => exact .inr ⟨rfl, .inl rfl⟩
      | publishing => exact .inr ⟨rfl, .inl rfl⟩
      | ended r => exact .inr ⟨rfl, .inl rfl⟩
      | raised => exact .inr ⟨rfl, .inl rfl⟩
  | ledger now op => exact .inr ⟨rfl, .inl rfl⟩
  | evict now =>
      cases phase with
      | evicting v => exact .inr ⟨rfl, .inr ⟨by simp, by simp [waitStep], rfl, rfl⟩⟩
      | probing => exact .inr ⟨rfl, .inl rfl⟩
      | publishing => exact .inr ⟨rfl, .inl rfl⟩
      | ended r => exact .inr ⟨rfl, .inl rfl⟩
      | raised => exact .inr ⟨rfl, .inl rfl⟩
  | resume now =>
      cases phase with
      | publishing => exact .inr ⟨rfl, .inr ⟨by simp, by simp [waitStep], rfl, rfl⟩⟩
      | probing => exact .inr ⟨rfl, .inl rfl⟩
      | evicting v => exact .inr ⟨rfl, .inl rfl⟩
      | ended r => exact .inr ⟨rfl, .inl rfl⟩
      | raised => exact .inr ⟨rfl, .inl rfl⟩
  | raise =>
      cases phase with
      | ended r => exact .inr ⟨rfl, .inl rfl⟩
      | probing => exact .inr ⟨rfl, .inr ⟨by simp, by simp [waitStep], rfl, rfl⟩⟩
      | evicting v => exact .inr ⟨rfl, .inr ⟨by simp, by simp [waitStep], rfl, rfl⟩⟩
      | publishing => exact .inr ⟨rfl, .inr ⟨by simp, by simp [waitStep], rfl, rfl⟩⟩
      | raised => exact .inr ⟨rfl, .inr ⟨by simp, by simp [waitStep], rfl, rfl⟩⟩

theorem WaitCourse.step {pairs : List (Deployment × String)} {deadline : Int} {seen : List Look}
    {st : WaitState π δ} (h : WaitCourse pairs deadline seen st.wait) (e : WaitEvent π δ) :
    WaitCourse pairs deadline (seen ++ (roundOf st e).toList) (waitStep st e).wait := by
  cases waitStep_wait st e with
  | inl hround =>
      obtain ⟨l, -, hphase, hl, hw⟩ := hround
      rw [hw, hl]
      exact h.look hphase _ l
  | inr hother =>
      obtain ⟨hnone, hw⟩ := hother
      rw [hnone, Option.toList_none, List.append_nil]
      cases hw with
      | inl hsame =>
          rw [hsame]
          exact h
      | inr hmoved =>
          obtain ⟨hnot, hnot', hpairs, hdeadline⟩ := hmoved
          exact ⟨hdeadline.trans h.deadline_eq, fun _ => hpairs ▸ h.going hnot,
            fun r hr => absurd hr (hnot' r)⟩

/-- Whatever happens at the ledger meanwhile, a wait goes on before its deadline
with exactly the endpoints that no round found ready, or it has answered: ready
when there are none, and otherwise with these endpoints, the last round's fatal
failures among them, and because of one or because the deadline has passed. -/
theorem wait_answers (ledger : LedgerState π δ) (deployments : List Deployment)
    (endpoints : Option (List String)) (timeout : Int) (es : List (WaitEvent π δ)) :
    let start := waitReady ledger deployments endpoints timeout
    WaitCourse (waitPairs deployments endpoints) (ledger.now + timeout)
      (outputs waitStep roundOf start es) (run waitStep start es).wait := by
  have hstep : ∀ (seen : List Look) (st : WaitState π δ) (e : WaitEvent π δ),
      WaitCourse (waitPairs deployments endpoints) (ledger.now + timeout) seen st.wait → True →
      WaitCourse (waitPairs deployments endpoints) (ledger.now + timeout)
        (seen ++ (roundOf st e).toList) (waitStep st e).wait := fun _ _ e h _ => h.step e
  have hstart : WaitCourse (waitPairs deployments endpoints) (ledger.now + timeout) []
      (waitReady ledger deployments endpoints timeout).wait :=
    ⟨rfl, fun _ => ⟨(List.filter_eq_self.mpr fun _ _ => rfl).symm, by simp⟩,
      fun r hr => by simp [waitReady] at hr⟩
  simpa using outputs_inv hstep hstart (allSteps_true (fun _ _ => trivial) _ es)

/-! ## whom a wait evicts -/

theorem mem_idleByAge {s : Store π δ} {now : Int} {d : Deployment} :
    d ∈ idleByAge s now ↔ d ∈ (status s true now).2 ∧ d.state = .idle := by
  simp [idleByAge]

instance : Std.Total idleBefore where
  total a b := by
    unfold idleBefore
    cases le_total a.id b.id with
    | inl hid =>
        by_cases heq : a.updatedAt = b.updatedAt
        · simp [heq, hid]
        · simp only [heq]
          omega
    | inr hid =>
        by_cases heq : a.updatedAt = b.updatedAt
        · simp [heq, hid]
        · simp only [heq]
          omega

instance : IsTrans Deployment idleBefore where
  trans a b c hab hbc := by
    unfold idleBefore at *
    cases hab with
    | inl hlt => cases hbc <;> (left; omega)
    | inr hsame =>
        cases hbc with
        | inl hlt => left; omega
        | inr hsame' => exact .inr ⟨hsame.1.trans hsame'.1, hsame.2.trans hsame'.2⟩

theorem pairwise_idleByAge (s : Store π δ) (now : Int) : (idleByAge s now).Pairwise idleBefore :=
  List.pairwise_insertionSort idleBefore _

theorem Look.mem_blocked {l : Look} {pairs : List (Deployment × String)} {b : Deployment}
    (hb : b ∈ l.blocked pairs) : ∃ ep, (b, ep) ∈ pairs ∧ (l.probe b ep).ready = false ∧
      (l.probe b ep).needsRoom = true := by
  obtain ⟨k, hk⟩ := Dict.mem_values.mp hb
  have hmem := Table.mem_of_mem_ofList (Dict.get?_eq_some.mp hk)
  obtain ⟨⟨d, ep⟩, hp, hkb⟩ := List.mem_map.mp hmem
  obtain ⟨-, rfl⟩ := Prod.mk.inj hkb
  obtain ⟨hpending, hroom⟩ := List.mem_filter.mp hp
  obtain ⟨hin, hnot⟩ := List.mem_filter.mp hpending
  exact ⟨ep, hin, by simpa using hnot, hroom⟩

/-- What a pick of `v` may be: an idle deployment that the backend names for one
of the endpoints that wait for capacity, and no such deployment is idle longer. -/
structure FairPick (st : WaitState π δ) (l : Look) (v : String) : Prop where
  blocked : ∃ d ep, (d, ep) ∈ st.wait.pairs ∧ (l.probe d ep).ready = false ∧
    (l.probe d ep).needsRoom = true ∧
      v ∈ l.reclaimCandidates d (idleByAge st.ledger.store l.statusAt)
  oldest : ∃ g ∈ (status st.ledger.store true l.statusAt).2, g.id = v ∧ g.state = .idle ∧
    ∀ g' ∈ victims st.ledger.store l (l.blocked st.wait.pairs), idleBefore g g'
  inTime : l.checkedAt < st.wait.deadline
  paced : st.wait.lastRoom.all (roomCooldown ≤ l.roomAt - ·) = true

theorem Wait.victim_spec {w : Wait} {s : Store π δ} {l : Look} {v : String}
    (h : w.victim s l = some v) : w.lastRoom.all (roomCooldown ≤ l.roomAt - ·) = true ∧
      ∃ g ∈ victims s l (l.blocked w.pairs), g.id = v ∧
        ∀ g' ∈ victims s l (l.blocked w.pairs), idleBefore g g' := by
  unfold Wait.victim at h
  split at h
  · next hroom =>
      refine ⟨hroom.2, ?_⟩
      obtain ⟨g, hhead, rfl⟩ := Option.map_eq_some_iff.mp h
      obtain ⟨rest, hrest⟩ := List.head?_eq_some_iff.mp hhead
      have hsorted : (victims s l (l.blocked w.pairs)).Pairwise idleBefore :=
        (pairwise_idleByAge s l.statusAt).filter _
      rw [hrest, List.pairwise_cons] at hsorted
      refine ⟨g, hrest ▸ List.mem_cons_self, rfl, fun g' hg' => ?_⟩
      cases List.mem_cons.mp (hrest ▸ hg') with
      | inl hsame => exact hsame ▸ .inr ⟨rfl, le_refl _⟩
      | inr hlater => exact hsorted.1 g' hlater
  · contradiction

theorem roundOf_eq_some {st : WaitState π δ} {e : WaitEvent π δ} {l : Look}
    (h : roundOf st e = some l) : e = .look l ∧ st.wait.phase = .probing := by
  cases waitStep_wait st e with
  | inl hround =>
      obtain ⟨l', he, hphase, hl', -⟩ := hround
      obtain rfl : l = l' := Option.some.inj (h.symm.trans hl')
      exact ⟨he, hphase⟩
  | inr hother =>
      rw [hother.1] at h
      contradiction

theorem fairPick {st : WaitState π δ} {e : WaitEvent π δ} {v : String} (h : pickOf st e = some v) :
    ∃ l, e = .look l ∧ st.wait.phase = .probing ∧ FairPick st l v := by
  obtain ⟨l, hl, hpick⟩ := Option.bind_eq_some_iff.mp h
  obtain ⟨he, hphase⟩ := roundOf_eq_some hl
  refine ⟨l, he, hphase, ?_⟩
  cases st.wait.look_cases st.ledger.store l with
  | inl hended =>
      obtain ⟨r, hw, -⟩ := hended
      rw [hw] at hpick
      contradiction
  | inr hgoing =>
      obtain ⟨hw, -, hearly⟩ := hgoing
      rw [hw] at hpick
      cases hvictim : st.wait.victim st.ledger.store l with
      | none => simp [hvictim, WaitPhase.victim?] at hpick
      | some v' =>
          obtain rfl : v' = v := by simpa [hvictim, WaitPhase.victim?] using hpick
          obtain ⟨hpaced, g, hg, hid, holdest⟩ := Wait.victim_spec hvictim
          obtain ⟨hidle, hblocked⟩ := List.mem_filter.mp hg
          obtain ⟨hreport, hstate⟩ := mem_idleByAge.mp hidle
          obtain ⟨b, hb, hnamed⟩ := List.any_eq_true.mp hblocked
          obtain ⟨ep, hpair, hnot, hroom⟩ := Look.mem_blocked hb
          exact ⟨⟨b, ep, hpair, hnot, hroom, hid ▸ of_decide_eq_true hnamed⟩,
            ⟨g, hreport, hid, hstate, holdest⟩, hearly, hpaced⟩

/-- An eviction of the wait stops at most its victim, and nothing that a lease
protects. -/
def SparesDemand (st : WaitState π δ) (e : WaitEvent π δ) : Prop :=
  ∀ now, e = .evict now → ∀ v, st.wait.phase = .evicting v →
    ∀ g, g ≠ v ∨ 0 < st.ledger.store.demand g now →
      (waitStep st e).ledger.store.getDeployment g = st.ledger.store.getDeployment g

theorem sparesDemand (st : WaitState π δ) (e : WaitEvent π δ) : SparesDemand st e := by
  obtain ⟨ledger, pairs, deadline, lastRoom, phase⟩ := st
  rintro now rfl v hphase g hg
  obtain rfl : phase = .evicting v := hphase
  change (evictIdle ledger.store (some [v]) now).2.getDeployment g = ledger.store.getDeployment g
  rw [getDeployment_evictIdle, if_neg]
  rw [mem_evicted]
  rintro ⟨-, hin, hfree⟩
  cases hg with
  | inl hne => exact hne (by simpa using hin)
  | inr hdemand => exact absurd hfree hdemand.ne'

/-! ## how often -/

/-- The last eviction's reading, one cooldown ago when there was none, and the
present while one is going on. -/
def lastRoomMark (st : WaitState π δ) : Int :=
  match st.wait.phase with
  | .probing => st.wait.lastRoom.getD (st.ledger.now - roomCooldown)
  | _ => st.ledger.now

/-- The wait's own readings lie in the past. -/
structure WaitClock (deadline : Int) (st : WaitState π δ) : Prop where
  deadline_eq : st.wait.deadline = deadline
  lastRoom_le : ∀ t, st.wait.lastRoom = some t → t ≤ st.ledger.now

theorem WaitClock.mark_le {deadline : Int} {st : WaitState π δ} (h : WaitClock deadline st) :
    lastRoomMark st ≤ st.ledger.now := by
  unfold lastRoomMark
  split
  · cases hroom : st.wait.lastRoom with
    | none => simp [roomCooldown]
    | some t => simpa using h.lastRoom_le t hroom
  · exact le_refl _

/-- A step reads the clock later, and moves the last eviction to that reading or
keeps it; only then is it probing afterwards, if it was before. -/
theorem waitStep_room {st : WaitState π δ} {e : WaitEvent π δ} (ht : WaitTimely st e) :
    st.ledger.now ≤ (waitStep st e).ledger.now ∧
      ((waitStep st e).wait.lastRoom = some (waitStep st e).ledger.now ∨
        (waitStep st e).wait.lastRoom = st.wait.lastRoom ∧
          ((waitStep st e).wait.phase = .probing → st.wait.phase = .probing)) := by
  obtain ⟨ledger, pairs, deadline, lastRoom, phase⟩ := st
  cases e with
  | look l =>
      have hlater : ledger.now ≤ l.statusAt := ht.1.trans (ht.2.1.trans ht.2.2)
      cases phase with
      | probing =>
          refine ⟨hlater, .inr ⟨?_, fun _ => rfl⟩⟩
          change (Wait.look _ ledger.store l).lastRoom = lastRoom
          cases Wait.look_cases ⟨pairs, deadline, lastRoom, .probing⟩ ledger.store l with
          | inl hended =>
              obtain ⟨r, hw, -⟩ := hended
              rw [hw]
          | inr hgoing => rw [hgoing.1]
      | evicting v => exact ⟨le_refl _, .inr ⟨rfl, id⟩⟩
      | publishing => exact ⟨le_refl _, .inr ⟨rfl, id⟩⟩
      | ended r => exact ⟨le_refl _, .inr ⟨rfl, id⟩⟩
      | raised => exact ⟨le_refl _, .inr ⟨rfl, id⟩⟩
  | ledger now op => exact ⟨ht, .inr ⟨rfl, id⟩⟩
  | evict now =>
      cases phase with
      | evicting v => exact ⟨ht, .inr ⟨rfl, by simp [waitStep]⟩⟩
      | probing => exact ⟨le_refl _, .inr ⟨rfl, id⟩⟩
      | publishing => exact ⟨le_refl _, .inr ⟨rfl, id⟩⟩
      | ended r => exact ⟨le_refl _, .inr ⟨rfl, id⟩⟩
      | raised => exact ⟨le_refl _, .inr ⟨rfl, id⟩⟩
  | resume now =>
      cases phase with
      | publishing => exact ⟨ht, .inl rfl⟩
      | probing => exact ⟨le_refl _, .inr ⟨rfl, id⟩⟩
      | evicting v => exact ⟨le_refl _, .inr ⟨rfl, id⟩⟩
      | ended r => exact ⟨le_refl _, .inr ⟨rfl, id⟩⟩
      | raised => exact ⟨le_refl _, .inr ⟨rfl, id⟩⟩
  | raise =>
      cases phase with
      | ended r => exact ⟨le_refl _, .inr ⟨rfl, id⟩⟩
      | probing => exact ⟨le_refl _, .inr ⟨rfl, by simp [waitStep]⟩⟩
      | evicting v => exact ⟨le_refl _, .inr ⟨rfl, by simp [waitStep]⟩⟩
      | publishing => exact ⟨le_refl _, .inr ⟨rfl, by simp [waitStep]⟩⟩
      | raised => exact ⟨le_refl _, .inr ⟨rfl, by simp [waitStep]⟩⟩

theorem WaitClock.step {deadline : Int} {st : WaitState π δ} {e : WaitEvent π δ}
    (h : WaitClock deadline st) (ht : WaitTimely st e) : WaitClock deadline (waitStep st e) := by
  obtain ⟨hlater, hroom⟩ := waitStep_room ht
  refine ⟨?_, fun t hlast => ?_⟩
  · rw [← h.deadline_eq]
    cases waitStep_wait st e with
    | inl hround =>
        obtain ⟨l, -, -, -, hw⟩ := hround
        rw [hw]
        cases st.wait.look_cases st.ledger.store l with
        | inl hended =>
            obtain ⟨r, hlook, -⟩ := hended
            rw [hlook]
        | inr hgoing => rw [hgoing.1]
    | inr hother =>
        cases hother.2 with
        | inl hsame => rw [hsame]
        | inr hmoved => exact hmoved.2.2.2
  · cases hroom with
    | inl hnow =>
        rw [hnow] at hlast
        exact (Option.some.inj hlast).ge
    | inr hkept => exact (h.lastRoom_le t (hkept.1 ▸ hlast)).trans hlater

theorem WaitClock.mark_mono {deadline : Int} {st : WaitState π δ} {e : WaitEvent π δ}
    (h : WaitClock deadline st) (ht : WaitTimely st e) :
    lastRoomMark st ≤ lastRoomMark (waitStep st e) := by
  obtain ⟨hlater, hroom⟩ := waitStep_room ht
  have hmark := h.mark_le.trans hlater
  cases hphase : (waitStep st e).wait.phase with
  | probing =>
      cases hroom with
      | inl hnow => simpa [lastRoomMark, hphase, hnow] using hmark
      | inr hkept =>
          obtain ⟨hsame, hprobing⟩ := hkept
          simp only [lastRoomMark, hphase, hprobing hphase, hsame]
          cases st.wait.lastRoom with
          | none =>
              simp only [Option.getD_none]
              omega
          | some t => exact le_refl _
  | evicting v => simpa [lastRoomMark, hphase] using hmark
  | publishing => simpa [lastRoomMark, hphase] using hmark
  | ended r => simpa [lastRoomMark, hphase] using hmark
  | raised => simpa [lastRoomMark, hphase] using hmark

theorem phase_of_pick {st : WaitState π δ} {e : WaitEvent π δ} {v : String}
    (h : pickOf st e = some v) : (waitStep st e).wait.phase = .evicting v := by
  obtain ⟨l, hl, hpick⟩ := Option.bind_eq_some_iff.mp h
  cases waitStep_wait st e with
  | inl hround =>
      obtain ⟨l', -, -, hl', hw⟩ := hround
      obtain rfl : l = l' := Option.some.inj (hl.symm.trans hl')
      rw [hw]
      cases hphase : (st.wait.look st.ledger.store l).phase with
      | evicting v' =>
          rw [hphase] at hpick
          rw [show v' = v from Option.some.inj hpick]
      | probing => simp [hphase, WaitPhase.victim?] at hpick
      | publishing => simp [hphase, WaitPhase.victim?] at hpick
      | ended r => simp [hphase, WaitPhase.victim?] at hpick
      | raised => simp [hphase, WaitPhase.victim?] at hpick
  | inr hother =>
      rw [hother.1] at hl
      contradiction

/-- A pick is made before the deadline and a cooldown after the last eviction. -/
theorem WaitClock.pick {deadline : Int} {st : WaitState π δ} {e : WaitEvent π δ}
    (h : WaitClock deadline st) (ht : WaitTimely st e) {v : String} (hpick : pickOf st e = some v) :
    lastRoomMark st < deadline ∧ lastRoomMark st + roomCooldown ≤ lastRoomMark (waitStep st e) := by
  obtain ⟨l, rfl, hphase, hfair⟩ := fairPick hpick
  have hnow : (waitStep st (.look l)).ledger.now = l.statusAt := by
    simp only [waitStep, hphase]
  have hmark : lastRoomMark (waitStep st (.look l)) = l.statusAt := by
    simp only [lastRoomMark, phase_of_pick hpick, hnow]
  obtain ⟨hchecked, hroom, hstatus⟩ := ht
  have hearly := hfair.inTime
  rw [h.deadline_eq] at hearly
  have hle := h.mark_le
  rw [hmark]
  refine ⟨by omega, ?_⟩
  cases hlast : st.wait.lastRoom with
  | none =>
      simp only [lastRoomMark, hphase, hlast, Option.getD_none]
      omega
  | some t =>
      have hpaced : roomCooldown ≤ l.roomAt - t := by simpa [hlast] using hfair.paced
      simp only [lastRoomMark, hphase, hlast, Option.getD_some]
      omega

/-- Making room is restrained.  Whatever happens at the ledger meanwhile, every
victim is an idle deployment that the backend names for an endpoint waiting for
capacity, the longest idle of these, picked before the deadline and a cooldown
after the last eviction; its eviction stops at most the victim, and nothing that
a lease protects; and a wait of `timeout` seconds picks fewer than
`timeout / 30 + 2` of them. -/
theorem wait_spares (ledger : LedgerState π δ) (deployments : List Deployment)
    (endpoints : Option (List String)) (timeout : Int) (es : List (WaitEvent π δ))
    (htime : AllSteps waitStep WaitTimely (waitReady ledger deployments endpoints timeout) es) :
    let start := waitReady ledger deployments endpoints timeout
    AllSteps waitStep (fun st e => SparesDemand st e ∧
        ∀ v, pickOf st e = some v → ∃ l, e = .look l ∧ FairPick st l v) start es ∧
      (outputs waitStep pickOf start es = [] ∨
        roomCooldown * ((outputs waitStep pickOf start es).length - 2) < timeout) := by
  intro start
  constructor
  · refine allSteps_true (fun st e => ⟨sparesDemand st e, fun v hv => ?_⟩) start es
    obtain ⟨l, he, -, hfair⟩ := fairPick hv
    exact ⟨l, he, hfair⟩
  · have hclock : WaitClock (ledger.now + timeout) start :=
      ⟨rfl, fun t hlast => by simp [start, waitReady] at hlast⟩
    have hok : AllSteps waitStep
        (fun st e => WaitClock (ledger.now + timeout) st ∧ WaitTimely st e) start es :=
      AllSteps.of_inv (fun st e h ht => h.step ht) (fun st e h ht => ⟨h, ht⟩) hclock htime
    have hpaced := outputs_paced (fun st e h => h.1.mark_mono h.2)
      (fun st e v h hv => h.1.pick h.2 hv) hok
    refine hpaced.imp_right fun hlt => ?_
    have hmark : lastRoomMark start = ledger.now - roomCooldown := rfl
    rw [hmark] at hlt
    simp only [roomCooldown] at hlt ⊢
    omega

/-- A model idles while a wait for another is short of capacity, and is evicted;
the endpoint answers in the next round. -/
def roomForChat : List (WaitEvent Unit Unit) :=
  [.ledger 0 (.acquire "l1" "a" none none [chatRequest] (fun _ => "g1") ∅ none none),
    .ledger 1 (.release "l1"),
    .look {
      probe := fun _ _ => { ready := false, needsRoom := true }
      reclaimCandidates := fun _ idle => idle.map Deployment.id
      checkedAt := 2, roomAt := 2, statusAt := 2 },
    .evict 3,
    .resume 9,
    .look { probe := fun _ _ => { ready := true }, checkedAt := 11, roomAt := 11, statusAt := 11 }]

def chatNewcomer : Deployment := newDeployment "g2" 0 chatRequest

theorem wait_spares_chat :
    outputs waitStep pickOf (waitReady (LedgerState.init 0) [chatNewcomer] none 60) roomForChat =
        ["g1"] ∧
      (outputs waitStep pickOf (waitReady (LedgerState.init 0) [chatNewcomer] none 60)
          roomForChat = [] ∨
        roomCooldown * ((outputs waitStep pickOf
          (waitReady (LedgerState.init 0) [chatNewcomer] none 60) roomForChat).length - 2) < 60) :=
  ⟨by decide +kernel, (wait_spares (LedgerState.init 0) [chatNewcomer] none 60 roomForChat
    (by decide +kernel)).2⟩

end InferStack
