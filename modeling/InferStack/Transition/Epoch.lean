import InferStack.Ledger.Protection
import InferStack.Transition.Renewals

/-!
# InferStack.Transition.Epoch

Whether a rotation loses anything, over every position of a lock-free renew.

The check for active leases, the archive and the reset are three transactions.
The reset notices a changed profile or admission version, which no lock-free
renew touches: a lease that had lapsed at the check may be renewed before the
reset.  `rotatesSafely_iff` says exactly when this does no harm.
-/

namespace InferStack

open Kit

variable {π δ : Type}

/-! ## the renews between the steps -/

/-- The renews that land before the first `n` steps. -/
def landed (inputs : Nat → EpochInput) (n : Nat) : List Renewal :=
  (List.range n).flatMap fun k => (inputs k).renewals

/-- The inputs from step `n` on. -/
def later (inputs : Nat → EpochInput) (n : Nat) : Nat → EpochInput := fun k => inputs (k + n)

theorem landed_succ (inputs : Nat → EpochInput) (n : Nat) :
    landed inputs (n + 1) = (inputs 0).renewals ++ landed (later inputs 1) n := by
  unfold landed later
  rw [List.range_succ_eq_map, List.flatMap_cons, List.flatMap_map]

theorem landed_add (inputs : Nat → EpochInput) (n m : Nat) :
    landed inputs (n + m) = landed inputs n ++ landed (later inputs n) m := by
  unfold landed later
  rw [List.range_add, List.flatMap_append, List.flatMap_map]
  simp only [Nat.add_comm]

/-- A rotation has left the ledger alone: the renews alone have. -/
def LeftAlone (inputs : Nat → EpochInput) (w w' : EpochWorld π δ) : Prop :=
  w'.reset = w.reset ∧ ∃ n, w'.ledger = (w.renewing (landed inputs n)).ledger

theorem EpochWorld.renewing_append (w : EpochWorld π δ) (rs rs' : List Renewal) :
    w.renewing (rs ++ rs') = (w.renewing rs).renewing rs' := by
  unfold EpochWorld.renewing
  rw [Store.renewing_append]

/-- What a step leaves alone after its renews, it leaves alone. -/
theorem LeftAlone.of_later {inputs : Nat → EpochInput} {w w₁ w' : EpochWorld π δ}
    (h : LeftAlone (later inputs 1) w₁ w') (hledger : w₁.ledger = (w.renewing (inputs 0).renewals).ledger)
    (hreset : w₁.reset = w.reset) : LeftAlone inputs w w' := by
  obtain ⟨hsame, n, hn⟩ := h
  refine ⟨hsame.trans hreset, n + 1, ?_⟩
  rw [landed_succ, EpochWorld.renewing_append, hn]
  unfold EpochWorld.renewing
  rw [hledger]
  rfl

/-! ## the steps -/

section Steps

variable {α β : Type} {inputs : Nat → EpochInput} {w : EpochWorld π δ}

theorem exec_epochStep_bind (f : EpochInput → EpochWorld π δ → Except RotateError β × EpochWorld π δ)
    (k : β → Rotate π δ α) : (epochStep f >>= k).exec inputs w =
      match (inputs 0).fault with
      | some e => (.error e, later inputs 1, w.renewing (inputs 0).renewals)
      | none =>
          match f (inputs 0) (w.renewing (inputs 0).renewals) with
          | (.ok b, w') => (k b).exec (later inputs 1) w'
          | (.error e, w') => (.error e, later inputs 1, w') := by
  rw [Proc.exec_bind]
  unfold epochStep
  rw [Proc.exec_act]
  cases (inputs 0).fault with
  | some e => rfl
  | none =>
      dsimp only
      obtain ⟨r, w'⟩ := f (inputs 0) (w.renewing (inputs 0).renewals)
      cases r <;> rfl

theorem exec_epochRead_bind (f : EpochInput → EpochWorld π δ → β) (k : β → Rotate π δ α) :
    (epochRead f >>= k).exec inputs w =
      match (inputs 0).fault with
      | some e => (.error e, later inputs 1, w.renewing (inputs 0).renewals)
      | none => (k (f (inputs 0) (w.renewing (inputs 0).renewals))).exec (later inputs 1)
          (w.renewing (inputs 0).renewals) := exec_epochStep_bind _ k

/-- A step that is interrupted leaves what the renews left. -/
theorem leftAlone_of_fault : LeftAlone inputs w (w.renewing (inputs 0).renewals) := by
  refine ⟨rfl, 1, ?_⟩
  simp [landed, List.range_succ]

theorem leftAlone_refl : LeftAlone inputs w w := ⟨rfl, 0, rfl⟩

end Steps

/-! ## the run of a rotation -/

/-- The archive that a ledger lists last holds `file`. -/
def Archived (w : EpochWorld π δ) (file : LedgerFile π δ) : Prop :=
  ∃ a, w.ledger.archives.getLast? = some a ∧ w.files.get? a.path = some file

/-- A program resets the ledger in step `n`, unless it is interrupted before. -/
def EndsAfter (inputs : Nat → EpochInput) (w w' : EpochWorld π δ) (n : Nat)
    (file : LedgerFile π δ) : Prop :=
  ((∀ k ≤ n, (inputs k).fault = none) ∧ Archived w' file ∧
      w'.reset = some ((inputs n).now, w.ledger.store.renewing (landed inputs (n + 1)))) ∨
    ((∃ k ≤ n, (inputs k).fault ≠ none) ∧ LeftAlone inputs w w')

section Ends

variable {inputs : Nat → EpochInput} {w w₁ w' : EpochWorld π δ} {n : Nat} {file : LedgerFile π δ}

theorem EndsAfter.of_fault {e : RotateError} (h : (inputs 0).fault = some e) :
    EndsAfter inputs w (w.renewing (inputs 0).renewals) n file :=
  .inr ⟨⟨0, Nat.zero_le n, by simp [h]⟩, leftAlone_of_fault⟩

/-- One step, and then the rest. -/
theorem EndsAfter.of_later (h : EndsAfter (later inputs 1) w₁ w' n file)
    (hfault : (inputs 0).fault = none)
    (hledger : w₁.ledger = (w.renewing (inputs 0).renewals).ledger)
    (hreset : w₁.reset = w.reset) : EndsAfter inputs w w' (n + 1) file := by
  cases h with
  | inl hends =>
      obtain ⟨hfaults, harchived, hfound⟩ := hends
      refine .inl ⟨fun k hk => ?_, harchived, ?_⟩
      · cases k with
        | zero => exact hfault
        | succ k => exact hfaults k (by omega)
      · rw [hfound, landed_succ inputs, Store.renewing_append, hledger]
        rfl
  | inr hstopped =>
      obtain ⟨⟨k, hk, hne⟩, hleftAlone⟩ := hstopped
      exact .inr ⟨⟨k + 1, by omega, hne⟩, hleftAlone.of_later hledger hreset⟩

/-- A step that keeps the ledger, and then the rest. -/
theorem EndsAfter.step {α β : Type}
    {f : EpochInput → EpochWorld π δ → Except RotateError β × EpochWorld π δ}
    {k : β → Rotate π δ α} {b : β}
    (hf : f (inputs 0) (w.renewing (inputs 0).renewals) = (.ok b, w₁))
    (hledger : w₁.ledger = (w.renewing (inputs 0).renewals).ledger) (hreset : w₁.reset = w.reset)
    (h : EndsAfter (later inputs 1) w₁ ((k b).exec (later inputs 1) w₁).2.2 n file) :
    EndsAfter inputs w ((epochStep f >>= k).exec inputs w).2.2 (n + 1) file := by
  rw [exec_epochStep_bind]
  cases h0 : (inputs 0).fault with
  | some e => exact .of_fault h0
  | none =>
      dsimp only
      rw [hf]
      exact h.of_later h0 hledger hreset

/-- A program resets the ledger in step `n` if what it verifies holds, and leaves
it alone if not. -/
structure EndsIf (granted : Prop) (inputs : Nat → EpochInput) (w w' : EpochWorld π δ) (n : Nat)
    (file : LedgerFile π δ) : Prop where
  ends : granted → EndsAfter inputs w w' n file
  leftAlone : ¬ granted → LeftAlone inputs w w'

theorem EndsIf.refused {granted : Prop} (h : ¬ granted) (hleft : LeftAlone inputs w w') :
    EndsIf granted inputs w w' n file := ⟨fun hgranted => absurd hgranted h, fun _ => hleft⟩

theorem EndsIf.congr {granted granted' : Prop} (h : EndsIf granted inputs w w' n file)
    (hiff : granted' ↔ granted) : EndsIf granted' inputs w w' n file :=
  ⟨fun hg => h.ends (hiff.mp hg), fun hg => h.leftAlone fun hg' => hg (hiff.mpr hg')⟩

/-- A read, and then the rest. -/
theorem EndsIf.read {α β : Type} {granted : Prop} {f : EpochInput → EpochWorld π δ → β}
    {k : β → Rotate π δ α}
    (h : EndsIf granted (later inputs 1) (w.renewing (inputs 0).renewals)
      ((k (f (inputs 0) (w.renewing (inputs 0).renewals))).exec (later inputs 1)
        (w.renewing (inputs 0).renewals)).2.2 n file) :
    EndsIf granted inputs w ((epochRead f >>= k).exec inputs w).2.2 (n + 1) file := by
  refine ⟨fun hgranted => .step rfl rfl rfl (h.ends hgranted), fun hnot => ?_⟩
  rw [exec_epochRead_bind]
  cases (inputs 0).fault with
  | some e => exact leftAlone_of_fault
  | none => exact (h.leftAlone hnot).of_later rfl rfl

end Ends

section Rotation

variable [DecidableEq π] {P : ProfileOps π} {c : RotateCommand π} {target current : π}
  {archives : List Archive} {inputs : Nat → EpochInput} {w : EpochWorld π δ}

/-- The reset, which finds the profile and the version of the check. -/
theorem startBackendEpoch_spec {α : Type} {fresh : π} {archive : Archive} {version : Nat}
    {file : LedgerFile π δ} {result : α}
    (hprofile : w.ledger.store.profile = some current)
    (hversion : w.ledger.store.admissionStateVersion = version)
    (hfile : w.files.get? archive.path = some file) :
    EndsAfter inputs w ((startBackendEpoch fresh archive current version >>= fun _ =>
      (pure result : Rotate π δ α)).exec inputs w).2.2 0 file := by
  unfold startBackendEpoch
  rw [exec_epochStep_bind]
  cases h0 : (inputs 0).fault with
  | some e => exact .of_fault h0
  | none =>
      obtain ⟨honly, -⟩ := renewing_row w.ledger.store (inputs 0).renewals
      have hsame : ¬ ((w.renewing (inputs 0).renewals).ledger.store.profile ≠ some current ∨
          (w.renewing (inputs 0).renewals).ledger.store.admissionStateVersion ≠ version) := by
        rw [not_or, not_not, not_not]
        exact ⟨honly.profile.trans hprofile, honly.version.trans hversion⟩
      dsimp only
      unfold LedgerFile.startBackendEpoch
      rw [if_neg hsame]
      refine .inl ⟨fun k hk => ?_, ⟨archive, ?_, hfile⟩, ?_⟩
      · rw [Nat.le_zero.mp hk]
        exact h0
      · show (_ ++ [archive]).getLast? = some archive
        simp
      · show some _ = some _
        simp [landed, List.range_succ, EpochWorld.renewing]

/-- The last steps: the archive is taken in the second, the reset is the fourth. -/
theorem commitRotation_spec {path : String} {leases deployments version : Nat}
    {preview : RotateResult} (hc : c.apply) (hprofile : w.ledger.store.profile = some current)
    (hversion : w.ledger.store.admissionStateVersion = version) :
    EndsAfter inputs w ((commitRotation P c target current archives path leases deployments
      version preview).exec inputs w).2.2 3 (w.renewing (landed inputs 2)).ledger := by
  have hkept (s : Store π δ) (rs : List Renewal) := (renewing_row s rs).1
  unfold commitRotation
  rw [if_pos hc]
  refine EndsAfter.step rfl rfl rfl (EndsAfter.step rfl rfl rfl (EndsAfter.step rfl rfl rfl ?_))
  refine startBackendEpoch_spec ?_ ?_ ?_
  · exact (hkept _ _).profile.trans ((hkept _ _).profile.trans
      ((hkept _ _).profile.trans hprofile))
  · exact (hkept _ _).version.trans ((hkept _ _).version.trans
      ((hkept _ _).version.trans hversion))
  · refine Dict.get?_set_self.trans ?_
    rw [landed_succ inputs, EpochWorld.renewing_append]
    simp [landed, List.range_succ, EpochWorld.renewing]

/-- What the verification asks of the old backend and of the ledger's path. -/
def Verifiable (c : RotateCommand π) (runtime : Except String (List String)) : Prop :=
  c.oldBackend ∧ runtime = .ok [] ∧ c.archivePath.isSome

omit [DecidableEq π] in
theorem EpochWorld.renewing_later (w : EpochWorld π δ) (inputs : Nat → EpochInput) (n : Nat) :
    ((w.renewing (inputs 0).renewals).renewing (landed (later inputs 1) n)).ledger =
      (w.renewing (landed inputs (n + 1))).ledger := by
  rw [landed_succ inputs, EpochWorld.renewing_append]

/-- The verification of the old backend, and the steps after it. -/
theorem verifyQuiescent_spec {leases : List Lease} {deployments : Nat} (hc : c.apply)
    (hprofile : w.ledger.store.profile = some current) :
    EndsIf (Verifiable c (inputs 0).runtime) inputs w
      ((verifyQuiescent P c target current archives leases deployments).exec inputs w).2.2 5
      (w.renewing (landed inputs 4)).ledger := by
  have hkept (s : Store π δ) (rs : List Renewal) := (renewing_row s rs).1
  unfold verifyQuiescent
  by_cases hold : c.oldBackend
  · rw [if_neg (not_not.mpr hold)]
    refine .read ?_
    cases hrun : (inputs 0).runtime with
    | error ex => exact .refused (fun h => absurd h.2.1 (by simp)) leftAlone_refl
    | ok names =>
        cases names with
        | cons name names => exact .refused (fun h => absurd h.2.1 (by simp)) leftAlone_refl
        | nil =>
            refine .read ?_
            cases hpath : c.archivePath with
            | none =>
                refine .refused (fun h => ?_) leftAlone_refl
                have hfile := h.2.2
                rw [hpath] at hfile
                contradiction
            | some archivePath =>
                have hverifiable : Verifiable c (.ok []) := ⟨hold, rfl, by simp [hpath]⟩
                refine ⟨fun _ => ?_, fun h => absurd hverifiable h⟩
                rw [← EpochWorld.renewing_later, ← EpochWorld.renewing_later]
                exact commitRotation_spec hc
                  ((hkept _ _).profile.trans ((hkept _ _).profile.trans hprofile)) rfl
  · rw [if_pos hold]
    exact .refused (fun h => hold h.1) leftAlone_refl

/-- The profiles a rotation goes from and to. -/
def Rotatable (P : ProfileOps π) (c : RotateCommand π) (s : Store π δ) : Prop :=
  ∃ target current, c.target = some target ∧
    (P.backend target = some "compose" ∨ P.backend target = some "kubeai") ∧
    P.catalogsError target = none ∧ s.profile = some current ∧
    P.backend current ≠ P.backend target

/-- No lease protects anything at the check. -/
def LapsedAt (s : Store π δ) (now : Int) : Prop := ∀ l ∈ s.leases, ¬ l.isProtecting now

/-- The rotation is granted, and comes to its reset: every check passes, and
nothing interrupts it. -/
structure GoesThrough (P : ProfileOps π) (c : RotateCommand π) (inputs : Nat → EpochInput)
    (w : EpochWorld π δ) : Prop where
  rotatable : Rotatable P c w.ledger.store
  lapsed : LapsedAt (w.ledger.store.renewing (landed inputs 3)) (inputs 2).now
  verifiable : Verifiable c (inputs 4).runtime
  uninterrupted : ∀ k ≤ 9, (inputs k).fault = none

omit [DecidableEq π] in
/-- The leases that `status` shows as ACTIVE protect something. -/
theorem status_active_eq_nil (s : Store π δ) (now : Int) :
    ((status s true now).1.filter (·.state = .active)).map Lease.id = [] ↔ LapsedAt s now := by
  rw [List.map_eq_nil_iff, List.filter_eq_nil_iff]
  have hmem : ∀ l, l ∈ (status s true now).1 ↔ ∃ l₀ ∈ s.leases,
      (if l₀.state = .active ∧ ¬ l₀.isProtecting now then { l₀ with state := .expired } else l₀) =
        l := by
    intro l
    simp [status]
  constructor
  · intro h l hl hprot
    have hshown : l ∈ (status s true now).1 := (hmem l).mpr ⟨l, hl, by simp [hprot]⟩
    have hactive : l.state = .active := by
      unfold Lease.isProtecting at hprot
      simp only [Bool.and_eq_true, decide_eq_true_eq] at hprot
      exact hprot.1
    exact absurd (h l hshown) (by simp [hactive])
  · intro h l hl
    obtain ⟨l₀, hl₀, rfl⟩ := (hmem l).mp hl
    have hnot := h l₀ hl₀
    by_cases hactive : l₀.state = .active
    · simp [hactive, hnot]
    · simp [hactive]

/-- The check of the leases, and the steps after it. -/
theorem verifyNoLease_spec (hc : c.apply) (hprofile : w.ledger.store.profile = some current) :
    EndsIf (LapsedAt (w.ledger.store.renewing (landed inputs 1)) (inputs 0).now ∧
        Verifiable c (inputs 2).runtime) inputs w
      ((verifyNoLease P c target current archives).exec inputs w).2.2 7
      (w.renewing (landed inputs 6)).ledger := by
  have hkept (s : Store π δ) (rs : List Renewal) := (renewing_row s rs).1
  have hfirst : landed inputs 1 = (inputs 0).renewals := by simp [landed, List.range_succ]
  have hactive := status_active_eq_nil (w.renewing (inputs 0).renewals).ledger.store
    (inputs 0).now
  unfold verifyNoLease
  rw [hfirst]
  refine .read (.read ?_)
  cases hids : ((status (w.renewing (inputs 0).renewals).ledger.store true
      (inputs 0).now).1.filter (·.state = .active)).map Lease.id with
  | cons id ids =>
      rw [hids] at hactive
      exact .refused (fun h => absurd (hactive.mpr h.1) (by simp)) leftAlone_refl
  | nil =>
      rw [← EpochWorld.renewing_later, ← EpochWorld.renewing_later]
      exact (verifyQuiescent_spec hc ((hkept _ _).profile.trans
        ((hkept _ _).profile.trans hprofile))).congr (and_iff_right (hactive.mp hids))

/-- What a rotation verifies decides whether it comes to its reset, the tenth
step; the archive is taken in the eighth. -/
theorem rotateBackend_endsIf (hc : c.apply) :
    EndsIf (Rotatable P c w.ledger.store ∧
        LapsedAt (w.ledger.store.renewing (landed inputs 3)) (inputs 2).now ∧
        Verifiable c (inputs 4).runtime) inputs w
      ((rotateBackend P c).exec inputs w).2.2 9 (w.renewing (landed inputs 8)).ledger := by
  have hkept (s : Store π δ) (rs : List Renewal) := (renewing_row s rs).1
  unfold rotateBackend
  cases htarget : c.target with
  | none =>
      refine .refused (fun h => ?_) leftAlone_refl
      obtain ⟨_, _, hsome, -⟩ := h.1
      rw [htarget] at hsome
      contradiction
  | some target =>
      -- what a rotation to this target asks
      have htold : Rotatable P c w.ledger.store ↔
          (P.backend target = some "compose" ∨ P.backend target = some "kubeai") ∧
          P.catalogsError target = none ∧ ∃ current, w.ledger.store.profile = some current ∧
            P.backend current ≠ P.backend target := by
        unfold Rotatable
        simp [htarget]
      rw [htold]
      dsimp only
      split
      · rename_i hother
        exact .refused (fun h => h.1.1.elim hother.1 hother.2) leftAlone_refl
      · rename_i hbackend
        have hbackends := not_and_or.mp hbackend
        rw [not_not, not_not] at hbackends
        cases hcatalogs : P.catalogsError target with
        | some detail => exact .refused (fun h => absurd h.1.2.1 (by simp)) leftAlone_refl
        | none =>
            refine .read (.read ?_)
            have hread : (w.renewing (inputs 0).renewals).ledger.store.profile =
                w.ledger.store.profile := (hkept _ _).profile
            rw [hread]
            cases hprofile : w.ledger.store.profile with
            | none => exact .refused (fun h => absurd h.1.2.2 (by simp)) leftAlone_refl
            | some current =>
                dsimp only
                split
                · rename_i hsame
                  refine .refused (fun h => ?_) leftAlone_refl
                  obtain ⟨-, -, current', hsome, hne⟩ := h.1
                  obtain rfl := Option.some.inj hsome
                  exact hne hsame
                · rename_i hne
                  rw [← EpochWorld.renewing_later, ← EpochWorld.renewing_later]
                  refine (verifyNoLease_spec hc ((hkept _ _).profile.trans
                    ((hkept _ _).profile.trans hprofile))).congr ((and_iff_right ?_).trans ?_)
                  · exact ⟨hbackends, rfl, current, rfl, hne⟩
                  · rw [landed_succ inputs, landed_succ (later inputs 1), Store.renewing_append,
                      Store.renewing_append]
                    exact Iff.rfl

/-- A rotation that is granted resets the ledger in its tenth step, and has taken
the archive in its eighth; any other leaves the ledger alone. -/
theorem rotateBackend_spec (hc : c.apply) (w' : EpochWorld π δ)
    (hw' : ((rotateBackend P c).exec inputs w).2.2 = w') :
    (GoesThrough P c inputs w ∧ Archived w' (w.renewing (landed inputs 8)).ledger ∧
        w'.reset = some ((inputs 9).now, w.ledger.store.renewing (landed inputs 10))) ∨
      (¬ GoesThrough P c inputs w ∧ LeftAlone inputs w w') := by
  have hends : EndsIf _ inputs w ((rotateBackend P c).exec inputs w).2.2 9 _ :=
    rotateBackend_endsIf hc
  rw [hw'] at hends
  by_cases hgranted : Rotatable P c w.ledger.store ∧
      LapsedAt (w.ledger.store.renewing (landed inputs 3)) (inputs 2).now ∧
      Verifiable c (inputs 4).runtime
  · cases hends.ends hgranted with
    | inl h => exact .inl ⟨⟨hgranted.1, hgranted.2.1, hgranted.2.2, h.1⟩, h.2⟩
    | inr h =>
        obtain ⟨⟨k, hk, hfault⟩, hleft⟩ := h
        exact .inr ⟨fun hgo => hfault (hgo.uninterrupted k hk), hleft⟩
  · exact .inr ⟨fun hgo => hgranted ⟨hgo.rotatable, hgo.lapsed, hgo.verifiable⟩,
      hends.leftAlone hgranted⟩

end Rotation

/-! ## what a rotation must keep -/

/-- The archived ledger has every row of `s`, with the same values. -/
structure HasRows (s file : Store π δ) : Prop where
  leases : ∀ l ∈ s.leases, l ∈ file.leases
  deployments : ∀ d ∈ s.deployments, d ∈ file.deployments
  claims : s.claims ⊆ file.claims
  addresses : ∀ service ip, s.serviceAddresses.get? service = some ip →
    file.serviceAddresses.get? service = some ip

/-- A reset finds no lease that protects anything, and its archive has every row
it deletes.  Without a reset the ledger is as the renews left it. -/
def RotatesSafely (inputs : Nat → EpochInput) (w w' : EpochWorld π δ) : Prop :=
  match w'.reset with
  | some (now, s) => LapsedAt s now ∧ ∃ file, Archived w' file ∧ HasRows s file.store
  | none => ∃ n, w'.ledger = (w.renewing (landed inputs n)).ledger

/-- Of the renews that take effect, the last one between the check and the reset
has lapsed at the reset, and the last one after the archive was taken writes
what the archive has. -/
def HarmlessRenewals (inputs : Nat → EpochInput) (s : Store π δ) : Prop :=
  ∀ id, RenewsNow s id →
    (∀ r ∈ lastRenewal id (landed (later inputs 3) 7),
      ∃ ttl, r.ttlSeconds = some ttl ∧ r.now + ttl ≤ (inputs 9).now) ∧
    (∀ r ∈ lastRenewal id (landed (later inputs 8) 2),
      ∀ l, (s.renewing (landed inputs 8)).getLease id = some l → r.row l = l)

/-- A renewed row protects nothing once its window is over. -/
theorem Renewal.not_isProtecting_iff (r : Renewal) (l : Lease) (now : Int) :
    ¬ (r.row l).isProtecting now ↔ ∃ ttl, r.ttlSeconds = some ttl ∧ r.now + ttl ≤ now := by
  unfold Renewal.row Lease.isProtecting Lease.renewed
  cases r.ttlSeconds with
  | none => simp [pastExpiry]
  | some ttl => simp [pastExpiry]

section Rows

variable {s : Store π δ} {rs : List Renewal} {id : String}

/-- The row after some renews, when a renew of the lease takes effect. -/
theorem getLease_renewing_of_last {r : Renewal} (h : RenewsNow s id)
    (hlast : lastRenewal id rs = some r) :
    (s.renewing rs).getLease id = (s.getLease id).map r.row := by
  have hrow := ((renewing_row s rs).2 id).2.1 h
  rw [hlast] at hrow
  exact hrow

/-- A lease that no renew takes effect on keeps its row. -/
theorem getLease_renewing_of_none (h : RenewsNow s id → lastRenewal id rs = none) :
    (s.renewing rs).getLease id = s.getLease id := by
  obtain ⟨-, hnow, hnot⟩ := (renewing_row s rs).2 id
  by_cases hrenews : RenewsNow s id
  · have hrow := hnow hrenews
    rw [h hrenews] at hrow
    exact hrow
  · exact hnot hrenews

theorem renewsNow_renewing : RenewsNow (s.renewing rs) id ↔ RenewsNow s id :=
  ((renewing_row s rs).2 id).1

/-- What had lapsed has lapsed after some renews exactly if each of them has. -/
theorem lapsedAt_renewing_iff {now now' : Int} (hle : now ≤ now') (h : LapsedAt s now) :
    LapsedAt (s.renewing rs) now' ↔ ∀ id, RenewsNow s id → ∀ r ∈ lastRenewal id rs,
      ∃ ttl, r.ttlSeconds = some ttl ∧ r.now + ttl ≤ now' := by
  constructor
  · intro hlapsed id hrenews r hr
    obtain ⟨l, hl, -⟩ := hrenews.1
    have hrow : (s.renewing rs).getLease id = some (r.row l) := by
      rw [getLease_renewing_of_last hrenews hr, hl]
      rfl
    exact (r.not_isProtecting_iff l now').mp (hlapsed _ (Table.find?_eq_some.mp hrow).1)
  · intro hwindows l hl
    have hget : (s.renewing rs).getLease l.id = some l := Table.mem_iff_find?.mp hl
    by_cases heffect : RenewsNow s l.id ∧ lastRenewal l.id rs ≠ none
    · obtain ⟨hrenews, hne⟩ := heffect
      obtain ⟨r, hr⟩ := Option.ne_none_iff_exists'.mp hne
      rw [getLease_renewing_of_last hrenews hr] at hget
      obtain ⟨l₀, -, hrow⟩ := Option.map_eq_some_iff.mp hget
      have hwindow := hwindows l.id hrenews r hr
      rw [← hrow]
      exact (r.not_isProtecting_iff l₀ now').mpr hwindow
    · have hkept : RenewsNow s l.id → lastRenewal l.id rs = none :=
        fun hrenews => not_not.mp fun hne => heffect ⟨hrenews, hne⟩
      rw [getLease_renewing_of_none hkept] at hget
      have hold := h l (Table.find?_eq_some.mp hget).1
      exact fun hprot => hold (Lease.isProtecting_anti hle hprot)

/-- The rows after some renews are those before exactly if each renew writes what
was there. -/
theorem hasRows_renewing_iff : HasRows (s.renewing rs) s ↔
    ∀ id, RenewsNow s id → ∀ r ∈ lastRenewal id rs, ∀ l, s.getLease id = some l → r.row l = l := by
  obtain ⟨honly, -⟩ := renewing_row s rs
  constructor
  · intro hrows id hrenews r hr l hl
    have hrow : (s.renewing rs).getLease id = some (r.row l) := by
      rw [getLease_renewing_of_last hrenews hr, hl]
      rfl
    obtain ⟨hmem, hid⟩ := Table.find?_eq_some.mp hrow
    have hold := Table.mem_iff_find?.mp (hrows.leases _ hmem)
    rw [hid] at hold
    exact Option.some.inj (hold.symm.trans hl)
  · intro hsame
    refine ⟨fun l hl => ?_, ?_, ?_, ?_⟩
    · have hget : (s.renewing rs).getLease l.id = some l := Table.mem_iff_find?.mp hl
      by_cases heffect : RenewsNow s l.id ∧ lastRenewal l.id rs ≠ none
      · obtain ⟨hrenews, hne⟩ := heffect
        obtain ⟨r, hr⟩ := Option.ne_none_iff_exists'.mp hne
        rw [getLease_renewing_of_last hrenews hr] at hget
        obtain ⟨l₀, hl₀, hrow⟩ := Option.map_eq_some_iff.mp hget
        have hkept := hsame l.id hrenews r hr l₀ hl₀
        rw [← hrow, hkept]
        exact (Table.find?_eq_some.mp hl₀).1
      · have hkept : RenewsNow s l.id → lastRenewal l.id rs = none :=
          fun hrenews => not_not.mp fun hne => heffect ⟨hrenews, hne⟩
        rw [getLease_renewing_of_none hkept] at hget
        exact (Table.find?_eq_some.mp hget).1
    · rw [honly.deployments]
      exact fun d hd => hd
    · rw [honly.claims]
      exact List.Subset.refl _
    · rw [honly.addresses]
      exact fun service ip h => h

end Rows

/-- A rotation is safe at every position of the renews exactly if it is refused
or interrupted, or the renews after its check do no harm. -/
theorem rotatesSafely_iff [DecidableEq π] (P : ProfileOps π) (c : RotateCommand π) (hc : c.apply)
    (inputs : Nat → EpochInput) (w : EpochWorld π δ) (hfirst : w.reset = none)
    (hclock : (inputs 2).now ≤ (inputs 9).now) :
    RotatesSafely inputs w ((rotateBackend P c).exec inputs w).2.2 ↔
      (GoesThrough P c inputs w → HarmlessRenewals inputs w.ledger.store) := by
  cases @rotateBackend_spec _ _ _ P c inputs w hc _ rfl with
  | inr hrefused =>
      obtain ⟨hnot, hreset, hledger⟩ := hrefused
      refine iff_of_true ?_ fun hgo => absurd hgo hnot
      unfold RotatesSafely
      rw [hreset, hfirst]
      exact hledger
  | inl hdone =>
      obtain ⟨hgo, harchived, hreset⟩ := hdone
      have hcheck : w.ledger.store.renewing (landed inputs 10) =
          (w.ledger.store.renewing (landed inputs 3)).renewing (landed (later inputs 3) 7) := by
        rw [← Store.renewing_append, ← landed_add]
      have harchive : w.ledger.store.renewing (landed inputs 10) =
          (w.ledger.store.renewing (landed inputs 8)).renewing (landed (later inputs 8) 2) := by
        rw [← Store.renewing_append, ← landed_add]
      have hlapsed : LapsedAt (w.ledger.store.renewing (landed inputs 10)) (inputs 9).now ↔
          ∀ id, RenewsNow w.ledger.store id →
            ∀ r ∈ lastRenewal id (landed (later inputs 3) 7),
              ∃ ttl, r.ttlSeconds = some ttl ∧ r.now + ttl ≤ (inputs 9).now := by
        rw [hcheck, lapsedAt_renewing_iff hclock hgo.lapsed]
        simp only [renewsNow_renewing]
      have hrows : HasRows (w.ledger.store.renewing (landed inputs 10))
            (w.ledger.store.renewing (landed inputs 8)) ↔
          ∀ id, RenewsNow w.ledger.store id →
            ∀ r ∈ lastRenewal id (landed (later inputs 8) 2),
              ∀ l, (w.ledger.store.renewing (landed inputs 8)).getLease id = some l →
                r.row l = l := by
        rw [harchive, hasRows_renewing_iff]
        simp only [renewsNow_renewing]
      have hsafe : RotatesSafely inputs w ((rotateBackend P c).exec inputs w).2.2 ↔
          LapsedAt (w.ledger.store.renewing (landed inputs 10)) (inputs 9).now ∧
            HasRows (w.ledger.store.renewing (landed inputs 10))
              (w.ledger.store.renewing (landed inputs 8)) := by
        unfold RotatesSafely
        rw [hreset]
        refine and_congr_right fun _ => ?_
        constructor
        · rintro ⟨file, ⟨a, ha, hfile⟩, hhas⟩
          obtain ⟨a', ha', hfile'⟩ := harchived
          obtain rfl := Option.some.inj (ha.symm.trans ha')
          obtain rfl := Option.some.inj (hfile.symm.trans hfile')
          exact hhas
        · exact fun hhas => ⟨_, harchived, hhas⟩
      rw [hsafe, hlapsed, hrows]
      constructor
      · exact fun h _ id hrenews => ⟨h.1 id hrenews, h.2 id hrenews⟩
      · exact fun h => ⟨fun id hrenews => (h hgo id hrenews).1,
          fun id hrenews => (h hgo id hrenews).2⟩

/-! ## a renew between the check and the reset -/

/-- Profiles that are their backend. -/
def backendOnly : ProfileOps String where
  backend := some
  catalogsError _ := none
  withoutCatalogs p := p
  signature p _ := p

/-- Rotate to KubeAI. -/
def toKubeai : RotateCommand String where
  target := some "kubeai"
  oldBackend := true
  archivePath := some fun backend signature => "archives/" ++ backend ++ signature
  apply := true

/-- A Compose ledger with one lease of a hundred seconds, taken at 0. -/
def lapsedLedger : EpochWorld String Unit where
  ledger := ⟨acquireOrKeep Store.empty "l1" "ann" (some 100)
    (planAcquire (Store.empty : Store String Unit) [chatRequest] (fun _ => false) 0 fun _ => "grp")
    ∅ none (some "compose"), []⟩

/-- The rotation runs from 200 on; its sixth step comes after some renews. -/
def renewedAt (renewals : List Renewal) (k : Nat) : EpochInput :=
  { now := 200 + k, renewals := if k = 5 then renewals else [] }

/-- The lease is renewed for a thousand seconds after the check, and deleted while
it protects its deployment. -/
theorem renewed_lease_deleted :
    ¬ RotatesSafely (renewedAt [⟨"l1", some 1000, 204⟩]) lapsedLedger
      ((rotateBackend backendOnly toKubeai).exec (renewedAt [⟨"l1", some 1000, 204⟩])
        lapsedLedger).2.2 := by
  intro h
  have hlapsed : LapsedAt (lapsedLedger.ledger.store.renewing [⟨"l1", some 1000, 204⟩]) 209 := h.1
  exact hlapsed ⟨"l1", "ann", .active, 0, some 1000, some 1204, 204⟩ (by decide) (by decide)

/-- Renewed for three seconds, it has lapsed again at the reset. -/
theorem lapsed_lease_archived :
    RotatesSafely (renewedAt [⟨"l1", some 3, 204⟩]) lapsedLedger
      ((rotateBackend backendOnly toKubeai).exec (renewedAt [⟨"l1", some 3, 204⟩])
        lapsedLedger).2.2 := by
  refine (rotatesSafely_iff backendOnly toKubeai rfl (renewedAt [⟨"l1", some 3, 204⟩]) lapsedLedger
    rfl (by decide)).mpr fun _ id _ => ⟨fun r hr => ?_, fun r hr => ?_⟩
  · have hlast : lastRenewal id [⟨"l1", some 3, 204⟩] = some r := hr
    unfold lastRenewal at hlast
    by_cases hid : "l1" = id
    · simp only [hid, decide_true, List.filter_cons_of_pos, List.filter_nil,
        List.getLast?_singleton, Option.some.injEq] at hlast
      subst hlast
      exact ⟨3, rfl, show (204 : Int) + 3 ≤ 209 by decide⟩
    · simp [hid] at hlast
  · have hnone : (none : Option Renewal) = some r := hr
    contradiction

end InferStack
