import InferStack.Controller.Rules

/-!
# InferStack.Controller.ProfileInUse

Which profile a process renders from, along the programs of the controller.

* `Synced` — between operations: what it renders from is what it last switched to;
* `Using c` — inside one: the stored profile, or the candidate `c` over it;
* `Held c` — the same, once the ledger has a profile;
* `Written c` — the candidate has been committed, and is yet to be adopted.

Every operation starts synced, renders only while it holds the stored profile
(`Held none`), and ends synced.
-/

namespace InferStack

open Kit

variable {π δ φ : Type}

section Predicates

variable (B : Backend π δ φ)

/-- The stored profile, or this invocation's settings before there is one. -/
def ProfileInUse.base (u : ProfileInUse π) (stored : Option π) : π :=
  stored.getD u.settings

/-- The process renders from the candidate `c` over the stored profile. -/
structure Using (c : Option π) (u : ProfileInUse π) (stored : Option π) : Prop where
  error : u.profileError = false
  applied : u.applied = some (u.base stored)
  renders : u.rendersFrom = c.getD (u.base stored)
  base_compatible : B.compatible (u.base stored) = true
  compatible : B.compatible u.rendersFrom = true
  fresh : stored = none → u.fresh = some (u.base stored)

/-- It does, and there is a stored profile. -/
structure Held (c : Option π) (u : ProfileInUse π) (stored : Option π) : Prop
    extends Using B c u stored where
  isSome : stored.isSome

/-- The candidate `c`, if there was one, is the stored profile now. -/
structure Written (c : Option π) (u : ProfileInUse π) (stored : Option π) : Prop where
  error : c = none → u.profileError = false
  stored : stored = some u.rendersFrom
  compatible : B.compatible u.rendersFrom = true
  applied : c = none → u.applied = some u.rendersFrom
  candidate : ∀ p, c = some p → u.rendersFrom = p

variable {B}

theorem Using.synced {u : ProfileInUse π} {stored : Option π} (h : Using B none u stored) :
    u.Synced B := by
  intro q hq
  have heq : u.base stored = q := Option.some.inj (h.applied.symm.trans hq)
  have hr : u.rendersFrom = u.base stored := h.renders
  exact ⟨hr.trans heq, heq ▸ h.base_compatible⟩

/-- Without a candidate, what is held is what is rendered from. -/
theorem Held.stored {u : ProfileInUse π} {stored : Option π} (h : Held B none u stored) :
    stored = some u.rendersFrom := by
  obtain ⟨p, hp⟩ := Option.isSome_iff_exists.mp h.isSome
  have hr : u.rendersFrom = u.base stored := h.renders
  rw [hr, hp]
  rfl

theorem Written.held {u : ProfileInUse π} {stored : Option π} (h : Written B none u stored) :
    Held B none u stored := by
  have hbase : u.base stored = u.rendersFrom := by
    rw [ProfileInUse.base, h.stored]
    rfl
  exact
    { error := h.error rfl
      applied := by rw [hbase]; exact h.applied rfl
      renders := hbase.symm
      base_compatible := hbase ▸ h.compatible
      compatible := h.compatible
      fresh := fun hnone => by rw [h.stored] at hnone; contradiction
      isSome := by rw [h.stored]; rfl }

/-- Committing the candidate that is held. -/
theorem Held.written {c : Option π} {u : ProfileInUse π} {stored : Option π}
    (h : Held B c u stored) : Written B c u (c.or stored) := by
  obtain ⟨q, hq⟩ := Option.isSome_iff_exists.mp h.isSome
  have hbase : u.base stored = q := by rw [ProfileInUse.base, hq]; rfl
  have hr := h.renders
  refine ⟨fun _ => h.error, ?_, h.compatible, fun hc => ?_, fun p hp => ?_⟩
  · cases c with
    | none => rw [hr, hbase, Option.none_or, hq]; rfl
    | some p => rw [hr]; rfl
  · rw [h.applied, hr, hc]
    rfl
  · rw [hr, hp]
    rfl

end Predicates

section Triples

variable [DecidableEq π] {B : Backend π δ φ} {ok : World π δ φ → Input → World π δ φ → Prop}
  {inv : World π δ φ → Prop} {guar : World π δ φ → World π δ φ → Prop} {hguar : ∀ w, guar w w}
  {P : Proc.Assertion (ctlRely ok inv guar hguar)} {careful : Prop}

/-- `P`, while the profile in use and the stored one satisfy `X`. -/
def inUse (P : Proc.Assertion (ctlRely ok inv guar hguar))
    (X : ProfileInUse π → Option π → Prop) : Proc.Assertion (ctlRely ok inv guar hguar) :=
  also P (fun w => X w.process.toProfileInUse w.store.profile) fun w w' hX hm => by
    rw [hm.inUse, hm.profile]
    exact hX

/-- `P`, in a process whose operations have ended. -/
def synced (B : Backend π δ φ) (P : Proc.Assertion (ctlRely ok inv guar hguar)) :
    Proc.Assertion (ctlRely ok inv guar hguar) := inUse P fun u _ => u.Synced B

/-- A step on which the ledger refuses no write, unless the process renders from
the profile it last switched to. -/
def Guarded (i : Input) (u : ProfileInUse π) : Prop :=
  i.markFails = true ∨ i.profileFails = true → u.applied = none ∨ u.applied = some u.rendersFrom

instance (i : Input) (u : ProfileInUse π) : Decidable (Guarded i u) :=
  inferInstanceAs (Decidable (_ → _))

omit [DecidableEq π] in
theorem Guarded.same {i : Input} {u : ProfileInUse π} (h : Guarded i u)
    (hfails : i.markFails = true ∨ i.profileFails = true) {q : π} (hq : u.applied = some q) :
    u.rendersFrom = q := by
  cases h hfails with
  | inl hnone => rw [hnone] at hq; contradiction
  | inr hsame => exact Option.some.inj (hsame.symm.trans hq)

/-- `P`, where an operation has ended.  If every step was guarded, the process
is synced again. -/
def ended (B : Backend π δ φ) (careful : Prop) (P : Proc.Assertion (ctlRely ok inv guar hguar)) :
    Proc.Assertion (ctlRely ok inv guar hguar) := inUse P fun u _ => careful → u.Synced B

omit [DecidableEq π] in
theorem synced_ended (w : World π δ φ) (hw : (synced B P).holds w) : (ended B careful P).holds w :=
  ⟨hw.1, fun _ => hw.2⟩

variable {X : ProfileInUse π → Option π → Prop}

omit [DecidableEq π] in
theorem Quiet.inUse (h : Quiet P) : Quiet (inUse P X) := h.also fun w w' hs hX => by
  rw [hs.inUse, hs.store]
  exact hX

omit [DecidableEq π] in
/-- A profile once stored is not replaced by upkeep. -/
theorem Upkeep.profile {s s' : Store π δ} (h : Upkeep s s') (hsome : s.profile.isSome) :
    s'.profile = s.profile := by
  cases h with
  | sweep now => exact (rowsOnly_sweep s now).profile
  | release leaseId now => exact (rowsOnly_release s leaseId now).profile
  | evict ids now => exact (rowsOnly_evictIdle s ids now).profile
  | backfill residency d gpus hrow h => rfl
  | addresses table s' h =>
      obtain ⟨t, -, rfl⟩ := Option.map_eq_some_iff.mp h
      rfl
  | approve digest => rfl
  | mark apply interrupted profile h =>
      obtain rfl := h (Option.isSome_iff_ne_none.mp hsome)
      rfl

theorem Kept.inUse (h : Kept B P) (hX : ∀ u stored, X u stored → stored.isSome) :
    Kept B (inUse P X) where
  write := fun w w' ho hw => by
    have hw' := h.write w w' ho hw.1
    refine ⟨hw'.1, hw'.2, ?_⟩
    change X w'.process.toProfileInUse w'.store.profile
    rw [ho.inUse, ho.store]
    exact hw.2
  upkeep := fun w s hup hw => by
    have hw' := h.upkeep w s hup hw.1
    refine ⟨hw'.1, hw'.2, ?_⟩
    change X w.process.toProfileInUse s.profile
    rw [hup.profile (hX _ _ hw.2)]
    exact hw.2

omit [DecidableEq π] in
theorem Records.inUse (h : Records P) : Records (inUse P X) := fun w w' hr hw => by
  have hw' := h w w' hr hw.1
  refine ⟨hw'.1, hw'.2, ?_⟩
  change X w'.process.toProfileInUse w'.store.profile
  rw [hr.inUse, hr.store]
  exact hw.2

/-- Under the marker the stored profile is held, and stays held. -/
theorem Kept.held (h : Kept B P) : Kept B (InferStack.inUse P (Held B none)) :=
  h.inUse fun _ _ hX => hX.isSome

omit [DecidableEq π] in
theorem held_synced (w : World π δ φ) (hw : (inUse P (Held B none)).holds w) :
    (synced B P).holds w := ⟨hw.1, hw.2.synced⟩

/-! ## switching profiles -/

omit [DecidableEq π] in
/-- A write to the process alone. -/
theorem Free.process (h : Free P) {w : World π δ φ} (hw : P.holds w) (p : Process π δ) :
    guar w { w with process := p } ∧ P.holds { w with process := p } :=
  h w _ ⟨rfl, rfl, rfl⟩ hw

/-- A process that starts an operation renders from the stored profile. -/
theorem syncProfile_triple (h : Free P) :
    Proc.Triple (synced B P) (syncProfile B) (fun _ => inUse P (Using B none))
      (fun _ => synced B P) := by
  refine Proc.Triple.act fun w i hw _ => ?_
  have hin := h.process hw.1
  dsimp only [syncStep]
  split
  · exact ⟨hguar w, fun _ ha => by contradiction, fun _ _ => hw⟩
  · rename_i herror
    have herror' : w.process.profileError = false := by simpa using herror
    split
    · rename_i happlied
      have hsync := hw.2 _ happlied
      refine ⟨(hin _).1, fun _ _ => ⟨(hin _).2, ?_⟩, fun _ he => by contradiction⟩
      exact ⟨herror', happlied, hsync.1, hsync.2, hsync.1.symm ▸ hsync.2, fun hnone => if_pos hnone⟩
    · split
      · rename_i hc
        refine ⟨(hin _).1, fun _ _ => ⟨(hin _).2, ?_⟩, fun _ he => by contradiction⟩
        exact ⟨herror', rfl, rfl, hc, hc, fun hnone => if_pos hnone⟩
      · exact ⟨(hin _).1, fun _ ha => by contradiction, fun _ _ => ⟨(hin _).2, hw.2⟩⟩

theorem syncStep_using {c : Option π} {w : World π δ φ}
    (h : Using B c w.process.toProfileInUse w.store.profile) : syncStep B w = (.ok (), w) := by
  have hfresh : (if w.store.profile = none then
      some (w.store.profile.getD w.process.settings)
      else w.process.fresh) = w.process.fresh := by
    split
    · rename_i hnone
      exact (h.fresh hnone).symm
    · rfl
  have happlied : w.process.applied =
      some (w.store.profile.getD w.process.settings) := h.applied
  have herror : w.process.profileError = false := h.error
  unfold syncStep
  dsimp only
  rw [hfresh, if_neg (by simp [herror]), if_pos happlied]

/-- A process that renders from a candidate goes on rendering from it. -/
theorem syncProfile_again {c : Option π} {E : Failure → Proc.Assertion (ctlRely ok inv guar hguar)}
    : Proc.Triple (inUse P (Using B c)) (syncProfile B) (fun _ => inUse P (Using B c)) E := by
  refine Proc.Triple.act fun w i hw _ => ?_
  rw [syncStep_using hw.2]
  exact ⟨hguar w, fun _ _ => hw, fun _ he => by contradiction⟩

/-- A profile to mark with is one the ledger lacks. -/
def freshFor (profile : Option π) (w : World π δ φ) : Prop :=
  w.store.profile ≠ none → profile = none

/-- What marking owes: the marker, over what holds between publications. -/
def Marks (B : Backend π δ φ) (P M : Proc.Assertion (ctlRely ok inv guar hguar)) : Prop :=
  ∀ w apply fresh, P.holds w → freshFor fresh w →
    let w' := w.withStore B (w.store.markPublicationPending apply false none fresh)
    guar w w' ∧ M.holds w'

/-- The process has handed its first profile over. -/
structure Taken (B : Backend π δ φ) (c : Option π) (profile : Option π) (u : ProfileInUse π)
    (stored : Option π) : Prop where
  error : u.profileError = false
  applied : u.applied = some (u.base stored)
  renders : u.rendersFrom = c.getD (u.base stored)
  base_compatible : B.compatible (u.base stored) = true
  compatible : B.compatible u.rendersFrom = true
  profile : profile = if stored = none then some (u.base stored) else none

omit [DecidableEq π] in
/-- Marking with what was taken. -/
theorem Taken.held {c profile : Option π} {u : ProfileInUse π} {stored : Option π}
    (h : Taken B c profile u stored) : Held B c u (profile.or stored) := by
  have hor : profile.or stored = some (u.base stored) := by
    rw [h.profile]
    cases stored with
    | none => rfl
    | some q => rfl
  have hbase : u.base (profile.or stored) = u.base stored := by rw [hor]; rfl
  exact
    { error := h.error
      applied := by rw [hbase]; exact h.applied
      renders := by rw [hbase]; exact h.renders
      base_compatible := by rw [hbase]; exact h.base_compatible
      compatible := h.compatible
      fresh := fun hnone => by rw [hor] at hnone; contradiction
      isSome := by rw [hor]; rfl }

/-- Handing the first profile over changes nothing else. -/
def Drops (P : Proc.Assertion (ctlRely ok inv guar hguar)) : Prop :=
  ∀ w, P.holds w → let w' := { w with process := { w.process with fresh := none } }
    guar w w' ∧ P.holds w'

omit [DecidableEq π] in
theorem Free.drops (h : Free P) : Drops P := fun _ hw => h.process hw _

omit [DecidableEq π] in
theorem takeFreshProfile_triple (h : Drops P) {c : Option π}
    {E : Failure → Proc.Assertion (ctlRely ok inv guar hguar)} :
    Proc.Triple (inUse P (Using B c)) takeFreshProfile
      (fun profile => inUse P (Taken B c profile)) E := by
  refine Proc.Triple.act fun w i hw _ => ?_
  have hdrop := h w hw.1
  refine ⟨hdrop.1, fun profile ha => ⟨hdrop.2, ?_⟩, fun e he => by contradiction⟩
  have huse := hw.2
  refine ⟨huse.error, huse.applied, huse.renders, huse.base_compatible, huse.compatible, ?_⟩
  rw [← Except.ok.inj ha]
  split
  · rename_i hnone
    rw [huse.fresh hnone]
    rfl
  · rfl

/-- A mark that was refused: what was taken for it is lost. -/
def Refused (B : Backend π δ φ) (careful : Prop) (c : Option π) (u : ProfileInUse π)
    (stored : Option π) : Prop :=
  ∃ profile, Taken B c profile u stored ∧ (careful → u.applied = some u.rendersFrom)

omit [DecidableEq π] in
theorem Refused.ended {c : Option π} {u : ProfileInUse π} {stored : Option π}
    (h : Refused B careful c u stored) (hcareful : careful) : u.Synced B := by
  obtain ⟨profile, htaken, happlied⟩ := h
  intro q hq
  have hrenders : u.rendersFrom = q := Option.some.inj ((happlied hcareful).symm.trans hq)
  exact ⟨hrenders, hrenders ▸ htaken.compatible⟩

omit [DecidableEq π] in
theorem Refused.synced {u : ProfileInUse π} {stored : Option π}
    (h : Refused B careful none u stored) : u.Synced B := by
  obtain ⟨profile, htaken, -⟩ := h
  intro q hq
  have hbase : u.base stored = q := Option.some.inj (htaken.applied.symm.trans hq)
  exact ⟨htaken.renders.trans hbase, hbase ▸ htaken.base_compatible⟩

/-- Marking, once the process renders from the candidate. -/
theorem markFresh_triple {M : Proc.Assertion (ctlRely ok inv guar hguar)} (hdrop : Drops P)
    (hmark : Marks B P M)
    (hguard : careful → ∀ w i w', ok w i w' → Guarded i w.process.toProfileInUse)
    (c : Option π) (apply : Bool) :
    Proc.Triple (inUse P (Using B c))
      (takeFreshProfile >>= fun fresh => tx B fun i s =>
        refusedIf i.markFails ((), s.markPublicationPending apply false none fresh))
      (fun _ => inUse M (Held B c)) (fun _ => inUse P (Refused B careful c)) := by
  refine Proc.Triple.bind (takeFreshProfile_triple hdrop) fun profile => ?_
  refine tx_rule (fun w i a s hw _ hres => ?_) (fun w i e hw hok hres => ?_)
  · obtain ⟨-, rfl⟩ := Prod.mk.inj (refusedIf_ok hres)
    have hfresh : freshFor profile w := fun hsome => by rw [hw.2.profile, if_neg hsome]
    have hmarked := hmark w apply profile hw.1 hfresh
    exact ⟨hmarked.1, hmarked.2, hw.2.held⟩
  · refine ⟨hw.1, profile, hw.2, fun hcareful => ?_⟩
    have hfails : i.markFails = true := refusedIf_error hres
    have hsame := (hguard hcareful w i w hok).same (.inl hfails) hw.2.applied
    rw [hsame]
    exact hw.2.applied

/-- Marking, in a process that renders from a candidate. -/
theorem markPending_using {M : Proc.Assertion (ctlRely ok inv guar hguar)} (hdrop : Drops P)
    (hmark : Marks B P M)
    (hguard : careful → ∀ w i w', ok w i w' → Guarded i w.process.toProfileInUse)
    (c : Option π) (apply : Bool) :
    Proc.Triple (inUse P (Using B c)) (markPending B apply) (fun _ => inUse M (Held B c))
      (fun _ => inUse P (Refused B careful c)) :=
  Proc.Triple.bind syncProfile_again fun _ => markFresh_triple hdrop hmark hguard c apply

/-- Marking at the start of an operation. -/
theorem markPending_synced {M : Proc.Assertion (ctlRely ok inv guar hguar)} (h : Free P)
    (hmark : Marks B P M) (apply : Bool) :
    Proc.Triple (synced B P) (markPending B apply) (fun _ => inUse M (Held B none))
      (fun _ => synced B P) := by
  refine Proc.Triple.bind (syncProfile_triple h) fun _ => ?_
  refine (markFresh_triple h.drops hmark (fun hfalse : False => hfalse.elim) none
    apply).conseq (fun _ hw => hw) (fun _ _ hw => hw) (fun _ w hw => ⟨hw.1, hw.2.synced⟩)

/-! ## candidates -/

omit [DecidableEq π] in
/-- Rendering from a candidate, or failing to. -/
theorem useProfile_triple (h : Free P) (profile : π) :
    Proc.Triple (inUse P (Using B none)) (useProfile B profile)
      (fun _ => inUse P (Using B (some profile))) (fun _ => inUse P (Using B none)) := by
  refine Proc.Triple.act fun w i hw _ => ?_
  split
  · rename_i hc
    have hin := h.process hw.1 { w.process with rendersFrom := profile }
    refine ⟨hin.1, fun _ _ => ⟨hin.2, ?_⟩, fun _ he => by contradiction⟩
    have huse := hw.2
    exact ⟨huse.error, huse.applied, rfl, huse.base_compatible, hc, huse.fresh⟩
  · exact ⟨hguar w, fun _ ha => by contradiction, fun _ _ => hw⟩

omit [DecidableEq π] in
theorem useCandidate_triple (h : Free P) (candidate : Option π) :
    Proc.Triple (inUse P (Using B none)) (useCandidate B candidate)
      (fun _ => inUse P (Using B candidate)) (fun _ => inUse P (Using B none)) := by
  cases candidate with
  | none => exact Proc.Triple.pure fun _ hw => hw
  | some profile => exact useProfile_triple h profile

/-- The ledger's profile, as an operation read it. -/
def storedIs (P : Proc.Assertion (ctlRely ok inv guar hguar)) (stored : Option π) :
    Proc.Assertion (ctlRely ok inv guar hguar) :=
  also P (fun w => w.store.profile = stored) fun _ _ hX hm => hm.profile.trans hX

omit [DecidableEq π] in
theorem Free.storedIs (h : Free P) (stored : Option π) : Free (storedIs P stored) :=
  h.also fun w w' ha hX => by rw [ha.store]; exact hX

omit [DecidableEq π] in
/-- Back from a candidate to the stored profile. -/
theorem restoreStoredProfile_triple (h : Free P) (c stored : Option π)
    {E : Failure → Proc.Assertion (ctlRely ok inv guar hguar)} :
    Proc.Triple (inUse (storedIs P stored) (Using B c)) (restoreStoredProfile B stored)
      (fun _ => synced B P) E := by
  let back := fun (profile : Option π) (u : ProfileInUse π) (stored : Option π) =>
    profile = some (u.base stored) ∧ B.compatible (u.base stored) = true
  refine Proc.Triple.bind (read_triple (Q := fun fresh => inUse P (back (stored.or fresh)))
    (fun w i fresh hw hres => ⟨hw.1.1, ?_, hw.2.base_compatible⟩) (fun _ _ _ _ he => by contradiction))
    fun fresh => ?_
  · obtain rfl := Except.ok.inj hres
    have hstored : w.store.profile = stored := hw.1.2
    cases hs : stored with
    | none => rw [Option.none_or, hw.2.fresh (hstored.trans hs)]
    | some q => rw [ProfileInUse.base, hstored, hs]; rfl
  · cases hor : stored.or fresh with
    | none => exact fun w hw => by have hfalse := hw.2.1; contradiction
    | some profile =>
        refine Proc.Triple.bind (Q := fun _ => inUse P fun u _ =>
          u.rendersFrom = profile ∧ B.compatible profile = true) ?_ fun _ => ?_
        · refine Proc.Triple.act fun w i hw _ => ?_
          have hc : B.compatible profile = true := by
            rw [Option.some.inj hw.2.1]
            exact hw.2.2
          have hin := h.process hw.1 { w.process with rendersFrom := profile }
          rw [if_pos hc]
          exact ⟨hin.1, fun _ _ => ⟨hin.2, rfl, hc⟩, fun _ he => by contradiction⟩
        · refine Proc.Triple.act fun w i hw _ => ?_
          have hin := h.process hw.1 { w.process with applied := some profile }
          refine ⟨hin.1, fun _ _ => ⟨hin.2, fun q hq => ?_⟩, fun _ he => by contradiction⟩
          obtain rfl := Option.some.inj hq
          exact hw.2

omit [DecidableEq π] in
theorem restoreAfter_triple (h : Free P) (candidate stored : Option π)
    {E : Failure → Proc.Assertion (ctlRely ok inv guar hguar)} :
    Proc.Triple (inUse (storedIs P stored) (Using B candidate))
      (restoreAfter B candidate stored) (fun _ => synced B P) E := by
  cases candidate with
  | none => exact Proc.Triple.pure fun _ hw => ⟨hw.1.1, hw.2.synced⟩
  | some profile => exact restoreStoredProfile_triple h (some profile) stored

omit [DecidableEq π] in
/-- A committed candidate is the stored profile of the process too. -/
theorem adoptCandidate_triple (h : Free P) (candidate : Option π)
    {E : Failure → Proc.Assertion (ctlRely ok inv guar hguar)} :
    Proc.Triple (inUse P (Written B candidate)) (adoptCandidate candidate)
      (fun _ => inUse P (Held B none)) E := by
  cases candidate with
  | none => exact Proc.Triple.pure fun _ hw => ⟨hw.1, hw.2.held⟩
  | some profile =>
      refine Proc.Triple.act fun w i hw _ => ?_
      have hin := h.process hw.1 { w.process with profileError := false, applied := some profile }
      refine ⟨hin.1, fun _ _ => ⟨hin.2, Written.held ?_⟩, fun _ he => by contradiction⟩
      have hrenders : w.process.rendersFrom = profile := hw.2.candidate profile rfl
      exact ⟨fun _ => rfl, hw.2.stored, hw.2.compatible, fun _ => by rw [← hrenders], fun _ hp => by contradiction⟩

/-- Replacing the stored profile under the marker. -/
theorem storeCatalogs_triple (h : Free P) (profile : Option π)
    (hcompat : ∀ p, profile = some p → B.compatible p = true)
    (hwrite : ∀ w p, P.holds w → guar w (w.withStore B (w.store.writeProfile p)) ∧
      P.holds (w.withStore B (w.store.writeProfile p)))
    {E : Failure → Proc.Assertion (ctlRely ok inv guar hguar)} :
    Proc.Triple (inUse P (Held B none)) (storeCatalogs B profile)
      (fun _ => inUse P (Held B none)) E := by
  cases profile with
  | none => exact Proc.Triple.pure fun _ hw => hw
  | some profile =>
      have hc := hcompat profile rfl
      refine Proc.Triple.bind (tx_triple (Q := fun _ => inUse P fun _ stored => stored = some profile)
        (fun w i a s hw _ hres => ?_) (fun _ _ _ _ he => by contradiction)) fun _ => ?_
      · obtain ⟨-, rfl⟩ := Prod.mk.inj (Except.ok.inj hres)
        have hin := hwrite w profile hw.1
        exact ⟨hin.1, hin.2, rfl⟩
      refine Proc.Triple.bind (Q := fun _ => inUse P fun u stored =>
        stored = some profile ∧ u.profileError = false ∧ u.applied = some profile) ?_ fun _ => ?_
      · refine Proc.Triple.act fun w i hw _ => ?_
        have hin := h.process hw.1 { w.process with profileError := false, applied := some profile }
        exact ⟨hin.1, fun _ _ => ⟨hin.2, hw.2, rfl, rfl⟩, fun _ he => by contradiction⟩
      · refine Proc.Triple.act fun w i hw _ => ?_
        have hin := h.process hw.1 { w.process with rendersFrom := profile }
        rw [if_pos hc]
        refine ⟨hin.1, fun _ _ => ⟨hin.2, Written.held ?_⟩, fun _ he => by contradiction⟩
        exact ⟨fun _ => hw.2.2.1, hw.2.1, hc, fun _ => hw.2.2.2, fun _ hp => by contradiction⟩

end Triples

end InferStack
