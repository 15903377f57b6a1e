import InferStack.Controller

/-!
# InferStack.Controller.Keys

The secrets of the managed `.env`: what a render makes, what a rotation replaces
and what it takes back.

* `get?_secrets`, `present_secrets` — a render writes only what is missing;
* `undone_same`, `undone_secrets` — when a file reads as before again.
-/

namespace InferStack

open Kit

/-! ## secrets made by a render -/

namespace ManagedEnv

variable {m : ManagedEnv} {name : String} {new : Secret}

theorem present_eq_none {env : Dict String String} {k : String} :
    present env k = none ↔ env.get? k = none ∨ env.get? k = some "" := by
  unfold present
  cases env.get? k with
  | none => simp
  | some v => by_cases hv : v = "" <;> simp [hv]

theorem present_congr {env env' : Dict String String} {k : String}
    (h : env'.get? k = env.get? k) : present env' k = present env k := by
  unfold present
  rw [h]

/-- A secret that is there is not made again. -/
theorem secret_of_present {v : String} (h : present m.env name = some v) :
    m.secret false name new = (v, m) := by
  unfold secret
  rw [h]

theorem secret_of_missing (h : present m.env name = none) :
    ∃ v, v ≠ "" ∧ (m.secret false name new).2.env = m.env.set name v := by
  refine ⟨(present m.staged name).getD new.val, ?_, ?_⟩
  · cases hstaged : present m.staged name with
    | none => exact new.property
    | some v => exact of_decide_eq_true (Option.filter_eq_some_iff.mp hstaged).2
  · unfold secret
    rw [h]
    rfl

/-- Only a missing secret is written. -/
theorem get?_secret {k : String} (h : k = name → present m.env name ≠ none) :
    (m.secret false name new).2.env.get? k = m.env.get? k := by
  cases hpresent : present m.env name with
  | some v => rw [secret_of_present hpresent]
  | none =>
      obtain ⟨v, -, henv⟩ : ∃ v, v ≠ "" ∧ (m.secret false name new).2.env = m.env.set name v :=
        secret_of_missing hpresent
      rw [henv, Dict.get?_set, if_neg]
      intro heq
      exact h heq.symm hpresent

theorem present_secret : present (m.secret false name new).2.env name ≠ none := by
  cases hpresent : present m.env name with
  | some v => rw [secret_of_present hpresent, hpresent]; simp
  | none =>
      obtain ⟨v, hv, henv⟩ : ∃ v, v ≠ "" ∧ (m.secret false name new).2.env = m.env.set name v :=
        secret_of_missing hpresent
      rw [henv]
      simp [present, hv]

/-- What a fold leaves in its second component, if its steps leave that. -/
theorem snd_foldl {α β γ : Type} {f : γ × β → α → γ × β} {g : β → α → β}
    (h : ∀ acc a, (f acc a).2 = g acc.2 a) (l : List α) (acc : γ × β) :
    (l.foldl f acc).2 = l.foldl g acc.2 := by
  induction l generalizing acc with
  | nil => rfl
  | cons a l ih => rw [List.foldl_cons, List.foldl_cons, ih, h]

theorem snd_secrets (m : ManagedEnv) (names : List String) (new : String → Secret) :
    (m.secrets false names new).2 =
      names.foldl (fun m name => (m.secret false name (new name)).2) m :=
  snd_foldl (fun _ _ => rfl) names (∅, m)

theorem secrets_cons (m : ManagedEnv) (name : String) (names : List String)
    (new : String → Secret) : (m.secrets false (name :: names) new).2 =
      ((m.secret false name (new name)).2.secrets false names new).2 := by
  rw [snd_secrets, snd_secrets, List.foldl_cons]

/-- What is there, and what is not asked for, stays. -/
theorem get?_secrets {names : List String} {new : String → Secret} {k : String} :
    ∀ m : ManagedEnv, (k ∈ names → present m.env k ≠ none) →
      (m.secrets false names new).2.env.get? k = m.env.get? k := by
  induction names with
  | nil => intro m _; rfl
  | cons name names ih =>
      intro m h
      have hone : (m.secret false name (new name)).2.env.get? k = m.env.get? k :=
        get?_secret fun heq => heq ▸ h (by simp [heq])
      rw [secrets_cons, ih _ fun hk => ?_, hone]
      rw [present_congr hone]
      exact h (List.mem_cons_of_mem _ hk)

/-- What is asked for is there afterwards. -/
theorem present_secrets {names : List String} {new : String → Secret} {k : String} :
    ∀ m : ManagedEnv, k ∈ names → present (m.secrets false names new).2.env k ≠ none := by
  induction names with
  | nil => intro m hk; contradiction
  | cons name names ih =>
      intro m hk
      rw [secrets_cons]
      by_cases hrest : k ∈ names
      · exact ih _ hrest
      · have heq : k = name := (List.mem_cons.mp hk).resolve_right hrest
        subst heq
        have hone : present (m.secret false k (new k)).2.env k ≠ none := present_secret
        rw [present_congr (get?_secrets _ fun hin => absurd hin hrest)]
        exact hone

end ManagedEnv

/-! ## the keys of the gateway -/

theorem apiKeyEnv_ne_saltKeyEnv : apiKeyEnv ≠ saltKeyEnv := by decide

theorem get?_setMasterKey (env : Dict String String) (key : String) {k : String}
    (hapi : k ≠ apiKeyEnv) (hsalt : k ≠ saltKeyEnv) :
    (setMasterKey env key).get? k = env.get? k := by
  unfold setMasterKey
  dsimp only
  split
  · rw [Dict.get?_set, if_neg (Ne.symm hsalt), Dict.get?_set, if_neg (Ne.symm hapi)]
  · rw [Dict.get?_set, if_neg (Ne.symm hapi)]

theorem get?_setMasterKey_api (env : Dict String String) (key : String) :
    (setMasterKey env key).get? apiKeyEnv = some key := by
  unfold setMasterKey
  dsimp only
  split
  · rw [Dict.get?_set, if_neg (Ne.symm apiKeyEnv_ne_saltKeyEnv), Dict.get?_set_self]
  · exact Dict.get?_set_self

theorem get?_putBack (env : Dict String String) (name : String) (value : Option String)
    (k : String) : (putBack env name value).get? k = if k = name then value else env.get? k := by
  unfold putBack
  cases value with
  | some v =>
      rw [Dict.get?_set]
      by_cases h : name = k
      · simp [h]
      · simp [h, Ne.symm h]
  | none =>
      dsimp only
      rw [Dict.get?_filter env (fun n => n ≠ name)]
      by_cases h : k = name <;> simp [h]

theorem masterKey_ne_empty (i : Input) : i.masterKey ≠ "" := by
  unfold Input.masterKey
  intro h
  have hlen := congrArg String.length h
  simp at hlen

/-- Every secret asked for, other than the two keys, is in the file. -/
def SecretsThere (env : Dict String String) (asked : List String) : Prop :=
  ∀ name ∈ asked, name ≠ apiKeyEnv → name ≠ saltKeyEnv → ManagedEnv.present env name ≠ none

/-- The file after a rotation that was undone, `env'` being what it undid. -/
def undone (env env' : Dict String String) : Dict String String :=
  putBack (putBack env' apiKeyEnv (env.get? apiKeyEnv)) saltKeyEnv (env.get? saltKeyEnv)

theorem plainKey_api : PlainKey apiKeyEnv :=
  ⟨by decide, noSpace_of_all (by decide), by decide, by decide⟩

theorem plainKey_salt : PlainKey saltKeyEnv :=
  ⟨by decide, noSpace_of_all (by decide), by decide, by decide⟩

theorem get?_undone (env env' : Dict String String) (k : String) : (undone env env').get? k =
    if k = saltKeyEnv then env.get? saltKeyEnv
    else if k = apiKeyEnv then env.get? apiKeyEnv else env'.get? k := by
  rw [undone, get?_putBack, get?_putBack]

/-- Undoing puts back the two keys; what else is different stays. -/
theorem undone_same {env env' : Dict String String} :
    (∀ k, (undone env env').get? k = env.get? k) ↔
      ∀ k, k ≠ apiKeyEnv → k ≠ saltKeyEnv → env'.get? k = env.get? k := by
  constructor
  · intro h k hapi hsalt
    have hk := h k
    rw [get?_undone, if_neg hsalt, if_neg hapi] at hk
    exact hk
  · intro h k
    rw [get?_undone]
    by_cases hsalt : k = saltKeyEnv
    · rw [if_pos hsalt, hsalt]
    · by_cases hapi : k = apiKeyEnv
      · rw [if_neg hsalt, if_pos hapi, hapi]
      · rw [if_neg hsalt, if_neg hapi, h k hapi hsalt]

/-- Undoing a rotation whose render made its secrets. -/
theorem undone_secrets (env : Dict String String) (staged : Dict String String) (key : String)
    (asked : List String) (new : String → Secret) :
    (∀ k, (undone env (ManagedEnv.secrets ⟨setMasterKey env key, staged⟩ false asked new).2.env).get? k =
      env.get? k) ↔ SecretsThere env asked := by
  rw [undone_same]
  have hset : ∀ k, k ≠ apiKeyEnv → k ≠ saltKeyEnv →
      (setMasterKey env key).get? k = env.get? k := fun k => get?_setMasterKey env key
  generalize setMasterKey env key = env' at hset ⊢
  constructor
  · intro h name hname hapi hsalt
    have hthere : ManagedEnv.present (ManagedEnv.secrets ⟨env', staged⟩ false asked new).2.env
        name ≠ none := ManagedEnv.present_secrets _ hname
    rw [ManagedEnv.present_congr (h name hapi hsalt)] at hthere
    exact hthere
  · intro h k hapi hsalt
    have hthere : k ∈ asked → ManagedEnv.present env' k ≠ none := by
      intro hk
      rw [ManagedEnv.present_congr (hset k hapi hsalt)]
      exact h k hk hapi hsalt
    rw [ManagedEnv.get?_secrets ⟨env', staged⟩ hthere]
    exact hset k hapi hsalt

end InferStack
