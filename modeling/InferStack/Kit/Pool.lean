import InferStack.Kit.Table
import Mathlib.Data.Finset.Card

/-!
# InferStack.Kit.Pool

Names that draw items from a pool, the first free one each, and keep them.

* `assign_keeps` — a name keeps its item;
* `Separate.assign` — no two names get one item;
* `isSome_assign` — the names are served exactly if there are enough free items.
-/

namespace Kit

variable {κ α : Type*} [DecidableEq κ] [DecidableEq α]

/-- The items that are taken. -/
def Dict.values (d : Dict κ α) : List α := d.rows.map Prod.snd

omit [DecidableEq α] in
theorem Dict.mem_values {d : Dict κ α} {a : α} : a ∈ d.values ↔ ∃ k, d.get? k = some a := by
  unfold Dict.values
  constructor
  · intro h
    obtain ⟨⟨k, a'⟩, hmem, rfl⟩ := List.mem_map.mp h
    exact ⟨k, Dict.get?_eq_some.mpr hmem⟩
  · rintro ⟨k, h⟩
    exact List.mem_map.mpr ⟨(k, a), Dict.get?_eq_some.mp h, rfl⟩

/-- No two names have one item. -/
def Separate (d : Dict κ α) : Prop := ∀ k k' a, d.get? k = some a → d.get? k' = some a → k = k'

omit [DecidableEq α] in
theorem separate_empty : Separate (∅ : Dict κ α) := by
  intro k k' a h
  simp at h

omit [DecidableEq α] in
/-- A new name with a new item. -/
theorem Separate.set {d : Dict κ α} (h : Separate d) {k : κ} {a : α} (ha : a ∉ d.values) :
    Separate (d.set k a) := by
  have hnot : ∀ k', d.get? k' ≠ some a := fun k' hget => ha (Dict.mem_values.mpr ⟨k', hget⟩)
  intro k₁ k₂ b h₁ h₂
  rw [Dict.get?_set] at h₁ h₂
  by_cases hk₁ : k = k₁
  · by_cases hk₂ : k = k₂
    · exact hk₁.symm.trans hk₂
    · rw [if_pos hk₁] at h₁
      rw [if_neg hk₂, ← h₁] at h₂
      exact absurd h₂ (hnot k₂)
  · rw [if_neg hk₁] at h₁
    by_cases hk₂ : k = k₂
    · rw [if_pos hk₂] at h₂
      rw [← h₂] at h₁
      exact absurd h₁ (hnot k₁)
    · rw [if_neg hk₂] at h₂
      exact h k₁ k₂ b h₁ h₂

/-- The first item of a pool that is not taken. -/
def firstFree (pool taken : List α) : Option α := pool.find? (· ∉ taken)

/-- Give each new name the first free item. -/
def assign (pool : List α) : Dict κ α → List κ → Option (Dict κ α)
  | d, [] => some d
  | d, k :: ks =>
      if k ∈ d.keys then assign pool d ks
      else (firstFree pool d.values).bind fun a => assign pool (d.set k a) ks

variable {pool : List α} {d d' : Dict κ α} {ks : List κ}

omit [DecidableEq κ] in
theorem firstFree_eq_some {taken : List α} {a : α} (h : firstFree pool taken = some a) :
    a ∈ pool ∧ a ∉ taken := by
  unfold firstFree at h
  have hfree := List.find?_some h
  exact ⟨List.mem_of_find?_eq_some h, by simpa using hfree⟩

/-- What holds of a dictionary and is kept by each new name holds at the end. -/
theorem assign_induct {P : Dict κ α → Prop} (h : assign pool d ks = some d') (h0 : P d)
    (hstep : ∀ e k a, P e → e.get? k = none → a ∈ pool → a ∉ e.values → P (e.set k a)) : P d' := by
  induction ks generalizing d with
  | nil => exact Option.some.inj h ▸ h0
  | cons k ks ih =>
      unfold assign at h
      by_cases hk : k ∈ d.keys
      · rw [if_pos hk] at h
        exact ih h h0
      · rw [if_neg hk] at h
        obtain ⟨a, hfree, hrest⟩ := Option.bind_eq_some_iff.mp h
        obtain ⟨hpool, htaken⟩ := firstFree_eq_some hfree
        have hnone : d.get? k = none := by
          rw [Option.eq_none_iff_forall_ne_some]
          intro b hb
          exact hk (Dict.mem_keys.mpr ⟨b, hb⟩)
        exact ih hrest (hstep d k a h0 hnone hpool htaken)

/-- A name keeps its item. -/
theorem assign_keeps (h : assign pool d ks = some d') {k : κ} {a : α} (hget : d.get? k = some a) :
    d'.get? k = some a := by
  refine assign_induct (P := fun e => e.get? k = some a) h hget fun e k' b he hnone _ _ => ?_
  have hne : k' ≠ k := by
    rintro rfl
    rw [hnone] at he
    contradiction
  rw [Dict.get?_set, if_neg hne, he]

/-- What is given comes from the pool. -/
theorem assign_pool (h : assign pool d ks = some d') {k : κ} {a : α}
    (hget : d'.get? k = some a) : d.get? k = some a ∨ a ∈ pool := by
  refine assign_induct (P := fun e => e.get? k = some a → d.get? k = some a ∨ a ∈ pool) h
    (fun h0 => .inl h0) (fun e k' b he _ hpool _ hset => ?_) hget
  rw [Dict.get?_set] at hset
  by_cases hk : k' = k
  · rw [if_pos hk] at hset
    exact .inr (Option.some.inj hset ▸ hpool)
  · rw [if_neg hk] at hset
    exact he hset

/-- Every name of the list has an item in the end. -/
theorem assign_serves (h : assign pool d ks = some d') {k : κ} (hk : k ∈ ks) :
    ∃ a, d'.get? k = some a := by
  induction ks generalizing d with
  | nil => contradiction
  | cons k' ks ih =>
      unfold assign at h
      by_cases hold : k' ∈ d.keys
      · rw [if_pos hold] at h
        cases List.mem_cons.mp hk with
        | inr hrest => exact ih h hrest
        | inl heq =>
            obtain ⟨a, ha⟩ := Dict.mem_keys.mp hold
            exact ⟨a, heq ▸ assign_keeps h ha⟩
      · rw [if_neg hold] at h
        obtain ⟨a, -, hrest⟩ := Option.bind_eq_some_iff.mp h
        cases List.mem_cons.mp hk with
        | inr hin => exact ih hrest hin
        | inl heq => exact ⟨a, heq ▸ assign_keeps hrest Dict.get?_set_self⟩

theorem Separate.assign (hd : Separate d) (h : Kit.assign pool d ks = some d') : Separate d' :=
  assign_induct (P := Separate) h hd fun _ _ _ he _ _ hfree => he.set hfree

theorem firstFree_eq_none {taken : List α} :
    firstFree pool taken = none ↔ pool.toFinset \ taken.toFinset = ∅ := by
  unfold firstFree
  rw [List.find?_eq_none, Finset.sdiff_eq_empty_iff_subset]
  constructor
  · intro h a ha
    have hin := h a (List.mem_toFinset.mp ha)
    simpa using hin
  · intro h a ha
    have hin := h (List.mem_toFinset.mpr ha)
    simpa using hin

omit [DecidableEq α] in
theorem mem_keys_set {k k' : κ} {a : α} : k' ∈ (d.set k a).keys ↔ k' = k ∨ k' ∈ d.keys := by
  rw [Dict.mem_keys, Dict.mem_keys]
  constructor
  · rintro ⟨b, hb⟩
    rw [Dict.get?_set] at hb
    by_cases hk : k = k'
    · exact .inl hk.symm
    · rw [if_neg hk] at hb
      exact .inr ⟨b, hb⟩
  · rintro (rfl | ⟨b, hb⟩)
    · exact ⟨a, Dict.get?_set_self⟩
    · by_cases hk : k = k'
      · exact ⟨a, by rw [Dict.get?_set, if_pos hk]⟩
      · exact ⟨b, by rw [Dict.get?_set, if_neg hk, hb]⟩

omit [DecidableEq α] in
theorem mem_values_set {k : κ} {a b : α} (hk : k ∉ d.keys) :
    b ∈ (d.set k a).values ↔ b = a ∨ b ∈ d.values := by
  rw [Dict.mem_values, Dict.mem_values]
  constructor
  · rintro ⟨k', hget⟩
    rw [Dict.get?_set] at hget
    by_cases heq : k = k'
    · rw [if_pos heq] at hget
      exact .inl (Option.some.inj hget).symm
    · rw [if_neg heq] at hget
      exact .inr ⟨k', hget⟩
  · rintro (rfl | ⟨k', hget⟩)
    · exact ⟨k, Dict.get?_set_self⟩
    · have hne : k ≠ k' := by
        rintro rfl
        exact hk (Dict.mem_keys.mpr ⟨b, hget⟩)
      exact ⟨k', by rw [Dict.get?_set, if_neg hne, hget]⟩

/-- The names are served exactly if there are enough free items for the new ones. -/
theorem isSome_assign : (assign pool d ks).isSome ↔
    (ks.toFinset \ d.keys.toFinset).card ≤ (pool.toFinset \ d.values.toFinset).card := by
  induction ks generalizing d with
  | nil => simp [assign]
  | cons k ks ih =>
      unfold assign
      by_cases hk : k ∈ d.keys
      · have hsame : (k :: ks).toFinset \ d.keys.toFinset = ks.toFinset \ d.keys.toFinset := by
          rw [List.toFinset_cons, Finset.insert_sdiff_of_mem _ (List.mem_toFinset.mpr hk)]
        rw [if_pos hk, ih, hsame]
      · have hnames : ((k :: ks).toFinset \ d.keys.toFinset).card =
            (ks.toFinset \ (insert k d.keys.toFinset)).card + 1 := by
          have hin : k ∈ (k :: ks).toFinset \ d.keys.toFinset := by simp [hk]
          have herase : ks.toFinset \ (insert k d.keys.toFinset) =
              ((k :: ks).toFinset \ d.keys.toFinset).erase k := by
            ext x
            simp only [Finset.mem_sdiff, Finset.mem_insert, Finset.mem_erase, List.toFinset_cons]
            tauto
          rw [herase, Finset.card_erase_add_one hin]
        rw [if_neg hk, hnames]
        cases hfree : firstFree pool d.values with
        | none =>
            rw [firstFree_eq_none.mp hfree]
            simp
        | some a =>
            obtain ⟨hpool, htaken⟩ := firstFree_eq_some hfree
            have hkeys : (d.set k a).keys.toFinset = insert k d.keys.toFinset := by
              ext x
              simp [mem_keys_set]
            have hvalues : pool.toFinset \ (d.set k a).values.toFinset =
                (pool.toFinset \ d.values.toFinset).erase a := by
              ext x
              simp only [Finset.mem_sdiff, Finset.mem_erase, List.mem_toFinset, mem_values_set hk]
              tauto
            have hin : a ∈ pool.toFinset \ d.values.toFinset := by simp [hpool, htaken]
            have hcard := Finset.card_erase_add_one hin
            rw [Option.bind_some, ih, hkeys, hvalues]
            omega

end Kit
