import InferStack.Kit.Table

/-!
# InferStack.Kit.Kept

Two tables that agree on the rows a predicate keeps.

`KeptAlike p t u` says that `t` and `u` hold the same kept rows in the same
order, and that `u` has no key `t` lacks: `u` is `t` with rows that are not kept
left out or changed.  The writes of a table keep it, as long as they do not turn
a row that is not kept into a kept one.
-/

namespace Kit

namespace Table

variable {α κ ν : Type*} {key : α → κ}

/-- The same kept rows, and no key that the first table lacks. -/
structure KeptAlike (p : α → Bool) (t u : Table α key) : Prop where
  rows : t.rows.filter p = u.rows.filter p
  keys : ∀ k ∈ u.keys, k ∈ t.keys

variable {p : α → Bool} {t u : Table α key}

theorem KeptAlike.refl (p : α → Bool) (t : Table α key) : KeptAlike p t t := ⟨rfl, fun _ h => h⟩

/-- Leaving out rows that are not kept. -/
theorem KeptAlike.filter (h : KeptAlike p t u) : KeptAlike p t (u.filter p) := by
  constructor
  · rw [h.rows]
    simp [Table.filter]
  · intro k hk
    obtain ⟨a, ha, rfl⟩ := mem_keys.mp hk
    exact h.keys _ (mem_keys.mpr ⟨a, (mem_filter.mp ha).1, rfl⟩)

/-- A kept row is a row of both. -/
theorem KeptAlike.mem (h : KeptAlike p t u) {a : α} (ha : p a) : a ∈ t ↔ a ∈ u := by
  have hrows : a ∈ t.rows.filter p ↔ a ∈ u.rows.filter p := by rw [h.rows]
  simpa [ha, mem_def] using hrows

/-- A row appended to both. -/
theorem KeptAlike.insert (h : KeptAlike p t u) {a : α} (ht : key a ∉ t.keys)
    (hu : key a ∉ u.keys) : KeptAlike p (t.insert a ht) (u.insert a hu) := by
  constructor
  · simp [Table.insert, h.rows]
  · intro k hk
    have hcases : k ∈ u.keys ∨ k = key a := by simpa [Table.insert, Table.keys] using hk
    have hgoal : k ∈ t.keys ∨ k = key a := hcases.imp_left (h.keys k)
    simpa [Table.insert, Table.keys] using hgoal

variable [DecidableEq κ]

/-- Lookups agree on kept rows. -/
theorem KeptAlike.find?_filter (h : KeptAlike p t u) (k : κ) :
    (t.find? k).filter p = (u.find? k).filter p := by
  rw [← Table.find?_filter, ← Table.find?_filter, find?, find?]
  show (t.rows.filter p).find? _ = (u.rows.filter p).find? _
  rw [h.rows]

/-- The key of a kept row, or of no row, is looked up alike. -/
theorem KeptAlike.find?_eq (h : KeptAlike p t u) {k : κ} (hk : (t.find? k).all p) :
    u.find? k = t.find? k := by
  cases ht : t.find? k with
  | none =>
      have hkeys : k ∉ u.keys := by
        intro hmem
        have hk' := mem_keys_iff.mp (h.keys k hmem)
        rw [ht] at hk'
        contradiction
      rw [find?_of_not_mem_keys hkeys]
  | some a =>
      rw [ht] at hk
      have hp : p a := by simpa using hk
      obtain ⟨ha, hkey⟩ := find?_eq_some.mp ht
      exact find?_eq_some.mpr ⟨(h.mem hp).mp ha, hkey⟩

theorem KeptAlike.mem_keys_iff (h : KeptAlike p t u) {k : κ} (hk : (t.find? k).all p) :
    k ∈ u.keys ↔ k ∈ t.keys := by
  rw [Table.mem_keys_iff, Table.mem_keys_iff, h.find?_eq hk]

/-- Whether a key has a kept row. -/
theorem KeptAlike.any_find? (h : KeptAlike p t u) (k : κ) :
    (t.find? k).any p = (u.find? k).any p := by
  have hfilter := congrArg Option.isSome (h.find?_filter k)
  simpa [Option.isSome_filter] using hfilter

/-! ## writes -/

/-- Rewriting the rows of a table, none that is not kept becoming kept. -/
theorem filter_map_of_lost {l : List α} {g : α → α}
    (hlost : ∀ a ∈ l, p a = false → p (g a) = false) :
    (l.map g).filter p = ((l.filter p).map g).filter p := by
  induction l with
  | nil => rfl
  | cons a l ih =>
      have htail := ih fun b hb => hlost b (List.mem_cons_of_mem _ hb)
      cases hp : p a with
      | true =>
          rw [List.map_cons, List.filter_cons_of_pos hp, List.map_cons, List.filter_cons,
            List.filter_cons, htail]
      | false =>
          have hga : ¬ p (g a) = true := by simp [hlost a List.mem_cons_self hp]
          have hpa : ¬ p a = true := by simp [hp]
          rw [List.map_cons, List.filter_cons_of_neg hpa, List.filter_cons_of_neg hga, htail]

/-- Rewriting one row, which stays out if it was not kept. -/
theorem KeptAlike.modify (h : KeptAlike p t u) {k : κ} {f : α → α} {hf : ∀ a, key (f a) = key a}
    (hlost : (∀ a, p a = false → p (f a) = false) ∨ (t.find? k).all p) :
    KeptAlike p (t.modify k f hf) (u.modify k f hf) := by
  -- the row of `k` in either table is kept, or stays out
  have hout : ∀ (w : Table α key), ((t.find? k).all p → w.find? k = t.find? k) →
      ∀ a ∈ w.rows, p a = false → p (if key a = k then f a else a) = false := by
    intro w hw a ha hp
    by_cases hk : key a = k
    · rw [if_pos hk]
      cases hlost with
      | inl hall => exact hall a hp
      | inr hkept =>
          have hrow : w.find? k = some a := find?_eq_some.mpr ⟨ha, hk⟩
          rw [← hw hkept, hrow] at hkept
          simp [hp] at hkept
    · rw [if_neg hk]
      exact hp
  constructor
  · show (t.rows.map _).filter p = (u.rows.map _).filter p
    rw [filter_map_of_lost (hout t fun _ => rfl), filter_map_of_lost (hout u h.find?_eq), h.rows]
  · intro k' hk'
    rw [keys_modify] at hk' ⊢
    exact h.keys k' hk'

/-- Rewriting the rows of many keys: none is brought in, or all are kept already
and stay so. -/
theorem KeptAlike.modifyKeys (h : KeptAlike p t u) {ks : List κ} {f : α → α}
    {hf : ∀ a, key (f a) = key a}
    (hlost : (∀ a, p a = false → p (f a) = false) ∨
      ((∀ a, p (f a) = true) ∧ ∀ k ∈ ks, (t.find? k).all p)) :
    KeptAlike p (t.modifyKeys ks f hf) (u.modifyKeys ks f hf) := by
  unfold Table.modifyKeys
  induction ks generalizing t u with
  | nil => exact h
  | cons k ks ih =>
      rw [List.foldl_cons, List.foldl_cons]
      apply ih
      · exact h.modify (hlost.imp_right fun hkept => hkept.2 k List.mem_cons_self)
      · refine hlost.imp_right fun hkept => ⟨hkept.1, fun k' hk' => ?_⟩
        rw [find?_modify]
        have hold := hkept.2 k' (List.mem_cons_of_mem _ hk')
        by_cases hk : k' = k
        · rw [if_pos hk]
          cases t.find? k' with
          | none => rfl
          | some a => simpa using hkept.1 a
        · rw [if_neg hk]
          exact hold

/-- Rewriting the rows a dictionary names, none brought in. -/
theorem KeptAlike.modifyEach (h : KeptAlike p t u) {d : Dict κ ν} {f : ν → α → α}
    {hf : ∀ v a, key (f v a) = key a} (hlost : ∀ v a, p a = false → p (f v a) = false) :
    KeptAlike p (t.modifyEach d f hf) (u.modifyEach d f hf) := by
  unfold Table.modifyEach
  induction d.rows generalizing t u with
  | nil => exact h
  | cons kv rows ih =>
      rw [List.foldl_cons, List.foldl_cons]
      exact ih (h.modify (.inl (hlost kv.2)))

/-- Inserting kept rows under keys that are kept or new: both tables refuse, or
neither. -/
theorem KeptAlike.insertAll? (h : KeptAlike p t u) {as : List α} (hkept : ∀ a ∈ as, p a)
    (hkeys : ∀ a ∈ as, (t.find? (key a)).all p) :
    Option.Rel (KeptAlike p) (t.insertAll? as) (u.insertAll? as) := by
  induction as generalizing t u with
  | nil => exact .some h
  | cons a as ih =>
      have hiff := h.mem_keys_iff (hkeys a List.mem_cons_self)
      unfold Table.insertAll? Table.insert?
      by_cases ha : key a ∈ t.keys
      · rw [dif_neg (not_not.mpr ha), dif_neg (not_not.mpr (hiff.mpr ha))]
        exact .none
      · have hu : key a ∉ u.keys := fun hmem => ha (hiff.mp hmem)
        rw [dif_pos ha, dif_pos hu]
        refine ih (h.insert ha hu) (fun b hb => hkept b (List.mem_cons_of_mem _ hb)) fun b hb => ?_
        rw [find?_insert]
        by_cases hk : key a = key b
        · rw [if_pos hk]
          simpa using hkept a List.mem_cons_self
        · rw [if_neg hk]
          exact hkeys b (List.mem_cons_of_mem _ hb)

end Table

/-- Dropping repeats commutes with keeping the items that pass a test. -/
theorem eraseDups_filter {α : Type*} [DecidableEq α] (p : α → Bool) (l : List α) :
    (l.filter p).eraseDups = l.eraseDups.filter p := by
  induction hn : l.length using Nat.strongRecOn generalizing l with
  | ind n ih =>
      cases l with
      | nil => rfl
      | cons a l =>
          have hshort : (l.filter fun b => !b == a).length < n := by
            have hle := List.length_filter_le (fun b => !b == a) l
            rw [List.length_cons] at hn
            omega
          have htail := ih _ hshort (l.filter fun b => !b == a) rfl
          rw [List.filter_filter] at htail
          rw [List.eraseDups_cons]
          cases hp : p a with
          | true =>
              rw [List.filter_cons_of_pos hp, List.filter_cons_of_pos hp, List.eraseDups_cons,
                List.filter_filter, ← htail]
              simp only [Bool.and_comm]
          | false =>
              have hna : ¬ p a = true := by simp [hp]
              rw [List.filter_cons_of_neg hna, List.filter_cons_of_neg hna, ← htail]
              congr 1
              refine List.filter_congr fun b _ => ?_
              by_cases hb : b = a
              · simp [hb, hp]
              · simp [hb]

/-- Related computations, continued by related ones. -/
theorem rel_bind {α β γ δ : Type*} {R : α → β → Prop} {S : γ → δ → Prop} {x : Option α}
    {y : Option β} {f : α → Option γ} {g : β → Option δ} (h : Option.Rel R x y)
    (hfg : ∀ a b, x = some a → R a b → Option.Rel S (f a) (g b)) :
    Option.Rel S (x.bind f) (y.bind g) := by
  cases h with
  | none => exact .none
  | some hab => exact hfg _ _ rfl hab

end Kit
