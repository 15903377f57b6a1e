import InferStack.Kit.Table

/-!
# InferStack.Kit.Holdings

Exclusive holdings: who holds which resources, no resource held twice.

Exclusivity is a field of the structure, so a holder is only ever added
together with the proof that what it takes is free.

* `Holdings.grant` — give a holder resources that are free;
* `Holdings.offer` — grant what is wanted if it is free, else leave it;
* `Holdings.get?_grant`, `Holdings.mem_used_grant` — what a grant changes.
-/

namespace Kit

variable {ι α : Type*} [DecidableEq ι]

/-- Who holds what; holdings of two holders share nothing. -/
structure Holdings (ι α : Type*) [DecidableEq ι] where
  held : Dict ι (List α)
  exclusive : ∀ i xs j ys, (i, xs) ∈ held → (j, ys) ∈ held → i ≠ j → ∀ a ∈ xs, a ∉ ys

namespace Holdings

@[ext] theorem ext {h h' : Holdings ι α} (heq : h.held = h'.held) : h = h' := by
  cases h; cases h'; simp_all

instance [DecidableEq α] : DecidableEq (Holdings ι α) := fun h h' =>
  decidable_of_iff (h.held = h'.held) ⟨ext, fun heq => by rw [heq]⟩

instance : EmptyCollection (Holdings ι α) := ⟨∅, by simp⟩

instance : Inhabited (Holdings ι α) := ⟨∅⟩

/-- What a holder holds. -/
def get? (h : Holdings ι α) (i : ι) : Option (List α) := h.held.get? i

/-- Every resource held. -/
def used (h : Holdings ι α) : List α := h.held.rows.flatMap Prod.snd

@[simp] theorem get?_empty (i : ι) : (∅ : Holdings ι α).get? i = none := rfl

@[simp] theorem used_empty : (∅ : Holdings ι α).used = [] := rfl

theorem mem_used {h : Holdings ι α} {a : α} :
    a ∈ h.used ↔ ∃ i xs, h.get? i = some xs ∧ a ∈ xs := by
  simp only [used, List.mem_flatMap, get?, Dict.get?_eq_some]
  constructor
  · intro hmem
    obtain ⟨⟨i, xs⟩, hrow, ha⟩ := hmem
    exact ⟨i, xs, hrow, ha⟩
  · intro hmem
    obtain ⟨i, xs, hrow, ha⟩ := hmem
    exact ⟨(i, xs), hrow, ha⟩

/-- Two holders share nothing. -/
theorem disjoint {h : Holdings ι α} {i j : ι} {xs ys : List α} (hi : h.get? i = some xs)
    (hj : h.get? j = some ys) (hne : i ≠ j) {a : α} (ha : a ∈ xs) : a ∉ ys :=
  h.exclusive i xs j ys (Dict.get?_eq_some.mp hi) (Dict.get?_eq_some.mp hj) hne a ha

/-- Whether everything in `xs` is free. -/
def Free (h : Holdings ι α) (xs : List α) : Prop := ∀ a ∈ xs, a ∉ h.used

instance [DecidableEq α] (h : Holdings ι α) (xs : List α) : Decidable (h.Free xs) :=
  inferInstanceAs (Decidable (∀ a ∈ xs, a ∉ h.used))

/-- Give `i` what is free, in place of what it held. -/
def grant (h : Holdings ι α) (i : ι) (xs : List α) (hfree : h.Free xs) : Holdings ι α where
  held := h.held.set i xs
  exclusive := by
    have hold : ∀ {j : ι} {ys : List α}, (j, ys) ∈ h.held → ∀ a ∈ ys, a ∈ h.used :=
      fun hj a ha => List.mem_flatMap.mpr ⟨_, hj, ha⟩
    intro j ys k zs hj hk hne a ha hz
    cases Table.mem_put.mp hj with
    | inl hnewj =>
        obtain ⟨rfl, rfl⟩ := Prod.mk.inj hnewj
        cases Table.mem_put.mp hk with
        | inl hnewk => exact hne (Prod.mk.inj hnewk).1.symm
        | inr holdk => exact hfree a ha (hold holdk.1 a hz)
    | inr holdj =>
        cases Table.mem_put.mp hk with
        | inl hnewk =>
            obtain ⟨rfl, rfl⟩ := Prod.mk.inj hnewk
            exact hfree a hz (hold holdj.1 a ha)
        | inr holdk => exact h.exclusive j ys k zs holdj.1 holdk.1 hne a ha hz

theorem get?_grant {h : Holdings ι α} {i : ι} {xs : List α} (hfree : h.Free xs) (j : ι) :
    (h.grant i xs hfree).get? j = if j = i then some xs else h.get? j := by
  have hset : (h.grant i xs hfree).get? j = if i = j then some xs else h.get? j :=
    Dict.get?_set j
  rw [hset]
  simp only [eq_comm]

/-- A new holder only adds to what is used. -/
theorem mem_used_grant {h : Holdings ι α} {i : ι} {xs : List α} (hfree : h.Free xs)
    (hnew : h.get? i = none) {a : α} :
    a ∈ (h.grant i xs hfree).used ↔ a ∈ xs ∨ a ∈ h.used := by
  simp only [mem_used, get?_grant]
  constructor
  · intro hmem
    obtain ⟨j, ys, hj, ha⟩ := hmem
    by_cases hji : j = i
    · rw [if_pos hji] at hj
      obtain rfl := Option.some.inj hj
      exact .inl ha
    · rw [if_neg hji] at hj
      exact .inr ⟨j, ys, hj, ha⟩
  · intro hmem
    cases hmem with
    | inl ha => exact ⟨i, xs, if_pos rfl, ha⟩
    | inr hold =>
        obtain ⟨j, ys, hj, ha⟩ := hold
        have hji : j ≠ i := by
          intro heq
          rw [heq, hnew] at hj
          contradiction
        exact ⟨j, ys, by rw [if_neg hji]; exact hj, ha⟩

end Holdings

end Kit
