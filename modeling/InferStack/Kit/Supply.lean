import Mathlib.Algebra.GroupWithZero.Nat
import Mathlib.Data.List.Perm.Subperm
import Mathlib.Data.List.Nodup
import Mathlib.Algebra.BigOperators.Group.List.Basic

/-!
# Kit.Supply

Demands met one after the other from a shared supply.

Each demand wants a number of items that are good for it.  Where the demands come
in an order in which items good for one are good for all later ones, whatever a
demand takes leaves enough for the rest, if there was a way to meet them all:

* `Enough` — up to each demand, what is wanted does not exceed what is good for it;
* `Enough.of_meets` — some way to meet all demands gives enough;
* `Enough.take` — serving the first demand leaves enough for the others.
-/

namespace Kit

variable {δ α : Type*}

/-- Up to each demand, no more is wanted than there is for it. -/
def Enough (count : δ → Nat) (good : δ → α → Bool) (supply : List α) (ds : List δ) : Prop :=
  ∀ before d after, ds = before ++ d :: after →
    (before.map count).sum + count d ≤ (supply.filter (good d)).length

/-- A way to meet all demands: items of the supply that are good, none used twice. -/
structure Meets (count : δ → Nat) (good : δ → α → Bool) (supply : List α) (ds : List δ)
    (given : δ → List α) : Prop where
  nodup : ∀ d ∈ ds, (given d).Nodup
  count : ∀ d ∈ ds, (given d).length = count d
  supply : ∀ d ∈ ds, ∀ a ∈ given d, a ∈ supply
  good : ∀ d ∈ ds, ∀ a ∈ given d, good d a
  disjoint : ds.Pairwise fun d e => ∀ a ∈ given d, a ∉ given e

variable {count : δ → Nat} {good : δ → α → Bool} {supply : List α} {ds : List δ}

/-- What is given to some demands, in a row. -/
theorem length_flatMap_given {given : δ → List α} (hcount : ∀ d ∈ ds, (given d).length = count d) :
    (ds.flatMap given).length = (ds.map count).sum := by
  induction ds with
  | nil => rfl
  | cons d ds ih =>
      have hd : (given d).length = count d := hcount d List.mem_cons_self
      have hrest := ih fun e he => hcount e (List.mem_cons_of_mem _ he)
      rw [List.flatMap_cons, List.length_append, List.map_cons, List.sum_cons, hd, hrest]

theorem nodup_flatMap_given {given : δ → List α} (hnodup : ∀ d ∈ ds, (given d).Nodup)
    (hdisjoint : ds.Pairwise fun d e => ∀ a ∈ given d, a ∉ given e) :
    (ds.flatMap given).Nodup := by
  rw [List.nodup_flatMap]
  exact ⟨hnodup, hdisjoint.imp fun h a ha hb => h a ha hb⟩

/-- Demands that can be met have enough, if what is good for one is good for all
later ones. -/
theorem Enough.of_meets [DecidableEq α] {given : δ → List α}
    (h : Meets count good supply ds given)
    (hnested : ds.Pairwise fun d e => ∀ a ∈ supply, good d a → good e a) :
    Enough count good supply ds := by
  rintro before d after rfl
  have hpart : ∀ e ∈ before ++ [d], e ∈ before ++ d :: after := by
    intro e he
    cases List.mem_append.mp he with
    | inl h => exact List.mem_append_left _ h
    | inr h => exact List.mem_append_right _ (List.mem_singleton.mp h ▸ List.mem_cons_self)
  have hsub : (before ++ [d]).Sublist (before ++ d :: after) :=
    List.Sublist.append_left (List.singleton_sublist.mpr List.mem_cons_self) before
  have hlen := length_flatMap_given fun e he => h.count e (hpart e he)
  have hnodup := nodup_flatMap_given (fun e he => h.nodup e (hpart e he)) (h.disjoint.sublist hsub)
  have hgood : ∀ a ∈ (before ++ [d]).flatMap given, a ∈ supply.filter (good d) := by
    intro a ha
    obtain ⟨e, he, hae⟩ := List.mem_flatMap.mp ha
    have hsupply := h.supply e (hpart e he) a hae
    refine List.mem_filter.mpr ⟨hsupply, ?_⟩
    have hge := h.good e (hpart e he) a hae
    cases List.mem_append.mp he with
    | inl hbefore =>
        have hpair := (List.pairwise_append.mp hnested).2.2 e hbefore d List.mem_cons_self
        exact hpair a hsupply hge
    | inr hlast => exact List.mem_singleton.mp hlast ▸ hge
  have hle := (hnodup.subperm hgood).length_le
  rw [hlen, List.map_append, List.sum_append] at hle
  simpa using hle

theorem length_le_filter_add [DecidableEq α] (taken : List α) {l : List α} (hl : l.Nodup) :
    l.length ≤ (l.filter (· ∉ taken)).length + taken.length := by
  have hsplit := List.length_eq_length_filter_add (l := l) (· ∉ taken)
  have hin : (l.filter fun a => ! decide (a ∉ taken)).length ≤ taken.length := by
    refine ((hl.filter _).subperm fun a ha => ?_).length_le
    simpa using (List.mem_filter.mp ha).2
  omega

/-- What is taken for the first demand leaves enough for the others. -/
theorem Enough.take [DecidableEq α] {d : δ} {taken : List α} (hsupply : supply.Nodup)
    (h : Enough count good supply (d :: ds)) (hlen : taken.length = count d) :
    Enough count good (supply.filter (· ∉ taken)) ds := by
  rintro before e after rfl
  have hwanted := h (d :: before) e after rfl
  have hleft := length_le_filter_add taken (hsupply.filter (good e))
  rw [List.filter_comm] at hleft
  rw [List.map_cons, List.sum_cons] at hwanted
  omega

/-- There is enough for the first demand. -/
theorem Enough.head {d : δ} (h : Enough count good supply (d :: ds)) :
    count d ≤ (supply.filter (good d)).length := by
  have hfirst := h [] d ds rfl
  simpa using hfirst

end Kit
