import Mathlib.Data.List.Sort

/-!
# Kit.Ranked

The first item, in order of cost, that passes a test.

Sorting by cost is stable, so among the cheapest items that pass the test the
one that came first in the list is found (`cheapest_of_find?`), which is the first
of its class (`classes_of_find?`); and the last item of a sorted list is the last
of its greatest.
-/

namespace Kit

variable {α : Type*}

/-- Of two items of a list, one comes first. -/
theorem pair_sublist_or {l : List α} {a b : α} (ha : a ∈ l) (hb : b ∈ l) (hne : a ≠ b) :
    [a, b].Sublist l ∨ [b, a].Sublist l := by
  induction l with
  | nil => contradiction
  | cons c l ih =>
      cases List.mem_cons.mp ha with
      | inl hac =>
          have hbl : b ∈ l := (List.mem_cons.mp hb).resolve_left fun h => hne (hac.trans h.symm)
          exact .inl (hac ▸ (List.singleton_sublist.mpr hbl).cons_cons c)
      | inr hal =>
          cases List.mem_cons.mp hb with
          | inl hbc => exact .inr (hbc ▸ (List.singleton_sublist.mpr hal).cons_cons c)
          | inr hbl =>
              cases ih hal hbl with
              | inl h => exact .inl (h.cons c)
              | inr h => exact .inr (h.cons c)

/-- What comes before an item of a list without repetitions stands in front of it. -/
theorem mem_left_of_pair_sublist {left right : List α} {a b : α}
    (hnodup : (left ++ a :: right).Nodup) (h : [b, a].Sublist (left ++ a :: right)) :
    b ∈ left := by
  have hsplit := List.nodup_append.mp hnodup
  have hright : a ∉ right := (List.nodup_cons.mp hsplit.2.1).1
  obtain ⟨xs, ys, hxy, hxs, hys⟩ := List.sublist_append_iff.mp h
  cases xs with
  | cons x xs =>
      obtain ⟨rfl, -⟩ := List.cons.inj hxy
      exact hxs.subset List.mem_cons_self
  | nil =>
      have hba : [b, a].Sublist (a :: right) := (show [b, a] = ys from hxy) ▸ hys
      cases hba with
      | cons _ hin => exact absurd (hin.subset (by simp)) hright
      | cons_cons _ hin => exact absurd (hin.subset (by simp)) hright

section Cost

variable (cost : α → Nat)

/-- Items in order of cost. -/
def ranked (l : List α) : List α := l.insertionSort fun a b => cost a ≤ cost b

variable {cost} {l : List α} {p : α → Bool} {a : α}

theorem mem_ranked {b : α} : b ∈ ranked cost l ↔ b ∈ l := List.mem_insertionSort _

/-- The item found is the cheapest that passes, and the first of the cheapest. -/
theorem cheapest_of_find? (hnodup : l.Nodup) (h : (ranked cost l).find? p = some a) :
    a ∈ l ∧ p a = true ∧ ∀ b ∈ l, p b = true →
      cost a < cost b ∨ (cost a = cost b ∧ (a = b ∨ [a, b].Sublist l)) := by
  obtain ⟨hpa, left, right, hsplit, hleft⟩ := List.find?_eq_some_iff_append.mp h
  have ha : a ∈ l := mem_ranked.mp (List.mem_of_find?_eq_some h)
  refine ⟨ha, hpa, fun b hb hpb => ?_⟩
  by_cases hab : a = b
  · exact .inr ⟨congrArg cost hab, .inl hab⟩
  have hnotleft : b ∉ left := by
    intro hin
    have hfail := hleft b hin
    simp [hpb] at hfail
  have hright : b ∈ right := by
    have hin : b ∈ left ++ a :: right := hsplit ▸ mem_ranked.mpr hb
    cases List.mem_append.mp hin with
    | inl hl => contradiction
    | inr hr => exact (List.mem_cons.mp hr).resolve_left (Ne.symm hab)
  have hle : cost a ≤ cost b := by
    have hsorted : (ranked cost l).Pairwise fun a b => cost a ≤ cost b :=
      List.pairwise_insertionSort _ _
    rw [hsplit] at hsorted
    have htail := (List.pairwise_append.mp hsorted).2.1
    exact List.rel_of_pairwise_cons htail hright
  cases Nat.lt_or_eq_of_le hle with
  | inl hlt => exact .inl hlt
  | inr heq =>
      refine .inr ⟨heq, .inr ?_⟩
      cases pair_sublist_or ha hb hab with
      | inl hfirst => exact hfirst
      | inr hsecond =>
          -- an earlier item of the same cost would have been found first
          have hpair : [b, a].Sublist (ranked cost l) :=
            List.pair_sublist_insertionSort (le_of_eq heq.symm) hsecond
          have hnd : (left ++ a :: right).Nodup :=
            hsplit ▸ (List.perm_insertionSort _ l).nodup_iff.mpr hnodup
          exact absurd (mem_left_of_pair_sublist hnd (hsplit ▸ hpair)) hnotleft

theorem find?_ranked_eq_none : (ranked cost l).find? p = none ↔ ∀ b ∈ l, p b = false := by
  rw [List.find?_eq_none]
  simp only [mem_ranked, Bool.not_eq_true]

end Cost

section Greatest

variable (r : α → α → Prop)

/-- The last of the greatest items of a list. -/
def Greatest (l : List α) (a : α) : Prop :=
  ∃ before after, l = before ++ a :: after ∧ (∀ b ∈ before, r b a) ∧ ∀ b ∈ after, ¬ r a b

variable {r} {l : List α} {a b : α}

theorem greatest_cons [IsTrans α r] :
    Greatest r (b :: l) a ↔ (r b a ∧ Greatest r l a) ∨ (a = b ∧ ∀ c ∈ l, ¬ r b c) := by
  constructor
  · rintro ⟨before, after, hl, hbefore, hafter⟩
    cases before with
    | nil =>
        obtain ⟨rfl, rfl⟩ := List.cons.inj hl
        exact .inr ⟨rfl, hafter⟩
    | cons c before =>
        obtain ⟨rfl, rfl⟩ := List.cons.inj hl
        have hba : r b a := hbefore b List.mem_cons_self
        exact .inl ⟨hba, before, after, rfl,
          fun c hc => hbefore c (List.mem_cons_of_mem _ hc), hafter⟩
  · intro h
    cases h with
    | inl hin =>
        obtain ⟨hba, before, after, rfl, hbefore, hafter⟩ := hin
        refine ⟨b :: before, after, rfl, fun c hc => ?_, hafter⟩
        cases List.mem_cons.mp hc with
        | inl hcb => exact hcb ▸ hba
        | inr hin => exact hbefore c hin
    | inr hfirst =>
        obtain ⟨rfl, hnone⟩ := hfirst
        exact ⟨[], l, rfl, by simp, hnone⟩

variable [DecidableRel r]

/-- Inserting into a sorted list commutes with keeping the items that pass a test. -/
theorem filter_orderedInsert [IsTrans α r] {p : α → Bool} (hsorted : l.Pairwise r) :
    (l.orderedInsert r a).filter p =
      if p a then (l.filter p).orderedInsert r a else l.filter p := by
  induction l with
  | nil => cases hp : p a <;> simp [hp]
  | cons b l ih =>
      obtain ⟨hb, hl⟩ := List.pairwise_cons.mp hsorted
      have hih := ih hl
      by_cases hab : r a b
      · rw [List.orderedInsert_cons_of_le r l hab, List.filter_cons]
        have hfirst : ∀ c ∈ (b :: l).filter p, r a c := by
          intro c hc
          cases List.mem_cons.mp (List.mem_of_mem_filter hc) with
          | inl hcb => exact hcb ▸ hab
          | inr hin => exact IsTrans.trans a b c hab (hb c hin)
        cases hrest : (b :: l).filter p with
        | nil => simp
        | cons c rest =>
            have hac : r a c := hfirst c (hrest ▸ List.mem_cons_self)
            rw [List.orderedInsert_cons_of_le r rest hac]
      · rw [List.orderedInsert_of_not_le r l hab, List.filter_cons, List.filter_cons, hih]
        cases hpb : p b with
        | false => simp
        | true => cases hpa : p a <;> simp [hab]

theorem filter_insertionSort [Std.Total r] [IsTrans α r] (p : α → Bool) (l : List α) :
    (l.insertionSort r).filter p = (l.filter p).insertionSort r := by
  induction l with
  | nil => rfl
  | cons a l ih =>
      rw [List.insertionSort_cons, filter_orderedInsert (List.pairwise_insertionSort r l), ih,
        List.filter_cons]
      cases hp : p a <;> simp

theorem getLast?_orderedInsert [IsTrans α r] (hsorted : l.Pairwise r) :
    (l.orderedInsert r a).getLast? = some b ↔
      (l.getLast? = some b ∧ r a b) ∨ (b = a ∧ ∀ c ∈ l, ¬ r a c) := by
  induction l with
  | nil => simp [eq_comm]
  | cons c l ih =>
      obtain ⟨hc, hl⟩ := List.pairwise_cons.mp hsorted
      by_cases hac : r a c
      · rw [List.orderedInsert_cons_of_le r l hac, List.getLast?_cons_cons]
        constructor
        · intro h
          have hb : b ∈ c :: l := List.mem_of_getLast? h
          cases List.mem_cons.mp hb with
          | inl hbc => exact .inl ⟨h, hbc ▸ hac⟩
          | inr hin => exact .inl ⟨h, IsTrans.trans a c b hac (hc b hin)⟩
        · intro h
          cases h with
          | inl hlast => exact hlast.1
          | inr hnone => exact absurd hac (hnone.2 c List.mem_cons_self)
      · rw [List.orderedInsert_of_not_le r l hac]
        have hskip : (c :: l.orderedInsert r a).getLast? = (l.orderedInsert r a).getLast? := by
          cases hins : l.orderedInsert r a with
          | nil =>
              have hlen := congrArg List.length hins
              simp [List.orderedInsert_length] at hlen
          | cons d rest => rw [List.getLast?_cons_cons]
        rw [hskip, ih hl, List.forall_mem_cons]
        cases hrest : l with
        | nil =>
            -- the item inserted is the only one after `c`
            have hb : b = c → ¬ r a b := fun h => h ▸ hac
            constructor
            · intro h
              cases h with
              | inl hin => simp at hin
              | inr hin => exact .inr ⟨hin.1, hac, hin.2⟩
            · intro h
              cases h with
              | inl hin => exact absurd hin.2 (hb (by simpa [eq_comm] using hin.1))
              | inr hin => exact .inr ⟨hin.1, hin.2.2⟩
        | cons d rest =>
            rw [List.getLast?_cons_cons]
            simp [hac]

/-- The last item of a sorted list is the last of its greatest items. -/
theorem getLast?_insertionSort [Std.Total r] [IsTrans α r] :
    (l.insertionSort r).getLast? = some a ↔ Greatest r l a := by
  induction l generalizing a with
  | nil => simp [Greatest]
  | cons b l ih =>
      rw [List.insertionSort_cons, getLast?_orderedInsert (List.pairwise_insertionSort r l), ih,
        greatest_cons]
      simp only [List.mem_insertionSort]
      tauto

end Greatest

section Classes

variable {cost : α → Nat} {l : List α} {p : α → Bool} {a : α}

/-- Sorting by cost keeps the order of the items of one cost. -/
theorem filter_ranked (k : Nat) :
    (ranked cost l).filter (fun b => cost b = k) = l.filter fun b => cost b = k := by
  have htotal : Std.Total fun a b : α => cost a ≤ cost b := ⟨fun a b => le_total _ _⟩
  have htrans : IsTrans α fun a b => cost a ≤ cost b := ⟨fun _ _ _ => le_trans⟩
  unfold ranked
  rw [filter_insertionSort]
  apply List.Pairwise.insertionSort_eq
  apply List.pairwise_of_forall_mem_list
  intro b hb c hc
  have hcostb : cost b = k := of_decide_eq_true (List.mem_filter.mp hb).2
  have hcostc : cost c = k := of_decide_eq_true (List.mem_filter.mp hc).2
  rw [hcostb, hcostc]

/-- The item found is the first of its cost that passes, and none of a lower
cost passes. -/
theorem classes_of_find? (h : (ranked cost l).find? p = some a) :
    (∀ k < cost a, l.find? (fun b => cost b = k ∧ p b) = none) ∧
      l.find? (fun b => cost b = cost a ∧ p b) = some a := by
  obtain ⟨hpa, left, right, hsplit, hleft⟩ := List.find?_eq_some_iff_append.mp h
  have hsorted : (ranked cost l).Pairwise fun a b => cost a ≤ cost b :=
    List.pairwise_insertionSort _ _
  constructor
  · intro k hk
    refine List.find?_eq_none.mpr fun b hb hpass => ?_
    obtain ⟨hcost, hpb⟩ := of_decide_eq_true hpass
    have hin : b ∈ left ++ a :: right := hsplit ▸ mem_ranked.mpr hb
    rw [hsplit] at hsorted
    have hright := (List.pairwise_append.mp hsorted).2.1
    cases List.mem_append.mp hin with
    | inl hl =>
        have hfail := hleft b hl
        simp [hpb] at hfail
    | inr hr =>
        cases List.mem_cons.mp hr with
        | inl hsame =>
            rw [hsame] at hcost
            omega
        | inr hlater =>
            have hle := List.rel_of_pairwise_cons hright hlater
            omega
  · -- among the items of this cost, sorting has changed nothing
    have hclass : ∀ m : List α, m.find? (fun b => cost b = cost a ∧ p b) =
        (m.filter fun b => cost b = cost a).find? p := by
      intro m
      rw [List.find?_filter]
      congr 1
      funext b
      simp
    rw [hclass, ← filter_ranked, ← hclass, List.find?_eq_some_iff_append]
    refine ⟨by simp [hpa], left, right, hsplit, fun b hb => ?_⟩
    have hfail := hleft b hb
    simp only [Bool.not_eq_true', decide_eq_false_iff_not, not_and]
    intro _ hpb
    simp [hpb] at hfail

/-- The item found is the first that passes of the lowest cost there is one of. -/
theorem find?_ranked {costs : List Nat} (hcosts : costs.Pairwise (· < ·))
    (hall : ∀ b ∈ l, cost b ∈ costs) :
    (ranked cost l).find? p = costs.findSome? fun k => l.find? fun b => cost b = k ∧ p b := by
  cases hfind : (ranked cost l).find? p with
  | none =>
      symm
      refine List.findSome?_eq_none_iff.mpr fun k _ => List.find?_eq_none.mpr fun b hb hpass => ?_
      have hfail := find?_ranked_eq_none.mp hfind b hb
      simp [hfail] at hpass
  | some a =>
      obtain ⟨hlower, hown⟩ := classes_of_find? hfind
      have ha : a ∈ l := mem_ranked.mp (List.mem_of_find?_eq_some hfind)
      obtain ⟨before, after, hsplit⟩ := List.append_of_mem (hall a ha)
      rw [hsplit] at hcosts
      have hbefore : ∀ k ∈ before, k < cost a := fun k hk =>
        (List.pairwise_append.mp hcosts).2.2 k hk _ List.mem_cons_self
      symm
      exact List.findSome?_eq_some_iff.mpr
        ⟨before, cost a, after, hsplit, hown, fun k hk => hlower k (hbefore k hk)⟩

theorem mem_of_mem_replace [DecidableEq α] {b c : α} (h : c ∈ l.replace a b) : c ∈ l ∨ c = b := by
  induction l with
  | nil => contradiction
  | cons d l ih =>
      rw [List.replace_cons] at h
      split at h
      · cases List.mem_cons.mp h with
        | inl hnew => exact .inr hnew
        | inr hrest => exact .inl (List.mem_cons_of_mem d hrest)
      · cases List.mem_cons.mp h with
        | inl hsame => exact .inl (hsame ▸ List.mem_cons_self)
        | inr hrest => exact (ih hrest).imp_left (List.mem_cons_of_mem d)

/-- Changing the one item of a key, where it is the first of its class. -/
theorem map_eq_replace {κ β : Type*} [DecidableEq κ] [DecidableEq β] {key : α → κ} {f : α → β}
    {g : α → α} {q : α → Bool} (hnodup : (l.map key).Nodup) (hfind : l.find? q = some a)
    (hclass : ∀ b ∈ l, f b = f a → q b = true) :
    (l.map fun b => if key b = key a then g b else b).map f =
      (l.map f).replace (f a) (f (g a)) := by
  induction l with
  | nil => contradiction
  | cons b l ih =>
      obtain ⟨hnot, hnodup'⟩ := List.nodup_cons.mp hnodup
      cases hq : q b with
      | true =>
          rw [List.find?_cons_of_pos hq] at hfind
          obtain rfl := Option.some.inj hfind
          have hrest : l.map (fun c => if key c = key b then g c else c) = l := by
            conv_rhs => rw [← List.map_id l]
            refine List.map_congr_left fun c hc => if_neg fun heq => ?_
            exact hnot (heq ▸ List.mem_map_of_mem hc)
          rw [List.map_cons, hrest, if_pos rfl, List.map_cons, List.map_cons,
            List.replace_cons_self]
      | false =>
          rw [List.find?_cons_of_neg (by simp [hq])] at hfind
          have ha : a ∈ l := List.mem_of_find?_eq_some hfind
          have hkey : key b ≠ key a := fun heq => hnot (heq ▸ List.mem_map_of_mem ha)
          have hne : f b ≠ f a := by
            intro heq
            rw [hclass b List.mem_cons_self heq] at hq
            contradiction
          have hskip : (f a == f b) = false := beq_false_of_ne (Ne.symm hne)
          have hrest := ih hnodup' hfind fun c hc => hclass c (List.mem_cons_of_mem b hc)
          rw [List.map_cons, if_neg hkey, List.map_cons, List.map_cons, List.replace_cons, hskip,
            hrest]

end Classes

end Kit
