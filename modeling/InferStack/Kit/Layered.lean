import InferStack.Kit.Ordered

/-!
# InferStack.Kit.Layered

A table assigned layer by layer, and listed in the order of its keys.

`layered_map_congr`: what the list shows depends only on what each key was
assigned last.  `map_layered_of_book`: where every item shows what a book says
of its key, the list shows the book, on the keys that are there.
-/

namespace Kit

variable {α β κ : Type*} [LinearOrder κ] {key : α → κ}

/-- The items assigned in turn, a later one winning, in the order of their keys. -/
def layered (key : α → κ) (as : List α) : List α :=
  (Table.ofList as : Table α key).rows.insertionSort fun a b => key a ≤ key b

theorem mem_layered {as : List α} {a : α} :
    a ∈ layered key as ↔ (as.filter fun b => key b = key a).getLast? = some a := by
  rw [layered, List.mem_insertionSort, ← Table.find?_ofList_last as (key a), ← Table.mem_iff_find?]
  exact Table.mem_def.symm

theorem mem_of_mem_layered {as : List α} {a : α} (h : a ∈ layered key as) : a ∈ as :=
  (List.mem_filter.mp (List.mem_of_getLast? (mem_layered.mp h))).1

/-- The keys of the list are strictly in order. -/
theorem pairwise_layered (as : List α) :
    (layered key as).Pairwise fun a b => key a < key b := by
  have hsorted : (layered key as).Pairwise fun a b => key a ≤ key b :=
    List.pairwise_insertionSort _ _
  have hnodup : ((layered key as).map key).Nodup :=
    ((List.perm_insertionSort _ _).map key).nodup_iff.mpr (Table.ofList as : Table α key).nodup
  exact (hsorted.and (List.pairwise_map.mp hnodup)).imp fun h => lt_of_le_of_ne h.1 h.2

/-- A key that is assigned is listed. -/
theorem exists_mem_layered {as : List α} {a : α} (h : a ∈ as) :
    ∃ b ∈ layered key as, key b = key a := by
  have hmem : a ∈ as.filter fun b => key b = key a := List.mem_filter.mpr ⟨h, by simp⟩
  obtain ⟨b, hb⟩ := Option.isSome_iff_exists.mp
    (List.getLast?_isSome.mpr (List.ne_nil_of_mem hmem))
  have hkey : key b = key a := by
    simpa using (List.mem_filter.mp (List.mem_of_getLast? hb)).2
  exact ⟨b, mem_layered.mpr (by simpa only [hkey] using hb), hkey⟩

section Shown

variable {f : α → β} {k : β → κ}

/-- What two lists show is the same when they show the same items. -/
theorem map_layered_ext (hk : ∀ a, k (f a) = key a) {as bs : List α}
    (h : ∀ b, b ∈ (layered key as).map f ↔ b ∈ (layered key bs).map f) :
    (layered key as).map f = (layered key bs).map f := by
  have hpair : ∀ cs, ((layered key cs).map f).Pairwise fun a b => k a < k b := fun cs => by
    refine List.pairwise_map.mpr ((pairwise_layered cs).imp fun {a b} hlt => ?_)
    rw [hk, hk]
    exact hlt
  have hnodup : ∀ cs, ((layered key cs).map f).Nodup := fun cs =>
    (hpair cs).imp fun {a b} hlt heq => absurd (heq ▸ hlt) (lt_irrefl _)
  have hperm := (List.perm_ext_iff_of_nodup (hnodup as) (hnodup bs)).mpr h
  refine List.Perm.eq_of_pairwise (fun a b _ _ hab hba => ?_) (hpair as) (hpair bs) hperm
  exact absurd (lt_trans hab hba) (lt_irrefl _)

/-- The list shows the same when each key was assigned the same last, as shown. -/
theorem layered_map_congr (hk : ∀ a, k (f a) = key a) {as bs : List α}
    (h : ∀ x, (as.filter fun a => key a = x).getLast?.map f =
      (bs.filter fun b => key b = x).getLast?.map f) :
    (layered key as).map f = (layered key bs).map f := by
  have hsub : ∀ {cs ds : List α}, (∀ x, (cs.filter fun a => key a = x).getLast?.map f =
      (ds.filter fun b => key b = x).getLast?.map f) →
      ∀ b, b ∈ (layered key cs).map f → b ∈ (layered key ds).map f := by
    intro cs ds hsame b hb
    obtain ⟨a, ha, rfl⟩ := List.mem_map.mp hb
    have hlast := hsame (key a)
    rw [mem_layered.mp ha, Option.map_some] at hlast
    obtain ⟨d, hd, hshown⟩ := Option.map_eq_some_iff.mp hlast.symm
    have hkey : key d = key a := by
      simpa using (List.mem_filter.mp (List.mem_of_getLast? hd)).2
    exact List.mem_map.mpr ⟨d, mem_layered.mpr (by simpa only [hkey] using hd), hshown⟩
  exact map_layered_ext hk fun b => ⟨hsub h b, hsub (fun x => (h x).symm) b⟩

/-- Where every item shows what the book says of its key, so does the list. -/
theorem mem_map_layered_of_book {as : List α} {book : κ → β} (h : ∀ a ∈ as, f a = book (key a))
    {b : β} : b ∈ (layered key as).map f ↔ ∃ a ∈ as, b = book (key a) := by
  constructor
  · intro hb
    obtain ⟨a, ha, rfl⟩ := List.mem_map.mp hb
    have hmem := mem_of_mem_layered ha
    exact ⟨a, hmem, h a hmem⟩
  · rintro ⟨a, ha, rfl⟩
    have hlisted : ∃ c ∈ layered key as, key c = key a := exists_mem_layered ha
    obtain ⟨c, hc, hkey⟩ := hlisted
    refine List.mem_map.mpr ⟨c, hc, ?_⟩
    rw [h c (mem_of_mem_layered hc), hkey]

end Shown

end Kit
