import InferStack.Kit.Table
import Mathlib.Data.List.Induction
import Mathlib.Data.List.Sort

/-!
# InferStack.Kit.Ordered

The order of a dictionary.  A table keeps its rows where they were first
assigned, so a table is its keys in order together with its lookups
(`Table.eq_of_keys`).  What follows is read off these two:

* `Table.putAll_congr` — assigning a list of rows only depends on the table the
  list alone would give;
* `Dict.sorted_ofList` — sorting a dictionary is assigning its sorted rows.
-/

namespace Kit

namespace Table

variable {α κ : Type*} {key : α → κ} [DecidableEq κ]

/-- A table is its keys, in order, and its lookups. -/
theorem rows_eq_filterMap (t : Table α key) : t.rows = t.keys.filterMap t.find? := by
  have hfind : ∀ a ∈ t.rows, t.find? (key a) = some a := fun a ha => mem_iff_find?.mp ha
  have hmap : t.keys.filterMap t.find? = t.rows.filterMap (fun a => t.find? (key a)) := by
    rw [keys, List.filterMap_map]
    rfl
  rw [hmap, List.filterMap_congr hfind, List.filterMap_some]

theorem eq_of_keys {t t' : Table α key} (hkeys : t.keys = t'.keys)
    (hfind : ∀ k, t.find? k = t'.find? k) : t = t' := by
  have hsame : t.find? = t'.find? := funext hfind
  apply Table.ext
  rw [rows_eq_filterMap t, rows_eq_filterMap t', hkeys, hsame]

/-! ## where a row is put -/

/-- The keys after an assignment: a new key goes to the end. -/
def addKey (ks : List κ) (k : κ) : List κ := if k ∈ ks then ks else ks ++ [k]

theorem keys_put (t : Table α key) (a : α) : (t.put a).keys = addKey t.keys (key a) := by
  unfold addKey put
  by_cases h : key a ∈ t.keys
  · rw [if_pos h, dif_neg (not_not.mpr h)]
    have hmap : (t.rows.map (fun b => if key b = key a then a else b)).map key = t.rows.map key := by
      rw [List.map_map]
      apply List.map_congr_left
      intro b _
      by_cases hb : key b = key a <;> simp [hb]
    exact hmap
  · rw [if_neg h, dif_pos h]
    simp [insert, keys]

theorem keys_putAll (t : Table α key) (as : List α) :
    (t.putAll as).keys = (as.map key).foldl addKey t.keys := by
  unfold putAll
  induction as generalizing t with
  | nil => rfl
  | cons a as ih => rw [List.foldl_cons, ih, keys_put, List.map_cons, List.foldl_cons]

theorem mem_addKey {ks : List κ} {k k' : κ} : k' ∈ addKey ks k ↔ k' ∈ ks ∨ k' = k := by
  unfold addKey
  by_cases h : k ∈ ks
  · rw [if_pos h]
    constructor
    · exact .inl
    · rintro (hk | rfl)
      · exact hk
      · exact h
  · rw [if_neg h]
    simp

/-- New keys come behind the old ones, in the order they are first met. -/
theorem foldl_addKey (ks : List κ) (l : List κ) :
    l.foldl addKey ks = ks ++ (l.foldl addKey []).filter (· ∉ ks) := by
  have hmem : ∀ ks : List κ, ∀ l : List κ, ∀ k, k ∈ l.foldl addKey ks ↔ k ∈ ks ∨ k ∈ l := by
    intro ks l
    induction l generalizing ks with
    | nil => simp
    | cons x xs ih =>
        intro k
        rw [List.foldl_cons, ih, mem_addKey, List.mem_cons, or_assoc]
  induction l using List.reverseRecOn with
  | nil => simp
  | append_singleton l k ih =>
      rw [List.foldl_append, List.foldl_append, List.foldl_cons, List.foldl_nil, List.foldl_cons,
        List.foldl_nil]
      have hold := hmem ks l k
      have hnew := hmem [] l k
      by_cases hl : k ∈ l
      · have h₁ : addKey (l.foldl addKey ks) k = l.foldl addKey ks := if_pos (hold.mpr (.inr hl))
        have h₂ : addKey (l.foldl addKey []) k = l.foldl addKey [] := if_pos (hnew.mpr (.inr hl))
        rw [h₁, h₂, ih]
      · have h₂ : addKey (l.foldl addKey []) k = l.foldl addKey [] ++ [k] :=
          if_neg fun h => by simpa [hl] using hnew.mp h
        by_cases hks : k ∈ ks
        · have h₁ : addKey (l.foldl addKey ks) k = l.foldl addKey ks := if_pos (hold.mpr (.inl hks))
          rw [h₁, h₂, ih, List.filter_append]
          simp [hks]
        · have h₁ : addKey (l.foldl addKey ks) k = l.foldl addKey ks ++ [k] :=
            if_neg fun h => (hold.mp h).elim hks hl
          rw [h₁, h₂, ih, List.filter_append]
          simp [hks]

/-- What a sequence of assignments leaves under a key: the last one, if any. -/
theorem find?_putAll_last (t : Table α key) (as : List α) (k : κ) :
    (t.putAll as).find? k = (as.filter (fun a => key a = k)).getLast?.or (t.find? k) := by
  unfold putAll
  induction as generalizing t with
  | nil => rfl
  | cons a as ih =>
      rw [List.foldl_cons, ih, find?_put]
      by_cases hk : key a = k
      · rw [List.filter_cons_of_pos (by simpa using hk), if_pos hk]
        cases hrest : as.filter (fun a => key a = k) with
        | nil => rfl
        | cons b bs =>
            rw [List.getLast?_cons_cons, List.getLast?_cons]
            rfl
      · rw [List.filter_cons_of_neg (by simpa using hk), if_neg hk]

/-- Assigning a list of rows only depends on the table of the list. -/
theorem putAll_congr {as bs : List α}
    (h : (ofList as : Table α key) = ofList bs) (t : Table α key) : t.putAll as = t.putAll bs := by
  apply eq_of_keys
  · have hkeys : (as.map key).foldl addKey [] = (bs.map key).foldl addKey [] := by
      have has := keys_putAll (∅ : Table α key) as
      have hbs := keys_putAll (∅ : Table α key) bs
      exact has.symm.trans ((congrArg Table.keys h).trans hbs)
    rw [keys_putAll, keys_putAll, foldl_addKey, hkeys, ← foldl_addKey]
  · intro k
    have hfind : (as.filter (fun a => key a = k)).getLast? =
        (bs.filter (fun a => key a = k)).getLast? := by
      have has := find?_putAll_last (∅ : Table α key) as k
      have hbs := find?_putAll_last (∅ : Table α key) bs k
      rw [find?_empty, Option.or_none] at has hbs
      exact has.symm.trans ((congrArg (Table.find? · k) h).trans hbs)
    rw [find?_putAll_last, find?_putAll_last, hfind]

/-- Keys that are all different stay as they are. -/
theorem foldl_addKey_of_nodup {l : List κ} (h : l.Nodup) : l.foldl addKey [] = l := by
  induction l using List.reverseRecOn with
  | nil => rfl
  | append_singleton l k ih =>
      rw [List.nodup_append] at h
      have hnew : k ∉ l := fun hk => h.2.2 k hk k (List.mem_singleton_self k) rfl
      rw [List.foldl_append, ih h.1, List.foldl_cons, List.foldl_nil, addKey, if_neg hnew]

theorem keys_ofList (as : List α) :
    (ofList as : Table α key).keys = (as.map key).foldl addKey [] :=
  keys_putAll ∅ as

/-- The table of a list without a key twice has its rows, in its order. -/
theorem rows_ofList {as : List α} (h : (as.map key).Nodup) :
    (ofList as : Table α key).rows = as := by
  have htable : (ofList as : Table α key) = ⟨as, h⟩ := by
    apply eq_of_keys
    · rw [keys_ofList, foldl_addKey_of_nodup h]
      rfl
    · intro k
      rw [find?_ofList h]
      rfl
  rw [htable]

/-! ## rows from several sources -/

section Sources

variable {δ : Type*}

/-- What a list of rows leaves under a key: the last one, if any. -/
theorem find?_ofList_last (as : List α) (k : κ) :
    (ofList as : Table α key).find? k = (as.filter (fun a => key a = k)).getLast? := by
  rw [ofList, find?_putAll_last, find?_empty, Option.or_none]

/-- What sources assign, each at most once, under one key. -/
theorem filter_flatMap {f : δ → List α} {one : δ → α} {p : δ → Bool} {k : κ}
    (h : ∀ d, (f d).filter (fun a => key a = k) = if p d then [one d] else []) (ds : List δ) :
    (ds.flatMap f).filter (fun a => key a = k) = (ds.filter p).map one := by
  induction ds with
  | nil => rfl
  | cons d ds ih =>
      rw [List.flatMap_cons, List.filter_append, h d, ih, List.filter_cons]
      cases hp : p d <;> simp

/-- Under a key stays the row of the last source that assigns it. -/
theorem find?_ofList_flatMap {f : δ → List α} {one : δ → α} {p : δ → Bool} {k : κ}
    (h : ∀ d, (f d).filter (fun a => key a = k) = if p d then [one d] else []) (ds : List δ) :
    (ofList (ds.flatMap f) : Table α key).find? k = (ds.filter p).getLast?.map one := by
  rw [find?_ofList_last, filter_flatMap h, List.getLast?_map]

end Sources

/-- A key is found once among the rows of a table in any order. -/
theorem find?_of_perm {t : Table α key} {l : List α} (h : l.Perm t.rows) (k : κ) :
    l.find? (fun a => key a = k) = t.find? k := by
  cases hfind : t.find? k with
  | none =>
      rw [find?_eq_none] at hfind
      rw [List.find?_eq_none]
      intro a ha
      have hne := hfind a (h.mem_iff.mp ha)
      simpa using hne
  | some a =>
      rw [find?_eq_some] at hfind
      have hnodup : (l.map key).Nodup := (h.map key).nodup_iff.mpr t.nodup
      exact (find?_eq_some (t := ⟨l, hnodup⟩)).mpr ⟨h.mem_iff.mpr hfind.1, hfind.2⟩

/-- The rows of a table under one key are what is found there. -/
theorem filter_rows (t : Table α key) (k : κ) :
    t.rows.filter (fun a => key a = k) = (t.find? k).toList := by
  have hmem : ∀ a, a ∈ t.rows.filter (fun a => key a = k) ↔ a ∈ (t.find? k).toList := by
    intro a
    simp [find?_eq_some, mem_def]
  have hnodup : (t.find? k).toList.Nodup := by cases t.find? k <;> simp
  have hperm := (List.perm_ext_iff_of_nodup (t.nodup.of_map.filter _) hnodup).mpr hmem
  cases hfind : t.find? k with
  | none => rw [hfind] at hperm; exact List.perm_nil.mp hperm
  | some a => rw [hfind] at hperm; exact List.perm_singleton.mp hperm

end Table

namespace Dict

variable {κ ν ν' : Type*} [DecidableEq κ]

/-- Rewrite the values, keeping keys and order. -/
theorem ofList_mapValues {f : ν → ν'} {l l' : List (κ × ν)}
    (h : (Table.ofList l : Dict κ ν) = Table.ofList l') :
    (Table.ofList (l.map fun kv => (kv.1, f kv.2)) : Dict κ ν') =
      Table.ofList (l'.map fun kv => (kv.1, f kv.2)) := by
  have hkeys : ∀ l : List (κ × ν),
      (Table.ofList (l.map fun kv => (kv.1, f kv.2)) : Dict κ ν').keys =
        (Table.ofList l : Dict κ ν).keys := by
    intro l
    have hl := Table.keys_putAll (∅ : Dict κ ν) l
    have hmap := Table.keys_putAll (∅ : Dict κ ν') (l.map fun kv => (kv.1, f kv.2))
    rw [List.map_map] at hmap
    exact hmap.trans hl.symm
  have hfind : ∀ l : List (κ × ν), ∀ k,
      (Table.ofList (l.map fun kv => (kv.1, f kv.2)) : Dict κ ν').find? k =
        ((Table.ofList l : Dict κ ν).find? k).map (fun kv => (kv.1, f kv.2)) := by
    intro l k
    have hl := Table.find?_putAll_last (∅ : Dict κ ν) l k
    have hmap := Table.find?_putAll_last (∅ : Dict κ ν') (l.map fun kv => (kv.1, f kv.2)) k
    rw [Table.find?_empty, Option.or_none] at hl hmap
    rw [List.filter_map, List.getLast?_map] at hmap
    rw [Table.ofList, Table.ofList, hmap, hl]
    rfl
  apply Table.eq_of_keys
  · rw [hkeys, hkeys, h]
  · intro k
    rw [hfind, hfind, h]

variable [LinearOrder κ]

/-- The entries in the order of their keys, equal keys as they were. -/
def sortEntries (l : List (κ × ν)) : List (κ × ν) := l.insertionSort (fun a b => a.1 ≤ b.1)

/-- A dictionary in the order of its keys. -/
def sorted (d : Dict κ ν) : Dict κ ν :=
  ⟨sortEntries d.rows, ((List.perm_insertionSort _ d.rows).map Prod.fst).nodup_iff.mpr d.nodup⟩

omit [DecidableEq κ] in
theorem sortEntries_perm (l : List (κ × ν)) : (sortEntries l).Perm l :=
  List.perm_insertionSort _ l

omit [DecidableEq κ] in
theorem pairwise_sortEntries (l : List (κ × ν)) :
    ((sortEntries l).map Prod.fst).Pairwise (· ≤ ·) := by
  rw [List.pairwise_map]
  exact List.pairwise_insertionSort (fun a b : κ × ν => a.1 ≤ b.1) l

omit [DecidableEq κ] in
/-- Changing the values only, before or after sorting. -/
theorem sortEntries_map {ν' : Type*} (g : ν → ν') (l : List (κ × ν)) :
    sortEntries (l.map fun kv => (kv.1, g kv.2)) = (sortEntries l).map fun kv => (kv.1, g kv.2) :=
  (List.map_insertionSort (fun a b : κ × ν => a.1 ≤ b.1) (fun a b : κ × ν' => a.1 ≤ b.1)
    (fun kv : κ × ν => (kv.1, g kv.2)) l fun _ _ _ _ => Iff.rfl).symm

/-- Sorting keeps the entries of one key in place. -/
theorem filter_sortEntries (l : List (κ × ν)) (k : κ) :
    (sortEntries l).filter (fun kv => kv.1 = k) = l.filter (fun kv => kv.1 = k) := by
  have hsorted : (l.filter (fun kv => kv.1 = k)).Pairwise (fun a b : κ × ν => a.1 ≤ b.1) := by
    rw [List.pairwise_iff_forall_sublist]
    intro a b hab
    have ha := (List.mem_filter.mp (hab.subset List.mem_cons_self)).2
    have hb := (List.mem_filter.mp (hab.subset (List.mem_cons_of_mem a List.mem_cons_self))).2
    rw [decide_eq_true_eq] at ha hb
    exact (ha.trans hb.symm).le
  have hsub := (List.sublist_insertionSort hsorted List.filter_sublist).filter (fun kv => kv.1 = k)
  rw [List.filter_filter] at hsub
  simp only [Bool.and_self] at hsub
  have hlen : ((sortEntries l).filter (fun kv => kv.1 = k)).length =
      (l.filter (fun kv => kv.1 = k)).length :=
    ((sortEntries_perm l).filter _).length_eq
  exact (hsub.eq_of_length hlen.symm).symm

/-- The keys of an ordered list of assignments are in order. -/
theorem pairwise_foldl_addKey {l : List κ} (h : l.Pairwise (· ≤ ·)) :
    (l.foldl Table.addKey []).Pairwise (· < ·) := by
  induction l using List.reverseRecOn with
  | nil => exact List.Pairwise.nil
  | append_singleton l k ih =>
      rw [List.pairwise_append] at h
      obtain ⟨hl, -, hlast⟩ := h
      rw [List.foldl_append, List.foldl_cons, List.foldl_nil, Table.addKey]
      by_cases hk : k ∈ l.foldl Table.addKey []
      · rw [if_pos hk]
        exact ih hl
      · rw [if_neg hk, List.pairwise_append]
        refine ⟨ih hl, List.pairwise_singleton _ _, fun x hx y hy => ?_⟩
        obtain rfl := List.mem_singleton.mp hy
        have hxl : x ∈ l := by
          have hsub : ∀ ks : List κ, ∀ l : List κ, x ∈ l.foldl Table.addKey ks → x ∈ ks ∨ x ∈ l := by
            intro ks l
            induction l generalizing ks with
            | nil => exact fun h => .inl h
            | cons a as iha =>
                intro h
                rcases iha _ h with hin | has
                · rcases Table.mem_addKey.mp hin with hks | rfl
                  · exact .inl hks
                  · exact .inr List.mem_cons_self
                · exact .inr (List.mem_cons_of_mem a has)
          exact (hsub [] l hx).resolve_left (List.not_mem_nil)
        have hle := hlast x hxl y (List.mem_singleton_self y)
        exact lt_of_le_of_ne hle fun heq => hk (heq ▸ hx)

omit [DecidableEq κ] in
/-- The keys of a sorted dictionary are strictly in order. -/
theorem pairwise_keys_sorted (d : Dict κ ν) : (sorted d).keys.Pairwise (· < ·) := by
  have hle := pairwise_sortEntries d.rows
  have hnodup : ((sortEntries d.rows).map Prod.fst).Nodup := (sorted d).nodup
  exact hle.imp₂ (fun _ _ hab hne => lt_of_le_of_ne hab hne) hnodup

omit [DecidableEq κ] in
theorem mem_keys_sorted {d : Dict κ ν} {k : κ} : k ∈ (sorted d).keys ↔ k ∈ d.keys :=
  ((sortEntries_perm d.rows).map Prod.fst).mem_iff

omit [DecidableEq κ] in
/-- Two dictionaries with the same keys have them in the same order when sorted. -/
theorem keys_sorted_congr {d : Dict κ ν} {d' : Dict κ ν'} (h : ∀ k, k ∈ d.keys ↔ k ∈ d'.keys) :
    (sorted d).keys = (sorted d').keys := by
  have hmem : ∀ k, k ∈ (sorted d).keys ↔ k ∈ (sorted d').keys := fun k => by
    rw [mem_keys_sorted, mem_keys_sorted, h]
  have hperm := (List.perm_ext_iff_of_nodup (sorted d).nodup (sorted d').nodup).mpr hmem
  exact hperm.eq_of_pairwise' ((pairwise_keys_sorted d).imp le_of_lt)
    ((pairwise_keys_sorted d').imp le_of_lt)

theorem find?_sorted (d : Dict κ ν) (k : κ) : (sorted d).find? k = d.find? k :=
  Table.find?_of_perm (sortEntries_perm d.rows) k

/-- Sorting a dictionary is assigning its sorted entries. -/
theorem sorted_ofList (l : List (κ × ν)) :
    sorted (Table.ofList l : Dict κ ν) = Table.ofList (sortEntries l) := by
  have hkeys : (Table.ofList (sortEntries l) : Dict κ ν).keys =
      ((sortEntries l).map Prod.fst).foldl Table.addKey [] :=
    Table.keys_putAll (∅ : Dict κ ν) (sortEntries l)
  have hpairs' : (Table.ofList (sortEntries l) : Dict κ ν).keys.Pairwise (· < ·) := by
    rw [hkeys]
    exact pairwise_foldl_addKey (pairwise_sortEntries l)
  apply Table.eq_of_keys
  · have hmem : ∀ k, k ∈ (sorted (Table.ofList l : Dict κ ν)).keys ↔
        k ∈ (Table.ofList (sortEntries l) : Dict κ ν).keys := by
      intro k
      rw [mem_keys_sorted, Table.mem_keys_ofList, Table.mem_keys_ofList]
      exact ((sortEntries_perm l).map Prod.fst).mem_iff.symm
    have hperm : (sorted (Table.ofList l : Dict κ ν)).keys.Perm
        (Table.ofList (sortEntries l) : Dict κ ν).keys :=
      (List.perm_ext_iff_of_nodup (Table.nodup _) (Table.nodup _)).mpr hmem
    exact hperm.eq_of_pairwise' ((pairwise_keys_sorted _).imp le_of_lt) (hpairs'.imp le_of_lt)
  · intro k
    rw [find?_sorted]
    have hleft := Table.find?_putAll_last (∅ : Dict κ ν) l k
    have hright := Table.find?_putAll_last (∅ : Dict κ ν) (sortEntries l) k
    rw [filter_sortEntries] at hright
    exact hleft.trans hright.symm

/-- The sorted entries written as something that keeps the key: under one key,
what is written for its value. -/
theorem filter_map_sorted {β : Type*} {g : κ → ν → β} {f : β → κ} (hf : ∀ k v, f (g k v) = k)
    (d : Dict κ ν) (k : κ) :
    (d.sorted.rows.map fun kv => g kv.1 kv.2).filter (fun b => f b = k) =
      ((d.get? k).map (g k)).toList := by
  have hcomp : (fun b => decide (f b = k)) ∘ (fun kv : κ × ν => g kv.1 kv.2) =
      fun kv => decide (kv.1 = k) := by
    funext kv
    simp [hf]
  have hrows : d.sorted.rows.filter (fun kv => kv.1 = k) = (d.find? k).toList :=
    (Table.filter_rows d.sorted k).trans (congrArg Option.toList (find?_sorted d k))
  rw [List.filter_map, hcomp, hrows, get?]
  cases hfind : d.find? k with
  | none => rfl
  | some kv =>
      have hkey : kv.1 = k := (Table.find?_eq_some.mp hfind).2
      simp [hkey]

end Dict

end Kit
