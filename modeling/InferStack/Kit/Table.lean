import Mathlib.Data.List.Nodup
import Mathlib.Data.List.Basic

/-!
# InferStack.Kit.Table

Keyed tables: a list of rows whose keys are pairwise distinct, in insertion
order.  A table is at once a database table with a primary key (rows carry
their own key) and an insertion-ordered dictionary (rows are key/value pairs),
so both are served by one set of lemmas.

Uniqueness of the key is a field of the structure.  Every operation below
re-establishes it once, and a lookup is then determined by membership:

* `find?_eq_some` — a lookup returns `a` exactly when `a` is the row of its key;
* `find?_put`, `find?_insert`, `find?_map`, `find?_filter` — how each
  operation moves lookups.
-/

namespace Kit

/-- A list of rows with pairwise distinct keys. -/
structure Table (α : Type*) {κ : Type*} (key : α → κ) where
  rows : List α
  nodup : (rows.map key).Nodup

/-- A dictionary: a table of key/value pairs. -/
abbrev Dict (κ ν : Type*) := Table (κ × ν) Prod.fst

namespace Table

variable {α κ : Type*} {key : α → κ}

@[ext] theorem ext {s t : Table α key} (h : s.rows = t.rows) : s = t := by
  cases s; cases t; simp_all

instance [DecidableEq α] : DecidableEq (Table α key) := fun s t =>
  decidable_of_iff (s.rows = t.rows) ⟨ext, congrArg rows⟩

/-- The table with no rows. -/
def empty : Table α key := ⟨[], List.nodup_nil⟩

instance : EmptyCollection (Table α key) := ⟨empty⟩

instance : Inhabited (Table α key) := ⟨empty⟩

instance : Membership α (Table α key) := ⟨fun t a => a ∈ t.rows⟩

instance [DecidableEq α] (a : α) (t : Table α key) : Decidable (a ∈ t) :=
  inferInstanceAs (Decidable (a ∈ t.rows))

theorem mem_def {t : Table α key} {a : α} : a ∈ t ↔ a ∈ t.rows := Iff.rfl

@[simp] theorem rows_empty : (∅ : Table α key).rows = [] := rfl

@[simp] theorem not_mem_empty (a : α) : ¬ a ∈ (∅ : Table α key) := by
  simp [mem_def]

/-- The keys, in row order. -/
def keys (t : Table α key) : List κ := t.rows.map key

theorem mem_keys {t : Table α key} {k : κ} : k ∈ t.keys ↔ ∃ a ∈ t, key a = k := by
  simp [keys, mem_def]

/-- Two rows of one key are one row. -/
theorem eq_of_key_eq {t : Table α key} {a b : α} (ha : a ∈ t) (hb : b ∈ t)
    (h : key a = key b) : a = b :=
  List.inj_on_of_nodup_map t.nodup ha hb h

/-! ## rewriting and selecting rows -/

/-- Rewrite every row, keeping its key. -/
def map (t : Table α key) (f : α → α) (hf : ∀ a, key (f a) = key a) : Table α key :=
  ⟨t.rows.map f, by
    have hkeys : (t.rows.map f).map key = t.rows.map key := by simp [Function.comp_def, hf]
    rw [hkeys]; exact t.nodup⟩

@[simp] theorem rows_map {t : Table α key} {f : α → α} {hf} :
    (t.map f hf).rows = t.rows.map f := rfl

@[simp] theorem keys_map {t : Table α key} {f : α → α} {hf} : (t.map f hf).keys = t.keys := by
  simp [keys, Function.comp_def, hf]

theorem mem_map {t : Table α key} {f : α → α} {hf} {b : α} :
    b ∈ t.map f hf ↔ ∃ a ∈ t, f a = b := by
  simp [mem_def, map]

/-- The rows that satisfy a predicate. -/
def filter (t : Table α key) (p : α → Bool) : Table α key :=
  ⟨t.rows.filter p, t.nodup.sublist (List.filter_sublist.map key)⟩

@[simp] theorem mem_filter {t : Table α key} {p : α → Bool} {a : α} :
    a ∈ t.filter p ↔ a ∈ t ∧ p a := by
  simp [filter, mem_def]

/-- Insert a row whose key is new. -/
def insert (t : Table α key) (a : α) (h : key a ∉ t.keys) : Table α key :=
  ⟨t.rows ++ [a], by simpa [List.nodup_append, t.nodup, keys] using h⟩

@[simp] theorem mem_insert {t : Table α key} {a b : α} {h : key a ∉ t.keys} :
    b ∈ t.insert a h ↔ b ∈ t ∨ b = a := by
  simp [insert, mem_def]

/-! ## lookups -/

variable [DecidableEq κ]

/-- The row of a key. -/
def find? (t : Table α key) (k : κ) : Option α := t.rows.find? (fun a => key a = k)

@[simp] theorem find?_empty (k : κ) : (∅ : Table α key).find? k = none := rfl

theorem find?_eq_some {t : Table α key} {k : κ} {a : α} :
    t.find? k = some a ↔ a ∈ t ∧ key a = k := by
  constructor
  · intro h
    have hk : key a = k := by simpa using List.find?_some h
    exact ⟨List.mem_of_find?_eq_some h, hk⟩
  · rintro ⟨hmem, rfl⟩
    cases h : t.find? (key a) with
    | none => simpa using List.find?_eq_none.mp h a hmem
    | some b =>
        have hb : key b = key a := by simpa using List.find?_some h
        rw [eq_of_key_eq (List.mem_of_find?_eq_some h) hmem hb]

theorem find?_eq_none {t : Table α key} {k : κ} :
    t.find? k = none ↔ ∀ a ∈ t, key a ≠ k := by
  simp [find?, mem_def]

/-- Membership is a lookup of the row's own key. -/
theorem mem_iff_find? {t : Table α key} {a : α} : a ∈ t ↔ t.find? (key a) = some a := by
  simp [find?_eq_some]

theorem mem_keys_iff {t : Table α key} {k : κ} : k ∈ t.keys ↔ (t.find? k).isSome := by
  rw [mem_keys, Option.isSome_iff_exists]
  simp [find?_eq_some]

theorem find?_of_not_mem_keys {t : Table α key} {k : κ} (h : k ∉ t.keys) : t.find? k = none := by
  simpa [mem_keys_iff] using h

/-- A test on the row of a key. -/
theorem any_find? {t : Table α key} {k : κ} {p : α → Bool} :
    (t.find? k).any p ↔ ∃ a ∈ t, key a = k ∧ p a := by
  cases h : t.find? k with
  | none =>
      have hk := find?_eq_none.mp h
      simp only [Option.any_none, Bool.false_eq_true, false_iff]
      rintro ⟨a, ha, hka, -⟩
      exact hk a ha hka
  | some a =>
      obtain ⟨ha, rfl⟩ := find?_eq_some.mp h
      constructor
      · intro hp; exact ⟨a, ha, rfl, hp⟩
      · rintro ⟨b, hb, hkb, hp⟩
        rw [eq_of_key_eq hb ha hkb] at hp; exact hp

theorem find?_map {t : Table α key} {f : α → α} {hf} (k : κ) :
    (t.map f hf).find? k = (t.find? k).map f := by
  have hkey : (fun a => decide (key a = k)) ∘ f = fun a => decide (key a = k) := by
    funext a
    rw [Function.comp, hf]
  simp only [find?, map, List.find?_map, hkey]

theorem find?_filter {t : Table α key} {p : α → Bool} (k : κ) :
    (t.filter p).find? k = (t.find? k).filter p := by
  cases h : t.find? k with
  | none =>
      rw [find?_eq_none] at h
      rw [Option.filter_none, find?_eq_none]
      exact fun a ha => h a (mem_filter.mp ha).1
  | some a =>
      obtain ⟨ha, rfl⟩ := find?_eq_some.mp h
      cases hp : p a with
      | true =>
          rw [Option.filter_some_pos hp, find?_eq_some]
          exact ⟨mem_filter.mpr ⟨ha, hp⟩, rfl⟩
      | false =>
          rw [Option.filter_some_neg hp, find?_eq_none]
          intro b hb hk
          obtain ⟨hbt, hpb⟩ := mem_filter.mp hb
          rw [eq_of_key_eq hbt ha hk, hp] at hpb
          contradiction

theorem find?_insert {t : Table α key} {a : α} {h : key a ∉ t.keys} (k : κ) :
    (t.insert a h).find? k = if key a = k then some a else t.find? k := by
  by_cases hk : key a = k
  · rw [if_pos hk, find?_eq_some]
    simp [hk]
  · rw [if_neg hk]
    simp [find?, insert, List.find?_append, hk]

/-! ## writing one row -/

/-- Insert a row, refusing a key that is already there. -/
def insert? (t : Table α key) (a : α) : Option (Table α key) :=
  if h : key a ∉ t.keys then some (t.insert a h) else none

theorem insert?_eq_some {t t' : Table α key} {a : α} :
    t.insert? a = some t' ↔ ∃ h, t' = t.insert a h := by
  unfold insert?
  by_cases h : key a ∉ t.keys
  · simp [h, eq_comm]
  · simp [h]

/-- Insert rows one after another, refusing as `insert?` does. -/
def insertAll? (t : Table α key) : List α → Option (Table α key)
  | [] => some t
  | a :: as => (t.insert? a).bind (·.insertAll? as)

theorem rows_insertAll? {t t' : Table α key} {as : List α} (h : t.insertAll? as = some t') :
    t'.rows = t.rows ++ as := by
  induction as generalizing t with
  | nil => simp only [insertAll?, Option.some.injEq] at h; simp [h]
  | cons a as ih =>
      obtain ⟨t₁, ht₁, hrest⟩ := Option.bind_eq_some_iff.mp h
      obtain ⟨hnew, rfl⟩ := insert?_eq_some.mp ht₁
      rw [ih hrest]
      simp [insert]

theorem find?_insertAll? {t t' : Table α key} {as : List α} (h : t.insertAll? as = some t')
    (k : κ) : t'.find? k = (t.find? k).or (as.find? (fun a => key a = k)) := by
  rw [find?, rows_insertAll? h, List.find?_append]; rfl

theorem keys_subset_insertAll? {t t' : Table α key} {as : List α}
    (h : t.insertAll? as = some t') : ∀ k ∈ t.keys, k ∈ t'.keys := by
  intro k hk
  obtain ⟨a, ha, rfl⟩ := mem_keys.mp hk
  exact mem_keys.mpr ⟨a, by rw [mem_def, rows_insertAll? h]; exact List.mem_append_left _ ha, rfl⟩

/-- What `insertAll?` inserted was not there before. -/
theorem not_mem_keys_of_insertAll? {t t' : Table α key} {as : List α}
    (h : t.insertAll? as = some t') {a : α} (ha : a ∈ as) : key a ∉ t.keys := by
  have hnodup := t'.nodup
  rw [rows_insertAll? h, List.map_append, List.nodup_append] at hnodup
  intro hk
  exact hnodup.2.2 (key a) hk (key a) (List.mem_map_of_mem ha) rfl

/-- Rewrite the row of one key, if it is there. -/
def modify (t : Table α key) (k : κ) (f : α → α) (hf : ∀ a, key (f a) = key a) :
    Table α key :=
  t.map (fun a => if key a = k then f a else a) (by intro a; split <;> simp [hf])

@[simp] theorem keys_modify {t : Table α key} {k : κ} {f : α → α} {hf} :
    (t.modify k f hf).keys = t.keys := keys_map

theorem mem_modify (t : Table α key) (k : κ) (f : α → α) (hf) {b : α} :
    b ∈ t.modify k f hf ↔ (∃ a ∈ t, key a = k ∧ f a = b) ∨ (b ∈ t ∧ key b ≠ k) := by
  unfold modify
  rw [mem_map]
  constructor
  · rintro ⟨a, ha, rfl⟩
    by_cases h : key a = k
    · exact .inl ⟨a, ha, h, by rw [if_pos h]⟩
    · rw [if_neg h]; exact .inr ⟨ha, h⟩
  · rintro (⟨a, ha, h, rfl⟩ | ⟨hb, h⟩)
    · exact ⟨a, ha, by rw [if_pos h]⟩
    · exact ⟨b, hb, by rw [if_neg h]⟩

theorem find?_modify (t : Table α key) (k : κ) (f : α → α) (hf) (k' : κ) :
    (t.modify k f hf).find? k' = if k' = k then (t.find? k').map f else t.find? k' := by
  unfold modify
  rw [find?_map]
  cases h : t.find? k' with
  | none => simp
  | some a =>
      have hk : key a = k' := (find?_eq_some.mp h).2
      by_cases hkk : k' = k <;> simp [hk, hkk]

/-- Assign a row: in place when its key is there, at the end otherwise. -/
def put (t : Table α key) (a : α) : Table α key :=
  if h : key a ∉ t.keys then t.insert a h
  else ⟨t.rows.map (fun b => if key b = key a then a else b), by
    have hkeys : (t.rows.map (fun b => if key b = key a then a else b)).map key =
        t.rows.map key := by
      rw [List.map_map]
      refine List.map_congr_left fun b _ => ?_
      simp only [Function.comp]
      split <;> simp_all
    rw [hkeys]; exact t.nodup⟩

theorem mem_put {t : Table α key} {a b : α} :
    b ∈ t.put a ↔ b = a ∨ (b ∈ t ∧ key b ≠ key a) := by
  unfold put
  split
  · rename_i h
    rw [mem_insert]
    constructor
    · rintro (hb | hb)
      · exact .inr ⟨hb, fun hk => h (mem_keys.mpr ⟨b, hb, hk⟩)⟩
      · exact .inl hb
    · rintro (hb | ⟨hb, -⟩)
      · exact .inr hb
      · exact .inl hb
  · rename_i h
    obtain ⟨c, hc, hck⟩ := mem_keys.mp (not_not.mp h)
    simp only [mem_def, List.mem_map]
    constructor
    · rintro ⟨d, hd, rfl⟩
      by_cases hk : key d = key a
      · exact .inl (by rw [if_pos hk])
      · rw [if_neg hk]; exact .inr ⟨hd, hk⟩
    · rintro (rfl | ⟨hb, hk⟩)
      · exact ⟨c, hc, by rw [if_pos hck]⟩
      · exact ⟨b, hb, by rw [if_neg hk]⟩

theorem rows_put_new {t : Table α key} {a : α} (h : key a ∉ t.keys) :
    (t.put a).rows = t.rows ++ [a] := by
  unfold put
  rw [dif_pos h]
  rfl

theorem rows_put_old {t : Table α key} {a : α} (h : key a ∈ t.keys) :
    (t.put a).rows = t.rows.map fun b => if key b = key a then a else b := by
  unfold put
  rw [dif_neg (not_not.mpr h)]

/-- Assigning a row that is there changes nothing. -/
theorem put_of_mem {t : Table α key} {a : α} (h : a ∈ t) : t.put a = t := by
  have hkey : ¬ key a ∉ t.keys := not_not.mpr (mem_keys.mpr ⟨a, h, rfl⟩)
  unfold put
  rw [dif_neg hkey]
  ext1
  have hsame : ∀ b ∈ t.rows, (if key b = key a then a else b) = b := by
    intro b hb
    by_cases hk : key b = key a
    · rw [if_pos hk, eq_of_key_eq hb h hk]
    · rw [if_neg hk]
  exact (List.map_congr_left hsame).trans (List.map_id _)

theorem find?_put {t : Table α key} {a : α} (k : κ) :
    (t.put a).find? k = if key a = k then some a else t.find? k := by
  by_cases hk : key a = k
  · rw [if_pos hk, find?_eq_some]
    exact ⟨mem_put.mpr (.inl rfl), hk⟩
  · rw [if_neg hk]
    cases h : t.find? k with
    | none =>
        rw [find?_eq_none] at h ⊢
        intro b hb
        rcases mem_put.mp hb with rfl | ⟨hb, -⟩
        · exact hk
        · exact h b hb
    | some b =>
        obtain ⟨hb, rfl⟩ := find?_eq_some.mp h
        exact find?_eq_some.mpr ⟨mem_put.mpr (.inr ⟨hb, fun h => hk h.symm⟩), rfl⟩

theorem mem_keys_put {t : Table α key} {a : α} {k : κ} :
    k ∈ (t.put a).keys ↔ k = key a ∨ k ∈ t.keys := by
  rw [mem_keys_iff, find?_put, mem_keys_iff]
  by_cases h : key a = k
  · simp [h]
  · simp [h, Ne.symm h]

/-- A sequence of assignments. -/
def putAll (t : Table α key) (as : List α) : Table α key := as.foldl put t

theorem mem_of_mem_putAll {t : Table α key} {as : List α} {b : α} (h : b ∈ t.putAll as) :
    b ∈ t ∨ b ∈ as := by
  induction as generalizing t with
  | nil => exact .inl h
  | cons a as ih =>
      have hrest : b ∈ (t.put a).putAll as := h
      cases ih hrest with
      | inr has => exact .inr (List.mem_cons_of_mem a has)
      | inl hput =>
          cases mem_put.mp hput with
          | inl heq => exact .inr (heq ▸ List.mem_cons_self)
          | inr hold => exact .inl hold.1

theorem mem_keys_putAll {t : Table α key} {as : List α} {k : κ} :
    k ∈ (t.putAll as).keys ↔ k ∈ t.keys ∨ k ∈ as.map key := by
  induction as generalizing t with
  | nil => simp [putAll]
  | cons a as ih =>
      have hcons : t.putAll (a :: as) = (t.put a).putAll as := rfl
      rw [hcons, ih, mem_keys_put, List.map_cons, List.mem_cons]
      grind

/-- What a sequence of assignments leaves: the last one of a key, if any. -/
theorem find?_putAll {t : Table α key} {as : List α} (hnodup : (as.map key).Nodup) (k : κ) :
    (t.putAll as).find? k = (as.find? (fun a => key a = k)).or (t.find? k) := by
  induction as generalizing t with
  | nil => rfl
  | cons a as ih =>
      rw [List.map_cons, List.nodup_cons] at hnodup
      have hcons : t.putAll (a :: as) = (t.put a).putAll as := rfl
      rw [hcons, ih hnodup.2, find?_put, List.find?_cons]
      by_cases hk : key a = k
      · have hnone : as.find? (fun b => key b = k) = none := by
          rw [List.find?_eq_none]
          intro b hb hbk
          rw [decide_eq_true_eq] at hbk
          exact hnodup.1 (List.mem_map.mpr ⟨b, hb, hbk.trans hk.symm⟩)
        simp [hnone, hk]
      · simp [hk]

/-- The table of a list, later rows of one key winning. -/
def ofList (as : List α) : Table α key := putAll ∅ as

theorem mem_of_mem_ofList {as : List α} {b : α} (h : b ∈ (ofList as : Table α key)) : b ∈ as :=
  (mem_of_mem_putAll h).resolve_left (not_mem_empty b)

theorem find?_ofList {as : List α} (hnodup : (as.map key).Nodup) (k : κ) :
    (ofList as : Table α key).find? k = as.find? (fun a => key a = k) := by
  rw [ofList, find?_putAll hnodup, find?_empty, Option.or_none]

/-- Without a key twice, the table of a list has exactly its rows. -/
theorem mem_ofList {as : List α} (hnodup : (as.map key).Nodup) {a : α} :
    a ∈ (ofList as : Table α key) ↔ a ∈ as := by
  constructor
  · exact mem_of_mem_ofList
  · intro ha
    rw [mem_iff_find?, find?_ofList hnodup]
    exact (find?_eq_some (t := ⟨as, hnodup⟩)).mpr ⟨ha, rfl⟩

theorem mem_keys_ofList {as : List α} {k : κ} :
    k ∈ (ofList as : Table α key).keys ↔ k ∈ as.map key := by
  have hnone : k ∉ (∅ : Table α key).keys := List.not_mem_nil
  exact mem_keys_putAll.trans (or_iff_right hnone)

end Table

namespace Dict

variable {κ ν : Type*} [DecidableEq κ]

/-- The value of a key. -/
def get? (d : Dict κ ν) (k : κ) : Option ν := (d.find? k).map Prod.snd

/-- Assign a value to a key. -/
def set (d : Dict κ ν) (k : κ) (v : ν) : Dict κ ν := d.put (k, v)

theorem get?_eq_some {d : Dict κ ν} {k : κ} {v : ν} : d.get? k = some v ↔ (k, v) ∈ d := by
  simp only [get?, Option.map_eq_some_iff, Table.find?_eq_some]
  constructor
  · rintro ⟨⟨k', v'⟩, ⟨hmem, rfl⟩, rfl⟩; exact hmem
  · intro h; exact ⟨(k, v), ⟨h, rfl⟩, rfl⟩

theorem get?_set {d : Dict κ ν} {k : κ} {v : ν} (k' : κ) :
    (d.set k v).get? k' = if k = k' then some v else d.get? k' := by
  unfold get? set
  rw [Table.find?_put]
  by_cases h : k = k'
  · simp [h]
  · simp [h]

@[simp] theorem get?_set_self {d : Dict κ ν} {k : κ} {v : ν} : (d.set k v).get? k = some v := by
  simp [get?_set]

theorem set_of_get? {d : Dict κ ν} {k : κ} {v : ν} (h : d.get? k = some v) : d.set k v = d :=
  Table.put_of_mem (get?_eq_some.mp h)

@[simp] theorem get?_empty (k : κ) : (∅ : Dict κ ν).get? k = none := rfl

theorem mem_keys {d : Dict κ ν} {k : κ} : k ∈ d.keys ↔ ∃ v, d.get? k = some v := by
  rw [Table.mem_keys_iff]
  cases hfind : d.find? k with
  | none => simp [get?, hfind]
  | some row => simp [get?, hfind]

/-- Selecting entries by their key. -/
theorem get?_filter (d : Dict κ ν) (p : κ → Bool) (k : κ) :
    Dict.get? (d.filter (fun kv => p kv.1)) k = if p k then d.get? k else none := by
  unfold get?
  rw [Table.find?_filter]
  cases h : d.find? k with
  | none => simp
  | some kv =>
      obtain ⟨-, rfl⟩ := Table.find?_eq_some.mp h
      by_cases hp : p kv.1
      · simp only [Option.filter_some, hp, if_true]
      · simp only [Option.filter_some, hp, Bool.false_eq_true, if_false, Option.map_none]

end Dict

namespace Table

/-! ## rewriting many rows -/

variable {α κ ν : Type*} {key : α → κ} [DecidableEq κ]

/-- Rewrite the rows of a list of keys, one after another. -/
def modifyKeys (t : Table α key) (ks : List κ) (f : α → α) (hf : ∀ a, key (f a) = key a) :
    Table α key :=
  ks.foldl (fun t k => t.modify k f hf) t

/-- Rewrite the rows a dictionary names, each with its own value. -/
def modifyEach (t : Table α key) (d : Dict κ ν) (f : ν → α → α)
    (hf : ∀ v a, key (f v a) = key a) : Table α key :=
  d.rows.foldl (fun t kv => t.modify kv.1 (f kv.2) (hf kv.2)) t

@[simp] theorem keys_modifyKeys {t : Table α key} {ks : List κ} {f : α → α} {hf} :
    (t.modifyKeys ks f hf).keys = t.keys := by
  unfold modifyKeys
  induction ks generalizing t with
  | nil => rfl
  | cons k ks ih => rw [List.foldl_cons, ih, keys_modify]

@[simp] theorem keys_modifyEach {t : Table α key} {d : Dict κ ν} {f : ν → α → α} {hf} :
    (t.modifyEach d f hf).keys = t.keys := by
  unfold modifyEach
  induction d.rows generalizing t with
  | nil => rfl
  | cons kv rows ih => rw [List.foldl_cons, ih, keys_modify]

/-- The rows keep their order; a key that occurs twice is rewritten twice, so
the function must be idempotent. -/
theorem rows_modifyKeys (t : Table α key) (ks : List κ) (f : α → α) (hf)
    (hidem : ∀ a, f (f a) = f a) :
    (t.modifyKeys ks f hf).rows = t.rows.map (fun a => if key a ∈ ks then f a else a) := by
  unfold modifyKeys
  induction ks generalizing t with
  | nil => simp
  | cons k ks ih =>
      have hmod : (t.modify k f hf).rows = t.rows.map (fun a => if key a = k then f a else a) := rfl
      rw [List.foldl_cons, ih, hmod, List.map_map]
      apply List.map_congr_left
      intro a _
      by_cases hk : key a = k
      · by_cases hks : k ∈ ks <;> simp [hk, hks, hf, hidem]
      · simp [hk]

/-- A key that occurs twice is rewritten twice, so the function must be
idempotent. -/
theorem find?_modifyKeys (t : Table α key) (ks : List κ) (f : α → α) (hf)
    (hidem : ∀ a, f (f a) = f a) (k : κ) :
    (t.modifyKeys ks f hf).find? k = if k ∈ ks then (t.find? k).map f else t.find? k := by
  unfold modifyKeys
  induction ks generalizing t with
  | nil => simp
  | cons x xs ih =>
      rw [List.foldl_cons, ih, find?_modify]
      by_cases hx : k = x
      · subst hx
        by_cases hxs : k ∈ xs
        · simp [hxs, Function.comp_def, hidem]
        · simp [hxs]
      · simp [hx]

theorem mem_modifyKeys (t : Table α key) (ks : List κ) (f : α → α) (hf)
    (hidem : ∀ a, f (f a) = f a) {b : α} :
    b ∈ t.modifyKeys ks f hf ↔ ∃ a ∈ t, (if key a ∈ ks then f a else a) = b := by
  rw [mem_iff_find?, find?_modifyKeys t ks f hf hidem]
  constructor
  · intro h
    split at h
    · rename_i hk
      obtain ⟨a, ha, rfl⟩ := Option.map_eq_some_iff.mp h
      have hmem := find?_eq_some.mp ha
      exact ⟨a, hmem.1, by rw [if_pos]; rw [hmem.2]; exact hk⟩
    · rename_i hk
      exact ⟨b, mem_iff_find?.mpr h, by rw [if_neg hk]⟩
  · rintro ⟨a, ha, rfl⟩
    by_cases hk : key a ∈ ks
    · rw [if_pos hk, hf, if_pos hk, mem_iff_find?.mp ha]; rfl
    · rw [if_neg hk, if_neg hk, mem_iff_find?.mp ha]

theorem find?_modifyEach (t : Table α key) (d : Dict κ ν) (f : ν → α → α) (hf) (k : κ) :
    (t.modifyEach d f hf).find? k =
      (d.get? k).elim (t.find? k) (fun v => (t.find? k).map (f v)) := by
  obtain ⟨rows, hnodup⟩ := d
  unfold modifyEach
  induction rows generalizing t with
  | nil => rfl
  | cons kv rows ih =>
      have hcons : (kv.1 :: rows.map Prod.fst).Nodup := hnodup
      obtain ⟨hnotin, htail⟩ := List.nodup_cons.mp hcons
      rw [List.foldl_cons, ih _ htail, find?_modify]
      by_cases hk : k = kv.1
      · subst hk
        have hrest : Dict.get? (⟨rows, htail⟩ : Dict κ ν) kv.1 = none := by
          simp only [Dict.get?, Option.map_eq_none_iff, find?_eq_none, mem_def]
          exact fun a ha h => hnotin (List.mem_map.mpr ⟨a, ha, h⟩)
        have hhead : Dict.get? (⟨kv :: rows, hnodup⟩ : Dict κ ν) kv.1 = some kv.2 :=
          Dict.get?_eq_some.mpr (by simp [mem_def])
        rw [hrest, hhead]
        simp
      · have hsame : Dict.get? (⟨kv :: rows, hnodup⟩ : Dict κ ν) k =
            Dict.get? (⟨rows, htail⟩ : Dict κ ν) k := by
          simp [Dict.get?, find?, Ne.symm hk]
        rw [hsame, if_neg hk]

end Table

end Kit
