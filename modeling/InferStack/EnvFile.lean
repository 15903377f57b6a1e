import InferStack.Kit.Table

/-!
# InferStack.EnvFile

The managed `.env` file, as its lines.

Writing keeps every line it does not have to change, so the file is richer than
what is read from it.  The development works on the dictionary that is read;
`get?_parse_write` and `get?_parse_remove` say that the file operations are its
assignments and removals.
-/

namespace InferStack

open Kit

/-! ## lines -/

/-- The whitespace that `strip` removes. -/
def isSpace (c : Char) : Bool :=
  (9 ≤ c.val && c.val ≤ 13) || (28 ≤ c.val && c.val ≤ 32) || (8192 ≤ c.val && c.val ≤ 8202) ||
    c.val ∈ [133, 160, 5760, 8232, 8233, 8239, 8287, 12288]

/-- A text without the whitespace around it. -/
def stripped (l : List Char) : List Char := ((l.dropWhile isSpace).reverse.dropWhile isSpace).reverse

def strip (s : String) : String := String.ofList (stripped s.toList)

/-- What a line assigns: blank lines, comments and lines without `=` nothing. -/
def parseLine (line : List Char) : Option (String × String) :=
  let l := stripped line
  if l = [] ∨ l.head? = some '#' ∨ '=' ∉ l then none
  else some (String.ofList (stripped (l.takeWhile (· ≠ '='))),
    String.ofList (l.dropWhile (· ≠ '=')).tail)

/-- Read the assignments of a file; a later one wins. -/
def parseEnvFile (lines : List (List Char)) : Dict String String :=
  (lines.filterMap parseLine).foldl (fun d kv => d.set kv.1 kv.2) ∅

/-- The key of a line that a rewrite may touch. -/
def lineKey (line : List Char) : Option String :=
  ((parseLine line).map Prod.fst).filter fun k => k ≠ "" ∧ ¬ k.toList.any isSpace

/-- The line that assigns a value. -/
def envLine (k v : String) : List Char := k.toList ++ '=' :: v.toList

/-- A line, with the new value of its key if there is one. -/
def rewriteLine (values : Dict String String) (line : List Char) : List Char :=
  match lineKey line with
  | none => line
  | some k =>
      match values.get? k with
      | none => line
      | some v => envLine k v

/-- Update values in place, and append those the file lacks. -/
def writeEnvFile (lines : List (List Char)) (values : Dict String String) : List (List Char) :=
  lines.map (rewriteLine values) ++
    (values.rows.filter fun kv => kv.1 ∉ lines.filterMap lineKey).map fun kv => envLine kv.1 kv.2

/-- Drop keys, keeping every other line. -/
def removeEnvKeys (lines : List (List Char)) (keys : List String) : List (List Char) :=
  lines.filter fun line => (lineKey line).all (· ∉ keys)

/-! ## reading back what was written -/

/-- A name that can be written: no whitespace, no `=`, no comment. -/
structure PlainKey (k : String) : Prop where
  nonempty : k ≠ ""
  noSpace : ∀ c ∈ k.toList, isSpace c = false
  noAssign : '=' ∉ k.toList
  noComment : k.toList.head? ≠ some '#'

theorem noSpace_of_all {l : List Char} (h : (l.all fun c => isSpace c = false) = true) :
    ∀ c ∈ l, isSpace c = false :=
  fun c hc => of_decide_eq_true (List.all_eq_true.mp h c hc)

/-- A value that reads back as it is: nothing to strip at its end. -/
def CleanValue (v : String) : Prop := ∀ c ∈ v.toList.getLast?, isSpace c = false

theorem dropWhile_of_head {p : Char → Bool} {l : List Char} (h : ∀ c ∈ l.head?, p c = false) :
    l.dropWhile p = l := by
  cases l with
  | nil => rfl
  | cons a l =>
      have ha : p a = false := h a rfl
      rw [List.dropWhile_cons, ha]
      rfl

/-- Nothing to strip. -/
theorem stripped_of_ends {l : List Char} (hhead : ∀ c ∈ l.head?, isSpace c = false)
    (hlast : ∀ c ∈ l.getLast?, isSpace c = false) : stripped l = l := by
  unfold stripped
  rw [dropWhile_of_head hhead, dropWhile_of_head (by simpa using hlast), List.reverse_reverse]

theorem stripped_key {k : String} (h : PlainKey k) : stripped k.toList = k.toList :=
  stripped_of_ends (fun c hc => h.noSpace c (List.mem_of_mem_head? hc))
    (fun c hc => h.noSpace c (List.mem_of_mem_getLast? hc))

/-- A written line reads back as what was written. -/
theorem parseLine_envLine {k v : String} (hk : PlainKey k) (hv : CleanValue v) :
    parseLine (envLine k v) = some (k, v) := by
  have hkne : k.toList ≠ [] := fun h => hk.nonempty (String.toList_eq_nil_iff.mp h)
  have hhead : (envLine k v).head? = k.toList.head? := by
    cases hl : k.toList with
    | nil => exact absurd hl hkne
    | cons a l => simp [envLine, hl]
  have hstrip : stripped (envLine k v) = envLine k v := by
    refine stripped_of_ends (fun c hc => ?_) (fun c hc => ?_)
    · rw [hhead] at hc
      exact hk.noSpace c (List.mem_of_mem_head? hc)
    · unfold envLine at hc
      rw [List.getLast?_append_of_ne_nil _ (by simp)] at hc
      cases hl : v.toList with
      | nil =>
          simp only [hl, List.getLast?_singleton, Option.mem_def, Option.some.injEq] at hc
          subst hc
          decide
      | cons a l =>
          rw [hl, List.getLast?_cons_cons, ← hl] at hc
          exact hv c hc
  have htake : (envLine k v).takeWhile (· ≠ '=') = k.toList := by
    unfold envLine
    rw [List.takeWhile_append_of_pos (fun c hc => by
      have hne : c ≠ '=' := fun heq => hk.noAssign (heq ▸ hc)
      simpa using hne)]
    simp
  have hdrop : (envLine k v).dropWhile (· ≠ '=') = '=' :: v.toList := by
    unfold envLine
    rw [List.dropWhile_append_of_pos (fun c hc => by
      have hne : c ≠ '=' := fun heq => hk.noAssign (heq ▸ hc)
      simpa using hne)]
    simp
  have hcond : ¬ (envLine k v = [] ∨ (envLine k v).head? = some '#' ∨ '=' ∉ envLine k v) := by
    rw [hhead]
    simp [envLine, hk.noComment]
  unfold parseLine
  dsimp only
  rw [hstrip, if_neg hcond, htake, hdrop, stripped_key hk]
  simp

/-- What the lines so far assign to a key. -/
def assigned (k : String) (old : Option String) (line : List Char) : Option String :=
  match parseLine line with
  | none => old
  | some kv => if kv.1 = k then some kv.2 else old

theorem get?_parse (lines : List (List Char)) (k : String) :
    (parseEnvFile lines).get? k = lines.foldl (assigned k) none := by
  have hgen : ∀ d : Dict String String,
      ((lines.filterMap parseLine).foldl (fun d kv => d.set kv.1 kv.2) d).get? k =
        lines.foldl (assigned k) (d.get? k) := by
    induction lines with
    | nil => intro d; rfl
    | cons line lines ih =>
        intro d
        cases hline : parseLine line with
        | none => simp only [List.filterMap_cons, hline, List.foldl_cons, assigned, ih]
        | some kv =>
            simp only [List.filterMap_cons, hline, List.foldl_cons, assigned, ih, Dict.get?_set]
  exact hgen ∅

theorem lineKey_of_parse {k v : String} {line : List Char} (hk : PlainKey k)
    (h : parseLine line = some (k, v)) : lineKey line = some k := by
  unfold lineKey
  rw [h]
  simpa [hk.nonempty] using hk.noSpace

theorem parse_of_lineKey {k : String} {line : List Char} (h : lineKey line = some k) :
    ∃ v, parseLine line = some (k, v) := by
  obtain ⟨hmap, -⟩ := Option.filter_eq_some_iff.mp h
  obtain ⟨⟨k', v⟩, hparse, rfl⟩ := Option.map_eq_some_iff.mp hmap
  exact ⟨v, hparse⟩

/-- Lines that do not assign a key. -/
theorem foldl_assigned_of_none {k : String} {ls : List (List Char)}
    (h : ∀ line ∈ ls, ∀ v, parseLine line ≠ some (k, v)) (old : Option String) :
    ls.foldl (assigned k) old = old := by
  induction ls with
  | nil => rfl
  | cons line ls ih =>
      have hsame : assigned k old line = old := by
        unfold assigned
        cases hline : parseLine line with
        | none => rfl
        | some kv =>
            have hne : kv.1 ≠ k := by
              intro heq
              exact h line List.mem_cons_self kv.2 (by rw [hline, ← heq])
            simp [hne]
      rw [List.foldl_cons, hsame]
      exact ih fun l hl => h l (List.mem_cons_of_mem _ hl)

/-- Lines that assign it nothing but `v`, if one does. -/
theorem foldl_assigned_of_all {k v : String} {ls : List (List Char)}
    (hall : ∀ line ∈ ls, ∀ v', parseLine line = some (k, v') → v' = v) (old : Option String)
    (h : old = some v ∨ ∃ line ∈ ls, ∃ v', parseLine line = some (k, v')) :
    ls.foldl (assigned k) old = some v := by
  induction ls generalizing old with
  | nil => simpa using h
  | cons line ls ih =>
      rw [List.foldl_cons]
      refine ih (fun l hl => hall l (List.mem_cons_of_mem _ hl)) _ ?_
      cases hline : parseLine line with
      | none => simpa [assigned, hline] using h
      | some kv =>
          obtain ⟨k', v'⟩ := kv
          by_cases heq : k' = k
          · subst heq
            have hv' := hall line List.mem_cons_self v' hline
            exact .inl (by simp [assigned, hline, hv'])
          · simpa [assigned, hline, heq] using h

section Write

variable {values : Dict String String} (hkeys : ∀ k v, values.get? k = some v → PlainKey k)
  (hvalues : ∀ k v, values.get? k = some v → CleanValue v)

include hkeys hvalues

/-- A rewritten line assigns its key the new value, and the others what it did. -/
theorem parse_rewriteLine (line : List Char) : parseLine (rewriteLine values line) =
    (parseLine line).map fun kv => (kv.1, (values.get? kv.1).getD kv.2) := by
  unfold rewriteLine
  cases hkey : lineKey line with
  | none =>
      cases hline : parseLine line with
      | none => simp
      | some kv =>
          obtain ⟨k, v⟩ := kv
          cases hget : values.get? k with
          | none => simp [hget]
          | some v' =>
              have hplain := lineKey_of_parse (hkeys k v' hget) hline
              rw [hkey] at hplain
              contradiction
  | some k =>
      obtain ⟨v, hline⟩ := parse_of_lineKey hkey
      cases hget : values.get? k with
      | none => simp [hline, hget]
      | some v' => simp [hline, hget, parseLine_envLine (hkeys k v' hget) (hvalues k v' hget)]

theorem parse_appended (kv : String × String) (hkv : kv ∈ values.rows) :
    parseLine (envLine kv.1 kv.2) = some kv := by
  have hget : values.get? kv.1 = some kv.2 := Dict.get?_eq_some.mpr hkv
  exact parseLine_envLine (hkeys _ _ hget) (hvalues _ _ hget)

/-- A key that is not written keeps what the lines assign it. -/
theorem foldl_rewriteLine {k : String} (hget : values.get? k = none) (lines : List (List Char))
    (old : Option String) :
    (lines.map (rewriteLine values)).foldl (assigned k) old = lines.foldl (assigned k) old := by
  induction lines generalizing old with
  | nil => rfl
  | cons line lines ih =>
      have hone : assigned k old (rewriteLine values line) = assigned k old line := by
        unfold assigned
        rw [parse_rewriteLine hkeys hvalues]
        cases parseLine line with
        | none => rfl
        | some kv =>
            by_cases heq : kv.1 = k
            · simp [heq, hget]
            · simp [heq]
      rw [List.map_cons, List.foldl_cons, List.foldl_cons, hone, ih]

/-- Writing values is assigning them. -/
theorem get?_parse_write (lines : List (List Char)) (k : String) :
    (parseEnvFile (writeEnvFile lines values)).get? k =
      (values.get? k).or ((parseEnvFile lines).get? k) := by
  rw [get?_parse, get?_parse]
  cases hget : values.get? k with
  | none =>
      rw [writeEnvFile, List.foldl_append, foldl_rewriteLine hkeys hvalues hget, Option.none_or]
      refine foldl_assigned_of_none (fun line hline v hparse => ?_) _
      obtain ⟨kv, hkv, rfl⟩ := List.mem_map.mp hline
      have hrow := List.mem_of_mem_filter hkv
      rw [parse_appended hkeys hvalues _ hrow] at hparse
      obtain rfl := Option.some.inj hparse
      rw [Dict.get?_eq_some.mpr hrow] at hget
      contradiction
  | some v =>
      rw [Option.some_or]
      refine foldl_assigned_of_all (fun line hline v' hparse => ?_) _ (.inr ?_)
      · cases List.mem_append.mp hline with
        | inl hold =>
            obtain ⟨line', -, rfl⟩ := List.mem_map.mp hold
            rw [parse_rewriteLine hkeys hvalues] at hparse
            obtain ⟨kv, -, hkv⟩ := Option.map_eq_some_iff.mp hparse
            obtain ⟨rfl, rfl⟩ := Prod.mk.inj hkv
            simp [hget]
        | inr hnew =>
            obtain ⟨kv, hkv, rfl⟩ := List.mem_map.mp hnew
            have hrow := List.mem_of_mem_filter hkv
            rw [parse_appended hkeys hvalues _ hrow] at hparse
            obtain rfl := Option.some.inj hparse
            exact Option.some.inj ((Dict.get?_eq_some.mpr hrow).symm.trans hget)
      · by_cases hin : k ∈ lines.filterMap lineKey
        · obtain ⟨line, hline, hkey⟩ := List.mem_filterMap.mp hin
          obtain ⟨v', hparse⟩ := parse_of_lineKey hkey
          refine ⟨rewriteLine values line, List.mem_append_left _ (List.mem_map_of_mem hline), v, ?_⟩
          rw [parse_rewriteLine hkeys hvalues, hparse]
          simp [hget]
        · have hrow : (k, v) ∈ values.rows := Dict.get?_eq_some.mp hget
          have hkept : (k, v) ∈ values.rows.filter fun kv => kv.1 ∉ lines.filterMap lineKey :=
            List.mem_filter.mpr ⟨hrow, by simpa using hin⟩
          have hline : envLine k v ∈ writeEnvFile lines values :=
            List.mem_append_right _ (List.mem_map.mpr ⟨(k, v), hkept, rfl⟩)
          have hparse : parseLine (envLine k v) = some (k, v) :=
            parse_appended hkeys hvalues (k, v) hrow
          exact ⟨envLine k v, hline, v, hparse⟩

end Write

theorem getLast?_stripped {l : List Char} {c : Char} (h : c ∈ (stripped l).getLast?) :
    isSpace c = false := by
  unfold stripped at h
  rw [List.getLast?_reverse] at h
  have hnot := List.head?_dropWhile_not isSpace (l.dropWhile isSpace).reverse
  rw [Option.mem_def.mp h] at hnot
  simpa using hnot

/-- A line assigns a value with nothing to strip at its end. -/
theorem cleanValue_of_parseLine {line : List Char} {k v : String}
    (h : parseLine line = some (k, v)) : CleanValue v := by
  unfold parseLine at h
  dsimp only at h
  split at h
  · contradiction
  · obtain ⟨-, rfl⟩ := Prod.mk.inj (Option.some.inj h)
    intro c hc
    rw [String.toList_ofList] at hc
    have hsuffix : ((stripped line).dropWhile (· ≠ '=')).tail <:+ stripped line :=
      (List.tail_suffix _).trans (List.dropWhile_suffix _)
    obtain ⟨front, hfront⟩ := hsuffix
    have hne : ((stripped line).dropWhile (· ≠ '=')).tail ≠ [] := by
      intro hnil
      rw [hnil] at hc
      contradiction
    rw [← List.getLast?_append_of_ne_nil front hne, hfront] at hc
    exact getLast?_stripped hc

/-- What is read from a file comes from one of its lines. -/
theorem of_get?_parse {P : String → Prop} {lines : List (List Char)} {k v : String}
    (hlines : ∀ line ∈ lines, ∀ k v, parseLine line = some (k, v) → P v)
    (h : (parseEnvFile lines).get? k = some v) : P v := by
  have hgen : ∀ lines : List (List Char),
      (∀ line ∈ lines, ∀ k v, parseLine line = some (k, v) → P v) →
      ∀ old, (∀ v', old = some v' → P v') →
      ∀ v', lines.foldl (assigned k) old = some v' → P v' := by
    intro lines
    induction lines with
    | nil => intro _ old hold; exact hold
    | cons line lines ih =>
        intro hlines old hold
        refine ih (fun l hl => hlines l (List.mem_cons_of_mem _ hl)) _ fun v' hv' => ?_
        unfold assigned at hv'
        split at hv'
        · exact hold v' hv'
        · rename_i kv hparse
          split at hv'
          · exact Option.some.inj hv' ▸ hlines line List.mem_cons_self _ _ hparse
          · exact hold v' hv'
  rw [get?_parse] at h
  exact hgen lines hlines none (by simp) v h

/-- What is read from a file reads back as it is. -/
theorem cleanValue_of_parse {lines : List (List Char)} {k v : String}
    (h : (parseEnvFile lines).get? k = some v) : CleanValue v :=
  of_get?_parse (fun _ _ _ _ hparse => cleanValue_of_parseLine hparse) h

/-- Dropping keys is removing them. -/
theorem get?_parse_remove (lines : List (List Char)) {keys : List String}
    (hkeys : ∀ k ∈ keys, PlainKey k) (k : String) :
    (parseEnvFile (removeEnvKeys lines keys)).get? k =
      if k ∈ keys then none else (parseEnvFile lines).get? k := by
  rw [get?_parse, get?_parse, removeEnvKeys]
  have hgen : ∀ old, (k ∈ keys → old = none) →
      (lines.filter fun line => (lineKey line).all (· ∉ keys)).foldl (assigned k) old =
        if k ∈ keys then none else lines.foldl (assigned k) old := by
    induction lines with
    | nil =>
        intro old hold
        by_cases hk : k ∈ keys
        · simp [hk, hold hk]
        · simp [hk]
    | cons line lines ih =>
        intro old hold
        by_cases hkeep : (lineKey line).all (· ∉ keys) = true
        · rw [List.filter_cons, if_pos hkeep, List.foldl_cons, List.foldl_cons]
          refine ih _ fun hk => ?_
          unfold assigned
          cases hline : parseLine line with
          | none => exact hold hk
          | some kv =>
              obtain ⟨k', v'⟩ := kv
              by_cases heq : k' = k
              · subst heq
                rw [lineKey_of_parse (hkeys k' hk) hline] at hkeep
                simp [hk] at hkeep
              · simpa [heq] using hold hk
        · rw [List.filter_cons, if_neg hkeep, List.foldl_cons, ih old hold]
          by_cases hk : k ∈ keys
          · simp [hk]
          · -- the dropped line is about another key
            have hsame : assigned k old line = old := by
              unfold assigned
              cases hline : parseLine line with
              | none => rfl
              | some kv =>
                  obtain ⟨k', v'⟩ := kv
                  cases hkey : lineKey line with
                  | none => simp [hkey] at hkeep
                  | some k'' =>
                      obtain ⟨v'', hparse⟩ := parse_of_lineKey hkey
                      rw [hline] at hparse
                      obtain ⟨rfl, -⟩ := Prod.mk.inj (Option.some.inj hparse)
                      have hin : k' ∈ keys := by simpa [hkey] using hkeep
                      have hne : k' ≠ k := fun heq => hk (heq ▸ hin)
                      simp [hne]
            rw [if_neg hk, if_neg hk, hsame]
  exact hgen none fun _ => rfl

end InferStack
