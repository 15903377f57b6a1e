import InferStack.EnvText

/-!
# InferStack.EnvRoundTrip

What a write of the managed `.env` leaves of the file it found.

The lines of a file are what `splitLines` makes of it, and writing them back
loses three things: of a value everything from its first line break on, with the
whitespace before it; of a line what ended it, where that was not a newline; and
of the file its last line if that line is empty.  `roundTrips_of` says that
nothing else is lost.
-/

namespace InferStack

open Kit

/-! ## universal newlines -/

/-- What reading a file in text mode makes of its line ends. -/
def universalNewlines : List Char → List Char
  | [] => []
  | '\r' :: '\n' :: text => '\n' :: universalNewlines text
  | c :: text => (if c = '\r' then '\n' else c) :: universalNewlines text

/-- The lines of a file do not depend on the translation of its line ends. -/
theorem splitLines_universalNewlines (text : List Char) :
    splitLines (universalNewlines text) = splitLines text := by
  induction text using universalNewlines.induct with
  | case1 => rfl
  | case2 text ih =>
      have hbreak := splitLines_cons_break (c := '\n') (by decide) (by decide)
      rw [universalNewlines, splitLines, hbreak, ih]
  | case3 c text hnot ih =>
      rw [universalNewlines.eq_3 _ _ hnot, splitLines.eq_3 _ _ hnot]
      by_cases hr : c = '\r'
      · subst hr
        rw [if_pos rfl, splitLines_cons_break (by decide) (by decide), ih]
        rfl
      · have hsplit := splitLines.eq_3 c (universalNewlines text) (by
          intro _ h
          contradiction)
        rw [if_neg hr, hsplit, ih]

/-- `parse_env_file`, which opens the file in text mode. -/
def parseEnvOnDisk (file : List Char) : Dict String String :=
  parseEnvText (universalNewlines file)

/-- The file that `write_env_file` leaves. -/
def writeEnvOnDisk (file : List Char) (values : Dict String String) : List Char :=
  writeEnvText (universalNewlines file) values

/-- The file that `remove_env_keys` leaves, which without keys does not open it. -/
def removeEnvOnDisk (file : List Char) (keys : List String) : List Char :=
  if keys = [] then file else removeEnvText (universalNewlines file) keys

section Disk

variable (file : List Char) (values : Dict String String) (keys : List String)

theorem parseEnvOnDisk_eq : parseEnvOnDisk file = parseEnvText file := by
  unfold parseEnvOnDisk parseEnvText
  rw [splitLines_universalNewlines]

theorem writeEnvOnDisk_eq : writeEnvOnDisk file values = writeEnvText file values := by
  unfold writeEnvOnDisk writeEnvText
  rw [splitLines_universalNewlines]

theorem removeEnvOnDisk_eq : removeEnvOnDisk file keys = removeEnvText file keys := by
  unfold removeEnvOnDisk removeEnvText
  rw [splitLines_universalNewlines]
  split <;> rfl

end Disk

/-! ## lines that are joined and split again -/

/-- The text of some lines, each ended by a newline. -/
def terminated (lines : List (List Char)) : List Char := lines.flatMap (· ++ ['\n'])

theorem splitLines_line {line : List Char} (h : Unbroken line) (more : List Char) :
    splitLines (line ++ '\n' :: more) = line :: splitLines more := by
  have hbreak : splitLines ('\n' :: more) = [] :: splitLines more :=
    splitLines_cons_break (by decide) (by decide) more
  rw [splitLines_of_unbroken h _ (by simp), hbreak]
  simp

theorem splitLines_terminated {lines : List (List Char)} (h : ∀ line ∈ lines, Unbroken line) :
    splitLines (terminated lines) = lines := by
  induction lines with
  | nil => rfl
  | cons line lines ih =>
      have hrest := ih fun l hl => h l (List.mem_cons_of_mem _ hl)
      have hcons : terminated (line :: lines) = line ++ '\n' :: terminated lines := by
        simp [terminated]
      rw [hcons, splitLines_line (h line List.mem_cons_self), hrest]

/-- A line with one more character in front, and what ends it. -/
def consEnded (c : Char) : List (List Char × List Char) → List (List Char × List Char)
  | [] => [([c], [])]
  | line :: lines => (c :: line.1, line.2) :: lines

/-- The lines of a file, each with the characters that end it; the last line may
have none. -/
def endedLines : List Char → List (List Char × List Char)
  | [] => []
  | '\r' :: '\n' :: text => ([], ['\r', '\n']) :: endedLines text
  | c :: text => if isLineBreak c then ([], [c]) :: endedLines text else consEnded c (endedLines text)

theorem map_endedLines (text : List Char) : (endedLines text).map Prod.fst = splitLines text := by
  fun_induction endedLines text with
  | case1 => rfl
  | case2 text ih => simp [splitLines, ih]
  | case3 c text hnot hc ih => rw [splitLines.eq_3 _ _ hnot, if_pos hc, ← ih, List.map_cons]
  | case4 c text hnot hc ih =>
      rw [splitLines.eq_3 _ _ hnot, if_neg hc, ← ih]
      cases endedLines text <;> rfl

theorem endedLines_line {line : List Char} (h : Unbroken line) (more : List Char) :
    endedLines (line ++ '\n' :: more) = (line, ['\n']) :: endedLines more := by
  induction line with
  | nil => rw [List.nil_append, endedLines.eq_3 _ _ (by intro _ h; contradiction)]; rfl
  | cons c line ih =>
      have hc : isLineBreak c = false := h c List.mem_cons_self
      have hr : c ≠ '\r' := by
        rintro rfl
        contradiction
      have hrest := ih fun d hd => h d (List.mem_cons_of_mem c hd)
      rw [List.cons_append, endedLines.eq_3 _ _ (by intro _ h; simp [hr] at h), hc, hrest]
      rfl

theorem endedLines_terminated {lines : List (List Char)} (h : ∀ line ∈ lines, Unbroken line) :
    endedLines (terminated lines) = lines.map fun line => (line, ['\n']) := by
  induction lines with
  | nil => rfl
  | cons line lines ih =>
      have hrest := ih fun l hl => h l (List.mem_cons_of_mem _ hl)
      have hcons : terminated (line :: lines) = line ++ '\n' :: terminated lines := by
        simp [terminated]
      rw [hcons, endedLines_line (h line List.mem_cons_self), hrest, List.map_cons]

theorem intercalate_concat (front : List (List Char)) (last : List Char) :
    ['\n'].intercalate (front ++ [last]) = terminated front ++ last := by
  induction front with
  | nil => simp [terminated, List.intercalate]
  | cons line front ih =>
      cases hfront : front ++ [last] with
      | nil => simp at hfront
      | cons next rest =>
          rw [hfront] at ih
          have hcons : ['\n'].intercalate (line :: next :: rest) =
              line ++ '\n' :: ['\n'].intercalate (next :: rest) := by simp [List.intercalate]
          rw [List.cons_append, hfront, hcons, ih]
          simp [terminated]

/-- The last line of a text is lost if it is empty. -/
theorem joinLines_concat (front : List (List Char)) {last : List Char} (h : Unbroken last) :
    joinLines (front ++ [last]) = terminated (if last = [] then front else front ++ [last]) := by
  unfold joinLines
  dsimp only
  rw [intercalate_concat]
  by_cases hlast : last = []
  · have hend : terminated front ≠ [] → (terminated front).getLast? = some '\n' := by
      intro hne
      cases List.eq_nil_or_concat front with
      | inl hnil => simp [hnil, terminated] at hne
      | inr hconcat =>
          obtain ⟨front', line, rfl⟩ := hconcat
          simp [terminated]
    rw [hlast, List.append_nil, if_pos rfl, if_neg]
    rintro ⟨hne, hnot⟩
    exact hnot (hend hne)
  · have hend : (terminated front ++ last).getLast? ≠ some '\n' := by
      rw [List.getLast?_append_of_ne_nil _ hlast]
      intro hc
      have hbreak := h '\n' (List.mem_of_mem_getLast? hc)
      contradiction
    rw [if_neg hlast, if_pos ⟨by simp [hlast], hend⟩]
    simp [terminated]

theorem splitLines_joinLines_concat (front : List (List Char)) {last : List Char}
    (hfront : ∀ line ∈ front, Unbroken line) (hlast : Unbroken last) :
    splitLines (joinLines (front ++ [last])) = if last = [] then front else front ++ [last] := by
  rw [joinLines_concat front hlast]
  apply splitLines_terminated
  split
  · exact hfront
  · intro line hline
    cases List.mem_append.mp hline with
    | inl hin => exact hfront line hin
    | inr hin => exact List.mem_singleton.mp hin ▸ hlast

/-- Lines are ended by newlines when they are joined, if the last of them is not empty. -/
theorem joinLines_eq_terminated {lines : List (List Char)} (h : ∀ line ∈ lines, Unbroken line)
    (hlast : lines.getLast? ≠ some []) : joinLines lines = terminated lines := by
  cases List.eq_nil_or_concat lines with
  | inl hnil =>
      subst hnil
      rfl
  | inr hconcat =>
      obtain ⟨front, last, rfl⟩ := hconcat
      rw [List.concat_eq_append] at h hlast ⊢
      have hne : last ≠ [] := by simpa using hlast
      rw [joinLines_concat front (h last (by simp)), if_neg hne]

/-! ## the names of a file -/

theorem isSome_foldl_assigned {k : String} {lines : List (List Char)} {old : Option String}
    (h : old.isSome ∨ k ∈ (lines.filterMap parseLine).map Prod.fst) :
    (lines.foldl (assigned k) old).isSome := by
  induction lines generalizing old with
  | nil => simpa using h
  | cons line lines ih =>
      rw [List.foldl_cons]
      apply ih
      cases hline : parseLine line with
      | none => simpa [assigned, hline] using h
      | some kv =>
          by_cases heq : kv.1 = k
          · exact .inl (by simp [assigned, hline, heq])
          · have hne : ¬ k = kv.1 := fun h => heq h.symm
            simpa [assigned, hline, heq, hne] using h

/-- The names that a rewrite finds are those that are read. -/
theorem mem_lineKeys {k : String} (hk : PlainKey k) {lines : List (List Char)} :
    k ∈ lines.filterMap lineKey ↔ (parseEnvFile lines).get? k ≠ none := by
  rw [get?_parse]
  constructor
  · intro hin
    obtain ⟨line, hline, hkey⟩ := List.mem_filterMap.mp hin
    obtain ⟨v, hparse⟩ := parse_of_lineKey hkey
    have hmem : k ∈ (lines.filterMap parseLine).map Prod.fst :=
      List.mem_map.mpr ⟨(k, v), List.mem_filterMap.mpr ⟨line, hline, hparse⟩, rfl⟩
    have hsome : (lines.foldl (assigned k) none).isSome := isSome_foldl_assigned (.inr hmem)
    intro hnone
    rw [hnone] at hsome
    contradiction
  · intro hne
    by_contra hnot
    apply hne
    refine foldl_assigned_of_none (fun line hline v hparse => hnot ?_) none
    exact List.mem_filterMap.mpr ⟨line, hline, lineKey_of_parse hk hparse⟩

/-! ## the file after a write -/

/-- A line that defines none of some names. -/
def otherLine (values : Dict String String) (line : List Char) : Bool :=
  (lineKey line).all (· ∉ values.keys)

def otherLines (values : Dict String String) (lines : List (List Char)) : List (List Char) :=
  lines.filter (otherLine values)

/-- What a file says in the lines that define none of some names, byte for byte;
a last line without an end is as one that a newline ends. -/
def otherBytes (values : Dict String String) (file : List Char) : List (List Char) :=
  ((endedLines file).filter fun line => otherLine values line.1).map fun line =>
    line.1 ++ if line.2 = [] then ['\n'] else line.2

theorem otherLines_eq (values : Dict String String) (file : List Char) :
    otherLines values (splitLines file) =
      ((endedLines file).filter fun line => otherLine values line.1).map Prod.fst := by
  unfold otherLines
  rw [← map_endedLines, List.filter_map]
  rfl

theorem length_otherBytes (values : Dict String String) (file : List Char) :
    (otherBytes values file).length = (otherLines values (splitLines file)).length := by
  rw [otherLines_eq, otherBytes, List.length_map, List.length_map]

theorem otherBytes_terminated (values : Dict String String) {lines : List (List Char)}
    (h : ∀ line ∈ lines, Unbroken line) :
    otherBytes values (terminated lines) = (otherLines values lines).map (· ++ ['\n']) := by
  unfold otherBytes otherLines
  rw [endedLines_terminated h, List.filter_map, List.map_map]
  rfl

/-- The other lines are ended by newlines. -/
theorem otherBytes_eq_iff (values : Dict String String) (file : List Char) :
    (otherLines values (splitLines file)).map (· ++ ['\n']) = otherBytes values file ↔
      ∀ line ∈ endedLines file, otherLine values line.1 → line.2 = [] ∨ line.2 = ['\n'] := by
  rw [otherLines_eq, otherBytes, List.map_map, List.map_inj_left]
  have hend : ∀ line : List Char × List Char,
      line.1 ++ ['\n'] = line.1 ++ (if line.2 = [] then ['\n'] else line.2) ↔
        line.2 = [] ∨ line.2 = ['\n'] := by
    intro line
    rw [List.append_cancel_left_eq]
    by_cases hnone : line.2 = []
    · simp [hnone]
    · simp [hnone, eq_comm]
  constructor
  · exact fun h line hline hother => (hend line).mp (h line (List.mem_filter.mpr ⟨hline, hother⟩))
  · intro h line hline
    obtain ⟨hmem, hother⟩ := List.mem_filter.mp hline
    exact (hend line).mpr (h line hmem hother)

/-- A line is written again as it is, or it is the line of a new value. -/
theorem rewriteLine_cases (values : Dict String String) (line : List Char) :
    (rewriteLine values line = line ∧ ∀ k ∈ lineKey line, values.get? k = none) ∨
      ∃ k v, lineKey line = some k ∧ values.get? k = some v ∧
        rewriteLine values line = envLine k v := by
  cases hkey : lineKey line with
  | none => exact .inl ⟨by simp [rewriteLine, hkey], by simp⟩
  | some k =>
      cases hget : values.get? k with
      | none => exact .inl ⟨by simp [rewriteLine, hkey, hget], by simp [hget]⟩
      | some v => exact .inr ⟨k, v, rfl, hget, by simp [rewriteLine, hkey, hget]⟩

section Write

variable {values : Dict String String} (hkeys : ∀ k v, values.get? k = some v → PlainKey k)
  (hvalues : ∀ k v, values.get? k = some v → Unbroken v.toList ∧ CleanValue v)

include hkeys hvalues

theorem unbroken_envLine {k v : String} (hget : values.get? k = some v) : Unbroken (envLine k v) := by
  have hv := (hvalues k v hget).1
  have hk := (hkeys k v hget).unbroken
  intro c hc
  have hsplit : envLine k v = k.toList ++ ['='] ++ v.toList := by simp [envLine]
  rw [hsplit] at hc
  cases List.mem_append.mp hc with
  | inl hin => exact hk c hin
  | inr hin => exact hv c hin

theorem lineKey_envLine {k v : String} (hget : values.get? k = some v) :
    lineKey (envLine k v) = some k :=
  lineKey_of_parse (hkeys k v hget) (parseLine_envLine (hkeys k v hget) (hvalues k v hget).2)

/-- A rewritten line has the key it had. -/
theorem lineKey_rewriteLine (line : List Char) :
    lineKey (rewriteLine values line) = lineKey line := by
  cases rewriteLine_cases values line with
  | inl hsame => rw [hsame.1]
  | inr hnew =>
      obtain ⟨k, v, hkey, hget, heq⟩ := hnew
      rw [heq, hkey, lineKey_envLine hkeys hvalues hget]

theorem unbroken_rewriteLine {line : List Char} (h : Unbroken line) :
    Unbroken (rewriteLine values line) := by
  cases rewriteLine_cases values line with
  | inl hsame =>
      rw [hsame.1]
      exact h
  | inr hnew =>
      obtain ⟨k, v, -, hget, heq⟩ := hnew
      rw [heq]
      exact unbroken_envLine hkeys hvalues hget

theorem rewriteLine_rewriteLine (line : List Char) :
    rewriteLine values (rewriteLine values line) = rewriteLine values line := by
  cases rewriteLine_cases values line with
  | inl hsame => rw [hsame.1, hsame.1]
  | inr hnew =>
      obtain ⟨k, v, -, hget, heq⟩ := hnew
      have hkey := lineKey_envLine hkeys hvalues hget
      rw [heq]
      simp [rewriteLine, hkey, hget]

theorem unbroken_writeEnvFile {lines : List (List Char)} (h : ∀ line ∈ lines, Unbroken line) :
    ∀ line ∈ writeEnvFile lines values, Unbroken line := by
  intro line hline
  cases List.mem_append.mp hline with
  | inl hold =>
      obtain ⟨line', hin, rfl⟩ := List.mem_map.mp hold
      exact unbroken_rewriteLine hkeys hvalues (h line' hin)
  | inr hnew =>
      obtain ⟨kv, hkv, rfl⟩ := List.mem_map.mp hnew
      exact unbroken_envLine hkeys hvalues (Dict.get?_eq_some.mpr (List.mem_of_mem_filter hkv))

theorem otherLines_writeEnvFile (lines : List (List Char)) :
    otherLines values (writeEnvFile lines values) = otherLines values lines := by
  have hold : otherLines values (lines.map (rewriteLine values)) = otherLines values lines := by
    induction lines with
    | nil => rfl
    | cons line lines ih =>
        unfold otherLines at ih ⊢
        have hkey : otherLine values (rewriteLine values line) = otherLine values line := by
          unfold otherLine
          rw [lineKey_rewriteLine hkeys hvalues line]
        rw [List.map_cons, List.filter_cons, List.filter_cons, ih, hkey]
        by_cases hother : otherLine values line = true
        · have hsame : rewriteLine values line = line := by
            cases rewriteLine_cases values line with
            | inl hsame => exact hsame.1
            | inr hnew =>
                obtain ⟨k, v, hkey, hget, -⟩ := hnew
                rw [otherLine, hkey] at hother
                have hnot : k ∉ values.keys := by simpa using hother
                exact absurd (Dict.mem_keys.mpr ⟨v, hget⟩) hnot
          rw [if_pos hother, if_pos hother, hsame]
        · rw [if_neg hother, if_neg hother]
  have hnew : otherLines values ((values.rows.filter fun kv => kv.1 ∉ lines.filterMap lineKey).map
      fun kv => envLine kv.1 kv.2) = [] := by
    refine List.filter_eq_nil_iff.mpr fun line hline => ?_
    obtain ⟨kv, hkv, rfl⟩ := List.mem_map.mp hline
    have hget : values.get? kv.1 = some kv.2 :=
      Dict.get?_eq_some.mpr (List.mem_of_mem_filter hkv)
    have hin : kv.1 ∈ values.keys := Dict.mem_keys.mpr ⟨kv.2, hget⟩
    rw [otherLine, lineKey_envLine hkeys hvalues hget]
    simpa using hin
  unfold writeEnvFile
  have happend : ∀ xs ys, otherLines values (xs ++ ys) =
      otherLines values xs ++ otherLines values ys := by simp [otherLines]
  rw [happend, hold, hnew, List.append_nil]

/-- After a write every written name has a line. -/
theorem mem_lineKeys_writeEnvFile {k v : String} (hget : values.get? k = some v)
    (lines : List (List Char)) : k ∈ (writeEnvFile lines values).filterMap lineKey := by
  apply (mem_lineKeys (hkeys k v hget)).mpr
  have hread := get?_parse_write hkeys (fun k v h => (hvalues k v h).2) lines k
  rw [hread, hget]
  simp

theorem writeEnvFile_writeEnvFile (lines : List (List Char)) :
    writeEnvFile (writeEnvFile lines values) values = writeEnvFile lines values := by
  have hnew : ∀ kv ∈ values.rows, rewriteLine values (envLine kv.1 kv.2) = envLine kv.1 kv.2 := by
    intro kv hkv
    have hget : values.get? kv.1 = some kv.2 := Dict.get?_eq_some.mpr hkv
    simp [rewriteLine, lineKey_envLine hkeys hvalues hget, hget]
  have hmap : (writeEnvFile lines values).map (rewriteLine values) = writeEnvFile lines values := by
    refine (List.map_congr_left fun line hline => ?_).trans (List.map_id _)
    cases List.mem_append.mp hline with
    | inl hold =>
        obtain ⟨line', -, rfl⟩ := List.mem_map.mp hold
        exact rewriteLine_rewriteLine hkeys hvalues line'
    | inr hadded =>
        obtain ⟨kv, hkv, rfl⟩ := List.mem_map.mp hadded
        exact hnew kv (List.mem_of_mem_filter hkv)
  have hnone : (values.rows.filter fun kv =>
      kv.1 ∉ (writeEnvFile lines values).filterMap lineKey) = [] := by
    refine List.filter_eq_nil_iff.mpr fun kv hkv => ?_
    have hin := mem_lineKeys_writeEnvFile hkeys hvalues (Dict.get?_eq_some.mpr hkv) lines
    simpa using hin
  rw [writeEnvFile, hmap, hnone]
  simp

end Write

/-- The last line of a written file is empty if it was before and nothing is appended. -/
theorem getLast?_writeEnvFile (lines : List (List Char)) (values : Dict String String) :
    (writeEnvFile lines values).getLast? = some [] ↔
      lines.getLast? = some [] ∧ ∀ kv ∈ values.rows, kv.1 ∈ lines.filterMap lineKey := by
  have hempty : ∀ line, rewriteLine values line = [] ↔ line = [] := by
    intro line
    cases rewriteLine_cases values line with
    | inl hsame => rw [hsame.1]
    | inr hnew =>
        obtain ⟨k, v, hkey, -, heq⟩ := hnew
        have hne : line ≠ [] := by
          rintro rfl
          contradiction
        simp [heq, hne, envLine]
  have hold : (lines.map (rewriteLine values)).getLast? = some [] ↔ lines.getLast? = some [] := by
    rw [List.getLast?_map]
    cases lines.getLast? with
    | none => simp
    | some line => simp [hempty]
  unfold writeEnvFile
  cases hnew : (values.rows.filter fun kv => kv.1 ∉ lines.filterMap lineKey) with
  | nil =>
      have hall : ∀ kv ∈ values.rows, kv.1 ∈ lines.filterMap lineKey := by
        intro kv hkv
        have hnot := List.filter_eq_nil_iff.mp hnew kv hkv
        simpa using hnot
      rw [List.map_nil, List.append_nil, hold]
      exact ⟨fun h => ⟨h, hall⟩, fun h => h.1⟩
  | cons kv rows =>
      have hin : kv ∈ values.rows.filter fun kv => kv.1 ∉ lines.filterMap lineKey := by
        rw [hnew]
        exact List.mem_cons_self
      obtain ⟨hrow, hnot⟩ := List.mem_filter.mp hin
      constructor
      · intro hlast
        rw [List.getLast?_append_of_ne_nil _ (by simp)] at hlast
        obtain ⟨kv', -, hkv'⟩ := List.mem_map.mp (List.mem_of_mem_getLast? hlast)
        simp [envLine] at hkv'
      · rintro ⟨-, hall⟩
        have hkey := hall kv hrow
        simp only [decide_eq_true_eq] at hnot
        exact absurd hkey hnot

/-! ## what a write leaves of a file -/

/-- A write of a file loses nothing. -/
structure RoundTrips (file : List Char) (values : Dict String String) : Prop where
  /-- What is read is what was read before, with the new values. -/
  read : ∀ k, (parseEnvOnDisk (writeEnvOnDisk file values)).get? k =
    (values.get? k).or ((parseEnvOnDisk file).get? k)
  /-- The other lines stay byte for byte, in their order. -/
  kept : otherBytes values (writeEnvOnDisk file values) = otherBytes values file
  again : writeEnvOnDisk (writeEnvOnDisk file values) values = writeEnvOnDisk file values
  /-- Removing names that were not there takes back what was written for them. -/
  removed : ∀ names : List String, (∀ k ∈ names, PlainKey k) →
    (∀ k ∈ names, (parseEnvOnDisk file).get? k = none) →
    ∀ k, (parseEnvOnDisk (removeEnvOnDisk (writeEnvOnDisk file values) names)).get? k =
      (if k ∈ names then none else values.get? k).or ((parseEnvOnDisk file).get? k)

/-- What a write does not lose: values that read back as they are, other lines
that newlines end, and a last line that is not empty, if no line comes after it. -/
structure Lossless (file : List Char) (values : Dict String String) : Prop where
  clean : ∀ k v, values.get? k = some v → Unbroken v.toList ∧ CleanValue v
  ends : ∀ line ∈ endedLines file, otherLine values line.1 → line.2 = [] ∨ line.2 = ['\n']
  lastLine : (splitLines file).getLast? = some [] →
    ∃ k ∈ values.keys, (parseEnvText file).get? k = none

section RoundTrip

variable {file : List Char} {values : Dict String String}
  (hkeys : ∀ k v, values.get? k = some v → PlainKey k)

/-- If all written names were new, removing them restores what was read. -/
theorem RoundTrips.restored (h : RoundTrips file values) {names : List String}
    (hplain : ∀ k ∈ names, PlainKey k) (hnew : ∀ k ∈ names, (parseEnvOnDisk file).get? k = none)
    (hall : ∀ k ∈ values.keys, k ∈ names) (k : String) :
    (parseEnvOnDisk (removeEnvOnDisk (writeEnvOnDisk file values) names)).get? k =
      (parseEnvOnDisk file).get? k := by
  rw [h.removed names hplain hnew k]
  cases hget : values.get? k with
  | none => simp
  | some v =>
      have hin : k ∈ names := hall k (Dict.mem_keys.mpr ⟨v, hget⟩)
      simp [hin]

/-- A value that is read back is one that a line can hold. -/
theorem RoundTrips.clean (h : RoundTrips file values) {k v : String}
    (hget : values.get? k = some v) : Unbroken v.toList ∧ CleanValue v := by
  have hread : (parseEnvText (writeEnvOnDisk file values)).get? k = some v := by
    rw [← parseEnvOnDisk_eq, h.read k, hget]
    rfl
  exact ⟨unbroken_of_parse hread, cleanValue_of_parse hread⟩

include hkeys

/-- The file after a write, whose last line is not lost. -/
theorem writeEnvText_eq_terminated
    (hvalues : ∀ k v, values.get? k = some v → Unbroken v.toList ∧ CleanValue v)
    (hlast : (splitLines file).getLast? = some [] →
      ∃ k ∈ values.keys, (parseEnvText file).get? k = none) :
    writeEnvText file values = terminated (writeEnvFile (splitLines file) values) := by
  apply joinLines_eq_terminated (unbroken_writeEnvFile hkeys hvalues unbroken_of_splitLines)
  intro hempty
  obtain ⟨hfile, hall⟩ := (getLast?_writeEnvFile _ _).mp hempty
  obtain ⟨k, hk, hnone⟩ := hlast hfile
  obtain ⟨v, hget⟩ := Dict.mem_keys.mp hk
  have hin := hall (k, v) (Dict.get?_eq_some.mp hget)
  exact (mem_lineKeys (hkeys k v hget)).mp hin hnone

/-- A write that appends nothing loses an empty last line. -/
theorem lastLine_of_length
    (hvalues : ∀ k v, values.get? k = some v → Unbroken v.toList ∧ CleanValue v)
    (h : (otherLines values (splitLines (writeEnvText file values))).length =
      (otherLines values (splitLines file)).length)
    (hempty : (splitLines file).getLast? = some []) :
    ∃ k ∈ values.keys, (parseEnvText file).get? k = none := by
  by_contra hnot
  have hall : ∀ kv ∈ values.rows, kv.1 ∈ (splitLines file).filterMap lineKey := by
    intro kv hkv
    have hget : values.get? kv.1 = some kv.2 := Dict.get?_eq_some.mpr hkv
    refine (mem_lineKeys (hkeys _ _ hget)).mpr fun hnone => hnot ?_
    exact ⟨kv.1, Dict.mem_keys.mpr ⟨kv.2, hget⟩, hnone⟩
  have hlast := (getLast?_writeEnvFile _ _).mpr ⟨hempty, hall⟩
  have hunbroken := unbroken_writeEnvFile hkeys hvalues (@unbroken_of_splitLines file)
  obtain ⟨front, hfront⟩ : ∃ front, writeEnvFile (splitLines file) values = front ++ [[]] := by
    exact List.getLast?_eq_some_iff.mp hlast
  have hsplit : splitLines (writeEnvText file values) = front := by
    have hconcat := @splitLines_joinLines_concat front []
      (fun line hline => hunbroken line (by simp [hfront, hline])) (by simp [Unbroken])
    rw [if_pos rfl] at hconcat
    rw [writeEnvText, hfront, hconcat]
  have hlines := otherLines_writeEnvFile hkeys hvalues (splitLines file)
  rw [hfront] at hlines
  rw [hsplit, ← hlines] at h
  simp [otherLines, otherLine, lineKey, parseLine, stripped] at h

/-- The other lines are kept exactly if newlines end them. -/
theorem kept_iff_ends (hvalues : ∀ k v, values.get? k = some v → Unbroken v.toList ∧ CleanValue v)
    (hlast : (splitLines file).getLast? = some [] →
      ∃ k ∈ values.keys, (parseEnvText file).get? k = none) :
    otherBytes values (writeEnvText file values) = otherBytes values file ↔
      ∀ line ∈ endedLines file, otherLine values line.1 → line.2 = [] ∨ line.2 = ['\n'] := by
  have hunbroken := unbroken_writeEnvFile hkeys hvalues (@unbroken_of_splitLines file)
  rw [writeEnvText_eq_terminated hkeys hvalues hlast, otherBytes_terminated values hunbroken,
    otherLines_writeEnvFile hkeys hvalues]
  exact otherBytes_eq_iff values file

theorem roundTrips_of (h : Lossless file values) : RoundTrips file values := by
  have hunbroken := unbroken_writeEnvFile hkeys h.clean (@unbroken_of_splitLines file)
  have hsplit : splitLines (writeEnvText file values) = writeEnvFile (splitLines file) values := by
    rw [writeEnvText_eq_terminated hkeys h.clean h.lastLine, splitLines_terminated hunbroken]
  have hread : ∀ k, (parseEnvText (writeEnvText file values)).get? k =
      (values.get? k).or ((parseEnvText file).get? k) := by
    intro k
    have hclean : ∀ k v, values.get? k = some v → CleanValue v := fun k v hget => (h.clean k v hget).2
    unfold parseEnvText
    rw [hsplit, get?_parse_write hkeys hclean]
  refine ⟨?_, ?_, ?_, ?_⟩
  · simpa only [parseEnvOnDisk_eq, writeEnvOnDisk_eq] using hread
  · rw [writeEnvOnDisk_eq, kept_iff_ends hkeys h.clean h.lastLine]
    exact h.ends
  · have hlines := writeEnvFile_writeEnvFile hkeys h.clean (splitLines file)
    simp only [writeEnvOnDisk_eq]
    calc writeEnvText (writeEnvText file values) values
        = joinLines (writeEnvFile (splitLines (writeEnvText file values)) values) := rfl
      _ = writeEnvText file values := by
          rw [hsplit, hlines]
          rfl
  · intro names hplain hnew k
    simp only [parseEnvOnDisk_eq, writeEnvOnDisk_eq, removeEnvOnDisk_eq] at hnew ⊢
    rw [get?_parse_removeText _ hplain, hread k]
    by_cases hin : k ∈ names
    · simp [hin, hnew k hin]
    · simp [hin]

end RoundTrip

/-- A write of the managed file loses nothing exactly if no value has a line break or
whitespace at its end, newlines end all lines but those it writes, and the file ends with
an empty line only where a name is new. -/
theorem env_roundTrips_iff {file : List Char} {values : Dict String String}
    (hkeys : ∀ k v, values.get? k = some v → PlainKey k) :
    RoundTrips file values ↔ Lossless file values := by
  constructor
  · intro h
    have hvalues : ∀ k v, values.get? k = some v → Unbroken v.toList ∧ CleanValue v :=
      fun k v hget => h.clean hget
    have hkept := h.kept
    rw [writeEnvOnDisk_eq] at hkept
    have hlength := congrArg List.length hkept
    rw [length_otherBytes, length_otherBytes] at hlength
    have hlast := lastLine_of_length hkeys hvalues hlength
    exact ⟨hvalues, (kept_iff_ends hkeys hvalues hlast).mp hkept, hlast⟩
  · exact roundTrips_of hkeys

/-- One new value. -/
def assignment (k v : String) : Dict String String := (∅ : Dict String String).set k v

theorem get?_assignment {k v k' v' : String} :
    (assignment k v).get? k' = some v' ↔ k = k' ∧ v = v' := by
  unfold assignment
  rw [Dict.get?_set]
  by_cases heq : k = k' <;> simp [heq]

theorem plainKey_port : PlainKey "PORT" :=
  ⟨by decide, noSpace_of_all (by decide), by decide, by decide⟩

/-- An edited file with a comment, an export line, a value that ends in CRLF and is
written anew, and no newline at its end. -/
theorem env_roundTrips_iff_port :
    RoundTrips "# mine\n export A=1\nPORT=80\r\n\nB=".toList
      (assignment "PORT" " '#=\\' \"8") := by
  have hkeys : ∀ k v, (assignment "PORT" " '#=\\' \"8").get? k = some v → PlainKey k := by
    intro k v hget
    exact (get?_assignment.mp hget).1 ▸ plainKey_port
  refine (env_roundTrips_iff hkeys).mpr ⟨fun k v hget => ?_, by decide +kernel, fun hlast => ?_⟩
  · obtain ⟨-, rfl⟩ := get?_assignment.mp hget
    refine ⟨unbroken_of_all (by decide +kernel), fun c hc => ?_⟩
    have hlast : " '#=\\' \"8".toList.getLast? = some '8' := by decide +kernel
    rw [hlast] at hc
    exact Option.some.inj hc ▸ by decide
  · revert hlast
    decide +kernel

/-- An empty last line, the form feed in a comment, the end of a CRLF line, a blank at
the end of a value and a line separator in it are lost. -/
theorem env_not_roundTrips :
    ¬ RoundTrips "PORT=80\n\n".toList (assignment "PORT" "81") ∧
      ¬ RoundTrips "# note \x0cSECRET=1\n".toList (assignment "PORT" "81") ∧
      ¬ RoundTrips "A=1\r\n".toList (assignment "PORT" "81") ∧
      ¬ RoundTrips [] (assignment "PORT" "80 ") ∧
      ¬ RoundTrips [] (assignment "PORT" "80\u2028") := by
  have hlost : ∀ v, ¬ (Unbroken v.toList ∧ CleanValue v) → ¬ RoundTrips [] (assignment "PORT" v) := by
    intro v hv h
    exact hv (h.clean (get?_assignment.mpr ⟨rfl, rfl⟩))
  refine ⟨fun h => ?_, fun h => ?_, fun h => ?_, hlost _ ?_, hlost _ ?_⟩
  · have hkept := h.kept
    revert hkept
    decide +kernel
  · have hkept := h.kept
    revert hkept
    decide +kernel
  · have hkept := h.kept
    revert hkept
    decide +kernel
  · rintro ⟨-, hclean⟩
    have hspace := hclean ' ' (by decide +kernel)
    contradiction
  · rintro ⟨hunbroken, -⟩
    have hbreak := hunbroken '\u2028' (by decide +kernel)
    contradiction

end InferStack
