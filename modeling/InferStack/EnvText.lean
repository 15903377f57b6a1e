import InferStack.EnvFile

/-!
# InferStack.EnvText

The managed `.env` as one text: split into lines when it is read, joined again
when it is written.

A value that is written with a line break in it becomes several lines.  Where
the lines after the first assign nothing, the file reads back as it was meant
(`get?_parse_writeText`).
-/

namespace InferStack

open Kit

/-! ## splitting and joining -/

/-- The characters that end a line. -/
def isLineBreak (c : Char) : Bool :=
  (10 ≤ c.val && c.val ≤ 13) || (28 ≤ c.val && c.val ≤ 30) || c.val ∈ [133, 8232, 8233]

/-- A line with one more character in front. -/
def consLine (c : Char) : List (List Char) → List (List Char)
  | [] => [[c]]
  | line :: lines => (c :: line) :: lines

/-- The lines of a text; `\r\n` is one line break. -/
def splitLines : List Char → List (List Char)
  | [] => []
  | '\r' :: '\n' :: text => [] :: splitLines text
  | c :: text => if isLineBreak c then [] :: splitLines text else consLine c (splitLines text)

/-- The text of some lines, ended by a newline. -/
def joinLines (lines : List (List Char)) : List Char :=
  let text := ['\n'].intercalate lines
  if text ≠ [] ∧ text.getLast? ≠ some '\n' then text ++ ['\n'] else text

/-- Read the assignments of a text. -/
def parseEnvText (text : List Char) : Dict String String := parseEnvFile (splitLines text)

def writeEnvText (text : List Char) (values : Dict String String) : List Char :=
  joinLines (writeEnvFile (splitLines text) values)

def removeEnvText (text : List Char) (keys : List String) : List Char :=
  if keys = [] then text else joinLines (removeEnvKeys (splitLines text) keys)

/-! ## what a text assigns -/

/-- The assignments of a text, in order. -/
def assigns (text : List Char) : List (String × String) := (splitLines text).filterMap parseLine

theorem isSpace_of_isLineBreak {c : Char} (h : isLineBreak c = true) : isSpace c = true := by
  simp only [isLineBreak, isSpace, Bool.or_eq_true, Bool.and_eq_true, decide_eq_true_eq,
    List.mem_cons, List.not_mem_nil, or_false] at h ⊢
  grind

theorem splitLines_cons_break {c : Char} (hc : isLineBreak c = true) (hr : c ≠ '\r')
    (text : List Char) : splitLines (c :: text) = [] :: splitLines text := by
  rw [splitLines.eq_3 _ _ (by intro _ h; simp [hr] at h), if_pos hc]

theorem splitLines_cons {c : Char} (hc : isLineBreak c = false) (text : List Char) :
    splitLines (c :: text) = consLine c (splitLines text) := by
  have hr : c ≠ '\r' := by
    rintro rfl
    contradiction
  rw [splitLines.eq_3 _ _ (by intro _ h; simp [hr] at h), hc]
  rfl

theorem consLine_append (c : Char) {lines : List (List Char)} (h : lines ≠ [])
    (more : List (List Char)) : consLine c (lines ++ more) = consLine c lines ++ more := by
  cases lines with
  | nil => contradiction
  | cons line lines => rfl

theorem splitLines_eq_nil {text : List Char} : splitLines text = [] ↔ text = [] := by
  fun_cases splitLines text with
  | case1 => simp
  | case2 text => simp
  | case3 c text h hc => simp
  | case4 c text h hc => cases splitLines text <;> simp [consLine]

/-- Text after a newline starts a line of its own, after a blank one at most. -/
theorem splitLines_append (text more : List Char) :
    ∃ blank, (blank = [] ∨ blank = [[]]) ∧
      splitLines (text ++ '\n' :: more) = splitLines text ++ blank ++ splitLines more := by
  induction text using splitLines.induct with
  | case1 => exact ⟨[[]], .inr rfl, splitLines_cons_break (by decide) (by decide) more⟩
  | case2 text ih =>
      obtain ⟨blank, hblank, ih⟩ := ih
      exact ⟨blank, hblank, by simp [splitLines, ih]⟩
  | case3 c text hnot hc ih =>
      obtain ⟨blank, hblank, ih⟩ := ih
      by_cases hr : c = '\r' ∧ text = []
      · -- the newline completes the line break
        obtain ⟨rfl, rfl⟩ := hr
        exact ⟨[], .inl rfl, by simp [splitLines, isLineBreak]⟩
      · refine ⟨blank, hblank, ?_⟩
        rw [List.cons_append, splitLines.eq_3 _ _ ?_, splitLines.eq_3 _ _ hnot, if_pos hc,
          if_pos hc, ih]
        · rfl
        · intro text' hcr htext
          cases text with
          | nil => exact hr ⟨hcr, rfl⟩
          | cons d text =>
              obtain ⟨rfl, -⟩ := List.cons.inj htext
              exact hnot text hcr rfl
  | case4 c text hnot hc ih =>
      obtain ⟨blank, hblank, ih⟩ := ih
      have hc : isLineBreak c = false := by simpa using hc
      rw [List.cons_append, splitLines_cons hc, splitLines_cons hc, ih]
      cases text with
      | nil =>
          cases hblank with
          | inl h =>
              subst h
              have hfirst : splitLines ([] ++ '\n' :: more) = [] :: splitLines more :=
                splitLines_cons_break (by decide) (by decide) more
              rw [hfirst] at ih
              have hlen := congrArg List.length ih
              simp [splitLines] at hlen
          | inr h => exact ⟨[], .inl rfl, by simp [h, splitLines, consLine]⟩
      | cons d text =>
          have hne : splitLines (d :: text) ≠ [] := by simp [splitLines_eq_nil]
          refine ⟨blank, hblank, ?_⟩
          rw [List.append_assoc, consLine_append c hne, List.append_assoc]

theorem assigns_append (text more : List Char) :
    assigns (text ++ '\n' :: more) = assigns text ++ assigns more := by
  obtain ⟨blank, hblank, hsplit⟩ := splitLines_append text more
  have hnone : blank.filterMap parseLine = [] := by
    cases hblank with
    | inl h => rw [h]; rfl
    | inr h => rw [h]; rfl
  unfold assigns
  rw [hsplit, List.filterMap_append, List.filterMap_append, hnone, List.append_nil]

/-- A text that was joined assigns what its parts assign. -/
theorem assigns_joinLines (parts : List (List Char)) :
    assigns (joinLines parts) = parts.flatMap assigns := by
  have hjoin : assigns (['\n'].intercalate parts) = parts.flatMap assigns := by
    induction parts with
    | nil => rfl
    | cons part parts ih =>
        cases parts with
        | nil => simp [List.intercalate]
        | cons next parts =>
            have hcons : ['\n'].intercalate (part :: next :: parts) =
                part ++ '\n' :: ['\n'].intercalate (next :: parts) := by
              simp [List.intercalate]
            rw [hcons, assigns_append, ih]
            rfl
  unfold joinLines
  dsimp only
  split
  · rw [assigns_append, hjoin]
    exact List.append_nil _
  · exact hjoin

/-! ## lines without a line break -/

/-- No line break in a text. -/
def Unbroken (text : List Char) : Prop := ∀ c ∈ text, isLineBreak c = false

theorem unbroken_of_all {text : List Char} (h : (text.all fun c => isLineBreak c = false) = true) :
    Unbroken text :=
  fun c hc => of_decide_eq_true (List.all_eq_true.mp h c hc)

theorem splitLines_of_unbroken {text : List Char} (h : Unbroken text) (more : List Char)
    (hmore : text ++ more ≠ []) : splitLines (text ++ more) =
      (text ++ (splitLines more).head?.getD []) :: (splitLines more).tail := by
  induction text with
  | nil =>
      cases hsplit : splitLines more with
      | nil => exact absurd (splitLines_eq_nil.mp hsplit) hmore
      | cons line lines => simp [hsplit]
  | cons c text ih =>
      have hc : isLineBreak c = false := h c List.mem_cons_self
      rw [List.cons_append, splitLines_cons hc]
      by_cases hnil : text ++ more = []
      · obtain ⟨rfl, rfl⟩ := List.append_eq_nil_iff.mp hnil
        rfl
      · rw [ih (fun d hd => h d (List.mem_cons_of_mem _ hd)) hnil]
        rfl

theorem unbroken_of_splitLines {text : List Char} : ∀ line ∈ splitLines text, Unbroken line := by
  fun_induction splitLines text with
  | case1 => simp
  | case2 text ih => simpa [Unbroken] using ih
  | case3 c text hnot hc ih => simpa [Unbroken] using ih
  | case4 c text hnot hc ih =>
      have hc : isLineBreak c = false := by simpa using hc
      intro line hline
      cases hsplit : splitLines text with
      | nil =>
          rw [hsplit] at hline
          obtain rfl := List.mem_singleton.mp hline
          simpa [Unbroken] using hc
      | cons first rest =>
          rw [hsplit] at hline ih
          cases List.mem_cons.mp hline with
          | inl heq =>
              have hfirst : Unbroken first := ih first List.mem_cons_self
              subst heq
              intro d hd
              cases List.mem_cons.mp hd with
              | inl h => exact h ▸ hc
              | inr h => exact hfirst d h
          | inr hrest => exact ih line (List.mem_cons_of_mem _ hrest)

theorem assigns_of_unbroken {line : List Char} (h : Unbroken line) :
    assigns line = (parseLine line).toList := by
  by_cases hnil : line = []
  · subst hnil
    rfl
  · have hsplit := splitLines_of_unbroken h [] (by simpa using hnil)
    have hone : splitLines line = [line] := by simpa [splitLines] using hsplit
    unfold assigns
    rw [hone]
    cases hline : parseLine line <;> simp [hline]

/-! ## values as they are read back -/

/-- A text without the whitespace at its end. -/
def rstripped (l : List Char) : List Char := (l.reverse.dropWhile isSpace).reverse

/-- What a file says of a value that was written: its first line, without the
whitespace at its end. -/
def readBack (v : String) : String :=
  String.ofList (rstripped ((splitLines v.toList).head?.getD []))

/-- No line of a value after the first assigns anything. -/
def OneLine (v : String) : Prop := ∀ line ∈ (splitLines v.toList).tail, parseLine line = none

instance (v : String) : Decidable (OneLine v) :=
  inferInstanceAs (Decidable (∀ line ∈ (splitLines v.toList).tail, parseLine line = none))

theorem rstripped_append {l : List Char} (h : ∃ c ∈ l.getLast?, isSpace c = false)
    (more : List Char) : rstripped (l ++ more) = l ++ rstripped more := by
  obtain ⟨c, hc, hspace⟩ := h
  have hl : l.reverse.dropWhile isSpace = l.reverse := by
    refine dropWhile_of_head fun d hd => ?_
    rw [List.head?_reverse, Option.mem_def.mp hc] at hd
    exact Option.some.inj hd ▸ hspace
  unfold rstripped
  rw [List.reverse_append, List.dropWhile_append]
  split
  · rename_i hnil
    rw [hl, List.reverse_reverse, List.isEmpty_iff.mp hnil, List.reverse_nil, List.append_nil]
  · rw [List.reverse_append, List.reverse_reverse]

theorem rstripped_of_clean {l : List Char} (h : ∀ c ∈ l.getLast?, isSpace c = false) :
    rstripped l = l := by
  unfold rstripped
  rw [dropWhile_of_head (by simpa using h), List.reverse_reverse]

theorem getLast?_rstripped {l : List Char} : ∀ c ∈ (rstripped l).getLast?, isSpace c = false := by
  intro c hc
  unfold rstripped at hc
  rw [List.getLast?_reverse] at hc
  have hnot := List.head?_dropWhile_not isSpace l.reverse
  rw [Option.mem_def.mp hc] at hnot
  simpa using hnot

theorem mem_of_mem_rstripped {l : List Char} {c : Char} (h : c ∈ rstripped l) : c ∈ l := by
  have hin : c ∈ l.reverse.dropWhile isSpace := List.mem_reverse.mp h
  exact List.mem_reverse.mp ((List.dropWhile_suffix _).subset hin)

theorem cleanValue_readBack (v : String) : CleanValue (readBack v) := by
  intro c hc
  rw [readBack, String.toList_ofList] at hc
  exact getLast?_rstripped c hc

theorem unbroken_readBack (v : String) : Unbroken (readBack v).toList := by
  intro c hc
  rw [readBack, String.toList_ofList] at hc
  have hin := mem_of_mem_rstripped hc
  cases hsplit : splitLines v.toList with
  | nil => simp [hsplit] at hin
  | cons line lines =>
      rw [hsplit] at hin
      exact unbroken_of_splitLines line (hsplit ▸ List.mem_cons_self) c hin

/-- A line without line break or whitespace at its end reads back as it is. -/
theorem readBack_of_clean {v : String} (hbreak : Unbroken v.toList) (hclean : CleanValue v) :
    readBack v = v ∧ OneLine v := by
  by_cases hnil : v.toList = []
  · obtain rfl := String.toList_eq_nil_iff.mp hnil
    exact ⟨rfl, by decide⟩
  · have hsplit := splitLines_of_unbroken hbreak [] (by simpa using hnil)
    have hone : splitLines v.toList = [v.toList] := by simpa [splitLines] using hsplit
    refine ⟨?_, by simp [OneLine, hone]⟩
    rw [readBack, hone, List.head?_cons, Option.getD_some, rstripped_of_clean hclean,
      String.ofList_toList]

/-- A line that assigns, whatever whitespace ends it. -/
theorem parseLine_assign {k : String} (hk : PlainKey k) (v : List Char) :
    parseLine (k.toList ++ '=' :: v) = some (k, String.ofList (rstripped v)) := by
  have hkne : k.toList ≠ [] := fun h => hk.nonempty (String.toList_eq_nil_iff.mp h)
  have hhead : ∀ more, ∀ c ∈ (k.toList ++ more).head?, isSpace c = false := by
    intro more c hc
    cases hl : k.toList with
    | nil => exact absurd hl hkne
    | cons a l =>
        rw [hl, List.cons_append, List.head?_cons] at hc
        exact Option.some.inj hc ▸ hk.noSpace a (by simp [hl])
  have hassign : ∃ c ∈ (k.toList ++ ['=']).getLast?, isSpace c = false :=
    ⟨'=', by simp, by decide⟩
  have hstrip : stripped (k.toList ++ '=' :: v) = k.toList ++ '=' :: rstripped v := by
    have hdrop : (k.toList ++ '=' :: v).dropWhile isSpace = k.toList ++ '=' :: v :=
      dropWhile_of_head (hhead _)
    calc stripped (k.toList ++ '=' :: v)
        = rstripped ((k.toList ++ '=' :: v).dropWhile isSpace) := rfl
      _ = rstripped (k.toList ++ ['='] ++ v) := by rw [hdrop]; simp
      _ = k.toList ++ ['='] ++ rstripped v := rstripped_append hassign v
      _ = k.toList ++ '=' :: rstripped v := by simp
  have hagain : stripped (k.toList ++ '=' :: rstripped v) = k.toList ++ '=' :: rstripped v := by
    refine stripped_of_ends (hhead _) fun c hc => ?_
    have hsplit : k.toList ++ '=' :: rstripped v = rstripped (k.toList ++ ['='] ++ v) := by
      rw [rstripped_append hassign]
      simp
    rw [hsplit] at hc
    exact getLast?_rstripped c hc
  have hclean : CleanValue (String.ofList (rstripped v)) := by
    intro c hc
    rw [String.toList_ofList] at hc
    exact getLast?_rstripped c hc
  have hsame : parseLine (k.toList ++ '=' :: v) = parseLine (k.toList ++ '=' :: rstripped v) := by
    unfold parseLine
    rw [hstrip, hagain]
  rw [hsame]
  have henv : k.toList ++ '=' :: rstripped v = envLine k (String.ofList (rstripped v)) := by
    rw [envLine, String.toList_ofList]
  rw [henv]
  exact parseLine_envLine hk hclean

theorem PlainKey.unbroken {k : String} (h : PlainKey k) : Unbroken (k.toList ++ ['=']) := by
  intro c hc
  cases List.mem_append.mp hc with
  | inl hin =>
      cases hb : isLineBreak c with
      | false => rfl
      | true =>
          have hspace := h.noSpace c hin
          rw [isSpace_of_isLineBreak hb] at hspace
          contradiction
  | inr hin =>
      obtain rfl := List.mem_singleton.mp hin
      decide

/-- What writing a value assigns. -/
theorem assigns_envLine {k v : String} (hk : PlainKey k) (hv : OneLine v) :
    assigns (envLine k v) = [(k, readBack v)] := by
  have hsplit := splitLines_of_unbroken hk.unbroken v.toList (by simp)
  have hline : envLine k v = k.toList ++ ['='] ++ v.toList := by simp [envLine]
  have hrest : ((splitLines v.toList).tail).filterMap parseLine = [] :=
    List.filterMap_eq_nil_iff.mpr hv
  have hfirst := parseLine_assign hk ((splitLines v.toList).head?.getD [])
  unfold assigns
  rw [hline, hsplit, List.append_assoc, List.filterMap_cons, List.singleton_append, hfirst, hrest]
  rfl

/-! ## reading back what was written -/

section Write

variable {values : Dict String String} (hkeys : ∀ k v, values.get? k = some v → PlainKey k)
  (hvalues : ∀ k v, values.get? k = some v → OneLine v)

/-- The values as they are read back. -/
def readBackAll (values : Dict String String) : Dict String String :=
  values.map (fun kv => (kv.1, readBack kv.2)) fun _ => rfl

theorem get?_readBackAll (k : String) :
    (readBackAll values).get? k = (values.get? k).map readBack := by
  unfold readBackAll Dict.get?
  rw [Table.find?_map, Option.map_map, Option.map_map]
  rfl

include hkeys hvalues

theorem assigns_rewriteLine {line : List Char} (hline : Unbroken line) :
    assigns (rewriteLine values line) =
      (parseLine (rewriteLine (readBackAll values) line)).toList := by
  unfold rewriteLine
  cases hkey : lineKey line with
  | none => exact assigns_of_unbroken hline
  | some k =>
      cases hget : values.get? k with
      | none => simp [get?_readBackAll, hget, assigns_of_unbroken hline]
      | some v =>
          have hk : PlainKey k := hkeys k v hget
          have hread : parseLine (envLine k (readBack v)) = some (k, readBack v) :=
            parseLine_envLine hk (cleanValue_readBack v)
          simp [get?_readBackAll, hget, assigns_envLine hk (hvalues k v hget), hread]

/-- The written text assigns what writing the values line by line does. -/
theorem assigns_writeEnvText (text : List Char) : assigns (writeEnvText text values) =
    (writeEnvFile (splitLines text) (readBackAll values)).filterMap parseLine := by
  have hlines : ∀ lines : List (List Char), (∀ line ∈ lines, Unbroken line) →
      (lines.map (rewriteLine values)).flatMap assigns =
        (lines.map (rewriteLine (readBackAll values))).filterMap parseLine := by
    intro lines hlines
    induction lines with
    | nil => rfl
    | cons line lines ih =>
        have hhead := assigns_rewriteLine hkeys hvalues (hlines line List.mem_cons_self)
        rw [List.map_cons, List.flatMap_cons, hhead, ih fun l hl => hlines l (List.mem_cons_of_mem _ hl)]
        cases hparse : parseLine (rewriteLine (readBackAll values) line) <;> simp [hparse]
  have hrows : ∀ rows : List (String × String), (∀ kv ∈ rows, kv ∈ values.rows) →
      (rows.map fun kv => envLine kv.1 kv.2).flatMap assigns =
        ((rows.map fun kv => (kv.1, readBack kv.2)).map fun kv => envLine kv.1 kv.2).filterMap
          parseLine := by
    intro rows hrows
    induction rows with
    | nil => rfl
    | cons kv rows ih =>
        have hget : values.get? kv.1 = some kv.2 :=
          Dict.get?_eq_some.mpr (hrows kv List.mem_cons_self)
        have hk : PlainKey kv.1 := hkeys _ _ hget
        have hread : parseLine (envLine kv.1 (readBack kv.2)) = some (kv.1, readBack kv.2) :=
          parseLine_envLine hk (cleanValue_readBack kv.2)
        rw [List.map_cons, List.flatMap_cons, assigns_envLine hk (hvalues _ _ hget),
          ih fun r hr => hrows r (List.mem_cons_of_mem _ hr)]
        simp [hread]
  have hfilter : (readBackAll values).rows.filter
        (fun kv => kv.1 ∉ (splitLines text).filterMap lineKey) =
      (values.rows.filter fun kv => kv.1 ∉ (splitLines text).filterMap lineKey).map
        fun kv => (kv.1, readBack kv.2) := by
    unfold readBackAll Table.map
    rw [List.filter_map]
    rfl
  unfold writeEnvText
  rw [assigns_joinLines, writeEnvFile, writeEnvFile, List.flatMap_append, List.filterMap_append,
    hlines _ unbroken_of_splitLines, hrows _ fun kv hkv => List.mem_of_mem_filter hkv, hfilter]

/-- Writing values is assigning them, as they are read back. -/
theorem get?_parse_writeText (text : List Char) (k : String) :
    (parseEnvText (writeEnvText text values)).get? k =
      ((values.get? k).map readBack).or ((parseEnvText text).get? k) := by
  have hsame : parseEnvText (writeEnvText text values) =
      parseEnvFile (writeEnvFile (splitLines text) (readBackAll values)) := by
    have hassigns := assigns_writeEnvText hkeys hvalues text
    unfold assigns at hassigns
    unfold parseEnvText parseEnvFile
    rw [hassigns]
  have hback : ∀ k v, (readBackAll values).get? k = some v → PlainKey k ∧ CleanValue v := by
    intro k v h
    rw [get?_readBackAll] at h
    obtain ⟨v', hget, rfl⟩ := Option.map_eq_some_iff.mp h
    exact ⟨hkeys k v' hget, cleanValue_readBack v'⟩
  rw [hsame, get?_parse_write (fun k v h => (hback k v h).1) (fun k v h => (hback k v h).2),
    get?_readBackAll]
  rfl

end Write

/-- Dropping keys is removing them. -/
theorem get?_parse_removeText (text : List Char) {keys : List String}
    (hkeys : ∀ k ∈ keys, PlainKey k) (k : String) :
    (parseEnvText (removeEnvText text keys)).get? k =
      if k ∈ keys then none else (parseEnvText text).get? k := by
  unfold removeEnvText
  by_cases hnil : keys = []
  · simp [hnil]
  · have hkept : ∀ line ∈ removeEnvKeys (splitLines text) keys, Unbroken line :=
      fun line hline => unbroken_of_splitLines line (List.mem_of_mem_filter hline)
    have hassigns : ∀ lines : List (List Char), (∀ line ∈ lines, Unbroken line) →
        lines.flatMap assigns = lines.filterMap parseLine := by
      intro lines hlines
      induction lines with
      | nil => rfl
      | cons line lines ih =>
          rw [List.flatMap_cons, assigns_of_unbroken (hlines line List.mem_cons_self),
            ih fun l hl => hlines l (List.mem_cons_of_mem _ hl)]
          cases hparse : parseLine line <;> simp [hparse]
    have hsame : parseEnvText (joinLines (removeEnvKeys (splitLines text) keys)) =
        parseEnvFile (removeEnvKeys (splitLines text) keys) := by
      have hjoin := assigns_joinLines (removeEnvKeys (splitLines text) keys)
      rw [hassigns _ hkept] at hjoin
      unfold assigns at hjoin
      unfold parseEnvText parseEnvFile
      rw [hjoin]
    rw [if_neg hnil, hsame, get?_parse_remove _ hkeys]
    rfl

/-- What is read from a text has no line break. -/
theorem unbroken_of_parse {text : List Char} {k v : String}
    (h : (parseEnvText text).get? k = some v) : Unbroken v.toList := by
  have hline : ∀ line ∈ splitLines text, ∀ k v, parseLine line = some (k, v) →
      Unbroken v.toList := by
    intro line hmem k v hparse
    unfold parseLine at hparse
    dsimp only at hparse
    split at hparse
    · contradiction
    · obtain ⟨-, rfl⟩ := Prod.mk.inj (Option.some.inj hparse)
      intro c hc
      rw [String.toList_ofList] at hc
      have hstrip := (List.dropWhile_suffix _).subset ((List.tail_suffix _).subset hc)
      have hdrop : c ∈ line.dropWhile isSpace :=
        mem_of_mem_rstripped (l := line.dropWhile isSpace) hstrip
      exact unbroken_of_splitLines line hmem c ((List.dropWhile_suffix _).subset hdrop)
  exact of_get?_parse hline h

end InferStack
