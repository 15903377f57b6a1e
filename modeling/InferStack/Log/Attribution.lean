import InferStack.Log.Filter
import Mathlib.Data.List.Nodup
import Mathlib.Data.List.Flatten

/-!
# InferStack.Log.Attribution

Which lines of a log the traceback filter hides, and when it is right to.

A log is cut into finished tracebacks and the lines outside one (`cut`), as a
reader of the whole log would; `compactBy_eq` says that the stream filter shows
the pieces one by one.  `hidesRecognised_iff`: all that it hides belongs to a
traceback recognised by its own lines exactly if no finished piece needs a
neighbour's line for a registered pattern to match.
-/

namespace InferStack

open Kit

namespace LogFilter

variable {α : Type*} (t : CharTables) (text : α → String)

/-! ## tracebacks in a log -/

/-- What a line is to a traceback of a service. -/
def roleOf (service : List Char) (raw : α) : Role := roleIn t service (parseComposeLine t (text raw))

def messageOf (raw : α) : Option (List Char) := (parseComposeLine t (text raw)).map (·.message)

/-- Too many lines, or too many bytes. -/
def oversized (lines : List α) : Bool :=
  lines.length > maxTracebackLines || (lines.map fun l => utf8Bytes (text l)).sum > maxTracebackBytes

/-- The lines let through after a traceback that is too large, and those after. -/
def passOver (service : List Char) : List α → List α × List α
  | [] => ([], [])
  | l :: ls =>
      if endsPassthrough t service (parseComposeLine t (text l)) then ([l], ls)
      else (l :: (passOver service ls).1, (passOver service ls).2)

/-- The start of a log that belongs together, whether it is a finished traceback, and the rest. -/
structure Chunk (α : Type*) where
  lines : List α
  finished : Bool
  rest : List α

/-- Read on in a traceback of which some lines are seen. -/
def scan (service : List Char) : (seen : List α) → List α → Chunk α
  | seen, [] => ⟨seen, false, []⟩
  | seen, l :: ls =>
      match roleOf t text service l with
      | .header => ⟨seen, false, l :: ls⟩
      | .terminal => ⟨seen ++ [l], true, ls⟩
      | .sideband | .scaffold =>
          if oversized text (seen ++ [l]) then
            ⟨seen ++ l :: (passOver t text service ls).1, false, (passOver t text service ls).2⟩
          else scan service (seen ++ [l]) ls

/-- The service whose traceback a line begins. -/
def opensAt (raw : α) : Option (List Char) := opens (parseComposeLine t (text raw))

/-- The finished traceback that a log begins with. -/
def segmentAt : List α → Option (List Char × List α)
  | [] => none
  | l :: ls =>
      match opensAt t text l with
      | none => none
      | some service =>
          let c := scan t text service [l] ls
          if c.finished then some (service, c.lines) else none

/-- A finished traceback of a service, or lines outside one. -/
structure Piece (α : Type*) where
  service : Option (List Char)
  lines : List α

theorem passOver_append (service : List Char) (ls : List α) :
    (passOver t text service ls).1 ++ (passOver t text service ls).2 = ls := by
  fun_induction passOver t text service ls with
  | case1 => rfl
  | case2 l ls hends => rfl
  | case3 l ls hnot ih => simp [ih]

theorem scan_append (service : List Char) (seen ls : List α) :
    (scan t text service seen ls).lines ++ (scan t text service seen ls).rest = seen ++ ls := by
  fun_induction scan t text service seen ls with
  | case1 seen => rfl
  | case2 seen l ls hrole => rfl
  | case3 seen l ls hrole => simp
  | case4 seen l ls hrole hlarge => simp [passOver_append]
  | case5 seen l ls hrole hsmall ih => simpa using ih
  | case6 seen l ls hrole hlarge => simp [passOver_append]
  | case7 seen l ls hrole hsmall ih => simpa using ih

theorem scan_extends (service : List Char) (seen ls : List α) :
    seen <+: (scan t text service seen ls).lines := by
  fun_induction scan t text service seen ls with
  | case1 seen => exact List.prefix_refl seen
  | case2 seen l ls hrole => exact List.prefix_refl seen
  | case3 seen l ls hrole => exact List.prefix_append seen [l]
  | case4 seen l ls hrole hlarge => exact List.prefix_append seen _
  | case5 seen l ls hrole hsmall ih => exact (List.prefix_append seen [l]).trans ih
  | case6 seen l ls hrole hlarge => exact List.prefix_append seen _
  | case7 seen l ls hrole hsmall ih => exact (List.prefix_append seen [l]).trans ih

theorem scan_rest_length (service : List Char) (seen ls : List α) :
    (scan t text service seen ls).rest.length ≤ ls.length := by
  have happend := congrArg List.length (scan_append t text service seen ls)
  have hprefix := (scan_extends t text service seen ls).length_le
  simp only [List.length_append] at happend
  omega

/-- A log as finished tracebacks and the lines outside them. -/
def cut : List α → List (Piece α)
  | [] => []
  | l :: ls =>
      match opensAt t text l with
      | none => ⟨none, [l]⟩ :: cut ls
      | some service =>
          let c := scan t text service [l] ls
          ⟨if c.finished then some service else none, c.lines⟩ :: cut c.rest
termination_by ls => ls.length
decreasing_by
  · simp
  · have hrest := scan_rest_length t text service [l] ls
    simp only [List.length_cons]
    omega

/-- The messages of all lines. -/
def allText (lines : List α) : List Char := joinLines (lines.filterMap (messageOf t text))

/-- The messages of a traceback's own lines. -/
def ownText (service : List Char) (lines : List α) : List Char :=
  joinLines ((lines.filter fun l => roleOf t text service l ≠ .sideband).filterMap (messageOf t text))

/-- The message of the last line. -/
def terminalMessage (lines : List α) : List Char := (lines.getLast?.bind (messageOf t text)).getD []

/-- A registered pattern matches the terminal line and finds its fragments in a text. -/
def Registered (tracebackText terminal : List Char) : Prop :=
  ∃ p ∈ litellmTracebackPatterns, p.matches tracebackText terminal = true

/-- The lines of a piece that are shown. -/
def Piece.shown (piece : Piece α) : List α :=
  match piece.service with
  | none => piece.lines
  | some service =>
      match matchPattern (allText t text piece.lines) (terminalMessage t text piece.lines) with
      | none => piece.lines
      | some _ => piece.lines.filter fun l => (roleOf t text service l).isKept

/-! ## the filter shows the pieces one by one -/

/-- A line as it is held back. -/
def buffered (service : List Char) (raw : α) : BufferedLine α :=
  ⟨raw, messageOf t text raw, roleOf t text service raw⟩

/-- Some lines of a traceback, held back. -/
def bufferOf (service : List Char) (lines : List α) : TracebackBuffer α :=
  ⟨service, lines.map (buffered t text service), (lines.map fun l => utf8Bytes (text l)).sum⟩

theorem add_bufferOf (service : List Char) (seen : List α) (raw : α) :
    (bufferOf t text service seen).add text (parseComposeLine t (text raw)) raw
        (roleOf t text service raw) =
      bufferOf t text service (seen ++ [raw]) := by
  simp [TracebackBuffer.add, bufferOf, buffered, messageOf]

theorem tooLarge_bufferOf (service : List Char) (lines : List α) :
    (bufferOf t text service lines).tooLarge = oversized text lines := by
  simp [TracebackBuffer.tooLarge, bufferOf, oversized]

theorem rawLines_bufferOf (service : List Char) (lines : List α) :
    (bufferOf t text service lines).rawLines = lines := by
  simp [TracebackBuffer.rawLines, bufferOf, buffered, Function.comp_def]

theorem tracebackText_bufferOf (service : List Char) (lines : List α) :
    (bufferOf t text service lines).tracebackText = allText t text lines := by
  simp [TracebackBuffer.tracebackText, bufferOf, buffered, allText, List.filterMap_map,
    Function.comp_def]

theorem compactedLines_bufferOf (service : List Char) (lines : List α) :
    (bufferOf t text service lines).compactedLines =
      lines.filter fun l => (roleOf t text service l).isKept := by
  simp [TracebackBuffer.compactedLines, bufferOf, buffered, List.filter_map, Function.comp_def]

/-- A header of a service that the filter looks at. -/
theorem opensAt_eq_some {raw : α} {service : List Char} (h : opensAt t text raw = some service) :
    parseComposeLine t (text raw) = some ⟨service, tracebackHeader⟩ ∧
      isLitellm ⟨service, tracebackHeader⟩ = true := by
  unfold opensAt opens at h
  cases hp : parseComposeLine t (text raw) with
  | none => simp [hp] at h
  | some line =>
      obtain ⟨s, m⟩ := line
      simp only [hp, Bool.and_eq_true, decide_eq_true_eq, Option.ite_none_right_eq_some,
        Option.some.injEq] at h
      obtain ⟨⟨hl, rfl⟩, rfl⟩ := h
      exact ⟨rfl, hl⟩

/-- A header is the first line of a new traceback. -/
theorem roleOf_header {raw : α} {service : List Char} (h : roleOf t text service raw = .header) :
    parseComposeLine t (text raw) = some ⟨service, tracebackHeader⟩ := by
  unfold roleOf roleIn at h
  cases hp : parseComposeLine t (text raw) with
  | none => simp [hp] at h
  | some line =>
      obtain ⟨s, m⟩ := line
      by_cases hs : s = service
      · by_cases hm : m = tracebackHeader
        · rw [hs, hm]
        · simp only [hp, hs, hm, ne_eq, not_true_eq_false, if_false] at h
          split_ifs at h
      · simp [hp, hs] at h

theorem roleOf_of_opensAt {raw : α} {service : List Char} (h : opensAt t text raw = some service) :
    roleOf t text service raw = .header := by
  have hp := (opensAt_eq_some t text h).1
  simp [roleOf, roleIn, hp]

theorem start_eq_bufferOf {raw : α} {service : List Char} (h : opensAt t text raw = some service) :
    TracebackBuffer.start text service raw tracebackHeader = bufferOf t text service [raw] := by
  have hp := (opensAt_eq_some t text h).1
  simp [TracebackBuffer.start, bufferOf, buffered, roleOf_of_opensAt t text h, messageOf, hp]

/-- Lines are let through up to the first that looks like a terminal line. -/
theorem runFilter_passthrough (service : List Char) (ls : List α) :
    runFilter t text { passthroughService := some service } ls =
      (passOver t text service ls).1 ++ runFilter t text {} (passOver t text service ls).2 := by
  fun_induction passOver t text service ls with
  | case1 => rfl
  | case2 l ls hends => simp [runFilter, step, hends]
  | case3 l ls hnot ih => simp [runFilter, step, hnot, ih]

/-- A second header lets the first traceback through and begins one. -/
theorem stepPending_header {service : List Char} (hs : isLitellm ⟨service, tracebackHeader⟩ = true)
    (seen : List α) {l : α} (hrole : roleOf t text service l = .header) :
    opensAt t text l = some service ∧
      stepPending t text (bufferOf t text service seen) l (parseComposeLine t (text l)) =
        (seen, { pending := some (bufferOf t text service [l]) }) := by
  have hp := roleOf_header t text hrole
  have hopen : opensAt t text l = some service := by simp [opensAt, opens, hp, hs]
  have hstart := start_eq_bufferOf t text hopen
  have hin : roleIn t service (parseComposeLine t (text l)) = .header := hrole
  have hraw := rawLines_bufferOf t text service seen
  refine ⟨hopen, ?_⟩
  simp only [stepPending, bufferOf] at hraw hstart ⊢
  rw [hin, hraw, hstart]

/-- An indented or interleaved line is held back too, if there is room for it. -/
theorem stepPending_hold {service : List Char} (seen : List α) {l : α}
    (hrole : roleOf t text service l = .sideband ∨ roleOf t text service l = .scaffold) :
    stepPending t text (bufferOf t text service seen) l (parseComposeLine t (text l)) =
      if oversized text (seen ++ [l]) then (seen ++ [l], { passthroughService := some service })
      else ([], { pending := some (bufferOf t text service (seen ++ [l])) }) := by
  have hadd := add_bufferOf t text service seen l
  have hcheck : checkSize (bufferOf t text service (seen ++ [l])) =
      if oversized text (seen ++ [l]) then (seen ++ [l], { passthroughService := some service })
      else ([], { pending := some (bufferOf t text service (seen ++ [l])) }) := by
    simp only [checkSize, tooLarge_bufferOf, rawLines_bufferOf]
    rfl
  have hservice : (bufferOf t text service seen).service = service := rfl
  rw [← hcheck, ← hadd]
  unfold stepPending
  rw [hservice]
  cases hrole with
  | inl hside =>
      have hin : roleIn t service (parseComposeLine t (text l)) = .sideband := hside
      rw [hin, hside]
  | inr hscaffold =>
      have hin : roleIn t service (parseComposeLine t (text l)) = .scaffold := hscaffold
      rw [hin, hscaffold]

/-- A terminal line decides what is shown. -/
theorem stepPending_terminal {service : List Char} (seen : List α) {l : α}
    (hrole : roleOf t text service l = .terminal) :
    stepPending t text (bufferOf t text service seen) l (parseComposeLine t (text l)) =
      (Piece.shown t text ⟨some service, seen ++ [l]⟩, {}) := by
  have hadd := add_bufferOf t text service seen l
  have hin : roleIn t service (parseComposeLine t (text l)) = .terminal := hrole
  have hterminal : ((parseComposeLine t (text l)).map (·.message)).getD [] =
      terminalMessage t text (seen ++ [l]) := by
    simp [terminalMessage, messageOf]
  have hservice : (bufferOf t text service seen).service = service := rfl
  rw [hrole] at hadd
  unfold stepPending
  rw [hservice, hin]
  dsimp only
  rw [hadd, hterminal, tracebackText_bufferOf, rawLines_bufferOf, compactedLines_bufferOf]
  unfold Piece.shown
  dsimp only
  cases matchPattern (allText t text (seen ++ [l])) (terminalMessage t text (seen ++ [l])) with
  | none => rfl
  | some p => rfl

theorem runFilter_cons_pending (b : TracebackBuffer α) (l : α) (ls : List α) :
    runFilter t text { pending := some b } (l :: ls) =
      (stepPending t text b l (parseComposeLine t (text l))).1 ++
        runFilter t text (stepPending t text b l (parseComposeLine t (text l))).2 ls := rfl

theorem runFilter_of_opensAt {l : α} {service : List Char} (h : opensAt t text l = some service)
    (ls : List α) :
    runFilter t text {} (l :: ls) =
      runFilter t text { pending := some (bufferOf t text service [l]) } ls := by
  have hopen : opens (parseComposeLine t (text l)) = some service := h
  have hstart := start_eq_bufferOf t text h
  simp only [runFilter, step, hopen, hstart, List.nil_append]

theorem runFilter_of_opensAt_none {l : α} (h : opensAt t text l = none) (ls : List α) :
    runFilter t text {} (l :: ls) = l :: runFilter t text {} ls := by
  have hopen : opens (parseComposeLine t (text l)) = none := h
  simp [runFilter, step, hopen]

/-- What a held back traceback and the rest of the input become. -/
theorem runFilter_pending {service : List Char}
    (hs : isLitellm ⟨service, tracebackHeader⟩ = true) (seen ls : List α) :
    runFilter t text { pending := some (bufferOf t text service seen) } ls =
      Piece.shown t text
          ⟨if (scan t text service seen ls).finished then some service else none,
            (scan t text service seen ls).lines⟩ ++
        runFilter t text {} (scan t text service seen ls).rest := by
  fun_induction scan t text service seen ls with
  | case1 seen => simp [runFilter, flush, rawLines_bufferOf, Piece.shown]
  | case2 seen l ls hrole =>
      obtain ⟨hopen, hstep⟩ := stepPending_header t text hs seen hrole
      rw [runFilter_cons_pending, hstep, runFilter_of_opensAt t text hopen]
      rfl
  | case3 seen l ls hrole =>
      rw [runFilter_cons_pending, stepPending_terminal t text seen hrole]
      rfl
  | case4 seen l ls hrole hlarge =>
      rw [runFilter_cons_pending, stepPending_hold t text seen (.inl hrole), if_pos hlarge]
      simp [runFilter_passthrough, Piece.shown]
  | case5 seen l ls hrole hsmall ih =>
      rw [runFilter_cons_pending, stepPending_hold t text seen (.inl hrole), if_neg hsmall]
      simpa using ih
  | case6 seen l ls hrole hlarge =>
      rw [runFilter_cons_pending, stepPending_hold t text seen (.inr hrole), if_pos hlarge]
      simp [runFilter_passthrough, Piece.shown]
  | case7 seen l ls hrole hsmall ih =>
      rw [runFilter_cons_pending, stepPending_hold t text seen (.inr hrole), if_neg hsmall]
      simpa using ih

/-- The stream filter shows what each piece of the log shows. -/
theorem compactBy_eq (ls : List α) :
    compactBy t text ls = (cut t text ls).flatMap (Piece.shown t text) := by
  unfold compactBy
  fun_induction cut t text ls with
  | case1 => rfl
  | case2 l ls hopen ih =>
      rw [runFilter_of_opensAt_none t text hopen, ih]
      rfl
  | case3 l ls service hopen c ih =>
      have hs := (opensAt_eq_some t text hopen).2
      rw [runFilter_of_opensAt t text hopen, runFilter_pending t text hs, ih]
      rfl

/-- The pieces are the log. -/
theorem cut_lines (ls : List α) : (cut t text ls).flatMap (·.lines) = ls := by
  fun_induction cut t text ls with
  | case1 => rfl
  | case2 l ls hopen ih => simp [ih]
  | case3 l ls service hopen c ih =>
      have happend := scan_append t text service [l] ls
      simp [ih, c, happend]

/-! ## lines by their text only -/

section

variable {β : Type*} (f : β → α)

/-- A piece of other lines. -/
def Piece.map (piece : Piece β) : Piece α := ⟨piece.service, piece.lines.map f⟩

theorem passOver_map (service : List Char) (ls : List β) :
    passOver t text service (ls.map f) =
      ((passOver t (text ∘ f) service ls).1.map f, (passOver t (text ∘ f) service ls).2.map f) := by
  induction ls with
  | nil => rfl
  | cons l ls ih =>
      simp only [List.map_cons, passOver, Function.comp_apply, ih]
      split_ifs <;> rfl

theorem oversized_map (ls : List β) : oversized text (ls.map f) = oversized (text ∘ f) ls := by
  simp [oversized, Function.comp_def]

theorem scan_map (service : List Char) (seen ls : List β) :
    scan t text service (seen.map f) (ls.map f) =
      ⟨(scan t (text ∘ f) service seen ls).lines.map f, (scan t (text ∘ f) service seen ls).finished,
        (scan t (text ∘ f) service seen ls).rest.map f⟩ := by
  induction ls generalizing seen with
  | nil => rfl
  | cons l ls ih =>
      have hrole : roleOf t text service (f l) = roleOf t (text ∘ f) service l := rfl
      have hseen : seen.map f ++ [f l] = (seen ++ [l]).map f := by simp
      have hsize : oversized text (seen.map f ++ [f l]) = oversized (text ∘ f) (seen ++ [l]) := by
        rw [hseen, oversized_map]
      have hpass := passOver_map t text f service ls
      have hnext := ih (seen ++ [l])
      rw [← hseen] at hnext
      simp only [List.map_cons, scan, hrole, hsize, hpass, hnext]
      cases roleOf t (text ∘ f) service l with
      | header => rfl
      | terminal => simp
      | sideband | scaffold => split_ifs <;> simp

theorem cut_map (ls : List β) :
    cut t text (ls.map f) = (cut t (text ∘ f) ls).map (Piece.map f) := by
  fun_induction cut t (text ∘ f) ls with
  | case1 => simp [cut]
  | case2 l ls hopen ih =>
      have hopen' : opensAt t text (f l) = none := hopen
      simp [cut, hopen', ih, Piece.map]
  | case3 l ls service hopen c ih =>
      have hopen' : opensAt t text (f l) = some service := hopen
      have hscan := scan_map t text f service [l] ls
      simp only [List.map_cons, List.map_nil] at hscan
      simp [cut, hopen', hscan, ih, c, Piece.map]

theorem allText_map (ls : List β) : allText t text (ls.map f) = allText t (text ∘ f) ls := by
  unfold allText
  rw [List.filterMap_map]
  rfl

theorem ownText_map (service : List Char) (ls : List β) :
    ownText t text service (ls.map f) = ownText t (text ∘ f) service ls := by
  unfold ownText
  rw [List.filter_map, List.filterMap_map]
  rfl

theorem terminalMessage_map (ls : List β) :
    terminalMessage t text (ls.map f) = terminalMessage t (text ∘ f) ls := by
  unfold terminalMessage
  rw [List.getLast?_map]
  cases ls.getLast? with
  | none => rfl
  | some l => rfl

theorem shown_map (piece : Piece β) :
    (piece.map f).shown t text = (piece.shown t (text ∘ f)).map f := by
  obtain ⟨service, lines⟩ := piece
  cases service with
  | none => rfl
  | some s =>
      simp only [Piece.shown, Piece.map, allText_map, terminalMessage_map]
      cases matchPattern (allText t (text ∘ f) lines) (terminalMessage t (text ∘ f) lines) with
      | none => rfl
      | some p =>
          simp only [List.filter_map]
          rfl

/-- Which lines are shown depends on their texts only. -/
theorem map_compactBy (ls : List β) :
    compactBy t text (ls.map f) = (compactBy t (text ∘ f) ls).map f := by
  rw [compactBy_eq, compactBy_eq, cut_map, List.flatMap_map, List.map_flatMap]
  have hshown : ∀ piece : Piece β,
      (piece.map f).shown t text = (piece.shown t (text ∘ f)).map f := shown_map t text f
  simp [hshown]

end

/-! ## hidden lines -/

/-- A finished piece is the traceback that the log begins with where it stands. -/
theorem cut_split {ls : List α} {piece : Piece α} (h : piece ∈ cut t text ls) :
    ∃ before after, ls = before ++ (piece.lines ++ after) ∧
      ∀ service, piece.service = some service →
        segmentAt t text (piece.lines ++ after) = some (service, piece.lines) := by
  fun_induction cut t text ls with
  | case1 => simp at h
  | case2 l ls hopen ih =>
      have hmem := List.mem_cons.1 h
      cases hmem with
      | inl hhead =>
          rw [hhead]
          exact ⟨[], ls, rfl, by simp⟩
      | inr htail =>
          obtain ⟨before, after, hls, hseg⟩ := ih htail
          exact ⟨l :: before, after, by rw [hls]; rfl, hseg⟩
  | case3 l ls service hopen c ih =>
      have happend : c.lines ++ c.rest = l :: ls := scan_append t text service [l] ls
      have hmem := List.mem_cons.1 h
      cases hmem with
      | inl hhead =>
          rw [hhead]
          refine ⟨[], c.rest, happend.symm, fun s hs => ?_⟩
          have hfinished : c.finished = true ∧ service = s := by simpa using hs
          have hscan : (scan t text service [l] ls).finished = true := hfinished.1
          dsimp only
          rw [happend, ← hfinished.2]
          simp [segmentAt, hopen, hscan, c]
      | inr htail =>
          obtain ⟨before, after, hrest, hseg⟩ := ih htail
          refine ⟨c.lines ++ before, after, ?_, hseg⟩
          rw [← happend, hrest]
          simp

theorem shown_sublist (piece : Piece α) : (piece.shown t text).Sublist piece.lines := by
  unfold Piece.shown
  split
  · exact List.Sublist.refl _
  · split
    · exact List.Sublist.refl _
    · exact List.filter_sublist

theorem compactBy_sublist (ls : List α) : (compactBy t text ls).Sublist ls := by
  have hcut : ((cut t text ls).flatMap (Piece.shown t text)).Sublist
      ((cut t text ls).flatMap (·.lines)) :=
    List.Sublist.flatMap_right _ fun piece _ => shown_sublist t text piece
  rw [cut_lines] at hcut
  rw [compactBy_eq]
  exact hcut

/-- A line that is not shown is no terminal or interleaved line of a finished traceback that a
registered pattern matches on all that was held back. -/
theorem of_not_shown {piece : Piece α} {l : α} (hl : l ∈ piece.lines)
    (hnot : l ∉ piece.shown t text) :
    ∃ service, piece.service = some service ∧ (roleOf t text service l).isKept = false ∧
      (matchPattern (allText t text piece.lines) (terminalMessage t text piece.lines)).isSome := by
  obtain ⟨service, lines⟩ := piece
  cases service with
  | none => exact absurd hl hnot
  | some service =>
      refine ⟨service, rfl, ?_⟩
      simp only [Piece.shown] at hnot hl ⊢
      cases hmatch : matchPattern (allText t text lines) (terminalMessage t text lines) with
      | none =>
          rw [hmatch] at hnot
          exact absurd hl hnot
      | some p =>
          rw [hmatch] at hnot
          have hkept : ¬ (roleOf t text service l).isKept = true := by
            intro hkept
            exact hnot (List.mem_filter.2 ⟨hl, hkept⟩)
          exact ⟨by simpa using hkept, rfl⟩

/-- A pattern of the registry is found exactly if there is one. -/
theorem matchPattern_isSome (tracebackText terminal : List Char) :
    (matchPattern tracebackText terminal).isSome = true ↔ Registered tracebackText terminal := by
  unfold matchPattern Registered
  rw [List.find?_isSome]

/-- A hidden line belongs to a piece that does not show it. -/
theorem piece_of_hidden {ls : List α} {l : α} (hl : l ∈ ls) (hnot : l ∉ compactBy t text ls) :
    ∃ piece ∈ cut t text ls, l ∈ piece.lines ∧ l ∉ piece.shown t text := by
  have hlines : l ∈ (cut t text ls).flatMap (·.lines) := by
    rw [cut_lines]
    exact hl
  obtain ⟨piece, hpiece, hmem⟩ := List.mem_flatMap.1 hlines
  refine ⟨piece, hpiece, hmem, fun hshown => hnot ?_⟩
  rw [compactBy_eq]
  exact List.mem_flatMap.2 ⟨piece, hpiece, hshown⟩

/-- What its own piece does not show is hidden. -/
theorem hidden_of_piece {ls : List α} (hnodup : ls.Nodup) {piece : Piece α}
    (hpiece : piece ∈ cut t text ls) {l : α} (hl : l ∈ piece.lines)
    (hnot : l ∉ piece.shown t text) : l ∉ compactBy t text ls := by
  obtain ⟨before, after, hcut⟩ := List.append_of_mem hpiece
  have hlines := cut_lines t text ls
  rw [hcut, List.flatMap_append, List.flatMap_cons] at hlines
  rw [← hlines] at hnodup
  have hright := hnodup.of_append_right
  have hbefore := (List.disjoint_of_nodup_append hnodup)
  have hafter := (List.disjoint_of_nodup_append hright)
  rw [compactBy_eq, hcut, List.flatMap_append, List.flatMap_cons]
  intro hmem
  have hcases : l ∈ before.flatMap (Piece.shown t text) ∨ l ∈ piece.shown t text ∨
      l ∈ after.flatMap (Piece.shown t text) := by simpa using hmem
  have hsub : ∀ pieces : List (Piece α), l ∈ pieces.flatMap (Piece.shown t text) →
      l ∈ pieces.flatMap (·.lines) := by
    intro pieces hshown
    obtain ⟨q, hq, hlq⟩ := List.mem_flatMap.1 hshown
    exact List.mem_flatMap.2 ⟨q, hq, (shown_sublist t text q).subset hlq⟩
  rcases hcases with hb | hp | ha
  · exact hbefore (hsub before hb) (List.mem_append_left _ hl)
  · exact hnot hp
  · exact hafter hl (hsub after ha)

/-- No second header comes before the terminal line. -/
theorem scan_header {service : List Char} {seen ls : List α}
    (hfinished : (scan t text service seen ls).finished = true) {l : α}
    (hl : l ∈ (scan t text service seen ls).lines) (hrole : roleOf t text service l = .header) :
    l ∈ seen := by
  fun_induction scan t text service seen ls with
  | case1 seen => exact hl
  | case2 seen l' ls hrole' => exact hl
  | case3 seen l' ls hrole' =>
      have hmem : l ∈ seen ∨ l = l' := by simpa using hl
      cases hmem with
      | inl hseen => exact hseen
      | inr hlast =>
          rw [← hlast, hrole] at hrole'
          cases hrole'
  | case4 seen l' ls hrole' hlarge => simp at hfinished
  | case6 seen l' ls hrole' hlarge => simp at hfinished
  | case5 seen l' ls hrole' hsmall ih | case7 seen l' ls hrole' hsmall ih =>
      have hmem : l ∈ seen ∨ l = l' := by simpa using ih hfinished hl
      cases hmem with
      | inl hseen => exact hseen
      | inr hlast =>
          rw [← hlast, hrole] at hrole'
          cases hrole'

/-- A finished piece begins with a header of its service, and has no other. -/
theorem header_of_segmentAt {ls seg : List α} {service : List Char}
    (h : segmentAt t text ls = some (service, seg)) :
    ∃ l rest, ls = l :: rest ∧ l ∈ seg ∧ opensAt t text l = some service ∧
      ∀ l' ∈ seg, roleOf t text service l' = .header → l' = l := by
  cases ls with
  | nil => simp [segmentAt] at h
  | cons l rest =>
      cases hopen : opensAt t text l with
      | none => simp [segmentAt, hopen] at h
      | some s =>
          simp only [segmentAt, hopen, Option.ite_none_right_eq_some, Option.some.injEq,
            Prod.mk.injEq] at h
          obtain ⟨hfinished, rfl, rfl⟩ := h
          have hprefix := scan_extends t text s [l] rest
          have hmem : l ∈ (scan t text s [l] rest).lines := hprefix.subset (by simp)
          refine ⟨l, rest, rfl, hmem, hopen, fun l' hl' hrole => ?_⟩
          simpa using scan_header t text hfinished hl' hrole

/-! ## what may be hidden -/

/-- Only what is recognised is hidden.  The lines are numbered, so that equal lines are told
apart: a line that is not shown is the header or an indented or blank line of a traceback, of one
service and with a terminal line before a second header, that a registered pattern matches
on its own lines. -/
structure HidesRecognised (lines : List String) : Prop where
  shown : compactLitellmTracebacks t lines = (compactBy t Prod.fst lines.zipIdx).map Prod.fst
  subsequence : (compactBy t Prod.fst lines.zipIdx).Sublist lines.zipIdx
  hidden : ∀ line ∈ lines.zipIdx, line ∉ compactBy t Prod.fst lines.zipIdx →
    ∃ before seg after service, lines.zipIdx = before ++ (seg ++ after) ∧
      segmentAt t Prod.fst (seg ++ after) = some (service, seg) ∧ line ∈ seg ∧
      (roleOf t Prod.fst service line = .header ∨ roleOf t Prod.fst service line = .scaffold) ∧
      Registered (ownText t Prod.fst service seg) (terminalMessage t Prod.fst seg)

/-- The log has no finished traceback that a registered pattern matches only with the help of
interleaved lines. -/
def NoneCompletedByOthers (lines : List String) : Prop :=
  ∀ piece ∈ cut t id lines, ∀ service, piece.service = some service →
    Registered (allText t id piece.lines) (terminalMessage t id piece.lines) →
    Registered (ownText t id service piece.lines) (terminalMessage t id piece.lines)

theorem map_fst_zipIdx (lines : List String) : lines.zipIdx.map Prod.fst = lines :=
  List.zipIdx_map_fst 0 lines

theorem nodup_zipIdx (lines : List String) : lines.zipIdx.Nodup := by
  have hnumbers : (lines.zipIdx.map Prod.snd).Nodup := by
    rw [List.zipIdx_map_snd]
    exact List.nodup_range'
  exact hnumbers.of_map

/-- The pieces of a log are those of its numbered lines. -/
theorem cut_eq_numbered (lines : List String) :
    cut t id lines = (cut t Prod.fst lines.zipIdx).map (Piece.map Prod.fst) := by
  have hmap := cut_map t id (Prod.fst : String × ℕ → String) lines.zipIdx
  rw [map_fst_zipIdx] at hmap
  exact hmap

/-- In terms of numbered lines. -/
theorem noneCompletedByOthers_iff (lines : List String) :
    NoneCompletedByOthers t lines ↔
      ∀ piece ∈ cut t Prod.fst lines.zipIdx, ∀ service, piece.service = some service →
        Registered (allText t Prod.fst piece.lines) (terminalMessage t Prod.fst piece.lines) →
        Registered (ownText t Prod.fst service piece.lines)
          (terminalMessage t Prod.fst piece.lines) := by
  unfold NoneCompletedByOthers
  rw [cut_eq_numbered, List.forall_mem_map]
  simp only [Piece.map, allText_map, ownText_map, terminalMessage_map]
  rfl

theorem compact_eq_numbered (lines : List String) :
    compactLitellmTracebacks t lines = (compactBy t Prod.fst lines.zipIdx).map Prod.fst := by
  have hmap := map_compactBy t id (Prod.fst : String × ℕ → String) lines.zipIdx
  rw [map_fst_zipIdx] at hmap
  exact hmap

/-- Where no traceback is completed by others, only recognised lines are hidden. -/
theorem hidesRecognised_of_none (lines : List String) (h : NoneCompletedByOthers t lines) :
    HidesRecognised t lines where
  shown := compact_eq_numbered t lines
  subsequence := compactBy_sublist t Prod.fst lines.zipIdx
  hidden := by
    intro line hline hnot
    obtain ⟨piece, hpiece, hmem, hshown⟩ := piece_of_hidden t Prod.fst hline hnot
    obtain ⟨service, hservice, hkept, hmatch⟩ := of_not_shown t Prod.fst hmem hshown
    obtain ⟨before, after, hlines, hseg⟩ := cut_split t Prod.fst hpiece
    have hall := (matchPattern_isSome _ _).1 hmatch
    have hown := (noneCompletedByOthers_iff t lines).1 h piece hpiece service hservice hall
    refine ⟨before, piece.lines, after, service, hlines, hseg service hservice, hmem, ?_, hown⟩
    cases hrole : roleOf t Prod.fst service line with
    | header => exact .inl rfl
    | scaffold => exact .inr rfl
    | sideband => simp [hrole, Role.isKept] at hkept
    | terminal => simp [hrole, Role.isKept] at hkept

/-- A header is no indented line of another traceback. -/
theorem role_of_opensAt {raw : α} {service service' : List Char}
    (h : opensAt t text raw = some service)
    (hrole : roleOf t text service' raw = .header ∨ roleOf t text service' raw = .scaffold) :
    service' = service := by
  have hp := (opensAt_eq_some t text h).1
  by_contra hne
  have hside : roleOf t text service' raw = .sideband := by
    simp [roleOf, roleIn, hp, Ne.symm hne]
  simp [hside] at hrole

/-- A line is in one place. -/
theorem eq_of_split {l : α} {before after before' after' : List α}
    (hnodup : (before ++ l :: after).Nodup)
    (h : before ++ l :: after = before' ++ l :: after') : after = after' := by
  have hmiddle := List.nodup_middle.1 hnodup
  have hnot : l ∉ before ++ after := (List.nodup_cons.1 hmiddle).1
  have hbefore : l ∉ before := fun hmem => hnot (List.mem_append_left _ hmem)
  have hafter : l ∉ after := fun hmem => hnot (List.mem_append_right _ hmem)
  have hsame := (List.append_cons_inj_of_notMem hbefore hafter).1 h
  exact hsame.2.2

/-- A finished traceback hides its header if a registered pattern matches it. -/
theorem header_hidden {ls : List α} (hnodup : ls.Nodup) {piece : Piece α}
    (hpiece : piece ∈ cut t text ls) {service : List Char} (hservice : piece.service = some service)
    (hall : Registered (allText t text piece.lines) (terminalMessage t text piece.lines)) :
    ∃ before l rest after, ls = before ++ (l :: rest) ∧ l :: rest = piece.lines ++ after ∧
      segmentAt t text (l :: rest) = some (service, piece.lines) ∧
      opensAt t text l = some service ∧ l ∉ compactBy t text ls := by
  obtain ⟨before, after, hls, hseg⟩ := cut_split t text hpiece
  have hsegment := hseg service hservice
  obtain ⟨l, rest, hrest, hmem, hopen, -⟩ := header_of_segmentAt t text hsegment
  have hrole := roleOf_of_opensAt t text hopen
  have hmatch := (matchPattern_isSome _ _).2 hall
  have hshown : l ∉ piece.shown t text := by
    obtain ⟨p, hp⟩ := Option.isSome_iff_exists.1 hmatch
    simp only [Piece.shown, hservice, hp]
    intro hfilter
    have hkept := (List.mem_filter.1 hfilter).2
    simp [hrole, Role.isKept] at hkept
  have hhidden := hidden_of_piece t text hnodup hpiece hmem hshown
  rw [hrest] at hls hsegment
  exact ⟨before, l, rest, after, hls, hrest.symm, hsegment, hopen, hhidden⟩

/-- Where a traceback is completed by others, its header is hidden unrecognised. -/
theorem none_of_hidesRecognised (lines : List String) (h : HidesRecognised t lines) :
    NoneCompletedByOthers t lines := by
  refine (noneCompletedByOthers_iff t lines).2 fun piece hpiece service hservice hall => ?_
  have hnodup := nodup_zipIdx lines
  obtain ⟨before, l, rest, after, hls, hrest, hsegment, hopen, hhidden⟩ :=
    header_hidden t Prod.fst hnodup hpiece hservice hall
  have hmem : l ∈ lines.zipIdx := by
    rw [hls]
    simp
  obtain ⟨before', seg, after', service', hls', hsegment', hl, hrole, hown⟩ :=
    h.hidden l hmem hhidden
  have hsame : service' = service := role_of_opensAt t Prod.fst hopen hrole
  subst hsame
  -- the hidden header is the first line of the traceback it is hidden with
  obtain ⟨first, rest', hfirst, -, -, honly⟩ := header_of_segmentAt t Prod.fst hsegment'
  have hheader := roleOf_of_opensAt t Prod.fst hopen
  have hl' : l = first := honly l hl hheader
  rw [← hl'] at hfirst
  rw [hfirst] at hls' hsegment'
  have hsplit : before ++ l :: rest = before' ++ l :: rest' := hls.symm.trans hls'
  rw [hls] at hnodup
  have hrests : rest = rest' := eq_of_split hnodup hsplit
  rw [← hrests, hsegment] at hsegment'
  have hlines : piece.lines = seg := by simpa using hsegment'
  rw [hlines]
  exact hown

/-- The filter hides only what it recognises, exactly if no finished traceback of the log is
completed by the lines of others. -/
theorem hidesRecognised_iff (lines : List String) :
    HidesRecognised t lines ↔ NoneCompletedByOthers t lines := by
  constructor
  · intro h
    exact none_of_hidesRecognised t lines h
  · intro h
    exact hidesRecognised_of_none t lines h

/-! ## a traceback completed by a neighbour -/

/-- The character tables on ASCII. -/
def asciiTables : CharTables := ⟨Char.isDigit, fun c => c.isAlphanum || c = '_'⟩

/-- The gateway fails in a hook of its own while another service names LiteLLM's modules. -/
def hookFailure : List String := [
  "litellm | Traceback (most recent call last):",
  "litellm |   File \"hook.py\", line 7",
  "web | site-packages/litellm/main.py",
  "web | site-packages/litellm/llms/openai/openai.py",
  "litellm | litellm.llms.openai.common_utils.OpenAIError: Connection error."]

/-- A log that is one finished traceback. -/
theorem cut_of_segmentAt {ls : List α} {service : List Char}
    (h : segmentAt t text ls = some (service, ls)) : cut t text ls = [⟨some service, ls⟩] := by
  cases ls with
  | nil => simp [segmentAt] at h
  | cons l rest =>
      cases hopen : opensAt t text l with
      | none => simp [segmentAt, hopen] at h
      | some s =>
          simp only [segmentAt, hopen, Option.ite_none_right_eq_some, Option.some.injEq,
            Prod.mk.injEq] at h
          obtain ⟨hfinished, rfl, hlines⟩ := h
          have happend := scan_append t text s [l] rest
          have hrest : (scan t text s [l] rest).rest = [] := by
            rw [hlines] at happend
            simpa using happend
          simp [cut, hopen, hfinished, hlines, hrest]

/-- Every registered pattern asks for a path. -/
theorem slash_of_registered {tracebackText terminal : List Char}
    (h : Registered tracebackText terminal) : '/' ∈ tracebackText := by
  obtain ⟨p, hp, hmatch⟩ := h
  have hfragment : ∀ p ∈ litellmTracebackPatterns, ∃ f ∈ p.requiredFragments, '/' ∈ f.toList := by
    decide +kernel
  obtain ⟨f, hf, hslash⟩ := hfragment p hp
  simp only [LiteLLMTracebackPattern.matches, Bool.and_eq_true, List.all_eq_true] at hmatch
  have hinfix : f.toList <:+: tracebackText := by simpa [occursIn] using hmatch.2 f hf
  exact hinfix.subset hslash

/-- The hook's frame is hidden, though no registered pattern has it. -/
theorem hookFailure_hidden : ¬ HidesRecognised asciiTables hookFailure := by
  intro h
  have hnone := none_of_hidesRecognised asciiTables hookFailure h
  have hsegment : segmentAt asciiTables id hookFailure = some ("litellm".toList, hookFailure) := by
    decide +kernel
  have hcut := cut_of_segmentAt asciiTables id hsegment
  have hmatch : litellmTracebackPatterns[4].matches (allText asciiTables id hookFailure)
      (terminalMessage asciiTables id hookFailure) = true := by
    decide +kernel
  have hall : Registered (allText asciiTables id hookFailure)
      (terminalMessage asciiTables id hookFailure) :=
    ⟨litellmTracebackPatterns[4], List.getElem_mem _, hmatch⟩
  have hown := hnone ⟨some "litellm".toList, hookFailure⟩ (by simp [hcut]) "litellm".toList rfl hall
  have hslash : '/' ∉ ownText asciiTables id "litellm".toList hookFailure := by
    decide +kernel
  exact hslash (slash_of_registered hown)

end LogFilter

end InferStack
