import InferStack.EnvFile
import Mathlib.Data.Rat.Lemmas
import Mathlib.Algebra.Order.Ring.Rat

/-!
# InferStack.Log.Splitter

The display lines of a container's raw output.

A carriage return ends a line like a newline does, but is taken for a redraw and
dropped if the last one is too recent.  Whether it is the first half of a `\r\n`
is read off the text that has arrived: a chunk that ends with the `\r` makes a
redraw of a line ending.  `splits_iff` says for which texts this shows.
-/

namespace InferStack

/-! ## the splitter -/

/-- The text of the unfinished line, and when the last redraw was shown. -/
structure LogLineSplitter where
  buf : List Char := []
  lastRedraw : Option ℚ := none
  deriving DecidableEq

namespace LogLineSplitter

/-- The line ends that the splitter cuts at. -/
def isEnd (c : Char) : Bool := c = '\n' ∨ c = '\r'

/-- Nothing to show. -/
def isBlank (line : List Char) : Bool := stripped line = []

/-- A redraw too soon after the last. -/
def tooSoon (every now : ℚ) : Option ℚ → Bool
  | none => false
  | some last => now - last < every

/-- Show a line before what comes after it. -/
def emit (line : List Char) (r : List (List Char) × LogLineSplitter) :
    List (List Char) × LogLineSplitter := (line :: r.1, r.2)

/-- Cut the lines off a buffer. -/
def feedLoop (every now : ℚ) (last : Option ℚ) (buf : List Char) :
    List (List Char) × LogLineSplitter :=
  match _h : buf.dropWhile (! isEnd ·) with
  | [] => ([], ⟨buf, last⟩)
  | e :: rest =>
      let line := buf.takeWhile (! isEnd ·)
      if e = '\r' ∧ rest.head? = some '\n' then
        if isBlank line then feedLoop every now last rest.tail
        else emit line (feedLoop every now last rest.tail)
      else if isBlank line then feedLoop every now last rest
      else if e = '\r' then
        if tooSoon every now last then feedLoop every now last rest
        else emit line (feedLoop every now (some now) rest)
      else emit line (feedLoop every now last rest)
termination_by buf.length
decreasing_by
  all_goals
    have hlen := (List.dropWhile_suffix (! isEnd ·) (l := buf)).length_le
    have htail := rest.length_tail
    simp only [_h, List.length_cons] at hlen
    omega

/-- Take in a chunk. -/
def feed (every now : ℚ) (s : LogLineSplitter) (text : List Char) :
    List (List Char) × LogLineSplitter :=
  feedLoop every now s.lastRedraw (s.buf ++ text)

/-- Show what is left. -/
def flush (s : LogLineSplitter) : List (List Char) := if isBlank s.buf then [] else [s.buf]

/-- Take in chunks at one clock reading, and flush. -/
def feedAll (every now : ℚ) : LogLineSplitter → List (List Char) → List (List Char)
  | s, [] => s.flush
  | s, text :: texts =>
      let r := s.feed every now text
      r.1 ++ feedAll every now r.2 texts

end LogLineSplitter

/-! ## lines and their ends -/

/-- How a line ends. -/
inductive LineEnd where
  | lf
  | crlf
  | cr
  deriving DecidableEq, Repr

/-- Put a character before the first line. -/
def consEnd (c : Char) :
    List (List Char × LineEnd) × List Char → List (List Char × LineEnd) × List Char
  | ([], rest) => ([], c :: rest)
  | ((line, e) :: lines, rest) => ((c :: line, e) :: lines, rest)

/-- Put a line before the others. -/
def consTerminated (line : List Char × LineEnd)
    (r : List (List Char × LineEnd) × List Char) : List (List Char × LineEnd) × List Char :=
  (line :: r.1, r.2)

/-- The lines of a text with their ends, and what is left unended. -/
def lineEnds : List Char → List (List Char × LineEnd) × List Char
  | [] => ([], [])
  | '\r' :: '\n' :: text => consTerminated ([], .crlf) (lineEnds text)
  | c :: text =>
      if c = '\n' then consTerminated ([], .lf) (lineEnds text)
      else if c = '\r' then consTerminated ([], .cr) (lineEnds text)
      else consEnd c (lineEnds text)

/-- The lines that end with a newline and have something to show. -/
def newlineLines (lines : List (List Char × LineEnd)) : List (List Char) :=
  (lines.filter fun l => l.2 ≠ .cr ∧ ! LogLineSplitter.isBlank l.1).map Prod.fst

/-- How many lines with something to show end in some way. -/
def countEnds (e : LineEnd) (lines : List (List Char × LineEnd)) : Nat :=
  lines.countP fun l => l.2 = e ∧ ! LogLineSplitter.isBlank l.1

/-! ## lines of appended texts -/

/-- A text inside one line. -/
def InLine (text : List Char) : Prop := ∀ c ∈ text, LogLineSplitter.isEnd c = false

theorem lineEnds_cons {c : Char} (h : LogLineSplitter.isEnd c = false) (text : List Char) :
    lineEnds (c :: text) = consEnd c (lineEnds text) := by
  have hc : c ≠ '\n' ∧ c ≠ '\r' := by simpa [LogLineSplitter.isEnd] using h
  rw [lineEnds.eq_3 _ _ (by intro _ h; simp [hc.2] at h), if_neg hc.1, if_neg hc.2]

theorem lineEnds_append_of_inLine {line : List Char} (h : InLine line) (text : List Char) :
    lineEnds (line ++ text) = line.foldr consEnd (lineEnds text) := by
  induction line with
  | nil => rfl
  | cons c line ih =>
      have hline := ih fun d hd => h d (List.mem_cons_of_mem _ hd)
      rw [List.cons_append, lineEnds_cons (h c List.mem_cons_self), hline, List.foldr_cons]

theorem foldr_consEnd_rest (line rest : List Char) :
    line.foldr consEnd ([], rest) = ([], line ++ rest) := by
  induction line with
  | nil => rfl
  | cons c line ih => rw [List.foldr_cons, ih, consEnd, List.cons_append]

theorem foldr_consEnd_terminated (line text : List Char) (e : LineEnd)
    (r : List (List Char × LineEnd) × List Char) :
    line.foldr consEnd (consTerminated (text, e) r) = consTerminated (line ++ text, e) r := by
  induction line with
  | nil => rfl
  | cons c line ih => rw [List.foldr_cons, ih, consTerminated, consEnd, List.cons_append]; rfl

theorem lineEnds_of_inLine {line : List Char} (h : InLine line) : lineEnds line = ([], line) := by
  have happend := lineEnds_append_of_inLine h []
  rw [List.append_nil] at happend
  rw [happend, lineEnds, foldr_consEnd_rest, List.append_nil]

/-- What is left unended is inside one line. -/
theorem inLine_lineEnds (text : List Char) : InLine (lineEnds text).2 := by
  fun_induction lineEnds text with
  | case1 => simp [InLine]
  | case2 text ih => exact ih
  | case3 text hnot ih => exact ih
  | case4 text hnot hlf ih => exact ih
  | case5 c text hnot hlf hcr ih =>
      cases hlines : lineEnds text with
      | mk lines rest =>
          rw [hlines] at ih
          cases lines with
          | cons l lines => exact ih
          | nil =>
              have hc : LogLineSplitter.isEnd c = false := by simp [LogLineSplitter.isEnd, hlf, hcr]
              intro d hd
              cases List.mem_cons.mp hd with
              | inl heq => exact heq ▸ hc
              | inr hin => exact ih d hin

theorem lineEnds_lf {line : List Char} (h : InLine line) (text : List Char) :
    lineEnds (line ++ '\n' :: text) = consTerminated (line, .lf) (lineEnds text) := by
  have hone : lineEnds ('\n' :: text) = consTerminated ([], .lf) (lineEnds text) := by
    rw [lineEnds.eq_3 _ _ (by intro _ h; simp at h), if_pos rfl]
  rw [lineEnds_append_of_inLine h, hone, foldr_consEnd_terminated, List.append_nil]

theorem lineEnds_crlf {line : List Char} (h : InLine line) (text : List Char) :
    lineEnds (line ++ '\r' :: '\n' :: text) = consTerminated (line, .crlf) (lineEnds text) := by
  rw [lineEnds_append_of_inLine h, lineEnds, foldr_consEnd_terminated, List.append_nil]

theorem lineEnds_cr {line : List Char} (h : InLine line) {text : List Char}
    (hnot : text.head? ≠ some '\n') :
    lineEnds (line ++ '\r' :: text) = consTerminated (line, .cr) (lineEnds text) := by
  have hone : lineEnds ('\r' :: text) = consTerminated ([], .cr) (lineEnds text) := by
    rw [lineEnds.eq_3 _ _ (by rintro more - rfl; simp at hnot), if_neg (by decide), if_pos rfl]
  rw [lineEnds_append_of_inLine h, hone, foldr_consEnd_terminated, List.append_nil]

/-- A text is inside one line, or starts with a line and its end. -/
theorem firstLine_cases (text : List Char) : InLine text ∨ ∃ line rest, InLine line ∧
    (text = line ++ '\n' :: rest ∨ text = line ++ '\r' :: '\n' :: rest ∨
      (text = line ++ '\r' :: rest ∧ rest.head? ≠ some '\n')) := by
  induction text with
  | nil => exact .inl (by simp [InLine])
  | cons c text ih =>
      by_cases hc : LogLineSplitter.isEnd c = true
      · right
        have hcases : c = '\n' ∨ c = '\r' := by simpa [LogLineSplitter.isEnd] using hc
        cases hcases with
        | inl hlf => exact ⟨[], text, by simp [InLine], .inl (by rw [hlf]; rfl)⟩
        | inr hcr =>
            by_cases hnext : text.head? = some '\n'
            · obtain ⟨rest, rfl⟩ := List.head?_eq_some_iff.mp hnext
              exact ⟨[], rest, by simp [InLine], .inr (.inl (by rw [hcr]; rfl))⟩
            · exact ⟨[], text, by simp [InLine], .inr (.inr ⟨by rw [hcr]; rfl, hnext⟩)⟩
      · have hc : LogLineSplitter.isEnd c = false := by simpa using hc
        cases ih with
        | inl hline => exact .inl (by simpa [InLine, hc] using hline)
        | inr hend =>
            obtain ⟨line, rest, hline, hcases⟩ := hend
            refine .inr ⟨c :: line, rest, by simpa [InLine, hc] using hline, ?_⟩
            simpa using hcases

/-! ## what a buffer shows -/

namespace LogLineSplitter

variable {every now : ℚ}

/-- What is shown of some lines, and the last redraw after them. -/
def shown (every now : ℚ) : Option ℚ → List (List Char × LineEnd) →
    List (List Char) × Option ℚ
  | last, [] => ([], last)
  | last, (line, e) :: lines =>
      if isBlank line then shown every now last lines
      else if e = .cr then
        if tooSoon every now last then shown every now last lines
        else
          let r := shown every now (some now) lines
          (line :: r.1, r.2)
      else
        let r := shown every now last lines
        (line :: r.1, r.2)

theorem takeWhile_inLine {line : List Char} (h : InLine line) {e : Char} (he : isEnd e = true)
    (rest : List Char) : (line ++ e :: rest).takeWhile (! isEnd ·) = line ∧
      (line ++ e :: rest).dropWhile (! isEnd ·) = e :: rest := by
  have hpos : ∀ c ∈ line, (! isEnd c) = true := fun c hc => by simp [h c hc]
  rw [List.takeWhile_append_of_pos hpos, List.dropWhile_append_of_pos hpos]
  simp [he]

/-- One round of the loop. -/
theorem feedLoop_end {line : List Char} (h : InLine line) {e : Char} (he : isEnd e = true)
    (last : Option ℚ) (rest : List Char) : feedLoop every now last (line ++ e :: rest) =
      if e = '\r' ∧ rest.head? = some '\n' then
        if isBlank line then feedLoop every now last rest.tail
        else emit line (feedLoop every now last rest.tail)
      else if isBlank line then feedLoop every now last rest
      else if e = '\r' then
        if tooSoon every now last then feedLoop every now last rest
        else emit line (feedLoop every now (some now) rest)
      else emit line (feedLoop every now last rest) := by
  obtain ⟨htake, hdrop⟩ := takeWhile_inLine h he rest
  rw [feedLoop]
  split
  · rename_i hnil
    rw [hdrop] at hnil
    contradiction
  · rename_i e' rest' hcons
    rw [hdrop] at hcons
    obtain ⟨rfl, rfl⟩ := List.cons.inj hcons
    rw [htake]

theorem feedLoop_inLine {buf : List Char} (h : InLine buf) (last : Option ℚ) :
    feedLoop every now last buf = ([], ⟨buf, last⟩) := by
  have hdrop : buf.dropWhile (! isEnd ·) = [] := by
    have hpos : ∀ c ∈ buf, (! isEnd c) = true := fun c hc => by simp [h c hc]
    rw [← List.append_nil buf, List.dropWhile_append_of_pos hpos]
    rfl
  rw [feedLoop]
  split
  · rfl
  · rename_i hcons
    rw [hdrop] at hcons
    contradiction

/-- The loop shows the lines of the buffer and keeps what is left. -/
theorem feedLoop_eq (last : Option ℚ) (buf : List Char) : feedLoop every now last buf =
    ((shown every now last (lineEnds buf).1).1,
      ⟨(lineEnds buf).2, (shown every now last (lineEnds buf).1).2⟩) := by
  induction hlen : buf.length using Nat.strong_induction_on generalizing last buf with
  | _ n ih =>
      cases firstLine_cases buf with
      | inl hline => rw [feedLoop_inLine hline, lineEnds_of_inLine hline]; rfl
      | inr hend =>
          obtain ⟨line, rest, hline, hcases⟩ := hend
          have hrest : rest.length < n := by
            obtain rfl | rfl | ⟨rfl, -⟩ := hcases <;> simp at hlen <;> omega
          have hloop := fun last => ih rest.length hrest last rest rfl
          obtain rfl | rfl | ⟨rfl, hnot⟩ := hcases
          · rw [feedLoop_end hline (by decide), lineEnds_lf hline, hloop]
            by_cases hblank : isBlank line <;> simp [shown, consTerminated, emit, hblank]
          · rw [feedLoop_end hline (by decide), lineEnds_crlf hline]
            simp only [List.head?_cons, List.tail_cons, hloop]
            by_cases hblank : isBlank line <;> simp [shown, consTerminated, emit, hblank]
          · rw [feedLoop_end hline (by decide), lineEnds_cr hline hnot, hloop, hloop]
            by_cases hblank : isBlank line
            · simp [shown, consTerminated, hblank, hnot]
            · by_cases hsoon : tooSoon every now last <;>
                simp [shown, consTerminated, emit, hblank, hnot, hsoon]

theorem shown_append (last : Option ℚ) (lines more : List (List Char × LineEnd)) :
    shown every now last (lines ++ more) =
      ((shown every now last lines).1 ++
        (shown every now (shown every now last lines).2 more).1,
       (shown every now (shown every now last lines).2 more).2) := by
  fun_induction shown every now last lines with
  | case1 last => simp
  | case2 last line e lines hblank ih => simp [shown, hblank, ih]
  | case3 last line lines hblank hsoon ih => simp [shown, hblank, hsoon, ih]
  | case4 last line lines hblank hsoon r ih => simp [shown, hblank, hsoon, ih, r]
  | case5 last line e lines hblank he r ih => simp [shown, hblank, he, ih, r]

end LogLineSplitter

/-! ## lines of chunks -/

/-- The lines that are seen when a text comes in chunks, after what is left of the chunks
before. -/
def chunkEnds : List Char → List (List Char) → List (List Char × LineEnd) × List Char
  | buf, [] => ([], buf)
  | buf, text :: texts =>
      let r := lineEnds (buf ++ text)
      let more := chunkEnds r.2 texts
      (r.1 ++ more.1, more.2)

/-- Lines of a text, some of them with their `\r\n` cut in two. -/
inductive CutEnds : List (List Char × LineEnd) → List (List Char × LineEnd) → Prop where
  | nil : CutEnds [] []
  | whole (l : List Char × LineEnd) {lines cut} (h : CutEnds lines cut) :
      CutEnds (l :: lines) (l :: cut)
  | cut (line : List Char) {lines cut} (h : CutEnds lines cut) :
      CutEnds ((line, .crlf) :: lines) ((line, .cr) :: ([], .lf) :: cut)

theorem feedAll_eq (every now : ℚ) (buf : List Char) (last : Option ℚ) (texts : List (List Char)) :
    LogLineSplitter.feedAll every now ⟨buf, last⟩ texts =
      (LogLineSplitter.shown every now last (chunkEnds buf texts).1).1 ++
        LogLineSplitter.flush ⟨(chunkEnds buf texts).2, none⟩ := by
  induction texts generalizing buf last with
  | nil => rfl
  | cons text texts ih =>
      rw [LogLineSplitter.feedAll, LogLineSplitter.feed, LogLineSplitter.feedLoop_eq]
      dsimp only
      rw [ih, chunkEnds, LogLineSplitter.shown_append, List.append_assoc]

/-- The lines of two texts in a row: those of the first and of what it leaves with the second,
or a line end of the whole that the two share. -/
theorem lineEnds_append (text more : List Char) :
    lineEnds (text ++ more) = ((lineEnds text).1 ++ (lineEnds ((lineEnds text).2 ++ more)).1,
      (lineEnds ((lineEnds text).2 ++ more)).2) ∨
    ∃ lines line rest, lineEnds text = (lines ++ [(line, .cr)], []) ∧ more = '\n' :: rest ∧
      lineEnds (text ++ more) = (lines ++ (line, .crlf) :: (lineEnds rest).1, (lineEnds rest).2) := by
  induction hlen : text.length using Nat.strong_induction_on generalizing text with
  | _ n ih =>
      cases firstLine_cases text with
      | inl hline =>
          left
          rw [lineEnds_of_inLine hline]
          rfl
      | inr hend =>
          obtain ⟨line, rest, hline, hcases⟩ := hend
          have hrest : rest.length < n := by
            obtain rfl | rfl | ⟨rfl, -⟩ := hcases <;> simp at hlen <;> omega
          -- a line in front changes neither side
          have hfront : ∀ e front, lineEnds front = consTerminated (line, e) (lineEnds rest) →
              lineEnds (front ++ more) = consTerminated (line, e) (lineEnds (rest ++ more)) →
              lineEnds (front ++ more) =
                ((lineEnds front).1 ++ (lineEnds ((lineEnds front).2 ++ more)).1,
                  (lineEnds ((lineEnds front).2 ++ more)).2) ∨
              ∃ lines line rest, lineEnds front = (lines ++ [(line, .cr)], []) ∧
                more = '\n' :: rest ∧ lineEnds (front ++ more) =
                  (lines ++ (line, .crlf) :: (lineEnds rest).1, (lineEnds rest).2) := by
            intro e front hone hboth
            rw [hone, hboth]
            cases ih rest.length hrest rest rfl with
            | inl hsplit =>
                left
                rw [hsplit]
                rfl
            | inr hshared =>
                obtain ⟨lines, line', rest', hlines, hmore, hwhole⟩ := hshared
                refine .inr ⟨(line, e) :: lines, line', rest', ?_, hmore, ?_⟩
                · rw [hlines]; rfl
                · rw [hwhole]; rfl
          obtain rfl | rfl | ⟨rfl, hnot⟩ := hcases
          · exact hfront .lf _ (lineEnds_lf hline rest) (by
              rw [List.append_assoc, List.cons_append, lineEnds_lf hline])
          · exact hfront .crlf _ (lineEnds_crlf hline rest) (by
              rw [List.append_assoc, List.cons_append, List.cons_append, lineEnds_crlf hline])
          · by_cases hshared : rest = [] ∧ more.head? = some '\n'
            · obtain ⟨rfl, hhead⟩ := hshared
              obtain ⟨rest', rfl⟩ := List.head?_eq_some_iff.mp hhead
              refine .inr ⟨[], line, rest', lineEnds_cr hline (by simp), rfl, ?_⟩
              rw [List.append_assoc, List.cons_append, List.nil_append, lineEnds_crlf hline]
              rfl
            · have hnext : (rest ++ more).head? ≠ some '\n' := by
                cases rest with
                | nil => simpa using hshared
                | cons c rest => simpa using hnot
              exact hfront .cr _ (lineEnds_cr hline hnot) (by
                rw [List.append_assoc, List.cons_append, lineEnds_cr hline hnext])

theorem CutEnds.refl : ∀ lines, CutEnds lines lines
  | [] => .nil
  | l :: lines => .whole l (CutEnds.refl lines)

theorem CutEnds.append {lines cut more moreCut : List (List Char × LineEnd)}
    (h : CutEnds lines cut) (hmore : CutEnds more moreCut) :
    CutEnds (lines ++ more) (cut ++ moreCut) := by
  induction h with
  | nil => exact hmore
  | whole l _ ih => exact .whole l ih
  | cut line _ ih => exact .cut line ih

/-- Chunks show the lines of the whole text, some of them cut. -/
theorem cutEnds_chunkEnds (buf : List Char) (texts : List (List Char)) (hbuf : InLine buf) :
    CutEnds (lineEnds (buf ++ texts.flatten)).1 (chunkEnds buf texts).1 ∧
      (chunkEnds buf texts).2 = (lineEnds (buf ++ texts.flatten)).2 := by
  induction texts generalizing buf with
  | nil =>
      rw [List.flatten_nil, List.append_nil, lineEnds_of_inLine hbuf]
      exact ⟨.nil, rfl⟩
  | cons text texts ih =>
      obtain ⟨hcut, hrest⟩ := ih (lineEnds (buf ++ text)).2 (inLine_lineEnds _)
      have hflat : buf ++ (text :: texts).flatten = (buf ++ text) ++ texts.flatten := by simp
      rw [hflat, chunkEnds]
      dsimp only
      cases lineEnds_append (buf ++ text) texts.flatten with
      | inl hsplit =>
          rw [hsplit]
          exact ⟨(CutEnds.refl _).append hcut, hrest⟩
      | inr hshared =>
          obtain ⟨lines, line, rest, hlines, hmore, hwhole⟩ := hshared
          have hlf : lineEnds ([] ++ '\n' :: rest) = consTerminated ([], .lf) (lineEnds rest) :=
            lineEnds_lf (by simp [InLine]) rest
          rw [hwhole]
          rw [hlines, hmore, hlf] at hcut hrest
          rw [hlines]
          dsimp only [consTerminated] at hcut hrest ⊢
          refine ⟨?_, hrest⟩
          rw [List.append_assoc]
          refine (CutEnds.refl lines).append ?_
          generalize (chunkEnds [] texts).1 = seen at hcut ⊢
          cases hcut with
          | whole _ h => exact .cut line h

/-- All `\r\n` of some lines cut in two. -/
def cutAll (lines : List (List Char × LineEnd)) : List (List Char × LineEnd) :=
  lines.flatMap fun l => if l.2 = .crlf then [(l.1, .cr), ([], .lf)] else [l]

/-- A text that comes character by character shows its lines with every `\r\n` cut. -/
theorem chunkEnds_chars (buf text : List Char) (hbuf : InLine buf) :
    (chunkEnds buf (text.map fun c => [c])).1 = cutAll (lineEnds (buf ++ text)).1 := by
  have hempty : InLine [] := by simp [InLine]
  induction text generalizing buf with
  | nil =>
      rw [List.append_nil, lineEnds_of_inLine hbuf]
      rfl
  | cons c text ih =>
      rw [List.map_cons, chunkEnds]
      dsimp only
      by_cases hlf : c = '\n'
      · rw [hlf, lineEnds_lf hbuf, lineEnds_lf hbuf]
        have hmore := ih [] hempty
        simp only [consTerminated, lineEnds, List.nil_append] at hmore ⊢
        rw [hmore]
        rfl
      · by_cases hcr : c = '\r'
        · have hone := @lineEnds_cr buf hbuf [] (by simp)
          have hmore := ih [] hempty
          rw [hcr, hone]
          by_cases hnext : text.head? = some '\n'
          · obtain ⟨rest, rfl⟩ := List.head?_eq_some_iff.mp hnext
            rw [lineEnds_lf hempty] at hmore
            rw [lineEnds_crlf hbuf]
            simp only [consTerminated, lineEnds] at hmore ⊢
            rw [hmore]
            rfl
          · rw [lineEnds_cr hbuf hnext]
            simp only [consTerminated, lineEnds, List.nil_append] at hmore ⊢
            rw [hmore]
            rfl
        · have hc : LogLineSplitter.isEnd c = false := by simp [LogLineSplitter.isEnd, hlf, hcr]
          have hline : InLine (buf ++ [c]) := by
            intro d hd
            cases List.mem_append.mp hd with
            | inl hin => exact hbuf d hin
            | inr hin => exact List.mem_singleton.mp hin ▸ hc
          rw [lineEnds_of_inLine hline]
          have hmore := ih (buf ++ [c]) hline
          rw [List.append_assoc] at hmore
          exact hmore

/-! ## counting lines -/

namespace LogLineSplitter

variable {every now : ℚ}

/-- A line with something to show. -/
def full (l : List Char × LineEnd) : Bool := ! isBlank l.1

theorem isBlank_nil : isBlank [] = true := rfl

/-- A blank line shows nothing. -/
theorem shown_blank {line : List Char} (h : isBlank line = true) (e : LineEnd) (last : Option ℚ)
    (lines : List (List Char × LineEnd)) :
    shown every now last ((line, e) :: lines) = shown every now last lines := by
  rw [shown, if_pos h]

/-- Without a pace, every line is shown. -/
theorem shown_of_unpaced (h : every ≤ 0) {last : Option ℚ} (hlast : ∀ t ∈ last, t = now)
    (lines : List (List Char × LineEnd)) :
    (shown every now last lines).1 = (lines.filter full).map Prod.fst := by
  have hnever : ∀ last : Option ℚ, (∀ t ∈ last, t = now) → tooSoon every now last = false := by
    intro last hlast
    cases last with
    | none => rfl
    | some t =>
        obtain rfl := hlast t rfl
        simpa [tooSoon] using h
  fun_induction shown every now last lines with
  | case1 last => rfl
  | case2 last line e lines hblank ih => simpa [full, hblank] using ih hlast
  | case3 last line lines hblank hsoon ih =>
      rw [hnever last hlast] at hsoon
      contradiction
  | case4 last line lines hblank hsoon r ih =>
      have hmore := ih (by simp)
      simp [full, hblank, r, hmore]
  | case5 last line e lines hblank he r ih =>
      have hmore := ih hlast
      simp [full, hblank, r, hmore]

/-- Lines that end with a newline are shown. -/
theorem newlineLines_sublist (last : Option ℚ) (lines : List (List Char × LineEnd)) :
    (newlineLines lines).Sublist (shown every now last lines).1 := by
  fun_induction shown every now last lines with
  | case1 last => exact List.Sublist.slnil
  | case2 last line e lines hblank ih => simpa [newlineLines, hblank] using ih
  | case3 last line lines hblank hsoon ih => simpa [newlineLines, hblank] using ih
  | case4 last line lines hblank hsoon r ih =>
      have hskip : newlineLines ((line, .cr) :: lines) = newlineLines lines := by simp [newlineLines]
      rw [hskip]
      exact ih.cons line
  | case5 last line e lines hblank he r ih =>
      have hshow : newlineLines ((line, e) :: lines) = line :: newlineLines lines := by
        simp [newlineLines, hblank, he]
      rw [hshow]
      exact ih.cons_cons line

/-- With a pace, one redraw is shown at most. -/
theorem length_shown (h : 0 < every) (lines : List (List Char × LineEnd)) :
    (shown every now none lines).1.length =
      (newlineLines lines).length + min 1 (countEnds .cr lines) ∧
    (shown every now (some now) lines).1 = newlineLines lines := by
  have hsoon : tooSoon every now (some now) = true := by simpa [tooSoon] using h
  have hfirst : tooSoon every now none = false := rfl
  induction lines with
  | nil => exact ⟨rfl, rfl⟩
  | cons l lines ih =>
      obtain ⟨line, e⟩ := l
      obtain ⟨hnone, hsome⟩ := ih
      by_cases hblank : isBlank line
      · have hcount : countEnds .cr ((line, e) :: lines) = countEnds .cr lines := by
          simp [countEnds, hblank]
        have hlines : newlineLines ((line, e) :: lines) = newlineLines lines := by
          simp [newlineLines, hblank]
        rw [shown, shown, if_pos hblank, if_pos hblank, hcount, hlines]
        exact ⟨hnone, hsome⟩
      · by_cases hcr : e = .cr
        · have hcount : countEnds .cr ((line, e) :: lines) = countEnds .cr lines + 1 := by
            simp [countEnds, hblank, hcr]
          have hlines : newlineLines ((line, e) :: lines) = newlineLines lines := by
            simp [newlineLines, hcr]
          rw [shown, shown, if_neg hblank, if_neg hblank, if_pos hcr, if_pos hcr, hcount, hlines]
          simp only [hsoon, hfirst, if_true, Bool.false_eq_true, if_false, hsome, List.length_cons]
          exact ⟨by omega, trivial⟩
        · have hcount : countEnds .cr ((line, e) :: lines) = countEnds .cr lines := by
            simp [countEnds, hcr]
          have hlines : newlineLines ((line, e) :: lines) = line :: newlineLines lines := by
            simp [newlineLines, hblank, hcr]
          rw [shown, shown, if_neg hblank, if_neg hblank, if_neg hcr, if_neg hcr, hcount, hlines]
          simp only [hsome, List.length_cons]
          exact ⟨by omega, trivial⟩

end LogLineSplitter

section Cut

open LogLineSplitter

variable {every now : ℚ} {lines cut : List (List Char × LineEnd)}

/-- Cutting a `\r\n` adds no line to show. -/
theorem CutEnds.full (h : CutEnds lines cut) :
    (cut.filter full).map Prod.fst = (lines.filter full).map Prod.fst := by
  induction h with
  | nil => rfl
  | whole l _ ih => by_cases hl : LogLineSplitter.full l <;> simp [hl, ih]
  | cut line _ ih =>
      by_cases hl : isBlank line <;> simp [LogLineSplitter.full, isBlank_nil, hl, ih]

/-- Without a full line that ends in `\r\n`, a cut shows the same. -/
theorem CutEnds.shown_eq (h : CutEnds lines cut) (hnone : countEnds .crlf lines = 0)
    (last : Option ℚ) : shown every now last cut = shown every now last lines := by
  induction h generalizing last with
  | nil => rfl
  | whole l _ ih =>
      obtain ⟨line, e⟩ := l
      have hrest := ih (by
        simp only [countEnds, List.countP_cons] at hnone ⊢
        omega)
      simp only [shown, hrest]
  | @cut line lines cut _ ih =>
      have hcount : countEnds .crlf ((line, .crlf) :: lines) =
          countEnds .crlf lines + if isBlank line then 0 else 1 := by
        by_cases hl : isBlank line <;> simp [countEnds, hl]
      by_cases hblank : isBlank line
      · have hrest := ih (by rw [hcount] at hnone; omega) last
        rw [shown_blank hblank, shown_blank isBlank_nil, shown_blank hblank, hrest]
      · rw [hcount, if_neg hblank] at hnone
        omega

/-- Without a full line that is a redraw, the lines that end with a newline are shown. -/
theorem shown_of_no_redraw (hnone : countEnds .cr lines = 0) (last : Option ℚ) :
    (shown every now last lines).1 = newlineLines lines := by
  induction lines generalizing last with
  | nil => rfl
  | cons l lines ih =>
      obtain ⟨line, e⟩ := l
      have hrest := ih (by
        simp only [countEnds, List.countP_cons] at hnone ⊢
        omega)
      by_cases hblank : isBlank line
      · rw [shown, if_pos hblank, hrest]
        simp [newlineLines, hblank]
      · have hcr : e ≠ .cr := by
          rintro rfl
          simp [countEnds, hblank] at hnone
        rw [shown, if_neg hblank, if_neg hcr]
        simp [newlineLines, hblank, hcr, hrest]

/-- Where one full line ends in `\r\n` and no full line is a redraw, a cut line is shown as
the first redraw. -/
theorem CutEnds.shown_one (h : CutEnds lines cut) (hone : countEnds .crlf lines ≤ 1)
    (hnone : countEnds .cr lines = 0) : (shown every now none cut).1 = newlineLines lines := by
  induction h with
  | nil => rfl
  | @whole l lines cut _ ih =>
      obtain ⟨line, e⟩ := l
      have hrest := ih (by simp only [countEnds, List.countP_cons] at hone ⊢; omega)
        (by simp only [countEnds, List.countP_cons] at hnone ⊢; omega)
      by_cases hblank : isBlank line
      · rw [shown, if_pos hblank, hrest]
        simp [newlineLines, hblank]
      · have hcr : e ≠ .cr := by
          rintro rfl
          simp [countEnds, hblank] at hnone
        rw [shown, if_neg hblank, if_neg hcr]
        simp [newlineLines, hblank, hcr, hrest]
  | @cut line lines cut hcut ih =>
      have hcr : countEnds .cr lines = 0 := by
        simp only [countEnds, List.countP_cons] at hnone ⊢
        omega
      have hcount : countEnds .crlf ((line, .crlf) :: lines) =
          countEnds .crlf lines + if isBlank line then 0 else 1 := by
        by_cases hl : isBlank line <;> simp [countEnds, hl]
      by_cases hblank : isBlank line
      · have hrest := ih (by rw [hcount] at hone; omega) hcr
        rw [shown_blank hblank, shown_blank isBlank_nil, hrest]
        simp [newlineLines, hblank]
      · rw [hcount, if_neg hblank] at hone
        have hrest : shown every now (some now) cut = shown every now (some now) lines :=
          hcut.shown_eq (by omega) (some now)
        have hlines : (shown every now (some now) lines).1 = newlineLines lines :=
          shown_of_no_redraw hcr (some now)
        have hfirst : tooSoon every now none = false := rfl
        have hnew : newlineLines ((line, .crlf) :: lines) = line :: newlineLines lines := by
          simp [newlineLines, hblank]
        have hmore : (shown every now (some now) (([], .lf) :: cut)).1 = newlineLines lines := by
          rw [shown_blank isBlank_nil, hrest, hlines]
        rw [shown, if_neg hblank, if_pos rfl, hfirst, hnew, ← hmore]
        rfl

theorem length_newlineLines (lines : List (List Char × LineEnd)) :
    (newlineLines lines).length = countEnds .lf lines + countEnds .crlf lines := by
  induction lines with
  | nil => rfl
  | cons l lines ih =>
      obtain ⟨line, e⟩ := l
      by_cases hblank : isBlank line
      · simpa [newlineLines, countEnds, hblank] using ih
      · cases e <;> simp [newlineLines, countEnds, hblank] at ih ⊢ <;> omega

/-- Cutting every `\r\n` makes redraws of the lines that ended in it. -/
theorem countEnds_cutAll (lines : List (List Char × LineEnd)) :
    countEnds .lf (cutAll lines) = countEnds .lf lines ∧ countEnds .crlf (cutAll lines) = 0 ∧
      countEnds .cr (cutAll lines) = countEnds .cr lines + countEnds .crlf lines := by
  induction lines with
  | nil => exact ⟨rfl, rfl, rfl⟩
  | cons l lines ih =>
      obtain ⟨line, e⟩ := l
      have happend : ∀ e xs ys, countEnds e (xs ++ ys) = countEnds e xs + countEnds e ys :=
        fun e xs ys => List.countP_append
      have hcons : cutAll ((line, e) :: lines) =
          (if e = .crlf then [(line, .cr), ([], .lf)] else [(line, e)]) ++ cutAll lines := rfl
      obtain ⟨hlf, hcrlf, hcr⟩ := ih
      rw [hcons, happend, happend, happend, hlf, hcrlf, hcr]
      by_cases hblank : isBlank line
      · cases e <;> simp [countEnds, hblank, isBlank_nil]
      · cases e <;> simp [countEnds, hblank, isBlank_nil] <;> omega

end Cut

/-! ## texts that show the same however they are cut -/

/-- However the text is cut into chunks, the same lines are shown, and among them every full
line that ends with a newline. -/
structure SplitsAlike (every now : ℚ) (text : List Char) : Prop where
  same : ∀ chunks chunks' : List (List Char), chunks.flatten = text → chunks'.flatten = text →
    LogLineSplitter.feedAll every now {} chunks = LogLineSplitter.feedAll every now {} chunks'
  complete : ∀ chunks : List (List Char), chunks.flatten = text →
    (newlineLines (lineEnds text).1).Sublist (LogLineSplitter.feedAll every now {} chunks)

/-- No redraw is ever dropped, or no full line ends in `\r\n`, or one does and no full line is
a redraw. -/
def CutsHarmlessly (every : ℚ) (text : List Char) : Prop :=
  every ≤ 0 ∨ countEnds .crlf (lineEnds text).1 = 0 ∨
    (countEnds .crlf (lineEnds text).1 = 1 ∧ countEnds .cr (lineEnds text).1 = 0)

section Texts

variable {every now : ℚ} {text : List Char}

/-- What is shown of the chunks of a text. -/
theorem feedAll_chunks {chunks : List (List Char)} (h : chunks.flatten = text) :
    ∃ cut, CutEnds (lineEnds text).1 cut ∧ LogLineSplitter.feedAll every now {} chunks =
      (LogLineSplitter.shown every now none cut).1 ++
        LogLineSplitter.flush ⟨(lineEnds text).2, none⟩ := by
  obtain ⟨hcut, hrest⟩ := cutEnds_chunkEnds [] chunks (by simp [InLine])
  rw [List.nil_append, h] at hcut hrest
  exact ⟨_, hcut, by rw [feedAll_eq, hrest]⟩

theorem splitsAlike_of (h : CutsHarmlessly every text) : SplitsAlike every now text := by
  have hshown : ∀ cut, CutEnds (lineEnds text).1 cut →
      (LogLineSplitter.shown every now none cut).1 =
        (LogLineSplitter.shown every now none (lineEnds text).1).1 := by
    intro cut hcut
    obtain hunpaced | hnone | ⟨hone, hredraw⟩ := h
    · rw [LogLineSplitter.shown_of_unpaced hunpaced (by simp),
        LogLineSplitter.shown_of_unpaced hunpaced (by simp), hcut.full]
    · rw [hcut.shown_eq hnone]
    · rw [hcut.shown_one hone.le hredraw, shown_of_no_redraw hredraw]
  constructor
  · intro chunks chunks' hchunks hchunks'
    obtain ⟨cut, hcut, heq⟩ := @feedAll_chunks every now text chunks hchunks
    obtain ⟨cut', hcut', heq'⟩ := @feedAll_chunks every now text chunks' hchunks'
    rw [heq, heq', hshown cut hcut, hshown cut' hcut']
  · intro chunks hchunks
    obtain ⟨cut, hcut, heq⟩ := @feedAll_chunks every now text chunks hchunks
    rw [heq, hshown cut hcut]
    exact (LogLineSplitter.newlineLines_sublist none _).trans (List.sublist_append_left _ _)

/-- A text that is cut harmfully shows fewer lines if it comes character by character. -/
theorem cutsHarmlessly_of (h : SplitsAlike every now text) : CutsHarmlessly every text := by
  by_cases hevery : every ≤ 0
  · exact .inl hevery
  · have hpace : 0 < every := not_le.mp hevery
    have hchars : (text.map fun c => [c]).flatten = text := List.flatMap_singleton' text
    have hsame := h.same [text] (text.map fun c => [c]) (by simp) hchars
    have hempty : InLine [] := by simp [InLine]
    have hrest := (cutEnds_chunkEnds [] (text.map fun c => [c]) hempty).2
    rw [hchars] at hrest
    rw [feedAll_eq, feedAll_eq, chunkEnds_chars [] text hempty, hrest] at hsame
    have hlen := congrArg List.length hsame
    have hone : (chunkEnds [] [text]) = lineEnds text := by simp [chunkEnds]
    obtain ⟨hlf, hcrlf, hcr⟩ := countEnds_cutAll (lineEnds text).1
    rw [hone, List.nil_append, List.length_append, List.length_append,
      (LogLineSplitter.length_shown hpace _).1, (LogLineSplitter.length_shown hpace _).1,
      length_newlineLines, length_newlineLines, hlf, hcrlf, hcr] at hlen
    unfold CutsHarmlessly
    omega

end Texts

/-- What a splitter shows of a text does not depend on its chunks exactly if redraws are not
paced, or no full line ends in `\r\n`, or one does and no other full line ends in `\r`. -/
theorem splitsAlike_iff (every now : ℚ) (text : List Char) :
    SplitsAlike every now text ↔ CutsHarmlessly every text :=
  ⟨cutsHarmlessly_of, splitsAlike_of⟩

/-- Two `\r\n` lines, at the default pace. -/
theorem not_splitsAlike : ¬ SplitsAlike 2 0 "one\r\ntwo\r\n".toList := by
  intro h
  have hcuts := cutsHarmlessly_of h
  revert hcuts
  unfold CutsHarmlessly
  decide +kernel

end InferStack
