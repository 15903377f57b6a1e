import Mathlib.Data.List.Basic

/-!
# InferStack.Kit.Words

The words of a text and the slug that joins them.

A slug replaces each run of characters that are not kept by one separator and
strips the separators at both ends.  `slug_eq_join` reads it as the words of the
text, joined; so two texts have one slug exactly if they have the same words
(`slug_eq_iff`).
-/

namespace Kit

variable {α : Type*} (keep : α → Bool) (sep : α)

/-- The maximal runs of kept characters. -/
def words : List α → List (List α)
  | [] => []
  | c :: cs =>
      if keep c then
        if cs.head?.any keep then
          match words cs with
          | [] => [[c]]
          | w :: ws => (c :: w) :: ws
        else [c] :: words cs
      else words cs

/-- Each run of other characters replaced by one separator; `inRun` tells that a run is open. -/
def replaceRuns : Bool → List α → List α
  | _, [] => []
  | inRun, c :: cs =>
      if keep c then c :: replaceRuns false cs
      else if inRun then replaceRuns true cs
      else sep :: replaceRuns true cs

/-- A text without the separators at its ends. -/
def stripEnds [DecidableEq α] (l : List α) : List α :=
  ((l.dropWhile (· = sep)).reverse.dropWhile (· = sep)).reverse

def slug [DecidableEq α] (l : List α) : List α := stripEnds sep (replaceRuns keep sep false l)

/-- Some words, joined. -/
def joinWords : List (List α) → List α
  | [] => []
  | [w] => w
  | w :: w' :: ws => w ++ sep :: joinWords (w' :: ws)

/-- Words that a text can have. -/
def Wordly (ws : List (List α)) : Prop := ∀ w ∈ ws, w ≠ [] ∧ ∀ c ∈ w, keep c = true

variable {keep sep}

theorem wordly_words (l : List α) : Wordly keep (words keep l) := by
  fun_induction words keep l with
  | case1 => simp [Wordly]
  | case2 c cs hc hnext hnil ih => simp [Wordly, hc]
  | case3 c cs hc hnext w ws hcons ih =>
      rw [hcons] at ih
      intro v hv
      cases List.mem_cons.mp hv with
      | inr hin => exact ih v (List.mem_cons_of_mem _ hin)
      | inl heq =>
          subst heq
          refine ⟨by simp, fun d hd => ?_⟩
          cases List.mem_cons.mp hd with
          | inl heq => exact heq ▸ hc
          | inr hin => exact (ih w List.mem_cons_self).2 d hin
  | case4 c cs hc hnext ih =>
      intro v hv
      cases List.mem_cons.mp hv with
      | inl heq => simp [heq, hc]
      | inr hin => exact ih v hin
  | case5 c cs hc ih => exact ih

/-- What is in joined words. -/
theorem mem_joinWords {ws : List (List α)} {c : α} (h : c ∈ joinWords sep ws) :
    (∃ w ∈ ws, c ∈ w) ∨ c = sep := by
  fun_induction joinWords sep ws with
  | case1 => contradiction
  | case2 w => exact .inl ⟨w, by simp, h⟩
  | case3 w w' ws ih =>
      cases List.mem_append.mp h with
      | inl hin => exact .inl ⟨w, by simp, hin⟩
      | inr hrest =>
          cases List.mem_cons.mp hrest with
          | inl heq => exact .inr heq
          | inr hin =>
              cases ih hin with
              | inl hw =>
                  obtain ⟨v, hv, hc⟩ := hw
                  exact .inl ⟨v, List.mem_cons_of_mem _ hv, hc⟩
              | inr heq => exact .inr heq

theorem joinWords_cons_cons (c : α) (w : List α) (ws : List (List α)) :
    joinWords sep ((c :: w) :: ws) = c :: joinWords sep (w :: ws) := by
  cases ws <;> rfl

theorem words_head {c : α} {cs : List α} (hc : keep c = true) :
    ∃ w ws, words keep (c :: cs) = (c :: w) :: ws := by
  unfold words
  rw [if_pos hc]
  split
  · split
    · exact ⟨[], [], rfl⟩
    · rename_i w ws _
      exact ⟨w, ws, rfl⟩
  · exact ⟨[], _, rfl⟩

/-- With a run open, the words are joined; a separator may be left at the end. -/
theorem replaceRuns_true (l : List α) : ∃ rest, (rest = [] ∨ rest = [sep]) ∧
    (words keep l = [] → rest = []) ∧
    replaceRuns keep sep true l = joinWords sep (words keep l) ++ rest := by
  induction l with
  | nil => exact ⟨[], .inl rfl, fun _ => rfl, rfl⟩
  | cons c cs ih =>
      obtain ⟨rest, hrest, hnone, heq⟩ := ih
      by_cases hc : keep c = true
      · have hopen : replaceRuns keep sep true (c :: cs) = c :: replaceRuns keep sep false cs := by
          rw [replaceRuns, if_pos hc]
        rw [hopen]
        cases cs with
        | nil => exact ⟨[], .inl rfl, fun _ => rfl, by simp [replaceRuns, words, joinWords, hc]⟩
        | cons d ds =>
            by_cases hd : keep d = true
            · -- the word goes on
              obtain ⟨w, ws, hwords⟩ := @words_head _ keep d ds hd
              have hcons : words keep (c :: d :: ds) = (c :: d :: w) :: ws := by
                rw [words, if_pos hc, if_pos (by simpa using hd), hwords]
              have hsame : replaceRuns keep sep false (d :: ds) =
                  replaceRuns keep sep true (d :: ds) := by
                rw [replaceRuns, replaceRuns, if_pos hd, if_pos hd]
              rw [hsame, heq, hwords, hcons, joinWords_cons_cons (c := c)]
              exact ⟨rest, hrest, by simp, rfl⟩
            · -- the word ends
              have hcons : words keep (c :: d :: ds) = [c] :: words keep (d :: ds) := by
                rw [words, if_pos hc, if_neg (by simpa using hd)]
              have hsep : replaceRuns keep sep false (d :: ds) =
                  sep :: replaceRuns keep sep true (d :: ds) := by
                rw [replaceRuns, replaceRuns, if_neg hd, if_neg hd]
                simp
              rw [hsep, heq, hcons]
              cases hwords : words keep (d :: ds) with
              | nil =>
                  obtain rfl := hnone hwords
                  exact ⟨[sep], .inr rfl, by simp, rfl⟩
              | cons w ws => exact ⟨rest, hrest, by simp, rfl⟩
      · have hskip : words keep (c :: cs) = words keep cs := by rw [words, if_neg hc]
        have hrun : replaceRuns keep sep true (c :: cs) = replaceRuns keep sep true cs := by
          rw [replaceRuns, if_neg hc, if_pos rfl]
        rw [hskip, hrun]
        exact ⟨rest, hrest, hnone, heq⟩

/-- Without an open run, a separator may also be left at the start. -/
theorem replaceRuns_false (l : List α) : ∃ front, (front = [] ∨ front = [sep]) ∧
    replaceRuns keep sep false l = front ++ replaceRuns keep sep true l := by
  cases l with
  | nil => exact ⟨[], .inl rfl, rfl⟩
  | cons c cs =>
      by_cases hc : keep c = true
      · exact ⟨[], .inl rfl, by rw [replaceRuns, replaceRuns, if_pos hc, if_pos hc]; rfl⟩
      · exact ⟨[sep], .inr rfl, by rw [replaceRuns, replaceRuns, if_neg hc, if_neg hc]; rfl⟩

section Slug

variable [DecidableEq α]

theorem stripEnds_eq {front rest l : List α} (hfront : front = [] ∨ front = [sep])
    (hrest : rest = [] ∨ rest = [sep]) (hnone : l = [] → rest = [])
    (hhead : ∀ c ∈ l.head?, c ≠ sep) (hlast : ∀ c ∈ l.getLast?, c ≠ sep) :
    stripEnds sep (front ++ (l ++ rest)) = l := by
  have hdrop : ∀ l : List α, (∀ c ∈ l.head?, c ≠ sep) → l.dropWhile (· = sep) = l := by
    intro l hl
    cases l with
    | nil => rfl
    | cons c cs => rw [List.dropWhile_cons, if_neg (by simpa using hl c rfl)]
  have hone : (front ++ (l ++ rest)).dropWhile (· = sep) = l ++ rest := by
    have hrest' : (l ++ rest).dropWhile (· = sep) = l ++ rest := by
      apply hdrop
      cases l with
      | nil => simp [hnone rfl]
      | cons c cs => simpa using hhead
    cases hfront with
    | inl h => rw [h, List.nil_append, hrest']
    | inr h =>
        rw [h, List.singleton_append, List.dropWhile_cons, if_pos (by simp), hrest']
  have htwo : (l ++ rest).reverse.dropWhile (· = sep) = l.reverse := by
    have hl : l.reverse.dropWhile (· = sep) = l.reverse := hdrop _ (by simpa using hlast)
    cases hrest with
    | inl h => rw [h, List.append_nil, hl]
    | inr h =>
        rw [h, List.reverse_append, List.reverse_singleton, List.singleton_append,
          List.dropWhile_cons, if_pos (by simp), hl]
  rw [stripEnds, hone, htwo, List.reverse_reverse]

omit [DecidableEq α] in
theorem joinWords_ends {ws : List (List α)} (h : Wordly keep ws) (hsep : keep sep = false) :
    (∀ c ∈ (joinWords sep ws).head?, c ≠ sep) ∧ (∀ c ∈ (joinWords sep ws).getLast?, c ≠ sep) ∧
      (joinWords sep ws = [] → ws = []) := by
  have hkept : ∀ w ∈ ws, ∀ c ∈ w, c ≠ sep := by
    rintro w hw c hc rfl
    have htrue := (h w hw).2 c hc
    rw [hsep] at htrue
    contradiction
  fun_induction joinWords sep ws with
  | case1 => simp
  | case2 w =>
      have hw := hkept w (by simp)
      refine ⟨fun c hc => hw c (List.mem_of_mem_head? hc),
        fun c hc => hw c (List.mem_of_mem_getLast? hc), fun hnil => ?_⟩
      exact absurd hnil (h w (by simp)).1
  | case3 w w' ws ih =>
      have hrest : Wordly keep (w' :: ws) := fun v hv => h v (List.mem_cons_of_mem _ hv)
      obtain ⟨-, hlast, hnil⟩ := ih hrest fun v hv => hkept v (List.mem_cons_of_mem _ hv)
      have hne : joinWords sep (w' :: ws) ≠ [] := fun heq => by simpa using hnil heq
      refine ⟨fun c hc => ?_, fun c hc => ?_, by simp⟩
      · cases w with
        | nil => exact absurd rfl (h [] (by simp)).1
        | cons d ds =>
            have hd := hkept (d :: ds) (by simp) d List.mem_cons_self
            have heq : d = c := by simpa using hc
            exact heq ▸ hd
      · rw [List.getLast?_append_of_ne_nil _ (by simp)] at hc
        cases hjoin : joinWords sep (w' :: ws) with
        | nil => exact absurd hjoin hne
        | cons d ds =>
            rw [hjoin, List.getLast?_cons_cons, ← hjoin] at hc
            exact hlast c hc

/-- The slug of a text is its words, joined. -/
theorem slug_eq_join (hsep : keep sep = false) (l : List α) :
    slug keep sep l = joinWords sep (words keep l) := by
  obtain ⟨front, hfront, hfalse⟩ := @replaceRuns_false _ keep sep l
  obtain ⟨rest, hrest, hnone, htrue⟩ := @replaceRuns_true _ keep sep l
  obtain ⟨hhead, hlast, hnil⟩ := joinWords_ends (@wordly_words _ keep l) hsep
  rw [slug, hfalse, htrue]
  exact stripEnds_eq hfront hrest (fun h => hnone (hnil h)) hhead hlast

omit [DecidableEq α] in
theorem words_append {w : List α} (hne : w ≠ []) (hw : ∀ c ∈ w, keep c = true) {rest : List α}
    (hrest : rest.head?.any keep = false) : words keep (w ++ rest) = w :: words keep rest := by
  induction w with
  | nil => contradiction
  | cons c w ih =>
      have hc := hw c List.mem_cons_self
      cases w with
      | nil =>
          rw [List.singleton_append, words, if_pos hc, hrest]
          rfl
      | cons d ds =>
          have hmore := ih (by simp) fun e he => hw e (List.mem_cons_of_mem _ he)
          have hd : keep d = true := hw d (by simp)
          have hnext : ((d :: ds ++ rest).head?.any keep) = true := by simpa using hd
          rw [List.cons_append, words, if_pos hc, if_pos hnext, hmore]

omit [DecidableEq α] in
/-- Joined words are read back. -/
theorem words_joinWords (hsep : keep sep = false) {ws : List (List α)} (h : Wordly keep ws) :
    words keep (joinWords sep ws) = ws := by
  fun_induction joinWords sep ws with
  | case1 => rfl
  | case2 w =>
      obtain ⟨hne, hw⟩ := h w (by simp)
      have hone : words keep (w ++ []) = w :: words keep [] := words_append hne hw rfl
      rwa [List.append_nil] at hone
  | case3 w w' ws ih =>
      obtain ⟨hne, hw⟩ := h w (by simp)
      have hrest := ih fun v hv => h v (List.mem_cons_of_mem _ hv)
      have hskip : words keep (sep :: joinWords sep (w' :: ws)) = w' :: ws := by
        rw [words, hsep]
        exact hrest
      rw [words_append hne hw (by simpa using hsep), hskip]

/-- Two texts have one slug exactly if they have the same words. -/
theorem slug_eq_iff (hsep : keep sep = false) (l l' : List α) :
    slug keep sep l = slug keep sep l' ↔ words keep l = words keep l' := by
  rw [slug_eq_join hsep, slug_eq_join hsep]
  constructor
  · intro h
    have hback := words_joinWords hsep (@wordly_words _ keep l)
    rw [h, words_joinWords hsep (wordly_words l')] at hback
    exact hback.symm
  · intro h
    rw [h]

end Slug

end Kit
