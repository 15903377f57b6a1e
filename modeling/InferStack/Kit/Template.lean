import Mathlib.Data.List.Basic
import Mathlib.Data.List.Infix
import Mathlib.Data.String.Basic
import Mathlib.Logic.Function.Basic

/-!
# InferStack.Kit.Template

Texts with variables, and documents made of texts.

A text refers to a variable as `$NAME` or in braces, with a default, a
replacement or a requirement that may refer to variables itself; `$$` is a plain
dollar.

* `pieces`, `atoms`, `expand` — a text is parsed, its braces are resolved, and
  the names left are replaced;
* `bracedNames_subset` — what is in braces is found by looking for the braces;
* `expand_congr`, `expand_ne`, `expand_plain` — what an expansion depends on.
-/

namespace Kit

/-! ## documents -/

/-- A document of mappings and lists over texts. -/
inductive Doc (α : Type) where
  /-- A number, a boolean or nothing, as it is written. -/
  | scalar (written : String)
  | text (a : α)
  | list (items : List (Doc α))
  /-- A mapping, in the order of its keys. -/
  | dict (entries : List (String × Doc α))

namespace Doc

variable {α β : Type}

theorem sizeOf_entry_lt {entries : List (String × Doc α)} {kv : String × Doc α}
    (h : kv ∈ entries) : sizeOf kv.2 < 1 + sizeOf entries := by
  have hlt := List.sizeOf_lt_of_mem h
  obtain ⟨k, y⟩ := kv
  simp only [Prod.mk.sizeOf_spec] at hlt
  show sizeOf y < _
  omega

def map (f : α → β) : Doc α → Doc β
  | .scalar s => .scalar s
  | .text a => .text (f a)
  | .list items => .list (items.map (map f))
  | .dict entries => .dict (entries.map fun kv => (kv.1, map f kv.2))
decreasing_by
  · decreasing_tactic
  · simpa using sizeOf_entry_lt ‹_›

/-- The texts of a document. -/
def texts : Doc α → List α
  | .scalar _ => []
  | .text a => [a]
  | .list items => items.flatMap texts
  | .dict entries => entries.flatMap fun kv => texts kv.2
decreasing_by
  · decreasing_tactic
  · simpa using sizeOf_entry_lt ‹_›

/-- The keys of its mappings. -/
def keys : Doc α → List String
  | .scalar _ => []
  | .text _ => []
  | .list items => items.flatMap keys
  | .dict entries => entries.flatMap fun kv => kv.1 :: keys kv.2
decreasing_by
  · decreasing_tactic
  · simpa using sizeOf_entry_lt ‹_›

/-- Two rewritings of a document agree exactly when they agree on its texts. -/
theorem map_eq_map_iff (f g : α → β) (d : Doc α) :
    d.map f = d.map g ↔ ∀ a ∈ d.texts, f a = g a := by
  induction d using Doc.map.induct with
  | case1 s => simp [map, texts]
  | case2 a => simp [map, texts]
  | case3 items ih =>
      simp only [map, texts, Doc.list.injEq, List.map_inj_left, List.mem_flatMap]
      constructor
      · rintro h a ⟨x, hx, ha⟩
        exact (ih x hx).mp (h x hx) a ha
      · exact fun h x hx => (ih x hx).mpr fun a ha => h a ⟨x, hx, ha⟩
  | case4 entries ih =>
      simp only [map, texts, Doc.dict.injEq, List.map_inj_left, List.mem_flatMap, Prod.mk.injEq,
        true_and]
      constructor
      · rintro h a ⟨kv, hkv, ha⟩
        exact (ih kv hkv).mp (h kv hkv) a ha
      · exact fun h kv hkv => (ih kv hkv).mpr fun a ha => h a ⟨kv, hkv, ha⟩

end Doc

/-! ## pieces of a text -/

/-- What the braces around a name ask for; with a colon an empty value counts as
none. -/
inductive Form where
  | default (colon : Bool)
  | required (colon : Bool)
  | replacement (colon : Bool)
  | plain
  deriving DecidableEq

inductive Piece where
  | char (c : Char)
  | bare (name : String)
  | braced (name : String) (form : Form) (arg : List Piece)

def nameStart (c : Char) : Bool := c.isAlpha || c = '_'

def nameChar (c : Char) : Bool := c.isAlphanum || c = '_'

/-- Whether a name starts here. -/
def startsName (cs : List Char) : Bool := cs.head?.any nameStart

/-- The name that starts here, as far as it runs. -/
def nameAt (cs : List Char) : String := String.ofList (cs.takeWhile nameChar)

/-- What follows a name in braces; a plain reference leaves the closing brace. -/
def formAt : List Char → Option (Form × List Char)
  | ':' :: '-' :: cs => some (.default true, cs)
  | '-' :: cs => some (.default false, cs)
  | ':' :: '?' :: cs => some (.required true, cs)
  | '?' :: cs => some (.required false, cs)
  | ':' :: '+' :: cs => some (.replacement true, cs)
  | '+' :: cs => some (.replacement false, cs)
  | '}' :: cs => some (.plain, '}' :: cs)
  | _ => none

/-- Parse a text, or the inside of braces up to the closing one; `none` is an
invalid text.  The first argument bounds the characters left. -/
def pieces : Nat → Bool → List Char → Option (List Piece × List Char)
  | 0, _, _ => none
  | _ + 1, inner, [] => if inner then none else some ([], [])
  | n + 1, inner, '$' :: '$' :: cs => (pieces n inner cs).map fun r => (.char '$' :: r.1, r.2)
  | n + 1, inner, '$' :: '{' :: cs =>
      if startsName cs then
        (formAt (cs.dropWhile nameChar)).bind fun form =>
          (pieces n true form.2).bind fun arg =>
            (pieces n inner arg.2).map fun r => (.braced (nameAt cs) form.1 arg.1 :: r.1, r.2)
      else none
  | n + 1, inner, '$' :: cs =>
      if startsName cs then
        (pieces n inner (cs.dropWhile nameChar)).map fun r => (.bare (nameAt cs) :: r.1, r.2)
      else none
  | n + 1, inner, c :: cs =>
      if c = '}' ∧ inner then some ([], cs)
      else (pieces n inner cs).map fun r => (.char c :: r.1, r.2)

/-- The pieces of a whole text. -/
def parse (t : String) : Option (List Piece) :=
  (pieces (t.toList.length + 1) false t.toList).map Prod.fst

/-! ## the meaning of a text -/

/-- A character, or a bare name to be replaced. -/
inductive Atom where
  | char (c : Char)
  | name (x : String)
  deriving DecidableEq

section Meaning

variable (env : String → Option String)

/-- A value that counts; with a colon an empty one does not. -/
def counted (colon : Bool) (name : String) : Option String :=
  (env name).filter fun v => !colon || v ≠ ""

mutual

/-- Resolve the braces of a piece; a requirement that fails gives none. -/
def Piece.atoms : Piece → Option (List Atom)
  | .char c => some [.char c]
  | .bare x => some [.name x]
  | .braced x form arg =>
      match form with
      | .plain => some (((env x).getD "").toList.map .char)
      | .default colon =>
          match counted env colon x with
          | some v => some (v.toList.map .char)
          | none => atomsAll arg
      | .required colon => (counted env colon x).map fun v => v.toList.map .char
      | .replacement colon =>
          match counted env colon x with
          | some _ => atomsAll arg
          | none => some []

def atomsAll : List Piece → Option (List Atom)
  | [] => some []
  | p :: ps => p.atoms.bind fun as => (atomsAll ps).map fun bs => as ++ bs

end

/-- The characters of an atom; a name without a value is empty. -/
def Atom.value : Atom → List Char
  | .char c => [c]
  | .name x => ((env x).getD "").toList

/-- A text with its variables replaced, `none` if it is invalid or a requirement
fails. -/
def expand (t : String) : Option String :=
  ((parse t).bind (atomsAll env)).map fun as => String.ofList (as.flatMap (Atom.value env))

/-- The bare names a text is left with once its braces are resolved. -/
def bareNames (t : String) : List String :=
  (((parse t).bind (atomsAll env)).getD []).filterMap fun a =>
    match a with
    | .char _ => none
    | .name x => some x

end Meaning

mutual

/-- The names a piece refers to in braces. -/
def Piece.bracedNames : Piece → List String
  | .char _ => []
  | .bare _ => []
  | .braced x _ arg => x :: bracedNames arg

def bracedNames : List Piece → List String
  | [] => []
  | p :: ps => p.bracedNames ++ bracedNames ps

end

/-- The names after an opening brace, wherever one stands. -/
def references : List Char → List String
  | [] => []
  | c :: cs =>
      (match c, cs with
        | '$', '{' :: rest => if startsName rest then [nameAt rest] else []
        | _, _ => []) ++ references cs

/-! ## what a text depends on -/

section Dependence

variable {env env' : String → Option String}

mutual

theorem Piece.atoms_congr (p : Piece) (h : ∀ x ∈ p.bracedNames, env x = env' x) :
    p.atoms env = p.atoms env' := by
  cases p with
  | char c => rfl
  | bare x => rfl
  | braced x form arg =>
      have hx : env x = env' x := h x (by simp [Piece.bracedNames])
      have harg := atomsAll_congr arg fun y hy => h y (by simp [Piece.bracedNames, hy])
      cases form <;> simp [Piece.atoms, counted, hx, harg]

/-- Resolving the braces of a text reads only the names in them. -/
theorem atomsAll_congr (ps : List Piece) (h : ∀ x ∈ bracedNames ps, env x = env' x) :
    atomsAll env ps = atomsAll env' ps := by
  cases ps with
  | nil => rfl
  | cons p ps =>
      have hp := Piece.atoms_congr p fun x hx => h x (by simp [bracedNames, hx])
      have hps := atomsAll_congr ps fun x hx => h x (by simp [bracedNames, hx])
      simp [atomsAll, hp, hps]

end

theorem mem_references_cons {c : Char} {cs : List Char} {x : String} (h : x ∈ references cs) :
    x ∈ references (c :: cs) := by
  show x ∈ (_ : List String) ++ references cs
  exact List.mem_append_right _ h

/-- A reference further on in a text is one of the text. -/
theorem references_of_suffix {cs cs' : List Char} (h : cs <:+ cs') {x : String}
    (hx : x ∈ references cs) : x ∈ references cs' := by
  obtain ⟨front, rfl⟩ := h
  induction front with
  | nil => exact hx
  | cons c front ih => exact mem_references_cons ih

theorem mem_references {cs : List Char} (h : startsName cs = true) :
    nameAt cs ∈ references ('$' :: '{' :: cs) := by
  simp [references, h]

theorem suffix_cons_cons {α : Type*} (a b : α) (l : List α) : l <:+ a :: b :: l := ⟨[a, b], rfl⟩

theorem formAt_suffix {cs : List Char} {r : Form × List Char} (h : formAt cs = some r) :
    r.2 <:+ cs := by
  unfold formAt at h
  split at h <;> simp only [Option.some.injEq, reduceCtorEq] at h <;> subst h <;>
    simp [suffix_cons_cons]

theorem pieces_char {n : Nat} {inner : Bool} {c : Char} {cs : List Char} (h : c ≠ '$') :
    pieces (n + 1) inner (c :: cs) = if c = '}' ∧ inner then some ([], cs)
      else (pieces n inner cs).map fun r => (.char c :: r.1, r.2) := by
  rw [pieces]
  · exact fun _ hc => absurd hc h
  · exact fun _ hc => absurd hc h
  · exact h

/-- Parsing goes through a text, and meets the names in braces where a brace opens. -/
theorem bracedNames_subset {n : Nat} {inner : Bool} {cs : List Char}
    {r : List Piece × List Char} (h : pieces n inner cs = some r) :
    r.2 <:+ cs ∧ ∀ x ∈ bracedNames r.1, x ∈ references cs := by
  induction n, inner, cs using pieces.induct generalizing r with
  | case1 => simp [pieces] at h
  | case2 => simp [pieces] at h
  | case3 n inner hinner =>
      simp only [pieces, hinner, Bool.false_eq_true, if_false, Option.some.injEq] at h
      subst h
      simp [bracedNames]
  | case4 n inner cs ih =>
      obtain ⟨r', hr', rfl⟩ := Option.map_eq_some_iff.mp h
      obtain ⟨hsuffix, hnames⟩ := ih hr'
      refine ⟨hsuffix.trans (suffix_cons_cons _ _ _), fun x hx => ?_⟩
      exact mem_references_cons (mem_references_cons (hnames x (by simpa [bracedNames, Piece.bracedNames] using hx)))
  | case5 n inner cs hstarts iharg ihrest =>
      simp only [pieces, hstarts, if_true] at h
      obtain ⟨form, hform, h⟩ := Option.bind_eq_some_iff.mp h
      obtain ⟨arg, harg, h⟩ := Option.bind_eq_some_iff.mp h
      obtain ⟨r', hr', rfl⟩ := Option.map_eq_some_iff.mp h
      obtain ⟨hsuffix, hnames⟩ := iharg form harg
      obtain ⟨hsuffix', hnames'⟩ := ihrest arg hr'
      have hopen : form.2 <:+ '$' :: '{' :: cs :=
        ((formAt_suffix hform).trans (List.dropWhile_suffix _)).trans (suffix_cons_cons _ _ _)
      refine ⟨(hsuffix'.trans hsuffix).trans hopen, fun x hx => ?_⟩
      simp only [bracedNames, Piece.bracedNames, List.cons_append, List.mem_cons,
        List.mem_append] at hx
      rcases hx with rfl | hx | hx
      · exact mem_references hstarts
      · exact references_of_suffix hopen (hnames x hx)
      · exact references_of_suffix (hsuffix.trans hopen) (hnames' x hx)
  | case6 n inner cs hstarts => simp [pieces, hstarts] at h
  | case7 n inner cs _ _ hstarts ih =>
      simp only [pieces, hstarts, if_true] at h
      obtain ⟨r', hr', rfl⟩ := Option.map_eq_some_iff.mp h
      obtain ⟨hsuffix, hnames⟩ := ih hr'
      have hrest : cs.dropWhile nameChar <:+ '$' :: cs :=
        (List.dropWhile_suffix _).trans (List.suffix_cons _ _)
      refine ⟨hsuffix.trans hrest, fun x hx => ?_⟩
      exact references_of_suffix hrest (hnames x (by simpa [bracedNames, Piece.bracedNames] using hx))
  | case8 n inner cs _ _ hstarts => simp [pieces, hstarts] at h
  | case9 n inner c cs _ _ hc hclose =>
      rw [pieces_char hc, if_pos hclose] at h
      obtain rfl := Option.some.inj h
      exact ⟨List.suffix_cons _ _, by simp [bracedNames]⟩
  | case10 n inner c cs _ _ hc hclose ih =>
      rw [pieces_char hc, if_neg hclose] at h
      obtain ⟨r', hr', rfl⟩ := Option.map_eq_some_iff.mp h
      obtain ⟨hsuffix, hnames⟩ := ih hr'
      refine ⟨hsuffix.trans (List.suffix_cons _ _), fun x hx => ?_⟩
      exact mem_references_cons (hnames x (by simpa [bracedNames, Piece.bracedNames] using hx))

/-- The names in braces of a whole text. -/
theorem bracedNames_parse {t : String} {ps : List Piece} (h : parse t = some ps) :
    ∀ x ∈ bracedNames ps, x ∈ references t.toList := by
  obtain ⟨r, hr, rfl⟩ := Option.map_eq_some_iff.mp h
  exact (bracedNames_subset hr).2

/-- The braces of a text resolve alike where its references have the same values. -/
theorem atoms_congr {t : String} (h : ∀ x ∈ references t.toList, env x = env' x) :
    (parse t).bind (atomsAll env) = (parse t).bind (atomsAll env') := by
  cases hparse : parse t with
  | none => rfl
  | some ps => exact atomsAll_congr ps fun x hx => h x (bracedNames_parse hparse x hx)

/-- Whether a text expands at all depends on what it refers to in braces. -/
theorem isSome_expand_congr {t : String} (h : ∀ x ∈ references t.toList, env x = env' x) :
    (expand env t).isSome = (expand env' t).isSome := by
  have hatoms := atoms_congr h
  simp only [expand, Option.isSome_map, hatoms]

theorem mem_bareNames {t : String} {as : List Atom} {x : String}
    (has : (parse t).bind (atomsAll env) = some as) :
    x ∈ bareNames env t ↔ .name x ∈ as := by
  simp only [bareNames, has, Option.getD_some, List.mem_filterMap]
  constructor
  · rintro ⟨a, ha, hname⟩
    cases a with
    | char c => cases hname
    | name y => exact Option.some.inj hname ▸ ha
  · exact fun h => ⟨_, h, rfl⟩

/-- Two environments that agree on what a text refers to in braces, and on the bare
names it is left with, expand it alike. -/
theorem expand_congr {t : String} (hbraced : ∀ x ∈ references t.toList, env x = env' x)
    (hbare : ∀ x ∈ bareNames env t, env x = env' x) : expand env t = expand env' t := by
  have hatoms := atoms_congr hbraced
  unfold expand
  rw [← hatoms]
  cases has : (parse t).bind (atomsAll env) with
  | none => rfl
  | some as =>
      have hvalue : ∀ a ∈ as, a.value env = a.value env' := by
        intro a ha
        cases a with
        | char c => rfl
        | name x => simp only [Atom.value, hbare x ((mem_bareNames has).mpr ha)]
      have hflat : as.flatMap (Atom.value env) = as.flatMap (Atom.value env') :=
        List.flatMap_congr hvalue
      simp only [Option.map_some, hflat]

/-- The characters of a text only grow with the value of a name, and do where the
name is left. -/
theorem length_flatMap_value {as : List Atom} {x : String} (hother : ∀ y, y ≠ x → env y = env' y)
    (hempty : env x = some "") :
    (as.flatMap (Atom.value env)).length ≤ (as.flatMap (Atom.value env')).length ∧
      (env' x = some "a" → .name x ∈ as →
        (as.flatMap (Atom.value env)).length < (as.flatMap (Atom.value env')).length) := by
  induction as with
  | nil => simp
  | cons a as ih =>
      simp only [List.flatMap_cons, List.length_append]
      by_cases ha : a = .name x
      · subst ha
        have hnil : (Atom.name x).value env = [] := by simp [Atom.value, hempty]
        rw [hnil, List.length_nil]
        refine ⟨by omega, fun hone _ => ?_⟩
        have hval : (Atom.name x).value env' = ['a'] := by simp [Atom.value, hone]
        rw [hval, List.length_singleton]
        omega
      · have hsame : a.value env = a.value env' := by
          cases a with
          | char c => rfl
          | name y =>
              have hne : y ≠ x := fun h => ha (h ▸ rfl)
              simp only [Atom.value, hother y hne]
        rw [hsame]
        refine ⟨by omega, fun hone hmem => ?_⟩
        have hin : Atom.name x ∈ as := (List.mem_cons.mp hmem).resolve_left (Ne.symm ha)
        have hlt := ih.2 hone hin
        omega

/-- A bare name that a text is left with, and that it does not refer to in braces,
makes a difference. -/
theorem expand_ne {t : String} {x : String} (hx : x ∈ bareNames env t)
    (hnot : x ∉ references t.toList) :
    expand (Function.update env x (some "")) t ≠ expand (Function.update env x (some "a")) t := by
  cases has : (parse t).bind (atomsAll env) with
  | none => simp [bareNames, has] at hx
  | some as =>
      have hatoms : ∀ v, (parse t).bind (atomsAll (Function.update env x v)) = some as := by
        intro v
        rw [← has]
        have hsame : ∀ y ∈ references t.toList, Function.update env x v y = env y := by
          intro y hy
          have hne : y ≠ x := fun h => hnot (h ▸ hy)
          exact Function.update_of_ne hne _ _
        exact atoms_congr hsame
      intro heq
      simp only [expand, hatoms, Option.map_some, Option.some.injEq] at heq
      have hlist := congrArg (fun s => s.toList.length) heq
      simp only [String.toList_ofList] at hlist
      have hlt := (@length_flatMap_value (Function.update env x (some ""))
        (Function.update env x (some "a")) as x
        (fun y hy => by rw [Function.update_of_ne hy, Function.update_of_ne hy])
        (Function.update_self _ _ _)).2 (Function.update_self _ _ _) ((mem_bareNames has).mp hx)
      omega

end Dependence

/-! ## texts without variables -/

theorem pieces_plain {n : Nat} {cs : List Char} (hn : cs.length < n) (h : '$' ∉ cs) :
    pieces n false cs = some (cs.map .char, []) := by
  induction cs generalizing n with
  | nil =>
      obtain ⟨n, rfl⟩ := Nat.exists_eq_succ_of_ne_zero (Nat.ne_of_gt hn)
      rfl
  | cons c cs ih =>
      obtain ⟨n, rfl⟩ := Nat.exists_eq_succ_of_ne_zero (Nat.ne_of_gt (Nat.zero_lt_of_lt hn))
      simp only [List.mem_cons, not_or] at h
      have hrest := @ih n (by simpa using hn) h.2
      rw [pieces_char (Ne.symm h.1), if_neg (by simp), hrest]
      rfl

theorem atomsAll_chars (env : String → Option String) (cs : List Char) :
    atomsAll env (cs.map .char) = some (cs.map .char) := by
  induction cs with
  | nil => rfl
  | cons c cs ih => simp [atomsAll, Piece.atoms, ih]

/-- A text without a dollar is left with no bare name. -/
theorem bareNames_plain (env : String → Option String) {t : String} (h : '$' ∉ t.toList) :
    bareNames env t = [] := by
  have hpieces := pieces_plain (Nat.lt_succ_self _) h
  simp [bareNames, parse, hpieces, atomsAll_chars]

/-- A text without a dollar is its own expansion. -/
theorem expand_plain (env : String → Option String) {t : String} (h : '$' ∉ t.toList) :
    expand env t = some t := by
  have hpieces := pieces_plain (Nat.lt_succ_self _) h
  have hflat : (t.toList.map Atom.char).flatMap (Atom.value env) = t.toList := by
    rw [List.flatMap_map]
    exact List.flatMap_singleton' _
  simp [expand, parse, hpieces, atomsAll_chars, hflat]

end Kit
