import Mathlib.Data.List.Infix

/-!
# InferStack.Kit.Regex

Regular expressions, matched by backtracking from the start of a text.

A match is given by what is left of the text after it.  `rests` lists them in
the order in which a backtracking matcher tries them, so that its head is the
match that such a matcher reports.
-/

namespace Kit

/-- A regular expression whose repetitions are of single characters. -/
inductive Re (α : Type*) where
  | text (t : List α)
  | one (p : α → Bool)
  | many (p : α → Bool)
  | seq (r s : Re α)
  | alt (r s : Re α)
  /-- No character of the class comes next. -/
  | edge (p : α → Bool)
  /-- The end of the text, or of its last line. -/
  | finish (newline : α)

namespace Re

variable {α : Type*}

/-- What is left after each number of characters of a class, the longest match first. -/
def manyRests (p : α → Bool) : List α → List (List α)
  | [] => [[]]
  | c :: cs => if p c then manyRests p cs ++ [c :: cs] else [c :: cs]

/-- What is left after each match at the start of a text. -/
def rests [DecidableEq α] : Re α → List α → List (List α)
  | .text t, cs => if t.isPrefixOf cs then [cs.drop t.length] else []
  | .one _, [] => []
  | .one p, c :: cs => if p c then [cs] else []
  | .many p, cs => manyRests p cs
  | .seq r s, cs => (rests r cs).flatMap (rests s)
  | .alt r s, cs => rests r cs ++ rests s cs
  | .edge p, cs => if cs.head?.any p then [] else [cs]
  | .finish newline, cs => if cs = [] ∨ cs = [newline] then [cs] else []

/-- One or more characters of a class. -/
def some (p : α → Bool) : Re α := .seq (.one p) (.many p)

/-- A match of it, or of nothing. -/
def opt (r : Re α) : Re α := .alt r (.text [])

/-- One match after the other. -/
def all : List (Re α) → Re α
  | [] => .text []
  | r :: rs => .seq r (all rs)

/-- The first of some that matches. -/
def any : List (Re α) → Re α
  | [] => .one fun _ => false
  | r :: rs => .alt r (any rs)

section

variable [DecidableEq α]

/-- A match at the start of the text. -/
def matchesStart (r : Re α) (cs : List α) : Bool := ! (rests r cs).isEmpty

/-- The text without a match at its start. -/
def dropMatch (r : Re α) (cs : List α) : List α := (rests r cs).headD cs

/-- The text without any match; `skip` counts the characters of an open match.
The expression matches no empty text. -/
def sub (r : Re α) : (skip : Nat) → List α → List α
  | _, [] => []
  | skip + 1, _ :: cs => sub r skip cs
  | 0, c :: cs =>
      match (rests r (c :: cs)).head? with
      | none => c :: sub r 0 cs
      | .some rest => sub r (cs.length - rest.length) cs

end

/-! ## what a match leaves -/

variable [DecidableEq α]

end Re

end Kit
