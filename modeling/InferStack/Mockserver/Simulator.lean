import InferStack.Kit.Descent
import InferStack.Kit.Table
import Mathlib.Data.Rat.Lemmas
import Mathlib.Algebra.Order.Ring.Rat

/-!
# InferStack.Mockserver.Simulator

Which questions a simulated model knows.

A model knows a question if its own draw succeeds and it knows every step that
the question is composed of.  Only a question that lists itself is guarded
against, so a longer circle of steps is followed for ever;
`knows_wellDefined_iff` says exactly when.
-/

namespace InferStack.Mockserver

open Kit

/-- The configuration of one simulated model. -/
structure ModelProfile where
  modelId : String
  ability : ℚ
  servedModelName : Option String := none
  deriving DecidableEq

/-- The simulator; `unitHash` maps parts to a number from 0 to 1. -/
structure Simulator where
  profiles : Table ModelProfile ModelProfile.modelId
  composition : Dict String (List String)
  seed : String
  unitHash : List String → ℚ

/-- Why a question has no answer: nobody is called so, or asking went too deep. -/
inductive KnowsError where
  | unknownModel (modelId : String)
  | tooDeep
  deriving DecidableEq, Repr

/-- Ability and difficulty, blended and clipped. -/
def skillVsDifficulty (ability difficulty : ℚ) : ℚ :=
  min (max (3 / 20 + 9 / 10 * ability - 7 / 20 * difficulty) (1 / 50)) (49 / 50)

namespace Simulator

variable (s : Simulator)

/-- Find a profile by id or by its alias. -/
def resolveProfile (modelId : String) : Option ModelProfile :=
  (s.profiles.find? modelId).or
    (s.profiles.rows.find? fun candidate => candidate.servedModelName = some modelId)

/-- How hard a question is, for every model. -/
def difficultyFor (latentKey : String) : ℚ := s.unitHash [s.seed, "difficulty", latentKey]

/-- A model's own draw for a question. -/
def own (profile : ModelProfile) (latentKey : String) : Bool :=
  s.unitHash [s.seed, "knows", profile.modelId, latentKey] <
    skillVsDifficulty profile.ability (s.difficultyFor latentKey)

/-- The steps that a question is composed of. -/
def stepsOf (latentKey : String) : List String := (s.composition.get? latentKey).getD []

/-- Whether a model knows a question, asked at most so deep. -/
def knows (depth : Nat) (modelId latentKey : String) (profile : Option ModelProfile := none) :
    Except KnowsError Bool :=
  match profile.or (s.resolveProfile modelId) with
  | none => .error (.unknownModel modelId)
  | some profile =>
      match descend (s.own profile) s.stepsOf depth latentKey with
      | none => .error .tooDeep
      | some answer => .ok answer

/-! ## what it takes to be well defined -/

/-- Asking a model comes to an end, it knows exactly the questions all of whose reachable draws
succeed, and its alias gets the same answer. -/
structure WellDefined (profile : ModelProfile) (latentKey : String) : Prop where
  terminates : ∃ depth answer, s.knows depth profile.modelId latentKey = .ok answer
  answer : ∀ depth answer, s.knows depth profile.modelId latentKey = .ok answer →
    (answer = true ↔ ∀ key, Relation.ReflTransGen (fun q k => k ∈ s.stepsOf q) latentKey key →
      s.own profile key = true)
  byAlias : ∀ served, profile.servedModelName = some served → ∃ depth answer,
    s.knows depth profile.modelId latentKey = .ok answer ∧
      s.knows depth served latentKey = .ok answer

/-- No question that is reached by asking asks for itself, and where an alias names another
model, that model's draws come to the same. -/
structure Answerable (profile : ModelProfile) (latentKey : String) : Prop where
  noCircle : NoCircle (s.own profile) s.stepsOf latentKey
  byAlias : ∀ served other, profile.servedModelName = some served →
    s.resolveProfile served = some other → other = profile ∨
      (NoCircle (s.own other) s.stepsOf latentKey ∧
        (AllRight (s.own other) s.stepsOf latentKey ↔
          AllRight (s.own profile) s.stepsOf latentKey))

variable {s} {profile : ModelProfile} {latentKey : String}

theorem finite_stepsOf : {k | ∃ q, k ∈ s.stepsOf q}.Finite := by
  refine (List.finite_toSet (s.composition.rows.flatMap Prod.snd)).subset ?_
  rintro k ⟨q, hk⟩
  unfold stepsOf at hk
  cases hget : s.composition.get? q with
  | none => simp [hget] at hk
  | some ks =>
      rw [hget, Option.getD_some] at hk
      exact List.mem_flatMap.mpr ⟨(q, ks), Dict.get?_eq_some.mp hget, hk⟩

theorem knows_eq_ok {depth : Nat} {name : String} {answer : Bool}
    (h : s.resolveProfile name = some profile) : s.knows depth name latentKey = .ok answer ↔
      descend (s.own profile) s.stepsOf depth latentKey = some answer := by
  unfold knows
  rw [Option.none_or, h]
  cases hdescend : descend (s.own profile) s.stepsOf depth latentKey with
  | none => simp [hdescend]
  | some b => simp [hdescend]

theorem resolveProfile_self (h : profile ∈ s.profiles) :
    s.resolveProfile profile.modelId = some profile := by
  rw [resolveProfile, Table.mem_iff_find?.mp h, Option.some_or]

/-- An alias names some model. -/
theorem exists_resolveProfile (h : profile ∈ s.profiles) {served : String}
    (hserved : profile.servedModelName = some served) :
    ∃ other, s.resolveProfile served = some other := by
  cases hfind : s.profiles.rows.find? (fun c => c.servedModelName = some served) with
  | none =>
      have hnot := List.find?_eq_none.mp hfind profile h
      simp [hserved] at hnot
  | some other =>
      unfold resolveProfile
      rw [hfind]
      cases s.profiles.find? served with
      | none => exact ⟨other, rfl⟩
      | some first => exact ⟨first, rfl⟩

/-- A model has an answer exactly if asking it goes in no circle. -/
theorem exists_knows_iff {name : String} (h : s.resolveProfile name = some profile) :
    (∃ depth answer, s.knows depth name latentKey = .ok answer) ↔
      NoCircle (s.own profile) s.stepsOf latentKey := by
  rw [← exists_descend_iff finite_stepsOf]
  exact exists_congr fun depth => exists_congr fun answer => knows_eq_ok h

theorem noCircle_of_wellDefined (hin : profile ∈ s.profiles) (h : s.WellDefined profile latentKey) :
    NoCircle (s.own profile) s.stepsOf latentKey :=
  (exists_knows_iff (resolveProfile_self hin)).mp h.terminates

/-- Two names of models whose draws come to the same get the same answer at some depth. -/
theorem same_answer {other : ModelProfile} {name name' : String}
    (hname : s.resolveProfile name = some profile) (hname' : s.resolveProfile name' = some other)
    (hcircle : NoCircle (s.own profile) s.stepsOf latentKey)
    (hcircle' : NoCircle (s.own other) s.stepsOf latentKey)
    (hright : AllRight (s.own other) s.stepsOf latentKey ↔
      AllRight (s.own profile) s.stepsOf latentKey) :
    ∃ depth answer, s.knows depth name latentKey = .ok answer ∧
      s.knows depth name' latentKey = .ok answer := by
  obtain ⟨n, b, hb⟩ := (exists_descend_iff finite_stepsOf).mpr hcircle
  obtain ⟨m, b', hb'⟩ := (exists_descend_iff finite_stepsOf).mpr hcircle'
  have hsame : b' = b := by
    have hiff := ((descend_answer hb').trans hright).trans (descend_answer hb).symm
    cases b <;> cases b' <;> simp_all
  subst hsame
  exact ⟨max n m, b', (knows_eq_ok hname).mpr (descend_mono (Nat.le_max_left n m) hb),
    (knows_eq_ok hname').mpr (descend_mono (Nat.le_max_right n m) hb')⟩

/-- Knowing is well defined for a model and a question exactly if asking goes in no circle, and
the alias of the model comes to the same. -/
theorem knows_wellDefined_iff (hin : profile ∈ s.profiles) :
    s.WellDefined profile latentKey ↔ s.Answerable profile latentKey := by
  have hself := resolveProfile_self hin
  constructor
  · intro h
    refine ⟨noCircle_of_wellDefined hin h, fun served other hserved hother => .inr ?_⟩
    obtain ⟨depth, answer, hown, halias⟩ := h.byAlias served hserved
    have hcircle := (exists_knows_iff hother).mp ⟨depth, answer, halias⟩
    have hright := descend_answer ((knows_eq_ok hself).mp hown)
    have hright' := descend_answer ((knows_eq_ok hother).mp halias)
    exact ⟨hcircle, hright'.symm.trans hright⟩
  · intro h
    refine ⟨(exists_knows_iff hself).mpr h.noCircle, fun depth answer hanswer =>
      descend_answer ((knows_eq_ok hself).mp hanswer), fun served hserved => ?_⟩
    obtain ⟨other, hother⟩ := exists_resolveProfile hin hserved
    cases h.byAlias served other hserved hother with
    | inl heq =>
        subst heq
        exact same_answer hself hother h.noCircle h.noCircle Iff.rfl
    | inr hsame => exact same_answer hself hother h.noCircle hsame.1 hsame.2

end Simulator

/-- What the default seed draws for a model `strong`, a question `parent` and its `child`. -/
def defaultHash (parts : List String) : ℚ :=
  if parts = ["infer-stack-mock", "knows", "strong", "parent"] then
    5995603091212877 / 18014398509481984
  else if parts = ["infer-stack-mock", "knows", "strong", "child"] then
    8296922877192157 / 18014398509481984
  else if parts = ["infer-stack-mock", "difficulty", "parent"] then
    6783292367774819 / 18014398509481984
  else if parts = ["infer-stack-mock", "difficulty", "child"] then
    3130190437041363 / 72057594037927936
  else 0

def strong : ModelProfile := ⟨"strong", 19 / 20, some "s"⟩

/-- A simulator of one model, with the steps of `parent` and of `child`. -/
def family (parent child : List String) : Simulator where
  profiles := Table.ofList [strong]
  composition := Table.ofList [("parent", parent), ("child", child)]
  seed := "infer-stack-mock"
  unitHash := defaultHash

theorem knows_wellDefined_iff_family :
    (family ["child", "parent"] []).WellDefined strong "parent" := by
  have hin : strong ∈ (family ["child", "parent"] []).profiles :=
    Table.mem_iff_find?.mpr (by decide +kernel)
  refine (Simulator.knows_wellDefined_iff hin).mpr ⟨?_, fun served other hserved hother => ?_⟩
  · refine (exists_descend_iff Simulator.finite_stepsOf).mp ⟨2, true, ?_⟩
    decide +kernel
  · obtain rfl := Option.some.inj hserved
    have hresolve : (family ["child", "parent"] []).resolveProfile "s" = some strong := by
      decide +kernel
    exact .inl (Option.some.inj (hother.symm.trans hresolve))

/-- `parent` is composed of `child`, and `child` of `parent`. -/
theorem not_wellDefined : ¬ (family ["child"] ["parent"]).WellDefined strong "parent" := by
  intro h
  have hin : strong ∈ (family ["child"] ["parent"]).profiles :=
    Table.mem_iff_find?.mpr (by decide +kernel)
  have hparent : Asks ((family ["child"] ["parent"]).own strong)
      (family ["child"] ["parent"]).stepsOf "parent" "child" :=
    ⟨by decide +kernel, by decide, [], [], by decide +kernel, by simp⟩
  have hchild : Asks ((family ["child"] ["parent"]).own strong)
      (family ["child"] ["parent"]).stepsOf "child" "parent" :=
    ⟨by decide +kernel, by decide, [], [], by decide +kernel, by simp⟩
  exact Simulator.noCircle_of_wellDefined hin h "parent" .refl
    (Relation.TransGen.tail (.single hparent) hchild)

end InferStack.Mockserver
