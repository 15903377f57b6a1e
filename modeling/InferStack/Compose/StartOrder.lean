import InferStack.Compose.SelectiveApply

/-!
# InferStack.Compose.StartOrder

The order in which services start.

Whatever the services depend on, the rounds end and start every name once.
Where the names depend on one another without a cycle, a database starts before
the gateway that needs it.
-/

namespace InferStack

open Kit

/-- The services that a service depends on; one that is not rendered depends on none. -/
def Project.dependencies (p : Project) (name : String) : List String :=
  ((p.services.find? name).map (·.dependsOn.map Prod.fst)).getD []

/-- A start order of some names: the loop ends with it, it has each name once, and
without a cycle among them a name comes after those it depends on. -/
structure StartOrder (p : Project) (names : List String) (order : List (List String)) : Prop where
  ends : Rounds p.dependencies [] names.eraseDups order
  each : order.flatten.Perm names.eraseDups
  earlier : (∀ n, ¬ Relation.TransGen (DependsIn p.dependencies names) n n) →
    ∀ (i : Nat) (level : List String), order[i]? = some level → ∀ n ∈ level, ∀ d ∈ p.dependencies n, d ∈ names →
      ∃ j < i, ∃ before : List String, order[j]? = some before ∧ d ∈ before

/-- The start order of selective apply is that of the names of its services. -/
theorem dependencyLevels_eq (p : Project) (services : List Service) :
    dependencyLevels p services = levels p.dependencies (services.map Service.name) := rfl

/-- Any names, of any project, have a start order. -/
theorem levels_startOrder (p : Project) (names : List String) :
    StartOrder p names (levels p.dependencies names) where
  ends := levels_rounds p.dependencies names
  each := flatten_levels_perm_eraseDups p.dependencies names
  earlier hacyclic _ _ hlevel _ hn _ hd hnames := levels_earlier hacyclic hlevel hn hd hnames

/-- A gateway that needs a database, a page that needs the gateway, and a model. -/
def stackProject : Project where
  services := Table.ofList [{ name := "ui", dependsOn := [("gw", true)] },
    { name := "gw", dependsOn := [("db", true), ("old", false)] }, { name := "db" }, { name := "m" }]
  fingerprints := id

/-- Each of its services starts after those it needs. -/
theorem stackProject_starts :
    levels stackProject.dependencies ["ui", "gw", "db", "m", "gw"] =
      [["db", "m"], ["gw"], ["ui"]] ∧
    ∀ (i : Nat) (level : List String),
      (levels stackProject.dependencies ["ui", "gw", "db", "m", "gw"])[i]? = some level →
      ∀ n ∈ level, ∀ d ∈ stackProject.dependencies n, d ∈ ["ui", "gw", "db", "m", "gw"] →
        ∃ j < i, ∃ before : List String,
          (levels stackProject.dependencies ["ui", "gw", "db", "m", "gw"])[j]? = some before ∧
            d ∈ before := by
  have hacyclic : ∀ n, ¬ Relation.TransGen
      (DependsIn stackProject.dependencies ["ui", "gw", "db", "m", "gw"]) n n :=
    acyclic_of_rank (fun n => if n = "ui" then 2 else if n = "gw" then 1 else 0)
      (by decide +kernel)
  exact ⟨by decide +kernel, (levels_startOrder stackProject _).earlier hacyclic⟩

/-- A gateway that needs a database, which lists itself. -/
def gatewayProject : Project where
  services := Table.ofList [{ name := "gw", dependsOn := [("db", true), ("old", false)] },
    { name := "db", dependsOn := [("db", false)] }, { name := "m" }]
  fingerprints := id

example : levels gatewayProject.dependencies ["gw", "db", "m", "gw", "x"] =
    [["m", "x"], ["db", "gw"]] := by decide +kernel

end InferStack
