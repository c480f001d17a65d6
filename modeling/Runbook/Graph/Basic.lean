import Runbook.Graph.Issue
import Runbook.Graph.Sort

/-!
# Dependency graphs

A step depends on every step that it refers to in its inputs, condition, loop source or body, and on every step that it lists.
A graph is built only from a definition without faults and without cycles.
-/

namespace Runbook

/-- The steps of a valid definition in authoring order, each with the steps it depends on, and an order of execution. -/
structure Graph where
  nodes : List (String × Names)
  order : List String
  deriving Repr

namespace Definition

def ids (d : Definition) : List String := d.steps.map (·.id)

/-- The ids that are not blank. -/
def knownIds (d : Definition) : List String := d.ids.filter (!isBlankId ·)

/-- What is wrong with the ids of the steps from a position on, given the ids before. -/
def idIssues (position : Nat) (seen : List String) : List Step → List Issue
  | [] => []
  | s :: rest =>
    if isBlankId s.id then .emptyId position :: idIssues (position + 1) seen rest
    else
      (if isReservedId s.id then [.reservedId s.id] else [])
        ++ (if seen.contains s.id then [.duplicateStep s.id] else [])
        ++ idIssues (position + 1) (s.id :: seen) rest

/-- The listed dependencies of a step that name no step. -/
def unknownDependencies (known : List String) (s : Step) : List Issue :=
  (s.dependsOn.filter (!known.contains ·)).map (.unknownDependency s.id)

/-- Everything that is wrong with a definition, cycles aside. -/
def issues (d : Definition) : List Issue :=
  let known := d.knownIds
  idIssues 0 [] d.steps
    ++ (d.plans.filter (!isBlankId ·.step.id)).flatMap (fun p => p.issues known p.step.id)
    ++ d.steps.flatMap (unknownDependencies known)

/-- The steps that a plan depends on. -/
def dependenciesOf (known : List String) (p : Plan) : Names :=
  (Names.union p.references (Names.ofList p.step.dependsOn)).filter known.contains

end Definition

namespace Graph

/-- The steps that must have ended before a step begins. -/
def dependencies (g : Graph) (id : String) : Names := ((g.nodes.find? (·.1 == id)).map (·.2)).getD []

/-- The steps that wait for a step. -/
def dependents (g : Graph) (id : String) : Names :=
  Names.ofList ((g.nodes.filter fun n => n.2.contains id).map (·.1))

/-- The steps in authoring order. -/
def steps (g : Graph) : List String := g.nodes.map (·.1)

/-- The steps that depend on nothing, in authoring order. -/
def roots (g : Graph) : List String := (g.nodes.filter (·.2.isEmpty)).map (·.1)

/-- The pairs of a dependency and its dependent, in the order of execution of the dependents. -/
def edges (g : Graph) : List (String × String) := g.order.flatMap fun id => (g.dependencies id).map (·, id)

/-- The graph of a definition. -/
def build (d : Definition) : Except ValidationError Graph :=
  match d.issues with
  | [] =>
    let nodes := d.plans.map fun p => (p.step.id, Definition.dependenciesOf d.knownIds p)
    match Sort.topological (nodes.map (·.1)) (Graph.dependencies ⟨nodes, []⟩) with
    | .ok order => .ok ⟨nodes, order⟩
    | .error steps => .error (.cycle steps)
  | issues => .error (.invalid issues)

end Graph

end Runbook
