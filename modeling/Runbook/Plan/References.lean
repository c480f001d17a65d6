import Runbook.Plan.Basic
import Runbook.Template.References

/-!
# What a plan refers to

The names in the fragments of a step, of its condition and of its loop source, and those of its body that do not name a step of
the same body.
-/

namespace Runbook

namespace Step

/-- The sources of a step that are conditions or loop sources. -/
def sources (s : Step) : List Source := (s.condition.toList ++ s.forEach.toList).map Source.ofString

/-- The names that a step refers to, its body left aside. -/
def ownReferences (s : Step) : Names :=
  Names.union (s.inputsWithoutBody.references reservedNames)
    (Names.ofList (s.sources.flatMap (·.references reservedNames)))

end Step

namespace Plan

mutual

/-- The names that a plan refers to. -/
def references : Plan → Names
  | single s => s.ownReferences
  | broken s _ => s.ownReferences
  | loop s body =>
    Names.union s.ownReferences ((bodyReferences body).filter fun name => !(body.map (·.step.id)).contains name)

/-- The names that the plans of a body refer to. -/
def bodyReferences : List Plan → Names
  | [] => []
  | p :: ps => Names.union p.references (bodyReferences ps)

end

end Plan

end Runbook
