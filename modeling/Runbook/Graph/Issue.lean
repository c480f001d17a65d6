import Runbook.Plan.References
import Runbook.Text.Distance

/-!
# What is wrong with a definition
-/

namespace Runbook

/-- What is wrong with the body of a loop step. -/
inductive BodyIssue where
  | undecodable (error : BodyError)
  | empty
  | emptyId (position : Nat)
  | reservedId (id : String)
  | shadows (id : String)
  | duplicateId (id : String)
  deriving Repr

def BodyIssue.message : BodyIssue → String
  | undecodable error => error.message
  | empty => "body has no steps"
  | emptyId position => s!"body step #{position} has an empty id"
  | reservedId id => s!"body step id '{id}' is a reserved name"
  | shadows id => s!"body step '{id}' shadows a top-level step"
  | duplicateId id => s!"duplicate body step id: {id}"

/-- The parts of a step that hold expressions. -/
inductive StepField where
  | inputs | condition | forEach
  deriving DecidableEq, Repr

def StepField.name : StepField → String
  | inputs => "inputs"
  | condition => "condition"
  | forEach => "forEach"

/-- One thing that is wrong with a definition. A step of a body is named by the way to it, `loop.step`. -/
inductive Issue where
  | emptyId (position : Nat)
  | duplicateStep (id : String)
  | reservedId (id : String)
  | unknownTool (step tool : String) (suggestion : Option String)
  | expression (step : String) (field : StepField) (error : ExprError)
  | unknownDependency (step dependency : String)
  | missingLoopSource (step : String)
  | invalidLoopBody (step : String) (issue : BodyIssue)
  deriving Repr

def Issue.message : Issue → String
  | emptyId position => s!"step #{position} has an empty id"
  | duplicateStep id => s!"duplicate step id: {id}"
  | reservedId id => s!"step id '{id}' is a reserved name"
  | unknownTool step tool suggestion =>
    let hint := match suggestion with
      | some s => s!" (did you mean '{s}'?)"
      | none => ""
    s!"step '{step}' uses unknown tool '{tool}'{hint}"
  | expression step field error => s!"step '{step}' {field.name}: {error.message}"
  | unknownDependency step dependency => s!"step '{step}' depends on unknown step '{dependency}'"
  | missingLoopSource step => s!"loop step '{step}' has no forEach source"
  | invalidLoopBody step issue => s!"loop step '{step}' has an invalid body: {issue.message}"

/-- Why a run cannot start. -/
inductive ValidationError where
  | invalid (issues : List Issue)
  | cycle (steps : List String)
  | missingInput (name : String)
  deriving Repr

def ValidationError.message : ValidationError → String
  | invalid issues => "workflow validation failed:\n  " ++ "\n  ".intercalate (issues.map Issue.message)
  | cycle steps => "cyclic dependency: " ++ " -> ".intercalate steps
  | missingInput name => s!"missing required input '{name}'"

/-- A name that nothing but blanks makes up. -/
def isBlankId (id : String) : Bool := (Text.trim id).isEmpty

/-- A name that no step may have. -/
def isReservedId (id : String) : Bool := reservedNames.contains id || Expr.literalNames.contains id

namespace Step

/-- What is wrong with a step itself, its body left aside. -/
def ownIssues (s : Step) (label : String) : List Issue :=
  let tool := if s.toolKind?.isNone then [Issue.unknownTool label s.tool (Text.closest? s.tool ToolKind.names)] else []
  let expression (field : StepField) (result : Except ExprError Unit) : List Issue := match result with
    | .error e => [.expression label field e]
    | .ok () => []
  tool ++ expression .inputs s.inputsWithoutBody.validate
    ++ (s.condition.toList.flatMap fun c => expression .condition (Source.ofString c).validate)
    ++ (s.forEach.toList.flatMap fun c => expression .forEach (Source.ofString c).validate)

/-- A loop step needs a sequence to go through. -/
def sourceIssues (s : Step) (label : String) : List Issue := if s.forEach.isNone then [.missingLoopSource label] else []

end Step

/-- What is wrong with the id of a step of a body, given the ids of the steps before it and those outside of loops. -/
def bodyIdIssues (topIds seen : List String) (id : String) : List BodyIssue :=
  (if isReservedId id then [.reservedId id] else [])
    ++ (if topIds.contains id then [.shadows id] else [])
    ++ (if seen.contains id then [.duplicateId id] else [])

namespace Plan

mutual

/-- What is wrong with a plan. -/
def issues (topIds : List String) (label : String) : Plan → List Issue
  | single s => s.ownIssues label
  | broken s e => s.ownIssues label ++ s.sourceIssues label ++ [.invalidLoopBody label (.undecodable e)]
  | loop s body =>
    s.ownIssues label ++ s.sourceIssues label
      ++ (if body.isEmpty then [.invalidLoopBody label .empty] else bodyIssues topIds label 0 [] body)

/-- What is wrong with the plans of a body from a position on. -/
def bodyIssues (topIds : List String) (label : String) (position : Nat) (seen : List String) : List Plan → List Issue
  | [] => []
  | p :: ps =>
    let id := p.step.id
    if isBlankId id then
      .invalidLoopBody label (.emptyId position) :: bodyIssues topIds label (position + 1) seen ps
    else
      (bodyIdIssues topIds seen id).map (.invalidLoopBody label)
        ++ (p.issues topIds s!"{label}.{id}" ++ bodyIssues topIds label (position + 1) (id :: seen) ps)

end

end Plan

end Runbook
