import Runbook.Engine.Proc
import Runbook.Engine.Settings
import Runbook.Json.Reader
import Runbook.Template.Basic

/-!
# Executing a step

A step is executed by a procedure that follows its plan. A plain step resolves its inputs and calls its tool once. A step with a
sequence to go through calls its tool for every item, or, as a loop, runs its body for every item.
-/

namespace Runbook

/-- The settings of a run and the names of the tools that it has. -/
structure Engine where
  settings : EngineSettings
  hasTool : String → Bool

namespace Step

/-- Whether the condition of a step holds; a step without one always runs. -/
def admits (s : Step) (scope : Scope) : Except StepError Bool :=
  match s.condition with
  | none => .ok true
  | some condition => ((Source.ofString condition).holds scope).mapError .expression

/-- The items of a sequence: nothing has none, and a text counts as the array that it spells. -/
def items : Option Value → Except StepError (List Value)
  | none | some .null => .ok []
  | some (.arr items) => .ok items
  | some (.str s) =>
    match Json.parse? (Text.trim s) with
    | some (.arr items) => .ok items
    | _ => .error (.notIterable .string)
  | some (.bool _) => .error (.notIterable .boolean)
  | some (.num _) => .error (.notIterable .number)
  | some (.obj _) => .error (.notIterable .object)

/-- The items that a step goes through. -/
def sequence (s : Step) (scope : Scope) : Except StepError (List Value) :=
  match s.forEach with
  | none => .error (.invalidLoop .noSource)
  | some source => do
    let v ← ((Source.ofString source).evaluate scope).mapError .expression
    items v

end Step

/-- The scope of an iteration over that of its step. -/
def iterationScope (item : Value) (index : Nat) (locals : Fields) (outer : Scope) : Scope :=
  outer.iteration item index locals

namespace Engine

/-- How long a call of a step may take. -/
def timeoutMs (e : Engine) (s : Step) : Option Nat := s.timeoutMs.or e.settings.stepTimeoutMs

/-- The most iterations of a step. -/
def maxIterations (e : Engine) (s : Step) : Nat := s.maxIterations.getD e.settings.defaultMaxIterations

/-- The call of a step with the inputs that it has in a scope. -/
def request (e : Engine) (path : List String) (s : Step) (scope : Scope) : Except StepError Call := do
  let inputs ← (s.inputs.resolve scope).mapError .expression
  return ⟨path, s.tool, inputs, e.timeoutMs s⟩

/-- Calls the tool of a step once. -/
def callOnce (e : Engine) (path : List String) (s : Step) : Proc (Except StepError Value) :=
  .read fun scope => match e.request path s scope with
    | .error err => .done (.error err)
    | .ok c => if e.hasTool s.tool then .call c fun r => .done (c.result r) else .done (.error (.unavailable s.tool))

/-- Notes the failures among the results of iterations. -/
def noteFailures (path : List String) : List (Except StepError Value) → Proc α → Proc α
  | [], next => next
  | .error e :: rest, next => .note (.failed path e) (noteFailures path rest next)
  | .ok _ :: rest, next => noteFailures path rest next

/-- Goes through the items of a step and sums up. -/
def iterate (e : Engine) (path : List String) (s : Step)
    (run : List Value → Proc (Except StepError (List (Except IterationError Value) × Bool))) :
    Proc (Except StepError Value) :=
  .read fun scope => match s.sequence scope with
    | .error err => .done (.error err)
    | .ok all =>
      let items := all.take (e.maxIterations s)
      (run items).bind fun
        | .error err => .done (.error err)
        | .ok (results, cancelled) =>
          let summary := Summary.ofResults items (items.length < all.length) cancelled results
          .note (.iterated path summary) (.done (.ok summary.value))

/-- The job of an iteration: the call with the inputs that its item gives. -/
def job (e : Engine) (path : List String) (s : Step) (item : Value) (index : Nat) (scope : Scope) : Except StepError Call :=
  e.request path s (iterationScope item index [] scope)

/-- The jobs of the items from a position on. -/
def jobs (e : Engine) (path : List String) (s : Step) (index : Nat) : List Value → List (Scope → Except StepError Call)
  | [] => []
  | item :: items => e.job path s item index :: jobs e path s (index + 1) items

/-- Calls the tool of a step once for every item. -/
def callEach (e : Engine) (path : List String) (s : Step) (items : List Value) :
    Proc (Except StepError (List (Except IterationError Value) × Bool)) :=
  if e.hasTool s.tool then
    .gather ⟨e.settings.loopSlots, [], e.jobs path s 0 items, false⟩ fun g =>
      noteFailures path g.results (.done (.ok (g.results.map (Except.mapError .call), g.stopped)))
  else .done (.error (.unavailable s.tool))

/-- Runs a body for every item, one after the other, until the run is cancelled. -/
def runEach (body : Value → Nat → Proc (Except IterationError Value)) (results : List (Except IterationError Value)) :
    Nat → List Value → Proc (Except StepError (List (Except IterationError Value) × Bool))
  | _, [] => .done (.ok (results.reverse, false))
  | index, item :: items =>
    .poll fun cancelled =>
      if cancelled then .done (.ok (results.reverse, true))
      else (body item index).bind fun r => runEach body (r :: results) (index + 1) items

/-- The outcome of the result of a step, with a note of its failure. -/
def conclude (path : List String) : Except StepError Value → Proc (Outcome StepError)
  | .ok output => .done (.completed output)
  | .error err => .note (.failed path err) (.done (.failed err))

/-- Decides by its condition whether a step runs. -/
def guard (path : List String) (s : Step) (run : Proc (Outcome StepError)) : Proc (Outcome StepError) :=
  .read fun scope => match s.admits scope with
    | .ok true => run
    | .ok false => .done .skipped
    | .error err => conclude path (.error err)

mutual

/-- Executes an admitted step. -/
def dispatch (e : Engine) (path : List String) : Plan → Proc (Outcome StepError)
  | .single s =>
    (if s.iterates then e.iterate path s (e.callEach path s) else e.callOnce path s).bind (conclude path)
  | .broken s err => (e.iterate path s fun _ => .done (.error (.invalidLoop (.body err)))).bind (conclude path)
  | .loop s body =>
    (e.iterate path s (runEach (fun item index => runBody e path item index [] [] body) [] 0)).bind (conclude path)

/-- Executes the steps of a body in order. Each sees the records of those before it in the same iteration. A step that fails
without continuing on error ends the iteration; the output of an iteration holds the outputs of its completed steps. -/
def runBody (e : Engine) (path : List String) (item : Value) (index : Nat) (locals outputs : Fields) :
    List Plan → Proc (Except IterationError Value)
  | [] => .done (.ok (.obj outputs))
  | p :: ps =>
    let id := p.step.id
    let own := path ++ [id]
    ((guard own p.step (dispatch e own p)).within (iterationScope item index locals)).bind fun outcome =>
      let locals := locals.insert id (outcome.mapError StepError.message).record
      match outcome with
      | .failed err =>
        if p.step.continueOnError then runBody e path item index locals outputs ps else .done (.error (.step id err))
      | .completed output => runBody e path item index locals (outputs.insert id output) ps
      | .skipped | .cancelled => runBody e path item index locals outputs ps

end

/-- Executes a step: its condition first, then its tool. -/
def execute (e : Engine) (path : List String) (p : Plan) : Proc (Outcome StepError) :=
  guard path p.step (e.dispatch path p)

end Engine

end Runbook
