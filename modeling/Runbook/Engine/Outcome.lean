import Runbook.Plan.Basic
import Runbook.Expr.Error
import Runbook.Tool.Activity

/-!
# Outcomes of steps

A step ends skipped, completed with an output, failed, or cancelled before it began. The output of an iterating step is the
summary of its iterations.
-/

namespace Runbook

/-- Why the iterations of a loop step cannot begin. -/
inductive LoopError where
  | noSource
  | body (error : BodyError)
  deriving DecidableEq, Repr

def LoopError.message : LoopError → String
  | noSource => "loop step has no forEach source"
  | body error => error.message

/-- The kinds of values that are no sequence. -/
inductive ScalarKind where
  | string | boolean | number | object
  deriving DecidableEq, Repr

def ScalarKind.name : ScalarKind → String
  | string => "string"
  | boolean => "boolean"
  | number => "number"
  | object => "object"

/-- Why a step or one of its iterations failed. -/
inductive StepError where
  | expression (error : ExprError)
  | tool (error : ToolError)
  | unavailable (tool : String)
  | notIterable (found : ScalarKind)
  | timeout (ms : Nat)
  | invalidLoop (error : LoopError)
  | panicked (tool : String)
  | aborted (tool : String)
  deriving Repr

def StepError.message : StepError → String
  | expression error => s!"expression error: {error.message}"
  | tool error => s!"tool error: {error.message}"
  | unavailable name => s!"no implementation registered for tool '{name}'"
  | notIterable found => s!"forEach source must be a sequence, got {found.name}"
  | timeout ms => s!"tool call timed out after {ms}ms"
  | invalidLoop error => s!"invalid loop body: {error.message}"
  | panicked name => s!"tool '{name}' panicked"
  | aborted name => s!"tool '{name}' was aborted"

/-- How a step ended. -/
inductive Outcome (ε : Type) where
  | skipped
  | completed (output : Value)
  | failed (error : ε)
  | cancelled
  deriving Repr

/-- Where a step is: it begins pending, may be running, and ends skipped, completed or in error. -/
inductive StepStatus where
  | pending | skipped | running | completed | error
  deriving DecidableEq, Repr

namespace StepStatus

def name : StepStatus → String
  | pending => "pending"
  | skipped => "skipped"
  | running => "running"
  | completed => "completed"
  | error => "error"

/-- A status in which a step ends. -/
def terminal : StepStatus → Bool
  | skipped | completed | error => true
  | pending | running => false

end StepStatus

namespace Outcome

def mapError (f : ε → δ) : Outcome ε → Outcome δ
  | skipped => skipped
  | completed output => completed output
  | failed e => failed (f e)
  | cancelled => cancelled

def ofExcept : Except ε Value → Outcome ε
  | .ok output => completed output
  | .error e => failed e

/-- The status of a step with this outcome. -/
def status : Outcome ε → StepStatus
  | skipped | cancelled => .skipped
  | completed _ => .completed
  | failed _ => .error

/-- The record that other steps see. -/
def record : Outcome String → Value
  | completed output => .obj [("output", output), ("status", .str StepStatus.completed.name)]
  | failed message => .obj [("error", .str message), ("status", .str StepStatus.error.name)]
  | skipped | cancelled => .obj [("status", .str StepStatus.skipped.name)]

end Outcome

/-- Why an iteration failed: its call did, or a step of its body. -/
inductive IterationError where
  | call (error : StepError)
  | step (id : String) (error : StepError)
  deriving Repr

def IterationError.message : IterationError → String
  | call error => error.message
  | step id error => s!"{id}: {error.message}"

/-- An iteration that failed: its position, its item, and why. -/
structure FailedIteration where
  index : Nat
  item : Value
  error : IterationError
  deriving Repr

def FailedIteration.value (f : FailedIteration) : Value :=
  .obj [("index", .ofNat f.index), ("item", f.item), ("message", .str f.error.message)]

/-- What the iterations of a step came to. -/
structure Summary where
  results : List Value
  errors : List FailedIteration
  total : Nat
  truncated : Bool
  cancelled : Bool
  deriving Repr

namespace Summary

/-- The failures among results in order, from a position on. -/
def failures (index : Nat) : List Value → List (Except IterationError Value) → List FailedIteration
  | item :: items, .error e :: rest => ⟨index, item, e⟩ :: failures (index + 1) items rest
  | _ :: items, .ok _ :: rest => failures (index + 1) items rest
  | _, _ => []

/-- The outputs among results in order. -/
def outputs (results : List (Except IterationError Value)) : List Value := results.filterMap Except.toOption

/-- The summary of the results of the first iterations over the items. -/
def ofResults (items : List Value) (truncated cancelled : Bool) (results : List (Except IterationError Value)) : Summary :=
  ⟨outputs results, failures 0 items results, items.length, truncated, cancelled⟩

def value (s : Summary) : Value :=
  .obj [("cancelled", .bool s.cancelled), ("errors", .arr (s.errors.map FailedIteration.value)),
    ("failed", .ofNat s.errors.length), ("results", .arr s.results), ("succeeded", .ofNat s.results.length),
    ("total", .ofNat s.total), ("truncated", .bool s.truncated)]

end Summary

end Runbook
