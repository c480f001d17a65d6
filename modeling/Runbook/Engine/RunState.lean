import Runbook.Engine.Outcome
import Runbook.Time.Civil

/-!
# State and result of a run

A run keeps a record of every step: its status, its output or error, and when it started and finished. Failures of steps that do
not continue on error are collected, and fail the run. Instants are in milliseconds since the start of 1970.
-/

namespace Runbook

/-- The record of a step in a run. -/
structure StepRun where
  id : String
  status : StepStatus
  output : Option Value
  error : Option String
  startedAt : Option Nat
  finishedAt : Option Nat
  durationMs : Option Nat
  deriving Repr

namespace StepRun

def pending (id : String) : StepRun := ⟨id, .pending, none, none, none, none, none⟩

def start (now : Nat) (r : StepRun) : StepRun := { r with status := .running, startedAt := some now }

/-- Ends a step. An output or error that it has from before stays unless there is a new one. -/
def finish (now : Nat) (outcome : Outcome String) (r : StepRun) : StepRun :=
  let r := { r with status := outcome.status, finishedAt := some now, durationMs := r.startedAt.map (now - ·) }
  match outcome with
  | .completed output => { r with output := some output }
  | .failed message => { r with error := some message }
  | .skipped | .cancelled => r

def encode (r : StepRun) : Value :=
  let optional (name : String) (v : Option Value) := v.toList.map (name, ·)
  let instant (ms : Nat) : Value := .str (Civil.ofMillis ms).timestamp
  .ofFields ([("stepId", .str r.id), ("status", .str r.status.name)] ++ optional "output" r.output
    ++ optional "error" (r.error.map .str) ++ optional "startedAt" (r.startedAt.map instant)
    ++ optional "finishedAt" (r.finishedAt.map instant) ++ optional "durationMs" (r.durationMs.map .ofNat))

end StepRun

/-- A failure that fails the run. -/
structure StepFailure where
  id : String
  message : String
  deriving DecidableEq, Repr

def StepFailure.encode (f : StepFailure) : Value := .obj [("message", .str f.message), ("stepId", .str f.id)]

/-- What a run came to. -/
structure RunResult where
  workflow : String
  steps : Keyed StepRun
  errors : List StepFailure
  cancelled : Bool
  startedAt : Nat
  finishedAt : Nat
  deriving Repr

namespace RunResult

/-- A run without errors: nothing failed that fails a run, and it was not cancelled. -/
def noErrors (r : RunResult) : Bool := r.errors.isEmpty && !r.cancelled

def output? (r : RunResult) (id : String) : Option Value := (r.steps.get? id).bind (·.output)

/-- The steps that ended in error, those that continue on error included, in the order of their ids. -/
def failedSteps (r : RunResult) : List String := (r.steps.filter (·.2.status = .error)).map (·.1)

/-- The number of steps with a status. -/
def count (r : RunResult) (status : StepStatus) : Nat := r.steps.countP (·.2.status = status)

def durationMs (r : RunResult) : Nat := r.finishedAt - r.startedAt

def encode (r : RunResult) : Value :=
  .obj [("cancelled", .bool r.cancelled), ("durationMs", .ofNat r.durationMs),
    ("errors", .arr (r.errors.map StepFailure.encode)), ("finishedAt", .str (Civil.ofMillis r.finishedAt).timestamp),
    ("noErrors", .bool r.noErrors), ("startedAt", .str (Civil.ofMillis r.startedAt).timestamp),
    ("steps", .obj (r.steps.map fun (id, s) => (id, s.encode))), ("workflow", .str r.workflow)]

end RunResult

/-- The books of a run. -/
structure RunState where
  workflow : String
  runs : Keyed StepRun
  errors : List StepFailure
  cancelled : Bool
  startedAt : Nat
  deriving Repr

namespace RunState

/-- The books of a run of which all steps are pending. -/
def start (workflow : String) (ids : List String) (now : Nat) : RunState :=
  ⟨workflow, Keyed.ofList (ids.map fun id => (id, .pending id)), [], false, now⟩

/-- A step has started. -/
def markRunning (now : Nat) (id : String) (s : RunState) : RunState :=
  { s with runs := s.runs.modify id (StepRun.start now) }

/-- The failure that an outcome adds to those of the run; a step that continues on error adds none. -/
def failureOf (id : String) (continueOnError : Bool) : Outcome String → List StepFailure
  | .failed message => if continueOnError then [] else [⟨id, message⟩]
  | _ => []

/-- A step has ended. -/
def addOutcome (now : Nat) (id : String) (outcome : Outcome String) (continueOnError : Bool) (s : RunState) : RunState :=
  { s with
    errors := s.errors ++ failureOf id continueOnError outcome
    runs := s.runs.modify id (StepRun.finish now outcome) }

/-- The run is cancelled. -/
def markCancelled (s : RunState) : RunState := { s with cancelled := true }

/-- The outcome that closes a step at the end of its run: a step that has not ended is skipped by a cancelled run and an error of
any other. -/
def closing? (cancelled : Bool) (r : StepRun) : Option (Outcome String) :=
  if r.status.terminal then none
  else if cancelled then some .cancelled
  else some (.failed s!"step never finished (was {r.status.name})")

/-- Closes the record of a step. -/
def closeRun (now : Nat) (cancelled : Bool) (r : StepRun) : StepRun :=
  match closing? cancelled r with
  | none => r
  | some outcome => r.finish now outcome

/-- Closes the run. -/
def result (now : Nat) (s : RunState) : RunResult :=
  let late := s.runs.flatMap fun (id, r) => match closing? s.cancelled r with
    | none => []
    | some outcome => failureOf id false outcome
  ⟨s.workflow, s.runs.map fun (id, r) => (id, closeRun now s.cancelled r), s.errors ++ late, s.cancelled, s.startedAt, now⟩

end RunState

end Runbook
