import Runbook.Definition.Inputs
import Runbook.Engine.Clock

/-!
# Runs

A workflow is run on a clock with a toolbox; so is a single step, in a scope that stays what it is.
-/

namespace Runbook

/-- What is left of a run: its result, what was seen of it, the calls that it made, and the world of its tools. -/
structure RunReport (W : Type) where
  result : RunResult
  events : List Event
  calls : List Call
  world : W

namespace Workflow

/-- A workflow as a system. -/
def system (w : Workflow) (e : Engine) : System Machine := ⟨Machine.move w e, Machine.next⟩

/-- Runs a workflow from an instant on. -/
def run (w : Workflow) (settings : EngineSettings) (box : Toolbox W) (world : W) (inputs : Fields) (cancelled : Bool)
    (now : Nat) : RunReport W :=
  let machine := Machine.start w inputs now
  let machine := if cancelled then { machine with cancelled := true } else machine
  let clock := (Clock.start now machine world).run (w.system ⟨settings, box.has⟩) box
  let result := clock.system.result clock.now
  ⟨result, clock.system.events ++ [.runFinished result], clock.system.calls, clock.world⟩

end Workflow

/-- Runs a definition: it must be valid, and its inputs must be there. -/
def Definition.run (d : Definition) (settings : EngineSettings) (box : Toolbox W) (world : W) (inputs : Fields)
    (cancelled : Bool) (now : Nat) : Except ValidationError (RunReport W) := do
  let w ← Workflow.ofDefinition d
  let inputs ← (d.bindInputs inputs).mapError .missingInput
  return w.run settings box world inputs cancelled now

/-- A step alone: its procedure, once it has begun, and whether it is cancelled. -/
structure Solo where
  proc : Proc (Outcome StepError)
  begun : Bool
  cancelled : Bool

namespace Solo

def advance (scope : Scope) (p : Proc (Outcome StepError)) (s : Solo) : Solo × List Signal :=
  let settled := p.settle scope (if s.cancelled then some 0 else none)
  ({ s with proc := settled.proc, begun := true }, settled.calls.map fun (index, c) => .called ⟨"", index⟩ c)

def move (scope : Scope) : Move → Solo → Solo × List Signal
  | .dispatch, s => if s.begun then (s, []) else s.advance scope s.proc
  | .reply t r _, s => s.advance scope (s.proc.reply t.index r)
  | .cancel, s => ({ s with cancelled := true }, [])
  | .hear, s | .join _, s | .ask _, s | .begin _ _, s => (s, [])

def system (scope : Scope) : System Solo := ⟨fun _ => move scope, fun s => if s.begun then none else some .dispatch⟩

/-- The outcome, if the step has come to its end. -/
def outcome? (s : Solo) : Option (Outcome StepError) :=
  match s.proc with
  | .done o => some o
  | _ => none

end Solo

/-- Executes a step alone; the time that it takes is in milliseconds. -/
def Step.execute (s : Step) (settings : EngineSettings) (box : Toolbox W) (world : W) (scope : Scope) (cancelled : Bool) :
    Option (Outcome StepError × Nat × W) :=
  let proc := Engine.execute ⟨settings, box.has⟩ [s.id] (Plan.ofStep s)
  let clock := (Clock.start 0 (⟨proc, false, cancelled⟩ : Solo) world).run (Solo.system scope) box
  clock.system.outcome?.map (·, clock.now, clock.world)

end Runbook
