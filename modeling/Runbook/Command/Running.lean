import Runbook.Command.Session
import Runbook.Http.Tool

/-!
# Running a workflow from the command line

A workflow is run only when its arguments are well formed, it is valid, and the audit does not refuse it; whoever trusts a
workflow may run it in spite of the audit.
-/

namespace Runbook

/-- What the command line says about a run. -/
structure RunOptions where
  trusted : Bool
  maxConcurrency : Option Nat
  deriving DecidableEq, Repr

namespace Session

variable [Toml.Reader] [Url.Reader]

/-- What is shown when the audit refuses a run. -/
def refusal (s : Session) (d : Definition) (r : Report) : CommandResult :=
  let threshold := s.config.audit.blockOn
  let findings := (r.atLeast threshold).map fun f => Shown.event (.info s!"  {f.line}")
  let name := threshold.name
  ⟨1, findings ++ [.event (.workflowError
    s!"refusing to run '{d.name}': audit findings at or above '{name}' (pass --trusted to override)")]⟩

/-- The settings of a run; the command line wins over the configuration. -/
def engineSettings (s : Session) (options : RunOptions) : EngineSettings :=
  { s.config.engine with maxConcurrency := options.maxConcurrency.getD s.config.engine.maxConcurrency }

/-- The output of the last completed step in the order of execution. -/
def finalOutput (g : Graph) (r : RunResult) : Option Value := g.order.reverse.findSome? r.output?

/-- What is shown of a run. -/
def runResult (s : Session) (g : Graph) (report : RunReport W) : CommandResult :=
  let r := report.result
  let events := (report.events.flatMap (Event.shown r)).map Shown.event
  let output := if s.structured then some r.encode else finalOutput g r
  ⟨if r.noErrors then 0 else 1, events ++ [.result r.noErrors output]⟩

/-- Runs a workflow over a network from an instant on. -/
def run (s : Session) (options : RunOptions) (network : Network W) (world : W) (cancelled : Bool) (now : Nat)
    (workflow : String) (arguments : List String) : Except CommandError (CommandResult × W) := do
  let d ← s.load workflow
  let inputs ← (d.readArguments arguments).mapError .argument
  match Graph.build d with
  | .error e => return (.invalid d e, world)
  | .ok g =>
    let report := s.config.audit.audit d
    if report.blocks s.config.audit.blockOn && !options.trusted then return (s.refusal d report, world)
    let box ← (s.config.http.toolbox network).mapError .tools
    match d.run (s.engineSettings options) box world inputs cancelled now with
    | .error e => return (.invalid d e, world)
    | .ok report => return (s.runResult g report, report.world)

end Session

end Runbook
