import Runbook.Audit.Package
import Runbook.Audit.Rules
import Runbook.Command.Event
import Runbook.Config.Workflows
import Runbook.Graph.Basic

/-!
# Sessions

What every command works with: the files, the places in them, the configuration, and whether results are for programs. A command
ends with an exit code and what it has shown, or with an error.
-/

namespace Runbook

structure Session where
  files : FileTree
  places : Places
  config : Config
  structured : Bool

/-- Why a command could not do its work. -/
inductive CommandError where
  | loading (workflow : String) (error : LoadError)
  | argument (error : ArgumentError)
  | package (error : PackageError)
  | tools (error : ToolError)
  deriving Repr

def CommandError.message : CommandError → String
  | loading workflow error => s!"Failed to load workflow '{workflow}': {error.message}"
  | argument error => error.message
  | package error => error.message
  | tools error => s!"Failed to initialize built-in tools: {error.message}"

/-- How a command ended. -/
structure CommandResult where
  exit : Nat
  shown : List Shown
  deriving Repr

namespace CommandResult

/-- A command that shows nothing but its result. -/
def ofOutput (success : Bool) (output : Value) : CommandResult :=
  ⟨if success then 0 else 1, [.result success (some output)]⟩

/-- A command that ends because a workflow is invalid. -/
def invalid (d : Definition) (e : ValidationError) : CommandResult :=
  ⟨1, [.event (.workflowError s!"workflow '{d.name}' is invalid: {e.message}")]⟩

end CommandResult

namespace Session

variable [Toml.Reader]

/-- The definition of a workflow. -/
def load (s : Session) (workflow : String) : Except CommandError Definition :=
  (Definition.loadNamed s.files s.places workflow).mapError (.loading workflow)

/-- A command on a valid workflow. -/
def withValid (s : Session) (workflow : String) (command : Definition → Graph → Except CommandError CommandResult) :
    Except CommandError CommandResult := do
  let d ← s.load workflow
  match Graph.build d with
  | .error e => return .invalid d e
  | .ok g => command d g

end Session

end Runbook
