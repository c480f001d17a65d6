import Runbook.Audit.Capability
import Runbook.Command.Session

/-!
# Commands that only look

They validate a workflow, audit it, list what it needs to be allowed, or show its graph. Nothing is run.
-/

namespace Runbook.Session

variable [Toml.Reader] [Url.Reader]

def infoLine (message : String) : Shown := .event (.info message)

/-- Validates a workflow and shows what is wrong with it. -/
def validate (s : Session) (workflow : String) : Except CommandError CommandResult := do
  let d ← s.load workflow
  match Graph.build d with
  | .ok g => return ⟨0, [infoLine s!"✓ Workflow '{d.name}' is valid ({g.steps.length} steps)", .result true none]⟩
  | .error (.invalid issues) =>
    let lines := issues.map fun issue => infoLine s!"  - {issue.message}"
    return ⟨1, infoLine s!"✗ Workflow '{d.name}' has {issues.length} error(s):" :: lines ++ [.result false none]⟩
  | .error e => return ⟨1, [infoLine s!"✗ Workflow '{d.name}': {e.message}", .result false none]⟩

/-- The lines of an audit report: its findings and their numbers, the gravest first. -/
def auditLines (d : Definition) (r : Report) : List String :=
  if r.findings.isEmpty then [s!"✓ No findings for '{d.name}'"]
  else
    let counts := r.counts.reverse.map fun (severity, n) => s!"{n} {severity.name}"
    r.findings.map Finding.line ++ [s!"{r.findings.length} finding(s): " ++ ", ".intercalate counts]

/-- The report of an audit for programs. -/
def auditRecord (r : Report) (blocked : Bool) : Value :=
  .obj [("blocked", .bool blocked), ("findings", .arr (r.findings.map Finding.encode)),
    ("maxSeverity", .ofOption (r.maxSeverity.map fun severity => .str severity.name))]

/-- Audits a workflow, with the package that it comes in if there is one. -/
def audit (s : Session) (workflow : String) (package : Option String) : Except CommandError CommandResult :=
  s.withValid workflow fun d _ => do
    let policy := s.config.audit
    let packaged ← match package with
      | none => pure []
      | some path => (Package.audit s.files (Path.expandHome s.places.home path)).mapError .package
    let report : Report := ⟨(policy.audit d).findings ++ packaged⟩
    let blocked := report.blocks policy.blockOn
    return .ofOutput (!blocked)
      (if s.structured then auditRecord report blocked else .ofStrings (auditLines d report))

/-- Lists the capabilities that a workflow needs. -/
def capabilities (s : Session) (workflow : String) : Except CommandError CommandResult :=
  s.withValid workflow fun d _ => return .ofOutput true (.ofStrings (d.capabilities.map Capability.name))

/-- The lines of a graph: the steps in the order of execution, each with the steps that it depends on. -/
def graphLines (g : Graph) (position : Nat) : List String → List String
  | [] => []
  | id :: rest =>
    let line := match g.dependencies id with
      | [] => s!"{position}. {id}"
      | dependencies => s!"{position}. {id} <- " ++ ", ".intercalate dependencies
    line :: graphLines g (position + 1) rest

/-- A graph for programs. -/
def graphRecord (g : Graph) : Value :=
  .obj [("edges", .arr (g.edges.map fun (a, b) => .ofStrings [a, b])), ("order", .ofStrings g.order),
    ("roots", .ofStrings g.roots)]

/-- Shows the order of execution of a workflow and its dependencies. -/
def graph (s : Session) (workflow : String) : Except CommandError CommandResult :=
  s.withValid workflow fun _ g =>
    return .ofOutput true (if s.structured then graphRecord g else .ofStrings (graphLines g 1 g.order))

end Runbook.Session
