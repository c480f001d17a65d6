import Runbook.Audit.Policy
import Runbook.Audit.Prompt
import Runbook.Plan.Basic
import Runbook.Template.Basic
import Runbook.Url.Basic

/-!
# Audit rules

The audit reads a plan without running it: where requests go, whether aggregations write, what prompts say, which names of
databases depend on data, and whether iterations are bounded. The steps of loop bodies are audited like all others.
-/

namespace Runbook

/-- The stages of an aggregation that write. -/
def writeStages : List String := ["$out", "$merge"]

namespace Value

mutual

/-- The first key of a writing stage anywhere in a value. -/
def writeStage? : Value → Option String
  | .obj fields => (writeStages.find? fun stage => (Keyed.keys fields).contains stage).or (writeStageOfFields? fields)
  | .arr items => writeStageOfItems? items
  | .null | .bool _ | .num _ | .str _ => none

def writeStageOfItems? : List Value → Option String
  | [] => none
  | v :: vs => (writeStage? v).or (writeStageOfItems? vs)

def writeStageOfFields? : List (String × Value) → Option String
  | [] => none
  | (_, v) :: fs => (writeStage? v).or (writeStageOfFields? fs)

end

end Value

/-- A text with a fragment in it. -/
def hasFragment (s : String) : Bool := (Template.ofString s).hasFragment

variable [Url.Reader]

namespace Audit

/-- The findings on a request to an address. -/
def requestFindings (p : AuditPolicy) (url : String) : List (Severity × String) :=
  if hasFragment url then
    [(.high, s!"dynamic URL '{url}' needs review: it cannot be verified statically")]
  else match Url.Reader.read (Text.trim url) with
    | .error e => [(.low, s!"URL '{url}' could not be parsed: {e.message}")]
    | .ok u =>
      let host := u.hostText?.map fun h =>
        String.ofList (Text.dropEndWhile AuditPolicy.isBracket (h.toList.dropWhile AuditPolicy.isBracket))
      let denied := match host with
        | some h => if p.isDeniedHost h then [(Severity.critical, s!"request to disallowed host '{h}'")] else []
        | none => []
      denied ++ if u.scheme = "http".toList then [(.medium, s!"insecure transport: '{url}' uses http://")] else []

def http (p : AuditPolicy) (s : Step) : List (Severity × String) :=
  match s.inputText? "url" with
  | some url => requestFindings p url
  | none => []

def aggregate (s : Step) : List (Severity × String) :=
  (if s.allowWrites then [(Severity.high, "aggregation is allowed to write (allowWrites)")] else [])
    ++ match s.inputs.writeStage? with
      | some stage => [(.critical, s!"pipeline contains a '{stage}' write stage")]
      | none => []

/-- The inputs of a generating step that are prompts. -/
def promptFields : List String := ["prompt", "systemPrompt", "system"]

def generate (s : Step) : List (Severity × String) :=
  promptFields.flatMap fun field => match s.inputText? field with
    | none => []
    | some text =>
      (if Prompt.hasOverride text then [(Severity.high, s!"{field} contains an instruction-override phrase")] else [])
        ++ if Prompt.hasRole text then [(Severity.medium, s!"{field} contains a 'system:' role prefix")] else []

def ingest (s : Step) : List (Severity × String) :=
  ["database", "collection"].flatMap fun field =>
    if (s.inputText? field).any hasFragment then
      [(Severity.medium, s!"{field} name is templated: non-deterministic write target")]
    else []

def iteration (p : AuditPolicy) (s : Step) : List (Severity × String) :=
  match s.maxIterations with
  | none => [(.medium, "unbounded iteration: no maxIterations")]
  | some n =>
    if p.maxIterationsCeiling < n then
      [(.medium, s!"unbounded iteration: maxIterations {n} exceeds {p.maxIterationsCeiling}")]
    else []

/-- The findings on a step itself, its body left aside. -/
def step (p : AuditPolicy) (label : String) (s : Step) : List Finding :=
  let byTool := match s.toolKind? with
    | some .http => http p s
    | some .aggregate => aggregate s
    | some .generate => generate s
    | some .ingest => ingest s
    | _ => []
  (byTool ++ if s.iterates then iteration p s else []).map fun (severity, message) => ⟨severity, message, some label⟩

mutual

/-- The findings on a plan. -/
def plan (p : AuditPolicy) (label : String) : Plan → List Finding
  | .single s => step p label s
  | .broken s _ => step p label s
  | .loop s body => step p label s ++ bodyFindings p label body

/-- The findings on the plans of a body. -/
def bodyFindings (p : AuditPolicy) (label : String) : List Plan → List Finding
  | [] => []
  | inner :: rest => plan p s!"{label}.{inner.step.id}" inner ++ bodyFindings p label rest

end

end Audit

/-- The audit of a definition, in authoring order. -/
def AuditPolicy.audit (p : AuditPolicy) (d : Definition) : Report :=
  ⟨d.plans.flatMap fun plan => Audit.plan p plan.step.id plan⟩

end Runbook
