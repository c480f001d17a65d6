import Runbook.Audit.Policy
import Runbook.Engine.Settings
import Runbook.Http.Settings

/-!
# Configuration
-/

namespace Runbook

namespace AuditPolicy

open Decoder in
/-- The fields of a policy, in a format where a severity alone is followed by `nothing`. -/
def schema (nothing : Decoder Unit) : Schema AuditPolicy where
  name := "struct AuditConfig"
  initial := default
  fields := [
    .optional "block_on" (variant nothing (Severity.all.map fun s => (s.name, s))) fun v p => { p with blockOn := v },
    .optional "max_iterations_ceiling" u64 fun v p => { p with maxIterationsCeiling := v },
    .optional "denied_hosts" (list string) fun v p => { p with deniedHosts := v },
    .optional "extra_denied_hosts" (list string) fun v p => { p with extraDeniedHosts := v }]

def encode (p : AuditPolicy) : Value :=
  .obj [("block_on", .str p.blockOn.name), ("denied_hosts", .ofStrings p.deniedHosts),
    ("extra_denied_hosts", .ofStrings p.extraDeniedHosts), ("max_iterations_ceiling", .ofNat p.maxIterationsCeiling)]

end AuditPolicy

/-- The settings of all parts. -/
structure Config where
  engine : EngineSettings
  audit : AuditPolicy
  http : HttpSettings
  deriving DecidableEq, Repr

namespace Config

def default : Config := ⟨.default, .default, .default⟩

def schema : Schema Config where
  name := "struct FlowgateConfig"
  initial := default
  fields := [
    .optional "engine" EngineSettings.schema.decode fun v c => { c with engine := v },
    .optional "audit" (AuditPolicy.schema Decoder.vacant).decode fun v c => { c with audit := v },
    .optional "http" HttpSettings.schema.decode fun v c => { c with http := v }]

def encode (c : Config) : Value :=
  .obj [("audit", c.audit.encode), ("engine", c.engine.encode), ("http", c.http.encode)]

end Config

end Runbook
