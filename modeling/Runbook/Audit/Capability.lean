import Runbook.Audit.Rules

/-!
# Capabilities

What a workflow needs to be allowed, derived from its steps, those of loop bodies included.
-/

namespace Runbook

inductive Capability where
  | network | readDb | writeDb | llm | loop
  deriving DecidableEq, Repr

namespace Capability

def name : Capability → String
  | network => "NETWORK"
  | readDb => "READ_DB"
  | writeDb => "WRITE_DB"
  | llm => "LLM"
  | loop => "LOOP"

/-- All capabilities, in the order of reports. -/
def all : List Capability := [network, readDb, writeDb, llm, loop]

/-- What a step needs itself, its body left aside. -/
def ofStep (s : Step) : List Capability :=
  let byTool := match s.toolKind? with
    | some .http => [network]
    | some .ingest | some .insert => [writeDb]
    | some .aggregate => if s.allowWrites || s.inputs.writeStage?.isSome then [readDb, writeDb] else [readDb]
    | some .generate | some .embed => [llm]
    | some .query | some .search | some .collections => [readDb]
    | some .loop | some .chunk | none => []
  byTool ++ if s.iterates then [loop] else []

mutual

/-- What a plan needs. -/
def ofPlan : Plan → List Capability
  | .single s => ofStep s
  | .broken s _ => ofStep s
  | .loop s body => ofStep s ++ ofPlans body

def ofPlans : List Plan → List Capability
  | [] => []
  | p :: ps => ofPlan p ++ ofPlans ps

end

end Capability

/-- The capabilities that a definition needs, each once, in the order of reports. -/
def Definition.capabilities (d : Definition) : List Capability :=
  Capability.all.filter (Capability.ofPlans d.plans).contains

end Runbook
