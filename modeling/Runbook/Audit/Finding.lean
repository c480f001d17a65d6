import Runbook.Value.Basic

/-!
# Findings

What an audit reports: findings, each with a severity, and what they amount to.
-/

namespace Runbook

/-- How grave a finding is, from least to most. -/
inductive Severity where
  | low | medium | high | critical
  deriving DecidableEq, Repr

namespace Severity

def name : Severity → String
  | low => "low"
  | medium => "medium"
  | high => "high"
  | critical => "critical"

def all : List Severity := [low, medium, high, critical]

/-- The place in the order. -/
def rank : Severity → Nat
  | low => 0
  | medium => 1
  | high => 2
  | critical => 3

/-- At least as grave. -/
def atLeast (s threshold : Severity) : Bool := threshold.rank ≤ s.rank

end Severity

/-- One finding; the step of a loop body is named by the way to it, and a finding about files names no step. -/
structure Finding where
  severity : Severity
  message : String
  step : Option String
  deriving DecidableEq, Repr

/-- The line of a finding in a report. -/
def Finding.line (f : Finding) : String :=
  match f.step with
  | some step => s!"[{f.severity.name}] {step}: {f.message}"
  | none => s!"[{f.severity.name}] {f.message}"

def Finding.encode (f : Finding) : Value :=
  .ofFields ([("severity", .str f.severity.name), ("message", .str f.message)]
    ++ (f.step.toList.map fun step => ("stepId", .str step)))

/-- The findings of an audit in order. -/
structure Report where
  findings : List Finding
  deriving DecidableEq, Repr

namespace Report

/-- The gravest severity of all findings. -/
def maxSeverity (r : Report) : Option Severity :=
  r.findings.foldl (fun (most : Option Severity) f => match most with
    | some s => some (if s.rank < f.severity.rank then f.severity else s)
    | none => some f.severity) none

/-- The number of findings of a severity. -/
def count (r : Report) (s : Severity) : Nat := r.findings.countP (·.severity = s)

/-- The number of findings of every severity, least first. -/
def counts (r : Report) : List (Severity × Nat) := Severity.all.map fun s => (s, r.count s)

/-- The findings from a severity on. -/
def atLeast (r : Report) (threshold : Severity) : List Finding := r.findings.filter (·.severity.atLeast threshold)

/-- Whether a gate with this threshold refuses. -/
def blocks (r : Report) (threshold : Severity) : Bool := r.findings.any (·.severity.atLeast threshold)

def encode (r : Report) : Value := .obj [("findings", .arr (r.findings.map Finding.encode))]

end Report

end Runbook
