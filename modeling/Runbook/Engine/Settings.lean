import Runbook.Engine.Semaphore
import Runbook.Json.Schema

/-!
# Engine settings
-/

namespace Runbook

/-- How much may run at a time, how often a step without a limit of its own may iterate, and how long a tool call may take. -/
structure EngineSettings where
  maxConcurrency : Nat
  loopConcurrency : Nat
  defaultMaxIterations : Nat
  stepTimeoutMs : Option Nat
  deriving DecidableEq, Repr

namespace EngineSettings

def default : EngineSettings := ⟨8, 1, 1000, none⟩

open Decoder in
def schema : Schema EngineSettings where
  name := "struct EngineConfig"
  initial := default
  fields := [
    .optional "max_concurrency" usize fun v s => { s with maxConcurrency := v },
    .optional "loop_concurrency" usize fun v s => { s with loopConcurrency := v },
    .optional "default_max_iterations" u64 fun v s => { s with defaultMaxIterations := v },
    .nullable "step_timeout_ms" u64 fun v s => { s with stepTimeoutMs := v }]

def encode (s : EngineSettings) : Value :=
  .obj [("default_max_iterations", .ofNat s.defaultMaxIterations), ("loop_concurrency", .ofNat s.loopConcurrency),
    ("max_concurrency", .ofNat s.maxConcurrency), ("step_timeout_ms", .ofOption (s.stepTimeoutMs.map .ofNat))]

/-- The number of steps that may run at a time. -/
def stepSlots (s : EngineSettings) : Nat := max 1 s.maxConcurrency

/-- The number of calls that one iterating step may make at a time. -/
def loopSlots (s : EngineSettings) : Nat := max 1 s.loopConcurrency

/-- Settings that a semaphore has permits for, be it that of the steps or that of the calls of an iterating step. -/
structure Permitted (s : EngineSettings) : Prop where
  steps : s.stepSlots ≤ Semaphore.maxPermits
  loops : s.loopSlots ≤ Semaphore.maxPermits

instance (s : EngineSettings) : Decidable s.Permitted :=
  decidable_of_iff (s.stepSlots ≤ Semaphore.maxPermits ∧ s.loopSlots ≤ Semaphore.maxPermits)
    ⟨fun h => ⟨h.1, h.2⟩, fun h => ⟨h.steps, h.loops⟩⟩

end EngineSettings

end Runbook
