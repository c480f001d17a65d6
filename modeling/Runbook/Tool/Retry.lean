import Runbook.Http.Settings
import Runbook.Time.Seconds
import Runbook.Tool.Activity

/-!
# Retries

A call that fails in a way that may pass is made again, with the same inputs, after a wait. Waits grow by a factor up to a
ceiling, unless the remote service says how long to wait. They may be spread, so that calls that fail together are not made again
together.
-/

namespace Runbook

/-- How often to try again and how long to wait. Waits are spread by a share for each attempt, which is drawn at random. -/
structure RetryPolicy where
  maxRetries : Nat
  initialDelay : Duration
  maxDelay : Duration
  multiplier : Extended
  jitter : Option (Nat → Extended)

namespace RetryPolicy

/-- The policy of some settings, with waits that double. -/
def ofSettings (s : HttpSettings) : RetryPolicy :=
  ⟨s.maxRetries, .ofMillis s.initialDelayMs, .ofMillis s.maxDelayMs, .ofNat 2, none⟩

/-- The exponent of an attempt: the 32-bit number with its bits, as a signed one. -/
def exponent (attempt : Nat) : Int := Int.bmod attempt (2 ^ 32)

/-- The seconds to wait after an attempt, counted from zero, up to the ceiling. -/
def backoff (p : RetryPolicy) (attempt : Nat) : Extended :=
  (p.initialDelay.seconds.mul (p.multiplier.pow (exponent attempt))).least p.maxDelay.seconds

/-- A wait that is longer by a share of its quarter. -/
def spread (share seconds : Extended) : Extended := seconds.add ((share.mul (.ofQuotient 1 4)).mul seconds)

/-- The wait after an attempt. -/
def delay (p : RetryPolicy) (attempt : Nat) : Duration :=
  match p.jitter with
  | none => .ofFloatSeconds (p.backoff attempt)
  | some share => .ofFloatSeconds (spread (share attempt) (p.backoff attempt))

/-- The wait after a failed attempt: what the remote service asks for, or the delay of the attempt. -/
def wait (p : RetryPolicy) (attempt : Nat) (e : ToolError) : Duration := e.retryAfter?.getD (p.delay attempt)

end RetryPolicy

namespace Activity

/-- Makes an attempt and, at most `left` times, another one after a failure that may pass; `n` attempts were made before. -/
def retryFrom (p : RetryPolicy) (attempt : Activity W) (n : Nat) : Nat → Activity W
  | 0 => attempt
  | left + 1 => attempt.bind fun
    | .error e => if e.retryable then .sleep (p.wait n e) (retryFrom p attempt (n + 1) left) else .answer (.error e)
    | a => .answer a

/-- Makes attempts as the policy says. -/
def retrying (p : RetryPolicy) (attempt : Activity W) : Activity W := retryFrom p attempt 0 p.maxRetries

/-- An activity alone, from its beginning to its end: the answer, how long it slept each time, and the world it leaves. -/
def perform : Activity W → W → Answer × List Duration × W
  | answer a, w => (a, [], w)
  | sleep d rest, w =>
    let (a, waits, w) := rest.perform w
    (a, d :: waits, w)
  | cancel rest, w => rest.perform w
  | act update rest, w => (rest w).perform (update w)

end Activity

end Runbook
