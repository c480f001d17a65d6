import Runbook.Json.Schema

/-!
# Settings of requests
-/

namespace Runbook

/-- How long a request may take in seconds, how often and how soon a failed one is made again, and the name of the agent. -/
structure HttpSettings where
  timeout : Nat
  maxRetries : Nat
  initialDelayMs : Nat
  maxDelayMs : Nat
  userAgent : Option String
  deriving DecidableEq, Repr

namespace HttpSettings

def default : HttpSettings := ⟨30, 3, 1000, 30000, none⟩

open Decoder in
def schema : Schema HttpSettings where
  name := "struct HttpConfig"
  initial := default
  fields := [
    .optional "timeout" u64 fun v s => { s with timeout := v },
    .optional "max_retries" u32 fun v s => { s with maxRetries := v },
    .optional "initial_delay_ms" u64 fun v s => { s with initialDelayMs := v },
    .optional "max_delay_ms" u64 fun v s => { s with maxDelayMs := v },
    .nullable "user_agent" string fun v s => { s with userAgent := v }]

def encode (s : HttpSettings) : Value :=
  .obj [("initial_delay_ms", .ofNat s.initialDelayMs), ("max_delay_ms", .ofNat s.maxDelayMs),
    ("max_retries", .ofNat s.maxRetries), ("timeout", .ofNat s.timeout), ("user_agent", .ofOption (s.userAgent.map .str))]

end HttpSettings

end Runbook
