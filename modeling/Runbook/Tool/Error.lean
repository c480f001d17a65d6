import Runbook.Time.Duration

/-!
# Failures of tools
-/

namespace Runbook

/-- Why a tool has no answer. -/
inductive ToolError where
  | invalidInput (message : String)
  | timeout (elapsed : Duration)
  | rateLimit (retryAfter : Option Duration)
  | network (message : String)
  | status (code : Nat) (body : String)
  | failed (message : String)
  deriving DecidableEq, Repr

namespace ToolError

def message : ToolError → String
  | invalidInput message => s!"invalid inputs: {message}"
  | timeout elapsed => s!"timeout after {elapsed.text}"
  | rateLimit (some d) => s!"rate limited, retry after Some({d.text})"
  | rateLimit none => "rate limited, retry after None"
  | network message => s!"network error: {message}"
  | status code body => s!"HTTP {code}: {body}"
  | failed message => message

/-- Whether another attempt may succeed: after a timeout, a limit, a broken connection, or a failure of the server. -/
def retryable : ToolError → Bool
  | timeout _ | rateLimit _ | network _ => true
  | status code _ => 500 ≤ code
  | invalidInput _ | failed _ => false

/-- How long the remote service asks to wait. -/
def retryAfter? : ToolError → Option Duration
  | rateLimit d => d
  | _ => none

end ToolError

end Runbook
