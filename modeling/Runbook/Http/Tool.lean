import Runbook.Http.Request
import Runbook.Json.Reader
import Runbook.Text.Blank
import Runbook.Text.Utf8
import Runbook.Tool.Retry

/-!
# The tool for requests

The tool sends one request over a network and answers with the status, the headers and the body of the response, or with the
failure that the response or its absence means. What the network is, the tool does not know.
-/

namespace Runbook

structure Response where
  status : Nat
  headers : List (String × String)
  body : List UInt8
  deriving DecidableEq, Repr

/-- What becomes of a request. -/
inductive Delivery where
  | unreachable
  | broken
  | cutOff
  | late (elapsed : Duration)
  | response (r : Response)
  deriving Repr

/-- A network: what becomes of a request, and what of the network. -/
abbrev Network (W : Type) := Outgoing → W → Delivery × W

/-- The network on which nothing can be reached. -/
def Network.unreachable : Network W := fun _ w => (.unreachable, w)

namespace Response

/-- The body as a text in UTF-8, without the mark at its start that may tell so. -/
def text (r : Response) : String :=
  match Text.ofBytes r.body with
  | c :: rest => if c.toNat = 0xFEFF then String.ofList rest else String.ofList (c :: rest)
  | [] => ""

/-- Header values that are shown: those of visible characters, blanks and tabs. -/
def isShown (value : String) : Bool := value.toList.all fun c => c = '\t' || (0x20 ≤ c.toNat && c.toNat < 0x7F)

/-- The headers as an object, names in lower case. -/
def headerFields (r : Response) : Fields :=
  Keyed.ofList ((r.headers.filter (isShown ·.2)).map fun (name, value) =>
    (String.ofList (name.toList.map Char.toLower), .str value))

/-- The seconds that the service asks to wait. -/
def retryAfter? (r : Response) : Option Duration := do
  let text ← (← r.headerFields.get? "retry-after").str?
  let digits := match Text.trimChars text.toList with
    | '+' :: rest => rest
    | digits => digits
  if digits.isEmpty || !digits.all Char.isDigit then none
  else
    let n := Decimal.natOfDigits digits
    if n < 2 ^ 64 then some (.ofSeconds n) else none

/-- The answer that a response is: a success with its parts, the body read as JSON where it is JSON, or a failure. -/
def answer (r : Response) : Answer :=
  if 200 ≤ r.status && r.status < 300 then
    .value (.obj [("body", (Json.parse? r.text).getD (.str r.text)), ("headers", .obj r.headerFields),
      ("status", .ofNat r.status)])
  else if r.status = 429 then .error (.rateLimit r.retryAfter?)
  else .error (.status r.status r.text)

end Response

/-- The answer that the delivery of a request is. -/
def Outgoing.answer (o : Outgoing) : Delivery → Answer
  | .unreachable => .error (.network s!"connection failed: error sending request for url ({o.url.text})")
  | .broken => .error (.network s!"request failed: error sending request for url ({o.url.text})")
  | .cutOff => .error (.network "request failed: error decoding response body")
  | .late elapsed => .error (.timeout elapsed)
  | .response r => r.answer

variable [Url.Reader]

/-- Sends the request that inputs spell: the answer, and what becomes of the network. -/
def Network.send (network : Network W) (agent : Option String) (inputs : Value) (w : W) : Answer × W :=
  match HttpRequest.ofInputs inputs >>= HttpRequest.outgoing agent with
  | .error e => (.error e, w)
  | .ok o =>
    let (delivery, w) := network o w
    (o.answer delivery, w)

/-- The tool that sends requests over a network. -/
def httpTool (agent : Option String) (network : Network W) (inputs : Value) : Activity W :=
  .act (fun w => (network.send agent inputs w).2) fun w => .answer (network.send agent inputs w).1

namespace HttpSettings

/-- An agent that cannot be sent is refused before any request. -/
def check (s : HttpSettings) : Except ToolError Unit :=
  if s.userAgent.all fun a => a.toList.all HttpRequest.isHeaderChar then .ok ()
  else .error (.failed "failed to build HTTP client: builder error")

/-- The tools that need nothing but a network: requests, made again as the settings say. -/
def toolbox (s : HttpSettings) (network : Network W) : Except ToolError (Toolbox W) := do
  s.check
  return ⟨[("http", fun inputs => .retrying (.ofSettings s) (httpTool s.userAgent network inputs))]⟩

end HttpSettings

end Runbook
