import Runbook.Http.Settings
import Runbook.Tool.Error
import Runbook.Url.Basic

/-!
# Requests

What a step asks for: an address, a method, headers, pairs for the query, and a body. Its inputs are checked before anything is
sent; the names and values of headers are checked by whoever sends it.
-/

namespace Runbook

structure HttpRequest where
  url : String
  method : String
  headers : Fields
  query : Fields
  body : Option Value
  deriving Repr

/-- A request as it is sent. -/
structure Outgoing where
  method : String
  url : Url
  headers : List (String × String)
  body : Option String
  deriving DecidableEq, Repr

namespace HttpRequest

variable [Url.Reader]

open Decoder in
def schema : Schema HttpRequest where
  name := "struct HttpRequest"
  initial := ⟨"", "GET", [], [], none⟩
  fields := [
    .needed "url" string fun v r => { r with url := v },
    .optional "method" string fun v r => { r with method := v },
    .optional "headers" (entries value) fun v r => { r with headers := Keyed.ofList v },
    .optional "query" (entries value) fun v r => { r with query := Keyed.ofList v },
    .optional "body" (option value) fun v r => { r with body := v }]

/-- The letters that have a capital form among the basic letters, and that form. -/
def capitals : List (Char × List Char) :=
  [('ß', ['S', 'S']), ('ı', ['I']), ('ſ', ['S']), ('ﬀ', ['F', 'F']), ('ﬁ', ['F', 'I']), ('ﬂ', ['F', 'L']),
    ('ﬃ', ['F', 'F', 'I']), ('ﬄ', ['F', 'F', 'L']), ('ﬅ', ['S', 'T']), ('ﬆ', ['S', 'T'])]

/-- A character in capital letters, as far as these are basic letters. -/
def capital (c : Char) : List Char := ((capitals.find? (·.1 = c)).map (·.2)).getD [c.toUpper]

/-- The characters of method names and header names. -/
def isTokenChar (c : Char) : Bool :=
  c.isAlphanum || ['!', '#', '$', '%', '&', '\'', '*', '+', '-', '.', '^', '_', '\x60', '|', '~'].contains c

def isToken (s : List Char) : Bool := !s.isEmpty && s.all isTokenChar

/-- The characters of header values: all but controls, of which the tab is allowed. -/
def isHeaderChar (c : Char) : Bool := c = '\t' || (0x20 ≤ c.toNat && c.toNat ≠ 0x7F)

/-- The most bytes of the name of a header. -/
def maxHeaderName : Nat := 65535

def isHeader (h : String × String) : Bool :=
  isToken h.1.toList && h.1.utf8ByteSize ≤ maxHeaderName && h.2.toList.all isHeaderChar

/-- The text that a value is sent as. -/
def textOf : Value → String
  | .str s => s
  | v => Json.render v

/-- The request that inputs spell. -/
def ofInputs (inputs : Value) : Except ToolError HttpRequest :=
  (schema.decode (Document.ofValue inputs)).mapError fun e => .invalidInput e.message

/-- The method in capital letters. -/
def methodName (r : HttpRequest) : Except ToolError String :=
  let name := r.method.toList.flatMap capital
  if isToken name then .ok (String.ofList name) else .error (.invalidInput s!"invalid method '{r.method}'")

def address (r : HttpRequest) : Except ToolError Url :=
  (Url.Reader.read r.url).mapError fun e => .invalidInput s!"invalid url '{r.url}': {e.message}"

/-- The text of the body; anything but a text is sent as JSON, and null as no body. -/
def bodyText? (r : HttpRequest) : Option String :=
  match r.body with
  | none | some .null => none
  | some v => some (textOf v)

/-- The type of the body, for a body that is sent as JSON. -/
def contentType (r : HttpRequest) : List (String × String) :=
  match r.body with
  | none | some .null | some (.str _) => []
  | some _ => [("content-type", "application/json")]

/-- Whether headers have one of this name. -/
def names (headers : List (String × String)) (name : String) : Bool :=
  headers.any fun h => String.ofList (h.1.toList.map Char.toLower) = name

/-- The failure of a request that cannot be sent. -/
def unsendable (detail : String) : ToolError := .network s!"request failed: builder error{detail}"

/-- The most bytes of an address. -/
def maxAddress : Nat := 65534

/-- The characters of hosts: of those that names of domains may hold, all but quotes and braces. -/
def isHostChar (c : Char) : Bool := c ≠ '"' && c ≠ '\x60' && c ≠ '\x7b' && c ≠ '\x7d'

/-- Whether requests go to such an address: one of the web, not too long, with a host of characters that hosts may have. -/
def isReachable (u : Url) : Bool :=
  (u.scheme = "http".toList || u.scheme = "https".toList)
    && (u.host.getD []).all isHostChar
    && u.text.utf8ByteSize ≤ maxAddress

/-- The request as it is sent, with headers for the body and the agent unless it has its own. -/
def outgoing (agent : Option String) (r : HttpRequest) : Except ToolError Outgoing := do
  let method ← r.methodName
  let url ← r.address
  if url.hostText?.isNone then .error (unsendable s!" for url ({url.text})")
  let headers := r.headers.map fun (name, v) => (name, textOf v)
  if !headers.all isHeader then .error (unsendable "")
  let url := if r.query.isEmpty then url else url.addPairs (r.query.map fun (name, v) => (name, textOf v))
  if !isReachable url then .error (unsendable s!" for url ({url.text})")
  let added := r.contentType ++ (agent.toList.map fun a => ("user-agent", a))
  return ⟨method, url, headers ++ added.filter fun h => !names headers h.1, r.bodyText?⟩

end HttpRequest

end Runbook
