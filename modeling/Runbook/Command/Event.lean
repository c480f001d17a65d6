import Runbook.Engine.Run
import Runbook.Json.Schema

/-!
# What a command shows

While a command works it shows events, and at the end a result. Events are also written and read as tagged records.
-/

namespace Runbook

/-- What a command shows on its way. -/
inductive OutputEvent where
  | workflowStart (name : String) (steps : Nat)
  | stepStart (id name : String)
  | stepComplete (id status : String) (durationMs : Nat)
  | stepError (id error : String)
  | workflowComplete (success cancelled : Bool) (durationMs completed skipped failed : Nat)
  | workflowError (error : String)
  | info (message : String)
  deriving DecidableEq, Repr

namespace OutputEvent

/-- The name of the kind of an event. -/
def tag : OutputEvent → String
  | workflowStart .. => "workflowStart"
  | stepStart .. => "stepStart"
  | stepComplete .. => "stepComplete"
  | stepError .. => "stepError"
  | workflowComplete .. => "workflowComplete"
  | workflowError .. => "workflowError"
  | info .. => "info"

/-- The fields of an event in the order in which they are written. -/
def fields : OutputEvent → List (String × Value)
  | workflowStart name steps => [("name", .str name), ("steps", .ofNat steps)]
  | stepStart id name => [("id", .str id), ("name", .str name)]
  | stepComplete id status durationMs => [("id", .str id), ("status", .str status), ("duration_ms", .ofNat durationMs)]
  | stepError id error => [("id", .str id), ("error", .str error)]
  | workflowComplete success cancelled durationMs completed skipped failed =>
    [("success", .bool success), ("cancelled", .bool cancelled), ("duration_ms", .ofNat durationMs),
      ("completed", .ofNat completed), ("skipped", .ofNat skipped), ("failed", .ofNat failed)]
  | workflowError error => [("error", .str error)]
  | info message => [("message", .str message)]

/-- The fields of the record of an event, its kind first. -/
def record (e : OutputEvent) : List (String × Value) := ("type", .str e.tag) :: e.fields

def encode (e : OutputEvent) : Value := .ofFields e.record

/-- The fields of all kinds of events, as far as they have been read. -/
structure Draft where
  id : String
  name : String
  status : String
  text : String
  steps : Nat
  durationMs : Nat
  success : Bool
  cancelled : Bool
  completed : Nat
  skipped : Nat
  failed : Nat

/-- A kind of event: its names, its fields, and the event that a draft spells. -/
structure Kind where
  tag : String
  variant : String
  fields : List (Field Draft)
  build : Draft → OutputEvent

open Decoder in
def kinds : List Kind :=
  let id := Field.needed "id" string fun v d => { d with id := v }
  let name := Field.needed "name" string fun v d => { d with name := v }
  let error := Field.needed "error" string fun v d => { d with text := v }
  let duration := Field.needed "duration_ms" u64 fun v d => { d with durationMs := v }
  [⟨"workflowStart", "WorkflowStart", [name, Field.needed "steps" usize fun v d => { d with steps := v }],
      fun d => .workflowStart d.name d.steps⟩,
    ⟨"stepStart", "StepStart", [id, name], fun d => .stepStart d.id d.name⟩,
    ⟨"stepComplete", "StepComplete", [id, Field.needed "status" string fun v d => { d with status := v }, duration],
      fun d => .stepComplete d.id d.status d.durationMs⟩,
    ⟨"stepError", "StepError", [id, error], fun d => .stepError d.id d.text⟩,
    ⟨"workflowComplete", "WorkflowComplete",
      [Field.needed "success" bool fun v d => { d with success := v }, Field.needed "cancelled" bool fun v d => { d with cancelled := v },
        duration, Field.needed "completed" usize fun v d => { d with completed := v },
        Field.needed "skipped" usize fun v d => { d with skipped := v }, Field.needed "failed" usize fun v d => { d with failed := v }],
      fun d => .workflowComplete d.success d.cancelled d.durationMs d.completed d.skipped d.failed⟩,
    ⟨"workflowError", "WorkflowError", [error], fun d => .workflowError d.text⟩,
    ⟨"info", "Info", [Field.needed "message" string fun v d => { d with text := v }], fun d => .info d.text⟩]

def Kind.schema (k : Kind) : Schema Draft :=
  ⟨s!"struct variant OutputEvent::{k.variant}", k.fields, ⟨"", "", "", "", 0, 0, false, false, 0, 0, 0⟩⟩

/-- The kind that a document names. -/
def kindOf : Decoder Kind
  | .str s => match kinds.find? (·.tag == s) with
    | some k => .ok k
    | none => .error (.unknownVariant s (kinds.map (·.tag)))
  | d => Decoder.mismatch "variant identifier" d

/-- Reads an event: an object with its kind under `type`, in which unknown fields do not count, or an array that begins with its
kind. -/
def decode : Decoder OutputEvent
  | .obj fields closed =>
    match fields.find? (·.1 == "type") with
    | none => .error (.missingField "type")
    | some (_, d) => do
      let k ← kindOf d
      let known := fields.filter fun f => (k.fields.map (·.name)).contains f.1
      k.build <$> k.schema.decode (.obj known closed)
  | .arr [] _ => .error (.missingField "type")
  | .arr (d :: items) closed => do
    let k ← kindOf d
    let s := k.schema
    let (draft, rest) ← s.readItems closed 0 s.initial s.fields items
    if rest.isEmpty then return k.build draft
    else .error (.wrongLength items.length s!"{elementCount s.fields.length} in sequence")
  | d => Decoder.mismatch "internally tagged enum OutputEvent" d

end OutputEvent

/-- What a command shows: an event, or its result. -/
inductive Shown where
  | event (e : OutputEvent)
  | result (success : Bool) (output : Option Value)
  deriving Repr

/-- The fields of the record of what is shown. -/
def Shown.record : Shown → List (String × Value)
  | event e => e.record
  | result success output =>
    [("type", .str "result"), ("success", .bool success), ("output", .ofOption output)]

/-- What a command shows of an event of a run that came to a result. -/
def Event.shown (result : RunResult) : Event → List OutputEvent
  | .runStarted workflow order => [.workflowStart workflow order.length]
  | .stepStarted s => [.stepStart s.id s.displayName]
  | .stepFinished s outcome =>
    let durationMs := ((result.steps.get? s.id).bind (·.durationMs)).getD 0
    .stepComplete s.id outcome.status.name durationMs :: match outcome with
      | .failed e => [.stepError s.id e.message]
      | _ => []
  | .runFinished r =>
    [.workflowComplete r.noErrors r.cancelled r.durationMs (r.count .completed) (r.count .skipped) (r.count .error)]

end Runbook
