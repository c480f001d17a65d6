import Runbook.Expr.Eval

/-!
# Execution context

The inputs and defaults of a run, and a slot for the record of every step. A slot is written once, by the step it belongs to,
and read by every step that depends on it.
-/

namespace Runbook

/-- Why a record cannot be written. -/
inductive SlotError where
  | unknown (id : String)
  | alreadyWritten (id : String)
  deriving DecidableEq, Repr

def SlotError.message : SlotError → String
  | unknown id => s!"no context slot for step '{id}'"
  | alreadyWritten id => s!"context slot for step '{id}' was already written"

structure Context where
  inputs : Value
  defaults : Value
  slots : Keyed (Option Value)

namespace Context

/-- A context with an empty slot for every step. -/
def start (inputs defaults : Fields) (ids : List String) : Context :=
  ⟨.obj inputs, .obj defaults, Keyed.ofList (ids.map (·, none))⟩

/-- The record of a step, once it is written. -/
def entry? (c : Context) (id : String) : Option Value := (c.slots.get? id).join

/-- Writes the record of a step. -/
def record (c : Context) (id : String) (entry : Value) : Except SlotError Context :=
  match c.slots.get? id with
  | none => .error (.unknown id)
  | some (some _) => .error (.alreadyWritten id)
  | some none => .ok { c with slots := c.slots.insert id (some entry) }

/-- The context after a step has ended with this record; a record that cannot be written changes nothing. -/
def close (c : Context) (id : String) (entry : Value) : Context :=
  match c.record id entry with
  | .ok c => c
  | .error _ => c

/-- What a name stands for: `inputs`, `defaults`, or the record of a step. -/
def lookup (c : Context) (name : String) : Option Value :=
  if name = "inputs" then some c.inputs
  else if name = "defaults" then some c.defaults
  else c.entry? name

/-- The names of a context as a scope. -/
def scope (c : Context) : Scope := c.lookup

end Context

end Runbook
