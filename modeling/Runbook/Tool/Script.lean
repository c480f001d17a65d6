import Runbook.Tool.Activity

/-!
# Scripted tools

For rehearsals, a tool follows a script: a list of rules, of which the first that fits a call decides. All calls are written
down in the world.
-/

namespace Runbook

/-- How a rule answers. -/
inductive ScriptedAnswer where
  | value (v : Value)
  | echo
  | error (e : ToolError)
  | panic
  deriving Repr

/-- A rule for the calls that it fits: the n-th call of its tool, or those whose inputs have certain fields, or all. -/
structure Rule where
  call : Option Nat
  fields : Fields
  sleepMs : Nat
  cancel : Bool
  answer : ScriptedAnswer
  deriving Repr

/-- The calls of scripted tools, the last one first. -/
abbrev CallLog := List (String × Value)

namespace Rule

def fits (r : Rule) (nth : Nat) (inputs : Value) : Bool :=
  r.call.all (· == nth) && r.fields.all fun (key, v) => inputs.get? key == some v

/-- What a tool does by the rule: it sleeps, stops the run, and answers. -/
def activity (r : Rule) (inputs : Value) : Activity CallLog :=
  let answer : Activity CallLog := .answer (match r.answer with
    | .value v => .value v
    | .echo => .value inputs
    | .error e => .error e
    | .panic => .panic)
  .sleep (.ofMillis r.sleepMs) (if r.cancel then .cancel answer else answer)

end Rule

/-- A tool that follows a script; a call that no rule fits returns its inputs. -/
def scriptedTool (name : String) (rules : List Rule) (inputs : Value) : Activity CallLog :=
  .act ((name, inputs) :: ·) fun log =>
    match rules.find? (·.fits (log.countP (·.1 = name) + 1) inputs) with
    | some r => r.activity inputs
    | none => .answer (.value inputs)

/-- The tools of a script. -/
def Toolbox.ofScript (script : List (String × List Rule)) : Toolbox CallLog :=
  ⟨script.map fun (name, rules) => (name, scriptedTool name rules)⟩

end Runbook
