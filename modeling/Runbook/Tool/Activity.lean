import Runbook.Tool.Error
import Runbook.Value.Basic

/-!
# What tools do

A tool that is called does something in its world, may sleep, may stop the run, and comes to an answer. The world is whatever
the tools share: the state of a script, or a network.
-/

namespace Runbook

/-- The answer of a tool: a value, an error, or none because it broke. -/
inductive Answer where
  | value (v : Value)
  | error (e : ToolError)
  | panic
  deriving Repr

/-- What a tool does from a moment on, until its answer. -/
inductive Activity (W : Type) where
  | answer (a : Answer)
  | sleep (d : Duration) (rest : Activity W)
  | cancel (rest : Activity W)
  | act (update : W → W) (rest : W → Activity W)

namespace Activity

/-- Goes on after the answer of an activity. -/
def bind : Activity W → (Answer → Activity W) → Activity W
  | answer a, f => f a
  | sleep d rest, f => sleep d (rest.bind f)
  | cancel rest, f => cancel (rest.bind f)
  | act update rest, f => act update fun w => (rest w).bind f

/-- Does something in the world and goes on with what it was before. -/
def modify (update : W → W) (rest : W → Activity W) : Activity W := act update rest

end Activity

/-- The tools that a workflow can call, by name: what each does with its inputs. -/
structure Toolbox (W : Type) where
  tools : List (String × (Value → Activity W))

namespace Toolbox

def find? (box : Toolbox W) (name : String) : Option (Value → Activity W) :=
  (box.tools.find? (·.1 == name)).map (·.2)

def has (box : Toolbox W) (name : String) : Bool := (box.find? name).isSome

end Toolbox

end Runbook
