import Runbook.Value.Basic

/-!
# Workflow definitions

A definition is a name, the inputs that a run takes, defaults, and steps. Each step names the tool it calls and the inputs of
the call, in which fragments refer to earlier steps.
-/

namespace Runbook

/-- The tools that a step can name. -/
inductive ToolKind where
  | http | ingest | aggregate | generate | query | search | collections | loop | embed | chunk | insert
  deriving DecidableEq, Repr

namespace ToolKind

def name : ToolKind → String
  | http => "http"
  | ingest => "ingest"
  | aggregate => "aggregate"
  | generate => "generate"
  | query => "query"
  | search => "search"
  | collections => "collections"
  | loop => "loop"
  | embed => "embed"
  | chunk => "chunk"
  | insert => "insert"

def all : List ToolKind :=
  [http, ingest, aggregate, generate, query, search, collections, loop, embed, chunk, insert]

def ofName? (name : String) : Option ToolKind := all.find? (·.name == name)

def names : List String := all.map name

/-- The kind with the name of a kind is this kind. -/
theorem ofName?_name (k : ToolKind) : ofName? k.name = some k := by cases k <;> decide

end ToolKind

/-- An input that a run of the workflow takes. -/
structure InputDef where
  kind : Option String
  required : Bool
  default : Option Value
  description : Option String
  deriving Repr

namespace InputDef

def empty : InputDef := ⟨none, false, none, none⟩

/-- An input of this kind takes its text as it is written. -/
def isString (d : InputDef) : Bool := d.kind == some "string"

end InputDef

/-- A unit of work that is bound to one tool. -/
structure Step where
  id : String
  name : Option String
  description : Option String
  tool : String
  inputs : Value
  condition : Option String
  forEach : Option String
  maxIterations : Option Nat
  continueOnError : Bool
  allowWrites : Bool
  dependsOn : List String
  timeoutMs : Option Nat
  deriving Repr

namespace Step

def empty : Step := ⟨"", none, none, "", .obj [], none, none, none, false, false, [], none⟩

def toolKind? (s : Step) : Option ToolKind := ToolKind.ofName? s.tool

def isLoop (s : Step) : Bool := s.toolKind? = some .loop

/-- A loop step, and any step with a sequence to go through. -/
def iterates (s : Step) : Bool := s.forEach.isSome || s.isLoop

/-- The text under a key of the inputs. -/
def inputText? (s : Step) (key : String) : Option String := (s.inputs.get? key).bind Value.str?

/-- The key of the inputs of a loop step that holds its body. -/
def bodyKey : String := "steps"

/-- The inputs without the body of a loop step. -/
def inputsWithoutBody (s : Step) : Value :=
  match s.inputs with
  | .obj fields => if s.isLoop then .obj (Keyed.erase fields bodyKey) else .obj fields
  | v => v

/-- The name of the step in reports. -/
def displayName (s : Step) : String := s.name.getD s.id

end Step

/-- A workflow document. -/
structure Definition where
  name : String
  version : Option String
  description : Option String
  inputs : Keyed InputDef
  defaults : Fields
  steps : List Step
  deriving Repr

namespace Definition

def empty : Definition := ⟨"", none, none, [], [], []⟩

/-- The first step with an id. -/
def step? (d : Definition) (id : String) : Option Step := d.steps.find? (·.id == id)

end Definition

end Runbook
