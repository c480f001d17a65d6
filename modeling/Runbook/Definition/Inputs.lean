import Runbook.Definition.Basic
import Runbook.Json.Reader
import Runbook.Text.Blank

/-!
# The inputs of a run

Inputs are given as arguments `key=value`, and what is not given takes its default. A value is read as JSON where it is JSON,
but the value of an input declared as a string is taken as it is written.
-/

namespace Runbook

/-- Why an argument is none. -/
inductive ArgumentError where
  | notAssignment (argument : String)
  | emptyKey (argument : String)
  deriving DecidableEq, Repr

def ArgumentError.message : ArgumentError → String
  | notAssignment argument => s!"invalid argument '{argument}': expected key=value"
  | emptyKey argument => s!"invalid argument '{argument}': empty key"

namespace Definition

/-- The value that is written for an input. -/
def argumentValue (d : Definition) (key text : String) : Value :=
  if (d.inputs.get? key).any InputDef.isString then .str text
  else (Json.parse? text).getD (.str text)

/-- The key and value of an argument. -/
def readArgument (d : Definition) (argument : String) : Except ArgumentError (String × Value) :=
  let (key, rest) := argument.toList.span (· != '=')
  match rest with
  | [] => .error (.notAssignment argument)
  | _ :: text =>
    let key := Text.trim (String.ofList key)
    if key.isEmpty then .error (.emptyKey argument)
    else .ok (key, d.argumentValue key (String.ofList text))

/-- The inputs that arguments give; the last one of a key counts. -/
def readArguments (d : Definition) (arguments : List String) : Except ArgumentError Fields :=
  Keyed.ofList <$> arguments.mapM d.readArgument

/-- Adds the defaults of declared inputs that are not given; a required one without default is missing. -/
def bindFrom (given : Fields) : List (String × InputDef) → Except String Fields
  | [] => .ok given
  | (name, declared) :: rest =>
    if (given.get? name).isSome then bindFrom given rest
    else match declared.default with
      | some v => bindFrom (given.insert name v) rest
      | none => if declared.required then .error name else bindFrom given rest

/-- The inputs of a run, or the name of one that is missing. -/
def bindInputs (d : Definition) (given : Fields) : Except String Fields := bindFrom given d.inputs

end Definition

end Runbook
