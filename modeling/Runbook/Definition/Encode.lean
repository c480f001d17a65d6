import Runbook.Definition.Basic

/-!
# Writing definitions

Absent options and empty `dependsOn` are left out; everything else is always written.
-/

namespace Runbook

/-- A field that is written only when it has a value. -/
def optionalField (key : String) (encode : α → Value) (v : Option α) : List (String × Value) :=
  match v with
  | some a => [(key, encode a)]
  | none => []

def InputDef.encode (d : InputDef) : Value :=
  .obj (optionalField "default" id d.default ++ optionalField "description" .str d.description
    ++ [("required", .bool d.required)] ++ optionalField "type" .str d.kind)

def Step.encode (s : Step) : Value :=
  .obj ([("allowWrites", .bool s.allowWrites)]
    ++ optionalField "condition" .str s.condition
    ++ [("continueOnError", .bool s.continueOnError)]
    ++ (if s.dependsOn.isEmpty then [] else [("dependsOn", .ofStrings s.dependsOn)])
    ++ optionalField "description" .str s.description
    ++ optionalField "forEach" .str s.forEach
    ++ [("id", .str s.id), ("inputs", s.inputs)]
    ++ optionalField "maxIterations" .ofNat s.maxIterations
    ++ optionalField "name" .str s.name
    ++ optionalField "timeoutMs" .ofNat s.timeoutMs
    ++ [("tool", .str s.tool)])

def Definition.encode (d : Definition) : Value :=
  .obj ([("defaults", .obj d.defaults)]
    ++ optionalField "description" .str d.description
    ++ [("inputs", .obj (d.inputs.map fun (k, i) => (k, i.encode))), ("name", .str d.name),
      ("steps", .arr (d.steps.map Step.encode))]
    ++ optionalField "version" .str d.version)

end Runbook
