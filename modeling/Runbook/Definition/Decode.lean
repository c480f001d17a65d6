import Runbook.Definition.Basic
import Runbook.Json.Schema

/-!
# Reading definitions
-/

namespace Runbook

open Decoder in
def InputDef.schema : Schema InputDef where
  name := "struct InputDef"
  initial := .empty
  fields := [
    .optional "type" (option string) fun v d => { d with kind := v },
    .optional "required" bool fun v d => { d with required := v },
    .optional "default" (option value) fun v d => { d with default := v },
    .optional "description" (option string) fun v d => { d with description := v }]

open Decoder in
def Step.schema : Schema Step where
  name := "struct Step"
  initial := .empty
  fields := [
    .needed "id" string fun v s => { s with id := v },
    .optional "name" (option string) fun v s => { s with name := v },
    .optional "description" (option string) fun v s => { s with description := v },
    .needed "tool" string fun v s => { s with tool := v },
    .optional "inputs" value fun v s => { s with inputs := v },
    .optional "condition" (option string) fun v s => { s with condition := v },
    .optional "forEach" (option string) fun v s => { s with forEach := v },
    .optional "maxIterations" (option u64) fun v s => { s with maxIterations := v },
    .optional "continueOnError" bool fun v s => { s with continueOnError := v },
    .optional "allowWrites" bool fun v s => { s with allowWrites := v },
    .optional "dependsOn" (list string) fun v s => { s with dependsOn := v },
    .optional "timeoutMs" (option u64) fun v s => { s with timeoutMs := v }]

/-- A version is kept as text; null is no version, and any other value counts as its compact text. -/
def versionText : Value → Option String
  | .null => none
  | .str s => some s
  | v => some (Json.render v)

open Decoder in
def Definition.schema : Schema Definition where
  name := "struct WorkflowDefinition"
  initial := .empty
  fields := [
    .needed "name" string fun v d => { d with name := v },
    .optional "version" value fun v d => { d with version := versionText v },
    .optional "description" (option string) fun v d => { d with description := v },
    .optional "inputs" (entries InputDef.schema.decode) fun v d => { d with inputs := Keyed.ofList v },
    .optional "defaults" (entries value) fun v d => { d with defaults := Keyed.ofList v },
    .optional "steps" (list Step.schema.decode) fun v d => { d with steps := v }]

namespace Step

/-- The steps that a value under `inputs.steps` spells. -/
def decodeBody (v : Value) : Except DecodeError (List Step) := Decoder.list schema.decode (Document.ofValue v)

/-- The body of a loop step; none when its inputs have none. -/
def loopBody? (s : Step) : Option (Except DecodeError (List Step)) := (s.inputs.get? bodyKey).map decodeBody

end Step

end Runbook
