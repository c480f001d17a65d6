import Runbook.Config.Layers
import Runbook.Definition.Decode
import Runbook.Json.Reader

/-!
# Finding and reading workflow documents

A workflow is named by the path of its file, or by the name of a document in the directory of the project or of the user. The
extension tells the format of a document.
-/

namespace Runbook

/-- The directories in which documents are looked for. -/
structure Places where
  project : String
  user : String
  home : String
  deriving DecidableEq, Repr

namespace Places

/-- The directories that hold the documents of the project and of the user, in this order. -/
def workflowDirs (p : Places) : List String :=
  [Path.join p.project ".flowgate/workflows", Path.join p.user "flowgate/workflows"]

/-- The paths at which a named document may stand. -/
def candidates (p : Places) (name : String) : List String :=
  p.workflowDirs.flatMap fun dir => ["json", "toml"].map fun ext => Path.join dir s!"{name}.{ext}"

/-- The path of the workflow with a name. -/
def workflowPath (p : Places) (root : FileTree) (name : String) : Except LoadError String :=
  let direct := Path.expandHome p.home name
  if (root.find? direct).any FileTree.isFile then .ok direct
  else match (p.candidates name).find? root.exists? with
    | some path => .ok path
    | none => .error (.notFound name)

end Places

namespace Definition

/-- The definition that a JSON text spells. The first fault in the text decides, of content or of form. -/
def ofJson (path text : String) : Except LoadError Definition :=
  let (d, clean) := Json.read Json.maxDepth text
  match schema.decode d with
  | .error .malformed => .error (.parsing path .jsonForm)
  | .error (.wrongLength _ expected) =>
    .error (.parsing path (if expected = "fewer elements in array" then .jsonForm else .jsonData))
  | .error _ => .error (.parsing path .jsonData)
  | .ok definition => if clean then .ok definition else .error (.parsing path .jsonForm)

variable [Toml.Reader]

/-- The definition that a TOML text spells. -/
def ofToml (path text : String) : Except LoadError Definition :=
  match (Toml.Reader.read? text).map schema.decode with
  | some (.ok definition) => .ok definition
  | _ => .error (.parsing path .toml)

/-- The definition in the document at a path; a document without extension is JSON. -/
def load (root : FileTree) (path : String) : Except LoadError Definition :=
  match root.find? path with
  | some (.file text) =>
    match Path.extension? path with
    | some "toml" => ofToml path text
    | some "json" | none => ofJson path text
    | some ext => .error (.unsupported ext path)
  | _ => .error (.reading path .isDirectory)

/-- The definition of the workflow with a name. -/
def loadNamed (root : FileTree) (places : Places) (name : String) : Except LoadError Definition :=
  places.workflowPath root name >>= load root

end Definition

end Runbook
