import Runbook.Config.Basic
import Runbook.Files.Tree
import Runbook.Toml.Reader

/-!
# Layers of configuration

Configuration is read from several files, each of which may set some of the fields. Every file is checked alone; then a field
that a later file sets replaces what earlier files say. Tables are joined key by key, arrays replaced whole.
-/

namespace Runbook

/-- What is wrong with the content of a file. -/
inductive ContentFault where
  | jsonData
  | jsonForm
  | toml
  | isDirectory
  deriving DecidableEq, Repr

def ContentFault.message : ContentFault → String
  | jsonData => "(json data)"
  | jsonForm => "(json syntax)"
  | toml => "(toml)"
  | isDirectory => "(io IsADirectory)"

/-- Why a file cannot be used. -/
inductive LoadError where
  | notFound (workflow : String)
  | reading (path : String) (fault : ContentFault)
  | parsing (path : String) (fault : ContentFault)
  | unsupported (extension path : String)
  | merging (fault : ContentFault)
  deriving DecidableEq, Repr

def LoadError.message : LoadError → String
  | notFound workflow => s!"workflow '{workflow}' not found"
  | reading path fault => s!"reading {path}: {fault.message}"
  | parsing path fault => s!"parsing {path}: {fault.message}"
  | unsupported extension path => s!"unsupported workflow format '.{extension}' for {path} (expected .json or .toml)"
  | merging fault => s!"merging configuration layers: {fault.message}"

namespace Document

mutual

/-- The document with their texts in place of dates. -/
def withDateTexts : Document → Document
  | .arr items closed => .arr (itemsWithDateTexts items) closed
  | .obj fields closed => match Toml.dateText? fields with
    | some text => .str text
    | none => .obj (fieldsWithDateTexts fields) closed
  | d => d

def itemsWithDateTexts : List Document → List Document
  | [] => []
  | d :: ds => d.withDateTexts :: itemsWithDateTexts ds

def fieldsWithDateTexts : List (String × Document) → List (String × Document)
  | [] => []
  | (key, d) :: rest => (key, d.withDateTexts) :: fieldsWithDateTexts rest

end

/-- Sets a field, in its place or at the end. -/
def setField (fields : List (String × Document)) (key : String) (d : Document) : List (String × Document) :=
  match fields with
  | [] => [(key, d)]
  | (k, e) :: rest => if k = key then (key, d) :: rest else (k, e) :: setField rest key d

mutual

/-- A field laid over the fields of a table: two tables are joined, anything else is replaced. -/
def overlayField (base : List (String × Document)) (key : String) : Document → List (String × Document)
  | .obj fields closed =>
    match base.find? (·.1 == key) with
    | some (_, .obj below _) => setField base key (.obj (overlayFields below fields) closed)
    | _ => setField base key (.obj fields closed)
  | d => setField base key d

/-- The fields of one table laid over those of another. -/
def overlayFields (base : List (String × Document)) : List (String × Document) → List (String × Document)
  | [] => base
  | (key, d) :: rest => overlayFields (overlayField base key d) rest

end

end Document

namespace Config

variable [Toml.Reader]

/-- The fields that a file of configuration sets, which must be valid alone. A date counts as its text. -/
def readLayer (path : String) (t : FileTree) : Except LoadError (List (String × Document)) :=
  match t with
  | .dir _ => .error (.reading path .isDirectory)
  | .file text =>
    match (Toml.Reader.read? text).map Document.withDateTexts with
    | some (.obj fields closed) =>
      match schema.decode (.obj fields closed) with
      | .ok _ => .ok fields
      | .error _ => .error (.parsing path .toml)
    | _ => .error (.parsing path .toml)

/-- The configuration that files give, later ones over earlier ones; files that do not exist are left out. -/
def loadLayers (root : FileTree) (paths : List String) : Except LoadError Config := do
  let layers ← paths.filterMapM fun path => match root.find? path with
    | some t => some <$> readLayer path t
    | none => pure none
  let merged := layers.foldl Document.overlayFields []
  (schema.decode (.obj merged true)).mapError fun _ => .merging .toml

/-- The place of the configuration below the directory of a user. -/
def userFile : String := "flowgate/config.toml"

/-- The place of the configuration below the directory of a project. -/
def projectFile : String := ".flowgate/config.toml"

/-- The configuration of a project: that of the user, then that of the project. -/
def load (root : FileTree) (userDir projectDir : String) : Except LoadError Config :=
  loadLayers root [Path.join userDir userFile, Path.join projectDir projectFile]

end Config

end Runbook
