import Runbook.Audit.Finding
import Runbook.Files.Tree
import Runbook.Json.Reader

/-!
# Audit of packages

The directory that a workflow comes in must not bring programs: every file with the extension of a program is a finding, and
every script of `package.json` that runs by itself. Directories of dependencies, history and build results are left out.
-/

namespace Runbook

/-- Why a package cannot be audited. -/
inductive PackageError where
  | notFound (path : String)
  | unreadable (path : String)
  deriving DecidableEq, Repr

def PackageError.message : PackageError → String
  | notFound path => s!"package directory not found: {path}"
  | unreadable path => s!"Failed to read {path}: (io IsADirectory)"

namespace Package

def executableExtensions : List String :=
  ["js", "mjs", "cjs", "ts", "py", "sh", "bash", "ps1", "bat", "cmd", "exe", "dll", "so", "dylib", "rb", "pl"]

def lifecycleScripts : List String := ["preinstall", "install", "postinstall", "preuninstall", "postuninstall"]

def skippedDirectories : List String := ["node_modules", ".git", "target"]

/-- Whether a file of this name is a program. -/
def isExecutable (name : String) : Bool :=
  (Path.nameExtension? name).any fun ext => executableExtensions.contains (String.ofList (ext.toList.map Char.toLower))

/-- A path as it is reported, with slashes only. -/
def displayPath (path : String) : String := String.ofList (path.toList.map fun c => if c = '\\' then '/' else c)

mutual

/-- The paths of the programs in a tree that stands at a path. -/
def executables (path name : String) : FileTree → List String
  | .file _ => if isExecutable name then [path] else []
  | .dir entries => if skippedDirectories.contains name then [] else executablesOf (path ++ "/") entries

/-- The paths of the programs among the entries of a directory whose path ends in a slash or is empty. -/
def executablesOf (path : String) : List (String × FileTree) → List String
  | [] => []
  | (name, t) :: rest => executables (path ++ name) name t ++ executablesOf path rest

end

/-- The findings on the programs among the entries of a package, in the order of their paths. -/
def programFindings (entries : List (String × FileTree)) : List Finding :=
  (((executablesOf "" entries).map displayPath).mergeSort fun a b => decide (a ≤ b)).map fun path =>
    ⟨.critical, s!"package contains executable file '{path}'", none⟩

/-- The findings on the scripts that `package.json` declares; a text that is no JSON declares none. -/
def scriptFindings (text : String) : List Finding :=
  match (Json.parse? text).bind (·.get? "scripts") with
  | some (.obj scripts) =>
    (lifecycleScripts.filter (Keyed.keys scripts).contains).map fun name =>
      ⟨.critical, s!"package.json declares a '{name}' lifecycle script", none⟩
  | _ => []

/-- The audit of the package at a path. -/
def audit (root : FileTree) (path : String) : Except PackageError (List Finding) :=
  match root.find? path with
  | some (.dir entries) =>
    match Keyed.get? entries "package.json" with
    | none => .ok (programFindings entries)
    | some (.file text) => .ok (programFindings entries ++ scriptFindings text)
    | some (.dir _) => .error (.unreadable (Path.join path "package.json"))
  | _ => .error (.notFound path)

end Package

end Runbook
