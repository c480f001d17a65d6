import Runbook.Command.Invocation
import Std.Time

/-!
# The command line

Reads the files that a command may look at, performs it, and prints what it shows. There is no network, so requests fail.
-/

namespace Runbook.Main

/-- Reads a file or a directory with all that is in it; what cannot be read as text is an empty file. -/
partial def readTree (path : String) : IO FileTree := do
  let place := (← IO.currentDir) / path
  if ← place.isDir then
    let entries ← (← place.readDir).toList.mapM fun e => return (e.fileName, ← readTree e.path.toString)
    return .dir (Keyed.ofList entries)
  else try return .file (← IO.FS.readFile place) catch _ => return .file ""

/-- Adds what is at a path to the files. -/
def addPath (files : FileTree) (path : String) : IO FileTree := do
  let place := (← IO.currentDir) / path
  if ← place.pathExists then
    let names := (path.splitOn "/").filter (· ≠ "")
    return (← readTree path).put names files
  else return files

/-- A path below the current directory, unless it is absolute. -/
def absolute (path : String) : IO String := return Path.join (← IO.currentDir).toString path

/-- The directories in which documents are looked for. -/
def findPlaces (directory : Option String) : IO Places := do
  let home := (← IO.getEnv "HOME").getD "/"
  let user := (← IO.getEnv "XDG_CONFIG_HOME").getD (Path.join home ".config")
  return ⟨← absolute (Path.expandHome home (directory.getD ".")), user, home⟩

/-- Performs a command and gives its exit code. -/
def perform (i : Invocation) (command : CommandName) (workflow : String) : IO UInt32 := do
  let places ← findPlaces i.directory
  let workflow ← if (← ((← IO.currentDir) / workflow).pathExists) then absolute workflow else pure workflow
  let package ← i.package.mapM fun path => absolute (Path.expandHome places.home path)
  let configs := [Path.join places.user Config.userFile, Path.join places.project Config.projectFile]
  let documents := Path.expandHome places.home workflow :: places.candidates workflow
  let wanted := (configs ++ documents ++ package.toList).filter (·.startsWith "/")
  let files ← wanted.foldlM addPath (.dir [])
  let now ← Std.Time.Timestamp.now
  let millis := now.toMillisecondsSinceUnixEpoch.val.toNat
  match Config.load files places.user places.project with
  | .error e => IO.eprintln s!"Error: {e.message}"; return 1
  | .ok config =>
    let session : Session := ⟨files, places, config, i.mode.structured⟩
    match { i with package }.perform command workflow session (Network.unreachable (W := Unit)) () millis with
    | .error e => IO.eprintln s!"Error: {e.message}"; return 1
    | .ok result =>
      let printed := i.mode.printAll result.shown
      IO.eprint printed.err
      IO.print printed.out
      return result.exit.toUInt32

end Runbook.Main

open Runbook in
/-- Runs the command that the words of a command line ask for. -/
def main (words : List String) : IO UInt32 :=
  match Invocation.ofWords words with
  | .error e => do IO.eprintln s!"Error: {e.message}"; return 2
  | .ok (i, command, workflow) => Main.perform i command workflow
