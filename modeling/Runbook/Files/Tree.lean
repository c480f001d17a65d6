import Runbook.Value.Keyed

/-!
# File trees

The part of a disk that a command reads, as a tree of directories and text files, and paths into it.
-/

namespace Runbook

inductive FileTree where
  | file (text : String)
  | dir (entries : List (String × FileTree))
  deriving Repr, Inhabited

namespace FileTree

def isDir : FileTree → Bool
  | dir _ => true
  | file _ => false

def isFile (t : FileTree) : Bool := !t.isDir

/-- The text of a file; a directory has none. -/
def text? : FileTree → Option String
  | file text => some text
  | dir _ => none

/-- What a path leads to from a place with these directories above it. `.` stays in a directory and `..` leaves it. -/
def walk : List FileTree → FileTree → List String → Option FileTree
  | _, t, [] => some t
  | _, file _, _ :: _ => none
  | above, dir entries, name :: rest =>
    if name = "" || name = "." then walk above (dir entries) rest
    else if name = ".." then
      match above with
      | parent :: above => walk above parent rest
      | [] => walk [] (dir entries) rest
    else match Keyed.get? entries name with
      | some t => walk (dir entries :: above) t rest
      | none => none

/-- What an absolute path leads to. -/
def find? (root : FileTree) (path : String) : Option FileTree :=
  if path.startsWith "/" then walk [] root (path.splitOn "/") else none

def exists? (root : FileTree) (path : String) : Bool := (root.find? path).isSome

/-- Puts a tree at the end of a path, with the directories above it. -/
def put (t : FileTree) : List String → FileTree → FileTree
  | [], _ => t
  | name :: path, dir entries => dir (Keyed.insert entries name (put t path ((Keyed.get? entries name).getD (dir []))))
  | name :: path, file _ => dir [(name, put t path (dir []))]

end FileTree

namespace Path

/-- A path below a directory; an absolute path stays what it is. -/
def join (dir name : String) : String :=
  if name.startsWith "/" then name
  else if dir.endsWith "/" then dir ++ name
  else dir ++ "/" ++ name

/-- A path in which `~` at the start stands for the home directory. -/
def expandHome (home path : String) : String :=
  match path.toList with
  | ['~'] => home
  | '~' :: '/' :: rest => home ++ String.ofList ('/' :: rest)
  | _ => path

/-- The part of a file name after its last dot; a dot at the start of the name does not count. -/
def nameExtension? (name : String) : Option String :=
  match name.toList.reverse.span (· != '.') with
  | (_, []) | (_, [_]) => none
  | (ending, _) => some (String.ofList ending.reverse)

/-- The last name of a path. -/
def fileName? (path : String) : Option String :=
  match ((path.splitOn "/").filter fun n => n != "" && n != ".").getLast? with
  | some ".." | none => none
  | some name => some name

/-- The extension of the last name of a path. -/
def extension? (path : String) : Option String := (fileName? path).bind nameExtension?

end Path

end Runbook
