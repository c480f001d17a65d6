import Runbook.Command.Display
import Runbook.Command.Inspection
import Runbook.Command.Running

/-!
# Invocations

What the words of a command line ask for. Options may stand anywhere before the first argument of a run; from there on every word
is an argument.
-/

namespace Runbook

/-- The command that is asked for. -/
inductive CommandName where
  | run | validate | audit | capabilities | graph
  deriving DecidableEq, Repr

def CommandName.all : List (String × CommandName) :=
  [("run", run), ("validate", validate), ("audit", audit), ("capabilities", capabilities), ("graph", graph)]

/-- What has been read of a command line. -/
structure Invocation where
  command : Option CommandName
  workflow : Option String
  arguments : List String
  options : RunOptions
  package : Option String
  directory : Option String
  records : Bool
  quiet : Bool
  verbose : Bool
  deriving DecidableEq, Repr

/-- Why a command line is none. -/
inductive InvocationError where
  | unknownOption (word : String)
  | unknownCommand (word : String)
  | missing (what : String)
  | notNumber (word : String)
  deriving DecidableEq, Repr

def InvocationError.message : InvocationError → String
  | unknownOption word => s!"unknown option '{word}'"
  | unknownCommand word => s!"unknown command '{word}', expected " ++ ", ".intercalate (CommandName.all.map (·.1))
  | missing what => s!"missing {what}"
  | notNumber word => s!"'{word}' is not a number"

namespace Invocation

def empty : Invocation := ⟨none, none, [], ⟨false, none⟩, none, none, false, false, false⟩

/-- Reads the next word that is no option. -/
def readWord (i : Invocation) (word : String) : Except InvocationError Invocation :=
  match i.command, i.workflow with
  | none, _ => match CommandName.all.find? (·.1 == word) with
    | some (_, c) => .ok { i with command := some c }
    | none => .error (.unknownCommand word)
  | some _, none => .ok { i with workflow := some word }
  | some _, some _ => .ok { i with arguments := i.arguments ++ [word] }

/-- Reads words up to the end. -/
def read (i : Invocation) : List String → Except InvocationError Invocation
  | [] => .ok i
  | word :: rest =>
    if !i.arguments.isEmpty then .ok { i with arguments := i.arguments ++ word :: rest }
    else match word, rest with
      | "--json", rest => read { i with records := true } rest
      | "--quiet", rest => read { i with quiet := true } rest
      | "--debug", rest => read { i with verbose := true } rest
      | "--trusted", rest => read { i with options := { i.options with trusted := true } } rest
      | "--max-concurrency", n :: rest => match n.toNat? with
        | some k => read { i with options := { i.options with maxConcurrency := some k } } rest
        | none => .error (.notNumber n)
      | "--package", path :: rest => read { i with package := some path } rest
      | "--dir", path :: rest => read { i with directory := some path } rest
      | word, rest =>
        if word.startsWith "--" then .error (.unknownOption word)
        else match i.readWord word with
          | .ok i => read i rest
          | .error e => .error e

/-- The invocation that a command line spells, with its command and workflow. -/
def ofWords (words : List String) : Except InvocationError (Invocation × CommandName × String) := do
  let i ← empty.read words
  match i.command, i.workflow with
  | some c, some w => return (i, c, w)
  | none, _ => .error (.missing "command")
  | some _, none => .error (.missing "workflow")

/-- How output is shown. -/
def mode (i : Invocation) : DisplayMode := .ofFlags i.records i.quiet i.verbose

/-- Does what is asked for. -/
def perform [Toml.Reader] [Url.Reader] (i : Invocation) (command : CommandName) (workflow : String) (s : Session) (network : Network W) (world : W)
    (now : Nat) : Except CommandError CommandResult :=
  match command with
  | .run => Prod.fst <$> s.run i.options network world false now workflow i.arguments
  | .validate => s.validate workflow
  | .audit => s.audit workflow i.package
  | .capabilities => s.capabilities workflow
  | .graph => s.graph workflow

end Invocation

end Runbook
