import Runbook.Command.Event
import Runbook.Numeric.Extended

/-!
# Showing output

Output is shown for readers, with events on the error stream and results on the standard stream; as one record a line on the
standard stream; or quietly, with nothing but errors and results.
-/

namespace Runbook

/-- For whom output is shown. -/
inductive DisplayMode where
  | console (verbose : Bool)
  | records
  | quiet
  deriving DecidableEq, Repr

/-- What is printed on the two streams. -/
structure Printed where
  out : String
  err : String
  deriving DecidableEq, Repr

namespace Printed

def empty : Printed := ⟨"", ""⟩

def append (a b : Printed) : Printed := ⟨a.out ++ b.out, a.err ++ b.err⟩

instance : Append Printed := ⟨append⟩

def outLine (s : String) : Printed := ⟨s ++ "\n", ""⟩

def errLine (s : String) : Printed := ⟨"", s ++ "\n"⟩

end Printed

/-- A length of time: milliseconds below a second, else seconds with one place. The seconds are a floating-point number, which is
rounded to the place, a tie to the even digit. -/
def elapsedText (ms : Nat) : String :=
  if ms < 1000 then s!"{ms}ms"
  else match (Extended.ofNat ms).div (.ofNat 1000) with
    | .finite seconds =>
      let (m, e) := Binary64.unpack seconds
      let tenths := Binary64.roundDiv (m * 10 * 2 ^ e.toNat) (2 ^ (-e).toNat)
      s!"{tenths / 10}.{tenths % 10}s"
    | .infinite | .undefined => "infs"

namespace OutputEvent

/-- The mark of a status. -/
def statusMark (status : String) : String :=
  if status = StepStatus.completed.name then "✓" else if status = StepStatus.skipped.name then "-" else "✗"

/-- The lines of an event for readers; starts of steps are shown on demand only. -/
def consoleLines (verbose : Bool) : OutputEvent → List String
  | workflowStart name steps => [s!"Running workflow '{name}' ({steps} steps)"]
  | stepStart id name => if verbose then [if id = name then s!"  → {id}" else s!"  → {id} ({name})"] else []
  | stepComplete id status durationMs => [s!"  {statusMark status} {id} {status} ({elapsedText durationMs})"]
  | stepError id error => [s!"    error in step '{id}': {error}"]
  | workflowComplete success cancelled durationMs completed skipped failed =>
    let summary := s!"{completed} completed, {skipped} skipped, {failed} failed in {elapsedText durationMs}"
    ["", if cancelled then s!"✗ Workflow cancelled ({summary})"
      else if success then s!"✓ Workflow completed successfully ({summary})"
      else s!"✗ Workflow failed ({summary})"]
  | workflowError error => [s!"Error: {error}"]
  | info message => [message]

end OutputEvent

/-- The lines of a result for readers: a text as it is, an array of texts line by line, and anything else as JSON. -/
def resultLines : Value → List String
  | .str s => [s]
  | .arr items =>
    let texts := items.filterMap Value.str?
    if texts.length = items.length then texts else [Json.renderWide 0 (.arr items)]
  | v => [Json.renderWide 0 v]

namespace DisplayMode

/-- The mode that flags choose; records win. -/
def ofFlags (records quiet verbose : Bool) : DisplayMode :=
  if records then .records else if quiet then .quiet else .console verbose

/-- Whether results are for programs. -/
def structured (m : DisplayMode) : Bool := m = .records

/-- What is printed of one thing that is shown. -/
def print (m : DisplayMode) (s : Shown) : Printed :=
  match m, s with
  | .records, s => .outLine (Json.render (.obj s.record))
  | _, .result _ output => (output.toList.flatMap resultLines).foldl (fun p line => p ++ .outLine line) .empty
  | .console verbose, .event e => (e.consoleLines verbose).foldl (fun p line => p ++ .errLine line) .empty
  | .quiet, .event (.workflowError error) => .errLine s!"Error: {error}"
  | .quiet, .event _ => .empty

/-- What is printed of all that is shown. -/
def printAll (m : DisplayMode) (shown : List Shown) : Printed := shown.foldl (fun p s => p ++ m.print s) .empty

end DisplayMode

end Runbook
