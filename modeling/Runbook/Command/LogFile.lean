import Runbook.Config.Workflows
import Runbook.Time.Civil

/-!
# Log files

Every run may have a log file of its own in the directory of the user.
-/

namespace Runbook.LogFile

/-- Characters that stay in the name of a log file; all others become `_`. -/
def isPlain (c : Char) : Bool := c.isAlphanum || c = '-' || c = '_'

/-- The name of a log file of a workflow, for a run that begins at an instant. -/
def name (workflow : String) (now : Civil) : String :=
  String.ofList (workflow.toList.map fun c => if isPlain c then c else '_') ++ "-" ++ now.stamp ++ ".log"

/-- The path of a log file of a workflow. -/
def path (places : Places) (workflow : String) (now : Civil) : String :=
  Path.join (Path.join places.user "flowgate/logs") (name workflow now)

end Runbook.LogFile
