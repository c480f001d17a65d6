import Runbook.Audit.Finding
import Runbook.Text.Blank

/-!
# Audit policy

Which findings block a run, how many iterations pass without a finding, and which hosts are denied. An entry of the denylist
denies a host of that name and every host below it.
-/

namespace Runbook

structure AuditPolicy where
  blockOn : Severity
  maxIterationsCeiling : Nat
  deniedHosts : List String
  extraDeniedHosts : List String
  deriving DecidableEq, Repr

namespace AuditPolicy

/-- The hosts that are denied unless the policy lists its own. -/
def defaultDeniedHosts : List String :=
  ["localhost", "127.0.0.1", "0.0.0.0", "::1", "169.254.169.254", "metadata.google.internal", "metadata.azure.com"]

def default : AuditPolicy := ⟨.critical, 1000, defaultDeniedHosts, []⟩

def isBracket (c : Char) : Bool := c = '[' || c = ']'

/-- An entry of the denylist as it is compared: without blanks and brackets around it, in lower case. -/
def entryOf (s : String) : List Char :=
  (Text.dropEndWhile isBracket ((Text.trimChars s.toList).dropWhile isBracket)).map Char.toLower

/-- The hosts of the policy and those added to them. -/
def allDeniedHosts (p : AuditPolicy) : List String := p.deniedHosts ++ p.extraDeniedHosts

/-- The entries of the denylist; an empty one denies nothing. -/
def entries (p : AuditPolicy) : List (List Char) := (p.allDeniedHosts.map entryOf).filter (!·.isEmpty)

/-- A host as it is compared: without dots at its end, in lower case. -/
def hostOf (s : String) : List Char := (Text.dropEndWhile (· = '.') s.toList).map Char.toLower

/-- Whether a host is an entry or lies below it. -/
def matchesEntry (entry host : List Char) : Bool := host == entry || ('.' :: entry).isSuffixOf host

/-- Whether the policy denies a host. -/
def isDeniedHost (p : AuditPolicy) (host : String) : Bool := p.entries.any (matchesEntry · (hostOf host))

end AuditPolicy

end Runbook
