import Runbook.Numeric.Extended
import Runbook.Time.Duration

/-!
# Lengths of time as floating-point seconds
-/

namespace Runbook.Duration

/-- The length in seconds: the whole seconds and the fraction are rounded each, and so is their sum. -/
def seconds (d : Duration) : Extended :=
  (Extended.ofNat (d.nanos / nanosPerSecond)).add (.ofQuotient (d.nanos % nanosPerSecond) nanosPerSecond)

/-- The length of so many seconds, rounded to nanoseconds, a tie to the even one; only a finite number is a length. -/
def ofFloatSeconds : Extended → Duration
  | .finite a =>
    let (m, e) := Binary64.unpack a
    ⟨Binary64.roundDiv (m * 2 ^ e.toNat * nanosPerSecond) (2 ^ (-e).toNat)⟩
  | .infinite | .undefined => ⟨0⟩

end Runbook.Duration
