/-!
# Lengths of time

A length of time in nanoseconds, and its text: the largest unit that leaves a whole part, and the fraction without zeros at its
end.
-/

namespace Runbook

structure Duration where
  nanos : Nat
  deriving DecidableEq, Repr

namespace Duration

def nanosPerMilli : Nat := 10 ^ 6

def nanosPerSecond : Nat := 10 ^ 9

def ofMillis (ms : Nat) : Duration := ⟨ms * nanosPerMilli⟩

def ofSeconds (s : Nat) : Duration := ⟨s * nanosPerSecond⟩

/-- The milliseconds that a length takes on a clock that ticks once a millisecond. -/
def ticks (d : Duration) : Nat := (d.nanos + (nanosPerMilli - 1)) / nanosPerMilli

/-- The digits of a fraction of `places` places, without zeros at their end. -/
def fractionText (places n : Nat) : String :=
  let digits := Nat.toDigits 10 n
  let padded := List.replicate (places - digits.length) '0' ++ digits
  match (padded.reverse.dropWhile (· = '0')).reverse with
  | [] => ""
  | digits => "." ++ String.ofList digits

/-- The number of units of `10 ^ places` nanoseconds. -/
def inUnits (d : Duration) (places : Nat) : String :=
  toString (d.nanos / 10 ^ places) ++ fractionText places (d.nanos % 10 ^ places)

def text (d : Duration) : String :=
  if nanosPerSecond ≤ d.nanos then d.inUnits 9 ++ "s"
  else if nanosPerMilli ≤ d.nanos then d.inUnits 6 ++ "ms"
  else if 1000 ≤ d.nanos then d.inUnits 3 ++ "µs"
  else d.inUnits 0 ++ "ns"

end Duration

end Runbook
