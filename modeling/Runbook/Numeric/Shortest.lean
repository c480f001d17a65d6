import Runbook.Numeric.Decimal

/-!
# Shortest digits

The fewest decimal digits that read back as a given 64-bit number, and among those the nearest to it.
-/

namespace Runbook.Shortest

/-- The real numbers between two bounds over one denominator, with the number itself: `low / den`, `value / den`, `high / den`. -/
structure Interval where
  low : Nat
  value : Nat
  high : Nat
  den : Nat
  closed : Bool
  deriving Repr

/-- The real numbers that round to the number of a positive magnitude; the ends belong to it iff the significand is even. -/
def interval (magnitude : Nat) : Interval :=
  let (m, e) := Binary64.unpack magnitude
  let up := 2 ^ (e - 2).toNat
  let below := if m = 2 ^ 52 && magnitude > 2 ^ 52 then 4 * m - 1 else 4 * m - 2
  ⟨below * up, 4 * m * up, (4 * m + 2) * up, 2 ^ (2 - e).toNat, m % 2 = 0⟩

/-- The grid of multiples of `10 ^ k`, on which a bound is written as a quotient. -/
def Interval.onGrid (i : Interval) (k : Int) : Interval :=
  let up := 10 ^ (-k).toNat
  { i with low := i.low * up, value := i.value * up, high := i.high * up, den := i.den * 10 ^ k.toNat }

/-- Whether the grid point `c` lies in the interval. -/
def Interval.contains (i : Interval) (c : Nat) : Bool :=
  if i.closed then i.low ≤ c * i.den && c * i.den ≤ i.high else i.low < c * i.den && c * i.den < i.high

/-- The grid point of the interval next to the value, the nearer of two, the even one of two equally near. -/
def Interval.nearest? (i : Interval) : Option Nat :=
  let floor := i.value / i.den
  match i.contains floor, i.contains (floor + 1) with
  | true, true =>
    let r := i.value % i.den
    some (if 2 * r < i.den || (2 * r = i.den && floor % 2 = 0) then floor else floor + 1)
  | true, false => some floor
  | false, true => some (floor + 1)
  | false, false => none

/-- The power of ten of the leading digit of `value / den`. -/
def leadingPower (value den : Nat) : Int :=
  if den ≤ value then (Decimal.digitCount (value / den) : Int) - 1
  else
    let digits : Int := (Decimal.digitCount den : Int) - Decimal.digitCount value
    if den ≤ value * 10 ^ digits.toNat then -digits else -digits - 1

/-- The first grid, from the coarsest on, that has a point in the interval; seventeen digits always suffice. -/
def search (i : Interval) (lead : Int) : Nat → Nat → Decimal
  | 0, digits =>
    let k := lead + 1 - digits
    ⟨(i.onGrid k).value / (i.onGrid k).den, k⟩
  | fuel + 1, digits =>
    let k := lead + 1 - digits
    match (i.onGrid k).nearest? with
    | some c => ⟨c, k⟩
    | none => search i lead fuel (digits + 1)

/-- Drops the zeros at the end of the digits. -/
def stripZeros : Nat → Decimal → Decimal
  | 0, d => d
  | fuel + 1, d => if d.digits % 10 = 0 && d.digits ≠ 0 then stripZeros fuel ⟨d.digits / 10, d.exponent + 1⟩ else d

/-- The fewest digits that read back as the number of a positive magnitude. -/
def digits (magnitude : Nat) : Decimal :=
  let i := interval magnitude
  stripZeros 20 (search i (leadingPower i.value i.den) 17 1)

end Runbook.Shortest
