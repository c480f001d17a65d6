/-!
# Binary64

Finite floating-point numbers of 64 bits, with exact decoding and with rounding to nearest, ties to even, stated over
natural numbers. The magnitude of a number is its bit pattern without the sign; it grows with the absolute value, so numbers
are compared through `Binary64.order`, where both zeros are equal.
-/

-- Powers are those of the core library, also in modules whose imports bring another way to raise to a power.
attribute [instance (2000), default_instance 20000] instPowNat

namespace Runbook

/-- The first magnitude that is not finite. -/
def Binary64.limit : Nat := 0x7FF * 2 ^ 52

/-- A finite number: the sign, and the 63 other bits read as a natural number. -/
structure Binary64 where
  negative : Bool
  magnitude : Nat
  finite : magnitude < Binary64.limit
  deriving DecidableEq, Repr

namespace Binary64

/-- The significand `m` and exponent `e` of a magnitude: its absolute value is `m * 2 ^ e`. -/
def unpack (magnitude : Nat) : Nat × Int :=
  let field : Nat := magnitude / 2 ^ 52
  let fraction : Nat := magnitude % 2 ^ 52
  if field = 0 then (fraction, -1074) else (fraction + 2 ^ 52, (field : Int) - 1075)

/-- The quotient of two natural numbers, rounded to the nearest one, a tie to the even one. -/
def roundDiv (n d : Nat) : Nat :=
  let q := n / d
  let r := n % d
  if 2 * r < d || (2 * r = d && q % 2 = 0) then q else q + 1

/-- The exponent of the last place of the rounded quotient `n / d`: it leaves 53 bits, or fewer at the lower end of the
range. -/
def lastPlace (n d : Nat) : Int :=
  let estimate : Int := (n.log2 : Int) - (d.log2 : Int)
  let below : Bool := if 0 ≤ estimate then n < d * 2 ^ estimate.toNat else n * 2 ^ (-estimate).toNat < d
  max ((if below then estimate - 1 else estimate) - 52) (-1074)

/-- The magnitude nearest to `n / d`, for positive `d`; a result from `limit` on means that the quotient is out of range. -/
def roundQuotient (n d : Nat) : Nat :=
  if n = 0 then 0
  else
    let e := lastPlace n d
    let q := if 0 ≤ e then roundDiv n (d * 2 ^ e.toNat) else roundDiv (n * 2 ^ (-e).toNat) d
    (e + 1074).toNat * 2 ^ 52 + q

/-- The number with a sign and magnitude, if it is finite. -/
def ofMagnitude? (negative : Bool) (magnitude : Nat) : Option Binary64 :=
  if h : magnitude < limit then some ⟨negative, magnitude, h⟩ else none

/-- The place of a number in the order of all numbers; both zeros have the same. -/
def order (x : Binary64) : Int := if x.negative then -(x.magnitude : Int) else x.magnitude

/-- The place in the order of numbers of the number nearest to an integer. -/
def orderOfInt (i : Int) : Int :=
  if i < 0 then -(roundQuotient i.natAbs 1 : Int) else roundQuotient i.natAbs 1

def zero : Binary64 := ⟨false, 0, by decide⟩

/-- The number as an integer, when it is one and its absolute value is below `bound`. -/
def integral? (x : Binary64) (bound : Nat) : Option Int :=
  let (m, e) := unpack x.magnitude
  let whole : Option Nat :=
    if 0 ≤ e then some (m * 2 ^ e.toNat)
    else if m % 2 ^ (-e).toNat = 0 then some (m / 2 ^ (-e).toNat) else none
  match whole with
  | some n => if n < bound then some (if x.negative then -(n : Int) else n) else none
  | none => none

end Binary64

end Runbook
