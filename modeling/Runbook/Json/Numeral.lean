import Runbook.Numeric.Extended
import Runbook.Numeric.Number

/-!
# The numbers of JSON

A numeral is read quickly and not exactly: its digits are taken into a significand of 64 bits as long as they fit, and the
significand is scaled by a power of ten from a table. Both steps round, so what is read may be a neighbour of the nearest
number.
-/

namespace Runbook.Json

/-- Takes digits into a significand as long as it stays within 64 bits; the digits from the first that does not fit on are
left. -/
def takeIn (significand : Nat) : List Char → Nat × List Char
  | [] => (significand, [])
  | c :: rest =>
    let next := 10 * significand + (c.toNat - '0'.toNat)
    if next < 2 ^ 64 then takeIn next rest else (significand, c :: rest)

/-- The significand of the digits before and after the point, with its exponent of ten. Digits that do not fit are dropped; those
before the point still count for the exponent. -/
def significand (whole fraction : List Char) (exponent : Int) : Decimal :=
  let (n, dropped) := takeIn 0 whole
  let (m, left) := takeIn n fraction
  ⟨m, exponent + dropped.length - (fraction.length - left.length)⟩

/-- The exponent of the largest power of ten in the table. -/
def maxPower : Nat := 308

/-- A power of ten of the table. -/
def powerOfTen (k : Nat) : Extended := .ofNat (10 ^ k)

/-- Divides by `10 ^ k`, after as many divisions by the largest power of the table as are needed to bring `k` into it. Zero stays
what it is. -/
def scaleDown : Nat → Nat → Extended → Extended
  | 0, k, x => x.div (powerOfTen k)
  | steps + 1, k, x => if x = .finite 0 then x else scaleDown steps (k - maxPower) (x.div (powerOfTen maxPower))

/-- The number that a significand and its exponent make up. -/
def scale (d : Decimal) : Extended :=
  let x := Extended.ofNat d.digits
  match d.exponent with
  | .ofNat k => if k ≤ maxPower then x.mul (powerOfTen k) else if x = .finite 0 then x else .infinite
  | .negSucc k => scaleDown (k / maxPower) (k + 1) x

/-- A sign and a size make a number if the size is finite. -/
def signed? (negative : Bool) : Extended → Option Number
  | .finite magnitude => (Binary64.ofMagnitude? negative magnitude).map .float
  | .infinite | .undefined => none

/-- The floating-point number of a numeral with a sign, if it is in range. -/
def float? (negative : Bool) (whole fraction : List Char) (exponent : Int) : Option Number :=
  signed? negative (scale (significand whole fraction exponent))

/-- The number of a numeral without a point and an exponent: an integer if a document can hold it, otherwise a floating-point number.
Minus zero is a floating-point number. -/
def integer? (negative : Bool) (digits : List Char) : Option Number :=
  let n := Decimal.natOfDigits digits
  let i : Int := if negative then -(n : Int) else n
  if Number.inRange i && !(negative && n = 0) then some (.int i) else float? negative digits [] 0

end Runbook.Json
