import Runbook.Numeric.Binary64

/-!
# Arithmetic without sign

The 64-bit floating-point numbers from zero on, with infinity and the undefined number. Every operation rounds the exact result to
the nearest number, a tie to the even one; a result out of range is infinite.
-/

namespace Runbook

/-- A number from zero on, an infinite one, or none. -/
inductive Extended where
  | finite (magnitude : Nat)
  | infinite
  | undefined
  deriving DecidableEq, Repr

namespace Extended

/-- The number of a magnitude, infinite from the limit on. -/
def ofMagnitude (magnitude : Nat) : Extended := if magnitude < Binary64.limit then finite magnitude else infinite

/-- The number nearest to `n / d`, for positive `d`. -/
def ofQuotient (n d : Nat) : Extended := ofMagnitude (Binary64.roundQuotient n d)

/-- The number nearest to `m * 2 ^ e`. -/
def ofScaled (m : Nat) (e : Int) : Extended := ofQuotient (m * 2 ^ e.toNat) (2 ^ (-e).toNat)

def ofNat (n : Nat) : Extended := ofQuotient n 1

def one : Extended := ofNat 1

def add : Extended → Extended → Extended
  | undefined, _ | _, undefined => undefined
  | infinite, _ | _, infinite => infinite
  | finite a, finite b =>
    let (m, e) := Binary64.unpack a
    let (n, f) := Binary64.unpack b
    let least := min e f
    ofScaled (m * 2 ^ (e - least).toNat + n * 2 ^ (f - least).toNat) least

/-- The product; that of zero and infinity is undefined. -/
def mul : Extended → Extended → Extended
  | undefined, _ | _, undefined => undefined
  | infinite, finite 0 | finite 0, infinite => undefined
  | infinite, _ | _, infinite => infinite
  | finite a, finite b =>
    let (m, e) := Binary64.unpack a
    let (n, f) := Binary64.unpack b
    ofScaled (m * n) (e + f)

/-- The quotient; that of two zeros or two infinities is undefined. -/
def div : Extended → Extended → Extended
  | undefined, _ | _, undefined => undefined
  | infinite, infinite | finite 0, finite 0 => undefined
  | infinite, _ | _, finite 0 => infinite
  | _, infinite => finite 0
  | finite a, finite b =>
    let (m, e) := Binary64.unpack a
    let (n, f) := Binary64.unpack b
    ofQuotient (m * 2 ^ (e - f).toNat) (n * 2 ^ (f - e).toNat)

/-- Multiplies a result with a power by squaring, from the last binary digit of the exponent on. -/
def powFrom (result base : Extended) (n : Nat) : Extended :=
  let result := if n % 2 = 1 then result.mul base else result
  if h : n / 2 = 0 then result else powFrom result (base.mul base) (n / 2)
termination_by n
decreasing_by omega

/-- The power with an integer exponent; a negative one gives the inverse of the power. -/
def pow (base : Extended) (n : Int) : Extended :=
  let p := powFrom one base n.natAbs
  if n < 0 then one.div p else p

/-- The lesser of two numbers; an undefined one does not count. -/
def least : Extended → Extended → Extended
  | undefined, b => b
  | a, undefined => a
  | infinite, b => b
  | a, infinite => a
  | finite a, finite b => finite (min a b)

end Extended

end Runbook
