import Runbook.Numeric.Shortest

/-!
# Numbers of a document

A number is an integer or a 64-bit floating-point number; `1` and `1.0` are different numbers of the same size. They are written
with the fewest digits that read back, positionally between `1e-5` and `1e16`, and a floating-point number always shows a
fraction or an exponent.
-/

namespace Runbook

/-- An integer (from `-2 ^ 63` to `2 ^ 64 - 1` in any document) or a floating-point number. -/
inductive Number where
  | int (i : Int)
  | float (x : Binary64)
  deriving DecidableEq, Repr

namespace Number

/-- The integers that a document can hold. -/
def inRange (i : Int) : Bool := -(2 ^ 63 : Int) ≤ i && i < (2 ^ 64 : Int)

/-- The place of a number among the 64-bit floating-point numbers: an integer stands where the nearest one does. -/
def order : Number → Int
  | int i => Binary64.orderOfInt i
  | float x => x.order

/-- Equality within a structure: an integer never equals a floating-point number, and both zeros are equal. -/
def same : Number → Number → Bool
  | int i, int j => i == j
  | float x, float y => x.order == y.order
  | _, _ => false

/-- The number as a natural number, if it is an integer from zero on. -/
def nat? : Number → Option Nat
  | int (.ofNat n) => some n
  | _ => none

/-- The exponents of ten for which a number is written positionally: its leading digit stands for `10 ^ k` with `k` between the
two. -/
def positionalFrom : Int := -5
def positionalTo : Int := 15

def digitText (n : Nat) : List Char := Nat.toDigits 10 n

/-- The text of `digits * 10 ^ exponent`: positional with a point, or scientific with a signed exponent. -/
def decimalText (d : Decimal) : List Char :=
  let digits := digitText d.digits
  let lead : Int := d.exponent + digits.length - 1
  if positionalFrom ≤ lead && lead ≤ positionalTo then
    if 0 ≤ d.exponent then digits ++ List.replicate d.exponent.toNat '0' ++ ['.', '0']
    else if 0 ≤ lead then
      let whole := (lead + 1).toNat
      digits.take whole ++ '.' :: digits.drop whole
    else '0' :: '.' :: List.replicate (-lead - 1).toNat '0' ++ digits
  else
    let mantissa := match digits with
      | [] => []
      | [c] => [c]
      | c :: cs => c :: '.' :: cs
    mantissa ++ 'e' :: (if lead < 0 then '-' else '+') :: digitText lead.natAbs

/-- The text of a magnitude. -/
def magnitudeText (magnitude : Nat) : List Char :=
  if magnitude = 0 then ['0', '.', '0'] else decimalText (Shortest.digits magnitude)

def intText (i : Int) : List Char := if i < 0 then '-' :: digitText i.natAbs else digitText i.natAbs

/-- The text of a number. -/
def text : Number → String
  | int i => String.ofList (intText i)
  | float x => String.ofList (if x.negative then '-' :: magnitudeText x.magnitude else magnitudeText x.magnitude)

/-- The text of a number inside a sentence: whole floating-point numbers below `10 ^ 15` drop their fraction. -/
def plainText : Number → String
  | float x => match x.integral? (10 ^ 15) with
    | some i => String.ofList (intText i)
    | none => text (.float x)
  | n => text n

/-- The floating-point number nearest to a numeral with a sign, if it is in range. -/
def ofDecimal? (negative : Bool) (d : Decimal) : Option Number :=
  (Binary64.ofMagnitude? negative d.magnitude).map .float

theorem same_refl (n : Number) : n.same n = true := by
  cases n <;> simp [same]

theorem same_comm (m n : Number) : m.same n = n.same m := by
  cases m <;> cases n <;> simp [same, Bool.beq_comm]

end Number

end Runbook
