import Runbook.Numeric.Binary64

/-!
# Decimal numbers

Unsigned decimal numerals with fraction and exponent, their exact value, and the nearest 64-bit number.
-/

namespace Runbook

/-- The number `digits * 10 ^ exponent`. -/
structure Decimal where
  digits : Nat
  exponent : Int
  deriving DecidableEq, Repr

namespace Decimal

/-- The number of decimal digits; zero has one. -/
def digitCount (n : Nat) : Nat := (Nat.toDigits 10 n).length

/-- The magnitude of the nearest 64-bit number; from `Binary64.limit` on, the number is out of range. Numbers whose size alone
decides are not computed. -/
def magnitude (d : Decimal) : Nat :=
  if d.digits = 0 then 0
  else
    let size := d.exponent + digitCount d.digits
    if size > 400 then Binary64.limit
    else if size < -400 then 0
    else if 0 ≤ d.exponent then Binary64.roundQuotient (d.digits * 10 ^ d.exponent.toNat) 1
    else Binary64.roundQuotient d.digits (10 ^ (-d.exponent).toNat)

/-- The natural number that a list of decimal digits spells. -/
def natOfDigits (s : List Char) : Nat := s.foldl (fun n c => 10 * n + (c.toNat - '0'.toNat)) 0

/-- The number spelled by the digits before and after the point, with an exponent. -/
def ofDigits (whole fraction : List Char) (exponent : Int) : Decimal :=
  ⟨natOfDigits (whole ++ fraction), exponent - fraction.length⟩

/-- The leading decimal digits of a text, and the rest. -/
def spanDigits (s : List Char) : List Char × List Char := s.span Char.isDigit

/-- The exponent part of a numeral: none when `s` does not start one, otherwise its value and the rest; an exponent mark with no
digit after it is refused. -/
def spanExponent (s : List Char) : Option (Int × List Char) :=
  match s with
  | c :: r =>
    if c = 'e' || c = 'E' then
      let (negative, r) := match r with
        | '-' :: r => (true, r)
        | '+' :: r => (false, r)
        | r => (false, r)
      let (digits, rest) := spanDigits r
      if digits.isEmpty then none
      else
        let n : Int := natOfDigits digits
        some (if negative then -n else n, rest)
    else some (0, s)
  | [] => some (0, [])

/-- The unsigned numeral that is the whole text: digits, a point and an exponent, where one side of the point may be empty. -/
def ofNumeral? (s : List Char) : Option Decimal :=
  let (whole, rest) := spanDigits s
  let (fraction, rest) := match rest with
    | '.' :: r => spanDigits r
    | r => ([], r)
  if whole.isEmpty && fraction.isEmpty then none
  else match spanExponent rest with
    | some (exponent, []) => some (ofDigits whole fraction exponent)
    | _ => none

/-- The place in the order of 64-bit numbers of the signed numeral that is the whole text; none for any other text and for a
numeral out of range. -/
def orderOfText? (s : List Char) : Option Int :=
  let (negative, body) := match s with
    | '-' :: r => (true, r)
    | '+' :: r => (false, r)
    | r => (false, r)
  match ofNumeral? body with
  | none => none
  | some d =>
    let m := d.magnitude
    if m < Binary64.limit then some (if negative then -(m : Int) else m) else none

end Decimal

end Runbook
