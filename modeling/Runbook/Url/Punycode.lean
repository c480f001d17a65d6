/-!
# Punycode

A label of a domain name in ASCII: its ASCII characters, and after a hyphen the others in the order of their numbers, each as the
distance from the one before. A distance is written in digits of base 36, the last of which is below a threshold that follows the
sizes of the distances so far.
-/

namespace Runbook.Url.Punycode

def base : Nat := 36

/-- The threshold of the digit that ends at `k`. -/
def threshold (k bias : Nat) : Nat := if k ≤ bias then 1 else if bias + 26 ≤ k then 26 else k - bias

/-- A threshold is never zero. -/
theorem threshold_pos (k bias : Nat) : 1 ≤ threshold k bias := by
  unfold threshold
  split
  · exact Nat.le_refl 1
  · split <;> omega

/-- Divides a distance down, with the number of divisions times the base. -/
def shrink (delta : Nat) : Nat × Nat :=
  if 455 < delta then
    let (rest, k) := shrink (delta / 35)
    (rest, k + base)
  else (delta, 0)
termination_by delta

/-- The bias after a distance, of which `count` have been seen. -/
def adapt (delta count : Nat) : Nat :=
  let delta := if count = 1 then delta / 700 else delta / 2
  let (rest, k) := shrink (delta + delta / count)
  k + base * rest / (rest + 38)

def digit (d : Nat) : Char := if d < 26 then Char.ofNat ('a'.toNat + d) else Char.ofNat ('0'.toNat + d - 26)

def digitValue? (c : Char) : Option Nat :=
  if c.isLower then some (c.toNat - 'a'.toNat)
  else if c.isUpper then some (c.toNat - 'A'.toNat)
  else if c.isDigit then some (c.toNat - '0'.toNat + 26)
  else none

/-- The digits of a distance. -/
def digits (bias k delta : Nat) : List Char :=
  let t := threshold k bias
  if delta < t then [digit delta]
  else digit (t + (delta - t) % (base - t)) :: digits bias (k + base) ((delta - t) / (base - t))
termination_by delta
decreasing_by
  have := threshold_pos k bias
  exact Nat.lt_of_le_of_lt (Nat.div_le_self _ _) (by omega)

/-- What has been written of a label: the digits, the distance to the next character, the bias, the number that is looked for, and
how many characters are written. -/
structure Encoding where
  text : List Char
  delta : Nat
  bias : Nat
  next : Nat
  basics : Nat
  done : Nat

/-- Writes all occurrences of the character with a number. -/
def Encoding.writeAll (label : List Char) (e : Encoding) (number : Nat) : Encoding :=
  let e := { e with delta := e.delta + (number - e.next) * (e.done + 1) }
  let e := label.foldl (fun e c =>
    if c.toNat < number then { e with delta := e.delta + 1 }
    else if c.toNat = number then
      let done := e.done + 1
      { e with text := e.text ++ digits e.bias base e.delta, delta := 0, bias := adapt e.delta (done - e.basics), done }
    else e) e
  { e with delta := e.delta + 1, next := number + 1 }

/-- The ASCII form of a label. -/
def encode (label : List Char) : List Char :=
  let basics := label.filter (·.toNat < 0x80)
  let others := ((label.map Char.toNat).filter (0x80 ≤ ·)).eraseDups.mergeSort
  let start : Encoding := ⟨[], 0, 72, 0x80, basics.length, basics.length⟩
  (if basics.isEmpty then [] else basics ++ ['-']) ++ (others.foldl (Encoding.writeAll label) start).text

/-- What has been read of a label: its characters, the number and place of the next one, the place at which the distance began,
and the bias, position and weight of the next digit. -/
structure Decoding where
  label : List Char
  number : Nat
  place : Nat
  start : Nat
  count : Nat
  bias : Nat
  k : Nat
  weight : Nat

/-- The largest number of a character. -/
def maxNumber : Nat := 0x10FFFF

/-- Puts the character at which a distance ends into the label. -/
def Decoding.finish (d : Decoding) : Option Decoding :=
  let length := d.label.length + 1
  let number := d.number + d.place / length
  let place := d.place % length
  if number.isValidChar then
    let label := d.label.take place ++ Char.ofNat number :: d.label.drop place
    some ⟨label, number, place + 1, place + 1, d.count + 1, adapt (d.place - d.start) (d.count + 1), base, 1⟩
  else none

def decodeFrom (d : Decoding) : List Char → Option (List Char)
  | [] => if d.k = base then some d.label else none
  | c :: rest =>
    match digitValue? c with
    | none => none
    | some value =>
      let place := d.place + value * d.weight
      let t := threshold d.k d.bias
      if value < t then
        match { d with place }.finish with
        | some d => decodeFrom d rest
        | none => none
      else decodeFrom { d with place, k := d.k + base, weight := d.weight * (base - t) } rest

/-- The label with an ASCII form. -/
def decode (text : List Char) : Option (List Char) :=
  let (ending, front) := text.reverse.span (· ≠ '-')
  let basics := front.drop 1
  decodeFrom ⟨basics.reverse, 0x80, 0, 0, 0, 72, base, 1⟩ ending.reverse

example : encode "bücher".toList = "bcher-kva".toList := by decide +kernel

example : decode "bcher-kva".toList = some "bücher".toList := by decide +kernel

end Runbook.Url.Punycode
