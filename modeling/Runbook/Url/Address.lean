import Runbook.Url.Percent

/-!
# Numeric hosts

IPv4 addresses of one to four parts in decimal, octal or hexadecimal, and IPv6 addresses with `::` and a dotted tail. An IPv4
address is written with four decimal parts, an IPv6 address with its longest run of zeros left out.
-/

namespace Runbook.Url

/-- The parts of a text between dots. -/
def splitDots (s : List Char) : List (List Char) :=
  match s with
  | [] => [[]]
  | '.' :: rest => [] :: splitDots rest
  | c :: rest => match splitDots rest with
    | part :: parts => (c :: part) :: parts
    | [] => [[c]]

/-- The number that digits of a base spell; none when a character is no digit. -/
def numberInBase? (base : Nat) (s : List Char) : Option Nat :=
  s.foldlM (fun n c => do
    let d ← hexDigit? c
    if d < base then some (n * base + d) else none) 0

/-- The number that a part of an IPv4 address spells: `0x` starts hexadecimal digits, another leading zero octal ones. -/
def ipv4Number? : List Char → Option Nat
  | [] => none
  | '0' :: 'x' :: rest | '0' :: 'X' :: rest => numberInBase? 16 rest
  | '0' :: d :: rest => numberInBase? 8 (d :: rest)
  | s => numberInBase? 10 s

/-- The parts of a host, an empty last one left out. -/
def hostParts (host : List Char) : List (List Char) :=
  let parts := splitDots host
  if parts.length > 1 && parts.getLast? = some [] then parts.dropLast else parts

/-- Whether the last part of a host is a number, so that the host must be an IPv4 address. -/
def endsInNumber (host : List Char) : Bool :=
  match (hostParts host).getLast? with
  | some last => (!last.isEmpty && last.all Char.isDigit) || (ipv4Number? last).isSome
  | none => false

/-- The address of these parts: all but the last are bytes, and the last fills the rest. -/
def ipv4OfParts? (parts : List Nat) : Option Nat :=
  match parts.reverse with
  | [] => none
  | last :: before =>
    if parts.length ≤ 4 && before.all (· ≤ 255) && last < 256 ^ (4 - before.length) then
      some (last + (before.reverse.mapIdx fun i n => n * 256 ^ (3 - i)).foldr (· + ·) 0)
    else none

/-- The IPv4 address that a host spells. -/
def ipv4? (host : List Char) : Option Nat := (splitDots host |> dropEmptyLast).mapM ipv4Number? >>= ipv4OfParts?
where
  dropEmptyLast (parts : List (List Char)) : List (List Char) := if parts.getLast? = some [] then parts.dropLast else parts

/-- An IPv4 address in four decimal parts. -/
def ipv4Text (address : Nat) : List Char :=
  let byte (i : Nat) : List Char := Nat.toDigits 10 (address / 256 ^ i % 256)
  byte 3 ++ '.' :: byte 2 ++ '.' :: byte 1 ++ '.' :: byte 0

/-- What is read of an IPv6 address: the pieces before `::`, whether it came, and the pieces since. -/
structure Ipv6Parts where
  head : List Nat
  gap : Bool
  tail : List Nat

namespace Ipv6Parts

/-- The number of pieces, where `::` counts as one. -/
def count (p : Ipv6Parts) : Nat := p.head.length + p.tail.length + if p.gap then 1 else 0

def push (p : Ipv6Parts) (piece : Nat) : Ipv6Parts :=
  if p.gap then { p with tail := p.tail ++ [piece] } else { p with head := p.head ++ [piece] }

/-- The eight pieces. -/
def pieces? (p : Ipv6Parts) : Option (List Nat) :=
  if p.gap then some (p.head ++ List.replicate (9 - p.count) 0 ++ p.tail)
  else if p.count = 8 then some p.head else none

end Ipv6Parts

/-- A decimal byte without leading zeros. -/
def dottedByte? (s : List Char) : Option Nat :=
  match s with
  | ['0'] => some 0
  | '0' :: _ => none
  | [] => none
  | s => (numberInBase? 10 s).bind fun n => if n ≤ 255 then some n else none

/-- The two pieces of a dotted tail. -/
def dottedTail? (s : List Char) : Option (Nat × Nat) := do
  match ← (splitDots s).mapM dottedByte? with
  | [a, b, c, d] => some (a * 256 + b, c * 256 + d)
  | _ => none

/-- Reads the pieces of an IPv6 address; the fuel is the number of characters left. -/
def ipv6Pieces? : Nat → Ipv6Parts → List Char → Option (List Nat)
  | 0, _, _ => none
  | fuel + 1, p, s =>
    if p.count ≥ 8 then none
    else match s with
      | ':' :: rest =>
        if p.gap then none
        else if rest.isEmpty then { p with gap := true }.pieces?
        else ipv6Pieces? fuel { p with gap := true } rest
      | s =>
        let digits := (s.takeWhile fun c => (hexDigit? c).isSome).take 4
        let rest := s.drop digits.length
        match rest, numberInBase? 16 digits with
        | '.' :: _, _ =>
          if p.count > 6 || digits.isEmpty then none
          else (dottedTail? s).bind fun (a, b) => ((p.push a).push b).pieces?
        | [], some n => if digits.isEmpty then none else (p.push n).pieces?
        | ':' :: rest, some n => if rest.isEmpty then none else ipv6Pieces? fuel (p.push n) rest
        | _, _ => none

/-- The eight pieces of the IPv6 address that a text spells. -/
def ipv6? (s : List Char) : Option (List Nat) :=
  match s with
  | ':' :: ':' :: rest =>
    let start : Ipv6Parts := ⟨[], true, []⟩
    if rest.isEmpty then start.pieces? else ipv6Pieces? s.length start rest
  | ':' :: _ => none
  | s => ipv6Pieces? (s.length + 1) ⟨[], false, []⟩ s

/-- The length of the run of zeros at the start. -/
def zeroRun (pieces : List Nat) : Nat := (pieces.takeWhile (· = 0)).length

/-- The start and length of the longest run of zeros, the first of equals. -/
def longestZeros (pieces : List Nat) : Nat × Nat :=
  (List.range pieces.length).foldl (fun (best : Nat × Nat) i =>
    let n := zeroRun (pieces.drop i)
    if best.2 < n then (i, n) else best) (0, 0)

def piecesText (pieces : List Nat) : List Char :=
  [':'].intercalate (pieces.map (Nat.toDigits 16))

/-- An IPv6 address with its longest run of at least two zeros left out. -/
def ipv6Text (pieces : List Nat) : List Char :=
  let (start, n) := longestZeros pieces
  if n < 2 then piecesText pieces
  else piecesText (pieces.take start) ++ ':' :: ':' :: piecesText (pieces.drop (start + n))

end Runbook.Url
