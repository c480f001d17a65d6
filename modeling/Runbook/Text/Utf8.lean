/-!
# UTF-8

The bytes of characters, and decoding of arbitrary bytes: what is no character is replaced, one replacement for each longest
beginning of a character.
-/

namespace Runbook.Text

/-- The bytes of a text. -/
def toBytes (s : List Char) : List UInt8 := s.flatMap String.utf8EncodeChar

/-- What stands for bytes that are no character. -/
def replacement : Char := Char.ofNat 0xFFFD

/-- A byte that continues a character. -/
def isContinuation (b : UInt8) : Bool := 0x80 ≤ b && b < 0xC0

/-- The number of bytes after the first, the first's share of the character, and the bounds of the second byte. -/
def leadByte (b : UInt8) : Option (Nat × Nat × UInt8 × UInt8) :=
  let n := b.toNat
  if 0xC2 ≤ b && b < 0xE0 then some (1, n - 0xC0, 0x80, 0xBF)
  else if b == 0xE0 then some (2, 0, 0xA0, 0xBF)
  else if b == 0xED then some (2, 0xD, 0x80, 0x9F)
  else if 0xE1 ≤ b && b < 0xF0 then some (2, n - 0xE0, 0x80, 0xBF)
  else if b == 0xF0 then some (3, 0, 0x90, 0xBF)
  else if 0xF1 ≤ b && b < 0xF4 then some (3, n - 0xF0, 0x80, 0xBF)
  else if b == 0xF4 then some (3, 4, 0x80, 0x8F)
  else none

/-- Bytes of a character in progress: how many are missing, its bits so far, and the bounds of the next byte. -/
structure Pending where
  missing : Nat
  bits : Nat
  low : UInt8
  high : UInt8

/-- A byte at the start of a character: the characters it ends, and the character it begins. -/
def startByte (b : UInt8) : List Char × Option Pending :=
  if b < 0x80 then ([Char.ofNat b.toNat], none)
  else match leadByte b with
    | some (missing, bits, low, high) => ([], some ⟨missing, bits, low, high⟩)
    | none => ([replacement], none)

/-- Decodes bytes after a character in progress. -/
def decodeFrom : Option Pending → List UInt8 → List Char
  | none, [] => []
  | some _, [] => [replacement]
  | none, b :: rest => let (out, next) := startByte b; out ++ decodeFrom next rest
  | some p, b :: rest =>
    if p.low ≤ b && b ≤ p.high then
      let bits := p.bits * 64 + (b.toNat - 0x80)
      if p.missing ≤ 1 then Char.ofNat bits :: decodeFrom none rest
      else decodeFrom (some ⟨p.missing - 1, bits, 0x80, 0xBF⟩) rest
    else let (out, next) := startByte b; replacement :: (out ++ decodeFrom next rest)

/-- The text that bytes spell, with a replacement for what is no character. -/
def ofBytes (bytes : List UInt8) : List Char := decodeFrom none bytes

end Runbook.Text
