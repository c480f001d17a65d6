import Runbook.Text.Hidden
import Runbook.Url.Percent
import Runbook.Url.Punycode
import Runbook.Url.StandIns

/-!
# Domain names

The name of a host in its ASCII form. Letters become small, wide forms become the usual ones, and characters that do not count are
left out; then every label that is not in ASCII is written in Punycode. The letters that have capitals are those of the Latin,
Greek and Cyrillic scripts.
-/

namespace Runbook.Url

/-- The characters of ASCII that no domain name may hold. -/
def isForbiddenInDomain (c : Char) : Bool :=
  c.toNat ≤ 0x20 || c.toNat = 0x7F || ['#', '%', '/', ':', '<', '>', '?', '@', '[', '\\', ']', '^', '|'].contains c

/-- Characters that do not count in a name: soft hyphens, joiners of words, and selectors of variants. -/
def isIgnored (c : Char) : Bool :=
  let n := c.toNat
  [0xAD, 0x34F, 0x180B, 0x180C, 0x180D, 0x180F, 0x200B, 0x2060, 0x2064, 0xFEFF].contains n || (0xFE00 ≤ n && n ≤ 0xFE0F)

/-- The ranges in which capitals stand a fixed distance before their small letters. -/
def shiftedCapitals : List (Nat × Nat × Nat) :=
  [(0xC0, 0xD6, 0x20), (0xD8, 0xDE, 0x20), (0x388, 0x38A, 0x25), (0x38C, 0x38C, 0x40), (0x38E, 0x38F, 0x3F),
    (0x386, 0x386, 0x26), (0x391, 0x3A1, 0x20), (0x3A3, 0x3AB, 0x20), (0x400, 0x40F, 0x50), (0x410, 0x42F, 0x20),
    (0x531, 0x556, 0x30)]

/-- The ranges in which capitals and small letters take turns, each range beginning with a capital. -/
def alternatingCapitals : List (Nat × Nat) :=
  [(0x100, 0x12F), (0x134, 0x137), (0x139, 0x13E), (0x141, 0x148), (0x14A, 0x177), (0x179, 0x17E), (0x1CD, 0x1DC),
    (0x1DE, 0x1EF), (0x1F8, 0x21F), (0x222, 0x233), (0x370, 0x373), (0x3D8, 0x3EF), (0x460, 0x481), (0x48A, 0x4BF),
    (0x4C1, 0x4CE), (0x4D0, 0x52F), (0x1E00, 0x1E95), (0x1EA0, 0x1EFF)]

/-- Characters beyond the ranges that are written as others. -/
def respelled : List (Nat × List Char) :=
  [(0xB5, ['μ']), (0x130, ['i', '\u0307']), (0x13F, ['l', '·']), (0x140, ['l', '·']), (0x149, ['ʼ', 'n']), (0x178, ['ÿ']),
    (0x2126, ['ω']), (0x212B, ['å']), (0x3002, ['.']), (0xFF61, ['.'])]

/-- What a character becomes in a name. -/
def mapped (c : Char) : List Char :=
  let n := c.toNat
  if n < 0x80 then [c.toLower]
  else if isIgnored c then []
  else match (standIn? c).or ((respelled.find? (·.1 = n)).map (·.2)) with
    | some cs => cs
    | none => match shiftedCapitals.find? fun (first, last, _) => first ≤ n && n ≤ last with
      | some (_, _, distance) => [Char.ofNat (n + distance)]
      | none => match alternatingCapitals.find? fun (first, last) => first ≤ n && n ≤ last with
        | some (first, _) => if (n - first) % 2 = 0 then [Char.ofNat (n + 1)] else [c]
        | none => [c]

/-- The labels of a name. -/
def labels : List Char → List (List Char)
  | [] => [[]]
  | c :: rest =>
    if c = '.' then [] :: labels rest
    else match labels rest with
      | first :: more => (c :: first) :: more
      | [] => [[c]]

/-- The mark of a label in Punycode. -/
def punycodeMark : List Char := "xn--".toList

/-- The ranges of marks that join the character before them, in the scripts of Europe, in Hebrew, Arabic, Devanagari and Thai. -/
def markRanges : List (Nat × Nat) :=
  [(0x300, 0x36F), (0x591, 0x5BD), (0x5BF, 0x5BF), (0x5C1, 0x5C2), (0x5C4, 0x5C5), (0x5C7, 0x5C7), (0x610, 0x61A),
    (0x64B, 0x65F), (0x670, 0x670), (0x6D6, 0x6DC), (0x6DF, 0x6E4), (0x6E7, 0x6E8), (0x6EA, 0x6ED), (0x900, 0x902),
    (0x93A, 0x93A), (0x93C, 0x93C), (0x941, 0x948), (0x94D, 0x94D), (0x951, 0x957), (0x962, 0x963), (0xE31, 0xE31),
    (0xE34, 0xE3A), (0xE47, 0xE4E)]

/-- Marks may stand in a name but not begin one. -/
def isMark (c : Char) : Bool := markRanges.any fun (first, last) => first ≤ c.toNat && c.toNat ≤ last

/-- Characters with a dot in them that is no end of a label. -/
def holdsDot (c : Char) : Bool :=
  let n := c.toNat
  (0x2024 ≤ n && n ≤ 0x2026) || (0x2488 ≤ n && n ≤ 0x249B) || [0x33C2, 0x33C7, 0x33D8, 0xFE19, 0xFE30, 0xFE52, 0x1F100].contains n

/-- Whether a label beyond ASCII may stand in a name. -/
def isValidLabel (label : List Char) : Bool :=
  label.all (fun c => !isForbiddenInDomain c && !holdsDot c && (!Text.isHidden c || isMark c) && mapped c = [c])
    && !(label.head?.any isMark) && label.any fun c => 0x80 ≤ c.toNat

/-- The ASCII form of a label. -/
def labelToAscii? (label : List Char) : Option (List Char) :=
  if punycodeMark.isPrefixOf label then
    match Punycode.decode (label.drop punycodeMark.length) with
    | some decoded => if isValidLabel decoded then some label else none
    | none => none
  else if label.all (·.toNat < 0x80) then some label
  else if isValidLabel label then some (punycodeMark ++ Punycode.encode label)
  else none

/-- The ASCII form of a domain name. -/
def domainToAscii? (s : List Char) : Option (List Char) := do
  let name ← (labels (s.flatMap mapped)).mapM labelToAscii?
  let name := ['.'].intercalate name
  if name.any isForbiddenInDomain then none else some name

end Runbook.Url
