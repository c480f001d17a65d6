/-!
# Blank characters

The characters with the Unicode property White_Space, and cutting them off the ends of a text. Expressions skip them, and
every name, header or entry that is read "without surrounding blanks" is read through `trim`.
-/

namespace Runbook.Text

/-- A character with the Unicode property White_Space. -/
def isBlank (c : Char) : Bool :=
  let n := c.toNat
  (9 ≤ n && n ≤ 13) || n == 0x20 || n == 0x85 || n == 0xA0 || n == 0x1680 || (0x2000 ≤ n && n ≤ 0x200A)
    || n == 0x2028 || n == 0x2029 || n == 0x202F || n == 0x205F || n == 0x3000

/-- Cuts off the last characters that pass the test. -/
def dropEndWhile (p : Char → Bool) (s : List Char) : List Char := (s.reverse.dropWhile p).reverse

/-- Cuts off the blanks at both ends. -/
def trimChars (s : List Char) : List Char := dropEndWhile isBlank (s.dropWhile isBlank)

/-- Cuts off the blanks at both ends. -/
def trim (s : String) : String := String.ofList (trimChars s.toList)

end Runbook.Text
