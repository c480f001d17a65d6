import Runbook.Json.Document
import Runbook.Json.Numeral

/-!
# Reading JSON

The grammar of JSON with a limit on nesting. Reading never fails: a text that is not well formed gives a document that says how
far it was (`Document`).
-/

namespace Runbook.Json

/-- What was read, and the rest of the text unless it stopped being well formed. -/
abbrev Step (α : Type) := α × Option (List Char)

/-- The blanks between the tokens of JSON. -/
def isSpace (c : Char) : Bool := c = ' ' || c = '\n' || c = '\t' || c = '\r'

def skipSpace (s : List Char) : List Char := s.dropWhile isSpace

def hexValue? (c : Char) : Option Nat :=
  if c.isDigit then some (c.toNat - '0'.toNat)
  else if 'a' ≤ c && c ≤ 'f' then some (c.toNat - 'a'.toNat + 10)
  else if 'A' ≤ c && c ≤ 'F' then some (c.toNat - 'A'.toNat + 10)
  else none

/-- The number that four hexadecimal digits spell. -/
def hexUnit? (a b c d : Char) : Option Nat := do
  return (((← hexValue? a) * 16 + (← hexValue? b)) * 16 + (← hexValue? c)) * 16 + (← hexValue? d)

/-- The character that a letter stands for after a backslash. -/
def unescape? : Char → Option Char
  | '"' => some '"'
  | '\\' => some '\\'
  | '/' => some '/'
  | 'b' => some (Char.ofNat 8)
  | 'f' => some (Char.ofNat 12)
  | 'n' => some '\n'
  | 'r' => some '\r'
  | 't' => some '\t'
  | _ => none

/-- The characters up to the closing quote, given in reverse what came before; none when the text is not well formed. A character
beyond the sixteen-bit units is written as two of them. -/
def readString (seen : List Char) : List Char → Option (List Char × List Char)
  | [] => none
  | '"' :: rest => some (seen.reverse, rest)
  | '\\' :: 'u' :: a :: b :: c :: d :: rest =>
    match hexUnit? a b c d with
    | none => none
    | some high =>
      if 0xD800 ≤ high && high < 0xDC00 then
        match rest with
        | '\\' :: 'u' :: e :: f :: g :: h :: rest =>
          match hexUnit? e f g h with
          | none => none
          | some low =>
            if 0xDC00 ≤ low && low < 0xE000 then
              readString (Char.ofNat (0x10000 + (high - 0xD800) * 0x400 + (low - 0xDC00)) :: seen) rest
            else none
        | _ => none
      else if 0xDC00 ≤ high && high < 0xE000 then none
      else readString (Char.ofNat high :: seen) rest
  | '\\' :: e :: rest => match unescape? e with
    | some c => readString (c :: seen) rest
    | none => none
  | c :: rest => if c.toNat < 0x20 then none else readString (c :: seen) rest

/-- The numeral at the start of a text: no leading zero, and digits on both sides of a point. -/
def readNumber (s : List Char) : Option (Number × List Char) :=
  let (negative, s) := match s with
    | '-' :: r => (true, r)
    | r => (false, r)
  let (whole, rest) := Decimal.spanDigits s
  if whole.isEmpty || (whole.length > 1 && whole.head? = some '0') then none
  else
    let (fraction, rest) : Option (List Char) × List Char := match rest with
      | '.' :: r => let (digits, r) := Decimal.spanDigits r; (some digits, r)
      | r => (none, r)
    let exponentMark := match rest with
      | c :: _ => c = 'e' || c = 'E'
      | [] => false
    match fraction, Decimal.spanExponent rest with
    | some [], _ => none
    | _, none => none
    | fraction, some (exponent, rest) =>
      let number :=
        if fraction.isNone && !exponentMark then integer? negative whole else float? negative whole (fraction.getD []) exponent
      number.map (·, rest)

/-- The items of an array up to its closing bracket, at least one. -/
def readItems (item : List Char → Step Document) : Nat → List Char → Step (List Document)
  | 0, _ => ([], none)
  | fuel + 1, s =>
    match item s with
    | (d, none) => ([d], none)
    | (d, some rest) =>
      match skipSpace rest with
      | ',' :: rest => let (ds, rest) := readItems item fuel rest; (d :: ds, rest)
      | ']' :: rest => ([d], some rest)
      | _ => ([d], none)

/-- The fields of an object up to its closing brace, at least one. A key counts as soon as it is complete. -/
def readFields (item : List Char → Step Document) : Nat → List Char → Step (List (String × Document))
  | 0, _ => ([], none)
  | fuel + 1, s =>
    match skipSpace s with
    | '"' :: s =>
      match readString [] s with
      | none => ([], none)
      | some (key, s) =>
        let key := String.ofList key
        match skipSpace s with
        | ':' :: s =>
          match item s with
          | (d, none) => ([(key, d)], none)
          | (d, some rest) =>
            match skipSpace rest with
            | ',' :: rest => let (fs, rest) := readFields item fuel rest; ((key, d) :: fs, rest)
            | '\x7d' :: rest => ([(key, d)], some rest)
            | _ => ([(key, d)], none)
        | _ => ([(key, .broken)], none)
    | _ => ([], none)

/-- The value at the start of a text, with at most `depth` containers inside each other. -/
def readValue (depth : Nat) (s : List Char) : Step Document :=
  match skipSpace s with
  | 'n' :: 'u' :: 'l' :: 'l' :: rest => (.null, some rest)
  | 't' :: 'r' :: 'u' :: 'e' :: rest => (.bool true, some rest)
  | 'f' :: 'a' :: 'l' :: 's' :: 'e' :: rest => (.bool false, some rest)
  | '"' :: rest => match readString [] rest with
    | some (text, rest) => (.str (String.ofList text), some rest)
    | none => (.broken, none)
  | '[' :: rest => match depth with
    | 0 => (.arr [] false, none)
    | depth + 1 => match skipSpace rest with
      | ']' :: rest => (.arr [] true, some rest)
      | rest => let (items, rest) := readItems (readValue depth) rest.length rest; (.arr items rest.isSome, rest)
  | '\x7b' :: rest => match depth with
    | 0 => (.obj [] false, none)
    | depth + 1 => match skipSpace rest with
      | '\x7d' :: rest => (.obj [] true, some rest)
      | rest => let (fields, rest) := readFields (readValue depth) rest.length rest; (.obj fields rest.isSome, rest)
  | rest => match readNumber rest with
    | some (n, rest) => (.num n, some rest)
    | none => (.broken, none)

/-- The most containers inside each other that a text may have. -/
def maxDepth : Nat := 127

/-- The document of a whole text, and whether nothing but blanks follows it. -/
def read (depth : Nat) (text : String) : Document × Bool :=
  match readValue depth text.toList with
  | (d, some rest) => (d, (skipSpace rest).isEmpty)
  | (d, none) => (d, false)

/-- The value that a whole text spells, with at most `depth` containers inside each other. -/
def parseWithin? (depth : Nat) (text : String) : Option Value :=
  match read depth text with
  | (d, true) => d.value?
  | (_, false) => none

/-- The value that a whole text spells. -/
def parse? (text : String) : Option Value := parseWithin? maxDepth text

end Runbook.Json
