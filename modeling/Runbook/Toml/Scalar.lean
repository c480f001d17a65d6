import Runbook.Json.Document

/-!
# TOML scalars

Keys, strings, numbers and dates of TOML 1.0. A reader takes the longest token at the start of a text and gives the rest, or
refuses.
-/

namespace Runbook.Toml

def isBlank (c : Char) : Bool := c = ' ' || c = '\t'

def skipBlank (s : List Char) : List Char := s.dropWhile isBlank

/-- The characters of comments and strings: no controls but the tab. -/
def isTextChar (c : Char) : Bool := c = '\t' || (0x20 ≤ c.toNat && c.toNat ≠ 0x7F)

def isBareKeyChar (c : Char) : Bool := c.isAlphanum || c = '_' || c = '-'

/-- The rest after a line end. -/
def lineEnd? : List Char → Option (List Char)
  | '\n' :: rest => some rest
  | '\r' :: '\n' :: rest => some rest
  | _ => none

/-- The number that hexadecimal digits spell; none when a character is no digit. -/
def hexNumber? (s : List Char) : Option Nat :=
  s.foldlM (fun n c =>
    if c.isDigit then some (n * 16 + (c.toNat - '0'.toNat))
    else if 'a' ≤ c && c ≤ 'f' then some (n * 16 + (c.toNat - 'a'.toNat + 10))
    else if 'A' ≤ c && c ≤ 'F' then some (n * 16 + (c.toNat - 'A'.toNat + 10))
    else none) 0

/-- The character of a code point, which is no surrogate. -/
def charOf? (n : Nat) : Option Char := if h : n.isValidChar then some (Char.ofNatAux n h) else none

/-- The character that an escape after a backslash stands for, and its length. -/
def escape? (s : List Char) : Option (Char × Nat) :=
  match s with
  | 'b' :: _ => some (Char.ofNat 8, 1)
  | 't' :: _ => some ('\t', 1)
  | 'n' :: _ => some ('\n', 1)
  | 'f' :: _ => some (Char.ofNat 12, 1)
  | 'r' :: _ => some ('\r', 1)
  | '"' :: _ => some ('"', 1)
  | '\\' :: _ => some ('\\', 1)
  | 'u' :: rest => if rest.length < 4 then none else (hexNumber? (rest.take 4) >>= charOf?).map (·, 5)
  | 'U' :: rest => if rest.length < 8 then none else (hexNumber? (rest.take 8) >>= charOf?).map (·, 9)
  | _ => none

/-- The characters of a basic string on one line, up to the closing quote. The fuel bounds the characters left. -/
def basicString : Nat → List Char → Option (List Char × List Char)
  | 0, _ => none
  | _, [] => none
  | _, '"' :: rest => some ([], rest)
  | fuel + 1, '\\' :: rest => do
    let (c, n) ← escape? rest
    let (s, rest) ← basicString fuel (rest.drop n)
    return (c :: s, rest)
  | fuel + 1, c :: rest =>
    if isTextChar c then do
      let (s, rest) ← basicString fuel rest
      return (c :: s, rest)
    else none

/-- The characters of a literal string on one line, up to the closing quote. -/
def literalString : List Char → Option (List Char × List Char)
  | [] => none
  | '\'' :: rest => some ([], rest)
  | c :: rest =>
    if isTextChar c then do
      let (s, rest) ← literalString rest
      return (c :: s, rest)
    else none

/-- The number of quotes at the start, and the rest. -/
def quoteRun (quote : Char) (s : List Char) : Nat × List Char :=
  let (quotes, rest) := s.span (· = quote)
  (quotes.length, rest)

/-- Blank lines and blanks after a backslash at the end of a line; none when there is no line end. -/
def continuation? : Nat → List Char → Option (List Char)
  | 0, _ => none
  | fuel + 1, s =>
    match lineEnd? (skipBlank s) with
    | none => none
    | some rest => some ((continuation? fuel rest).getD (skipBlank rest))

/-- The characters of a string over several lines, up to three closing quotes; one or two more belong to the string. -/
def longString (quote : Char) : Nat → List Char → Option (List Char × List Char)
  | 0, _ => none
  | fuel + 1, s =>
    match s with
    | [] => none
    | c :: rest =>
      let next (found : List Char) (rest : List Char) : Option (List Char × List Char) :=
        (longString quote fuel rest).map fun (text, rest) => (found ++ text, rest)
      if c = quote then
        let (n, after) := quoteRun quote s
        if n < 3 then next (List.replicate n quote) after
        else if n ≤ 5 then some (List.replicate (n - 3) quote, after)
        else none
      else if c = '\\' && quote = '"' then
        match escape? rest with
        | some (e, n) => next [e] (rest.drop n)
        | none => match continuation? fuel rest with
          | some rest => next [] rest
          | none => none
      else match lineEnd? s with
        | some rest => next ['\n'] rest
        | none => if isTextChar c then next [c] rest else none

/-- Drops the line end right after three opening quotes. -/
def dropLineEnd (s : List Char) : List Char := (lineEnd? s).getD s

/-- A string of any of the four forms. -/
def readString (s : List Char) : Option (List Char × List Char) :=
  match s with
  | '"' :: '"' :: '"' :: rest => longString '"' (rest.length + 1) (dropLineEnd rest)
  | '\'' :: '\'' :: '\'' :: rest => longString '\'' (rest.length + 1) (dropLineEnd rest)
  | '"' :: rest => basicString (rest.length + 1) rest
  | '\'' :: rest => literalString rest
  | _ => none

/-- One part of a key. -/
def readKeyPart (s : List Char) : Option (String × List Char) :=
  match s with
  | '"' :: rest => (basicString (rest.length + 1) rest).map fun (k, rest) => (String.ofList k, rest)
  | '\'' :: rest => (literalString rest).map fun (k, rest) => (String.ofList k, rest)
  | s =>
    let (key, rest) := s.span isBareKeyChar
    if key.isEmpty then none else some (String.ofList key, rest)

/-- A key with its parts between dots, and the blanks around it. -/
def readKey : Nat → List Char → Option (List String × List Char)
  | 0, _ => none
  | fuel + 1, s => do
    let (part, rest) ← readKeyPart (skipBlank s)
    match skipBlank rest with
    | '.' :: rest => do
      let (parts, rest) ← readKey fuel rest
      return (part :: parts, rest)
    | rest => return ([part], rest)

/-- Digits of a base, between which single underscores may stand. -/
def digitsOf? (isDigit : Char → Bool) (s : List Char) : Option (List Char) :=
  match s with
  | [] => none
  | c :: rest =>
    if !isDigit c then none
    else match rest with
      | [] => some [c]
      | '_' :: rest => (digitsOf? isDigit rest).map (c :: ·)
      | rest => (digitsOf? isDigit rest).map (c :: ·)

/-- The digits of a decimal integer without a leading zero. -/
def decimalDigits? (s : List Char) : Option (List Char) :=
  match s with
  | '0' :: _ :: _ => none
  | s => digitsOf? Char.isDigit s

/-- A sign and what follows it. -/
def cutSign (s : List Char) : Bool × List Char :=
  match s with
  | '-' :: rest => (true, rest)
  | '+' :: rest => (false, rest)
  | s => (false, s)

/-- The integer that digits of a base spell. -/
def basedInteger? (base : Nat) (s : List Char) : Option Int := do
  let digits ← digitsOf? (fun c => (hexNumber? [c]).any (· < base)) s
  let values ← digits.mapM fun c => hexNumber? [c]
  return (values.foldl (fun n d => n * base + d) 0 : Nat)

/-- The integer that a token spells. -/
def integer? (s : List Char) : Option Int := do
  let i ← match s with
    | '0' :: 'x' :: rest => basedInteger? 16 rest
    | '0' :: 'o' :: rest => basedInteger? 8 rest
    | '0' :: 'b' :: rest => basedInteger? 2 rest
    | s =>
      let (negative, s) := cutSign s
      (decimalDigits? s).map fun digits =>
        let n : Int := Decimal.natOfDigits digits
        if negative then -n else n
  if -(2 ^ 63 : Int) ≤ i && i < 2 ^ 63 then some i else none

/-- The exponent that follows a mark: an optional sign and digits. -/
def exponent? (s : List Char) : Option Int := do
  let (negative, s) := cutSign s
  let digits ← digitsOf? Char.isDigit s
  let n : Int := Decimal.natOfDigits digits
  return if negative then -n else n

/-- The floating-point number that a token spells: a fraction, an exponent or both; not finite ones have names. -/
def float? (s : List Char) : Option Document := do
  let (negative, s) := cutSign s
  if s = "inf".toList || s = "nan".toList then return .nonFinite
  let (mantissa, rest) := s.span fun c => c != 'e' && c != 'E'
  let (whole, point) := mantissa.span (· != '.')
  let whole ← decimalDigits? whole
  let fraction ← match point with
    | [] => some []
    | _ :: fraction => digitsOf? Char.isDigit fraction
  let exponent ← match rest with
    | [] => if point.isEmpty then none else some 0
    | _ :: e => exponent? e
  match Number.ofDecimal? negative (Decimal.ofDigits whole fraction exponent) with
  | some n => return .num n
  | none => if negative then return .nonFinite else none

/-- The number that exactly `n` digits spell. -/
def fixedDigits? (n : Nat) (s : List Char) : Option (Nat × List Char) :=
  let digits := s.take n
  if digits.length = n && digits.all Char.isDigit then some (Decimal.natOfDigits digits, s.drop n) else none

def expect? (c : Char) (s : List Char) : Option (List Char) :=
  match s with
  | d :: rest => if c = d then some rest else none
  | [] => none

/-- The number of days of a month. -/
def daysIn (year month : Nat) : Nat :=
  if month = 2 then if year % 4 = 0 && (year % 100 ≠ 0 || year % 400 = 0) then 29 else 28
  else if month = 4 || month = 6 || month = 9 || month = 11 then 30
  else 31

/-- A date, of which the text is kept as it is. -/
def date? (s : List Char) : Option (List Char × List Char) := do
  let (year, rest) ← fixedDigits? 4 s
  let rest ← expect? '-' rest
  let (month, rest) ← fixedDigits? 2 rest
  let rest ← expect? '-' rest
  let (day, rest) ← fixedDigits? 2 rest
  if 1 ≤ month && month ≤ 12 && 1 ≤ day && day ≤ daysIn year month then some (s.take 10, rest) else none

/-- A time of day; of its fraction nine digits count, without zeros at the end. -/
def time? (s : List Char) : Option (List Char × List Char) := do
  let (hour, rest) ← fixedDigits? 2 s
  let rest ← expect? ':' rest
  let (minute, rest) ← fixedDigits? 2 rest
  let rest ← expect? ':' rest
  let (second, rest) ← fixedDigits? 2 rest
  if hour < 24 && minute < 60 && second ≤ 60 then
    match rest with
    | '.' :: rest =>
      let (digits, rest) := rest.span Char.isDigit
      if digits.isEmpty then none
      else
        let kept := ((digits.take 9).reverse.dropWhile (· = '0')).reverse
        some (s.take 8 ++ (if kept.isEmpty then [] else '.' :: kept), rest)
    | rest => some (s.take 8, rest)
  else none

/-- The offset from universal time that is the whole text. -/
def offset? (s : List Char) : Option (List Char) :=
  match s with
  | [] => some []
  | ['Z'] | ['z'] => some ['Z']
  | sign :: rest => do
    let (hour, rest) ← fixedDigits? 2 rest
    let rest ← expect? ':' rest
    let (minute, rest) ← fixedDigits? 2 rest
    if (sign = '+' || sign = '-') && hour < 24 && minute < 60 && rest.isEmpty then
      some (if hour = 0 && minute = 0 then "+00:00".toList else s)
    else none

/-- A time with an offset that is the whole text. -/
def timeWithOffset? (s : List Char) : Option (List Char) := do
  let (time, rest) ← time? s
  let offset ← offset? rest
  return time ++ offset

/-- A date in a document is an object with its text under a key of its own. -/
def dateDocument (text : List Char) : Document :=
  .obj [("$__toml_private_datetime", .str (String.ofList text))] true

/-- The text of the date that an object with these fields is. -/
def dateText? : List (String × Document) → Option String
  | [("$__toml_private_datetime", .str text)] => some text
  | _ => none

/-- The characters of numbers, dates and words. -/
def isTokenChar (c : Char) : Bool := c.isAlphanum || c = '_' || c = '+' || c = '-' || c = '.' || c = ':'

/-- A number, a date or a truth value. A blank may stand between a date and a time. -/
def readToken (s : List Char) : Option (Document × List Char) :=
  let (token, rest) := s.span isTokenChar
  if token = "true".toList then some (.bool true, rest)
  else if token = "false".toList then some (.bool false, rest)
  else match integer? token with
    | some i => some (.num (.int i), rest)
    | none => match float? token with
      | some d => some (d, rest)
      | none => match date? token with
        | some (date, []) =>
          match rest with
          | ' ' :: c :: more =>
            if c.isDigit then
              let (token, rest) := (c :: more).span isTokenChar
              (timeWithOffset? token).map fun time => (dateDocument (date ++ 'T' :: time), rest)
            else some (dateDocument date, rest)
          | rest => some (dateDocument date, rest)
        | some (date, t :: time) =>
          if t = 'T' || t = 't' then (timeWithOffset? time).map fun time => (dateDocument (date ++ 'T' :: time), rest)
          else none
        | none => match time? token with
          | some (time, []) => some (dateDocument time, rest)
          | _ => none

end Runbook.Toml
