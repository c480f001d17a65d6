import Runbook.Expr.Error
import Runbook.Text.Blank
import Runbook.Text.Bytes

/-!
# Tokens of a text

Blanks separate tokens. At every other character the longest token is taken; a name may hold hyphens, and a numeral takes a
point only when a digit follows it.
-/

namespace Runbook.Lexer

def isNameStart (c : Char) : Bool := c.isAlpha || c = '_' || c = '$'

def isNameChar (c : Char) : Bool := c.isAlphanum || c = '_' || c = '$' || c = '-'

/-- The character that a character stands for after a backslash. -/
def unescape : Char → Char
  | 'n' => '\n'
  | 't' => '\t'
  | 'r' => '\r'
  | c => c

/-- The text up to the closing quote, and the number of characters with the quote; none when there is no closing quote. -/
def quoted? (quote : Char) : List Char → Option (List Char × Nat)
  | [] => none
  | '\\' :: c :: rest => (quoted? quote rest).map fun (text, n) => (unescape c :: text, n + 2)
  | c :: rest =>
    if c = quote then some ([], 1)
    else if c = '\\' then none
    else (quoted? quote rest).map fun (text, n) => (c :: text, n + 1)

/-- The fraction that follows the digits of a numeral: a point with at least one digit. -/
def fraction (s : List Char) : List Char :=
  match s with
  | '.' :: r => r.takeWhile Char.isDigit
  | _ => []

/-- The number spelled by digits and a fraction: integers from `2 ^ 63` on are floating-point numbers. -/
def numberOf? (whole fraction : List Char) : Option Number :=
  if fraction.isEmpty && Decimal.natOfDigits whole < 2 ^ 63 then some (.int (Decimal.natOfDigits whole))
  else Number.ofDecimal? false (Decimal.ofDigits whole fraction 0)

/-- The first symbol, of all of them, that a text begins with. -/
def symbol? (s : List Char) : Option Symbol := Symbol.all.find? fun symbol => symbol.spelling.isPrefixOf s

/-- The token that starts with the character `c`, which is no blank, and the number of characters of it in `rest`. -/
def lexeme (c : Char) (rest : List Char) : Except Fault (Token × Nat) :=
  match symbol? (c :: rest) with
  | some symbol => .ok (.symbol symbol, symbol.spelling.length - 1)
  | none =>
    if c = '\'' || c = '"' then
      match quoted? c rest with
      | some (text, n) => .ok (.text (String.ofList text), n)
      | none => .error .unterminatedText
    else if c.isDigit then
      let digits := rest.takeWhile Char.isDigit
      let places := fraction (rest.dropWhile Char.isDigit)
      match numberOf? (c :: digits) places with
      | some n => .ok (.number n, digits.length + if places.isEmpty then 0 else places.length + 1)
      | none => .error .numberOutOfRange
    else if isNameStart c then
      let tail := rest.takeWhile isNameChar
      .ok (.ident (String.ofList (c :: tail)), tail.length)
    else if c = '|' || c = '&' then .error (.halfOperator c)
    else if c = '=' then .error .assignment
    else .error (.unexpectedChar c)

/-- The tokens of a text that starts at a byte offset. -/
def tokensFrom (offset : Nat) : List Char → Except Flaw (List Spanned)
  | [] => .ok []
  | c :: rest =>
    if Text.isBlank c then tokensFrom (offset + c.utf8Size) rest
    else
      match lexeme c rest with
      | .error fault => .error (.fault offset fault)
      | .ok (token, n) =>
        match tokensFrom (offset + Text.byteLength (c :: rest.take n)) (rest.drop n) with
        | .ok tokens => .ok (⟨token, offset⟩ :: tokens)
        | .error flaw => .error flaw
termination_by s => s.length

end Runbook.Lexer

namespace Runbook

/-- The tokens of an expression. -/
def tokenize (src : String) : Except ExprError (List Spanned) :=
  (Lexer.tokensFrom 0 src.toList).mapError fun flaw => ⟨src, flaw⟩

end Runbook
