import Runbook.Numeric.Number

/-!
# Tokens of expressions
-/

namespace Runbook

/-- Punctuation and operators. -/
inductive Symbol where
  | dot | openBracket | closeBracket | openParen | closeParen
  | or | and | not | plus
  | looseEq | looseNe | strictEq | strictNe
  | lt | le | gt | ge
  deriving DecidableEq, Repr

namespace Symbol

/-- How a symbol is written. -/
def spelling : Symbol → List Char
  | dot => ['.']
  | openBracket => ['[']
  | closeBracket => [']']
  | openParen => ['(']
  | closeParen => [')']
  | or => ['|', '|']
  | and => ['&', '&']
  | not => ['!']
  | plus => ['+']
  | looseEq => ['=', '=']
  | looseNe => ['!', '=']
  | strictEq => ['=', '=', '=']
  | strictNe => ['!', '=', '=']
  | lt => ['<']
  | le => ['<', '=']
  | gt => ['>']
  | ge => ['>', '=']

/-- All symbols, a longer spelling before its beginnings. -/
def all : List Symbol :=
  [strictEq, strictNe, or, and, looseEq, looseNe, le, ge,
   dot, openBracket, closeBracket, openParen, closeParen, not, plus, lt, gt]

end Symbol

/-- A token of an expression. -/
inductive Token where
  | ident (name : String)
  | number (n : Number)
  | text (s : String)
  | symbol (s : Symbol)
  deriving Repr

/-- What a token is called in a message. -/
def Token.describe : Token → String
  | ident name => s!"identifier '{name}'"
  | number n => s!"number {n.text}"
  | text s => s!"string '{s}'"
  | symbol s => s!"'{String.ofList s.spelling}'"

/-- A token and the byte offset where its spelling begins. -/
structure Spanned where
  token : Token
  offset : Nat
  deriving Repr

end Runbook
