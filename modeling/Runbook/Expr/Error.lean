import Runbook.Expr.Token

/-!
# Why a text is no expression
-/

namespace Runbook

/-- What is wrong at a place of an expression. -/
inductive Fault where
  | unterminatedText
  | numberOutOfRange
  | halfOperator (c : Char)
  | assignment
  | unexpectedChar (c : Char)
  | empty
  | tooDeep
  | unexpected (token : Token)
  | unexpectedEnd
  | unclosed (found : Token)
  deriving Repr

def Fault.message : Fault → String
  | unterminatedText => "unterminated string literal"
  | numberOutOfRange => "invalid number literal"
  | halfOperator c => s!"expected '{c}{c}'"
  | assignment => "assignment is not supported, use '=='"
  | unexpectedChar c => s!"unexpected character '{c}'"
  | empty => "empty expression"
  | tooDeep => "expression nested too deeply"
  | unexpected token => s!"unexpected {token.describe}"
  | unexpectedEnd => "unexpected end of expression"
  | unclosed found => s!"expected ')', found {found.describe}"

/-- A fault at a byte offset, or a path segment that is neither a name nor an index in brackets. -/
inductive Flaw where
  | fault (offset : Nat) (fault : Fault)
  | segment (text : String)
  deriving Repr

/-- Why a text is no expression. Missing data is never an error. -/
structure ExprError where
  expression : String
  flaw : Flaw
  deriving Repr

def ExprError.message (e : ExprError) : String :=
  match e.flaw with
  | .fault offset fault => s!"syntax error in '{e.expression}' at offset {offset}: {fault.message}"
  | .segment text => s!"invalid path segment '{text}' in '{e.expression}'"

end Runbook
