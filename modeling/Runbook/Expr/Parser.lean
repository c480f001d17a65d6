import Runbook.Expr.Basic
import Runbook.Expr.Lexer

/-!
# Parsing expressions

Binary operators stand on five rungs, from `||` (loosest) to `+` (tightest), and associate to the left; `!` binds tighter than
all of them. Every `(`, every `!` and every operator of a chain takes one from the room for nesting, which is given back at the
end of the group or chain. The room bounds the recursion.
-/

namespace Runbook

/-- The rungs of the ladder of binary operators. -/
inductive Rung where
  | disjunction | conjunction | equality | comparison | concatenation
  deriving DecidableEq, Repr

/-- The operator that a symbol stands for on a rung. -/
def Rung.operator? : Rung → Symbol → Option BinaryOp
  | disjunction, .or => some .or
  | conjunction, .and => some .and
  | equality, .looseEq => some .looseEq
  | equality, .looseNe => some .looseNe
  | equality, .strictEq => some .strictEq
  | equality, .strictNe => some .strictNe
  | comparison, .lt => some .lt
  | comparison, .le => some .le
  | comparison, .gt => some .gt
  | comparison, .ge => some .ge
  | concatenation, .plus => some .concat
  | _, _ => none

/-- The rungs tighter than a rung, the tightest first: the operators that an operand of the rung may hold. -/
def Rung.tighter : Rung → List Rung
  | concatenation => []
  | comparison => [concatenation]
  | equality => [concatenation, comparison]
  | conjunction => [concatenation, comparison, equality]
  | disjunction => [concatenation, comparison, equality, conjunction]

/-- All rungs, the tightest first. -/
def Rung.all : List Rung := disjunction.tighter ++ [disjunction]

namespace Parser

/-- What a part of an expression parses to, and the tokens after it. -/
abbrev Parsed (α : Type) := α × List Spanned

/-- The text of a malformed path segment that starts at a byte offset. -/
def segmentText (src : List Char) (offset : Nat) : String :=
  let ends (c : Char) : Bool := Text.isBlank c || c = '.' || c = '[' || c = ']' || c = '(' || c = ')'
  String.ofList ((Text.fromByte offset src).takeWhile fun c => !ends c)

/-- A fault at the next token, or at the end of the text. -/
def faultAt (src : List Char) (tokens : List Spanned) (fault : Fault) : Flaw :=
  .fault (match tokens with
    | t :: _ => t.offset
    | [] => Text.byteLength src) fault

/-- The segments of a path. -/
def segments (src : List Char) : List Spanned → Except Flaw (Parsed (List Segment))
  | ⟨.symbol .dot, _⟩ :: ⟨.ident name, _⟩ :: rest => do
    let (path, rest) ← segments src rest
    return (.key name :: path, rest)
  | ⟨.symbol .dot, _⟩ :: t :: _ => .error (.segment (segmentText src t.offset))
  | [⟨.symbol .dot, _⟩] => .error (.segment "")
  | ⟨.symbol .openBracket, _⟩ :: ⟨.number n, offset⟩ :: rest =>
    match n.nat?, rest with
    | none, _ => .error (.segment (segmentText src offset))
    | some i, ⟨.symbol .closeBracket, _⟩ :: rest => do
      let (path, rest) ← segments src rest
      return (.index i :: path, rest)
    | some i, _ => .error (.segment s!"[{i}")
  | ⟨.symbol .openBracket, _⟩ :: t :: _ => .error (.segment ("[" ++ segmentText src t.offset))
  | [⟨.symbol .openBracket, _⟩] => .error (.segment "[")
  | rest => .ok ([], rest)

/-- A literal or a path. -/
def leaf (src : List Char) : List Spanned → Except Flaw (Parsed Expr)
  | [] => .error (faultAt src [] .unexpectedEnd)
  | ⟨.number n, _⟩ :: rest => .ok (.literal (.num n), rest)
  | ⟨.text s, _⟩ :: rest => .ok (.literal (.str s), rest)
  | ⟨.ident "true", _⟩ :: rest => .ok (.literal (.bool true), rest)
  | ⟨.ident "false", _⟩ :: rest => .ok (.literal (.bool false), rest)
  | ⟨.ident "null", _⟩ :: rest => .ok (.literal .null, rest)
  | ⟨.ident "undefined", _⟩ :: rest => .ok (.undefined, rest)
  | ⟨.ident name, _⟩ :: rest => do
    let (path, rest) ← segments src rest
    return (.path ⟨name, path⟩, rest)
  | ⟨token, offset⟩ :: _ => .error (.fault offset (.unexpected token))

/-- An operand, and the chains of operators after it on each of the rungs in turn. -/
def climb (operand : List Spanned → Except Flaw (Parsed Expr))
    (chain : Rung → Expr → List Spanned → Except Flaw (Parsed Expr)) (rungs : List Rung) (tokens : List Spanned) : Except Flaw (Parsed Expr) := do
  let first ← operand tokens
  rungs.foldlM (fun (left, rest) rung => chain rung left rest) first

mutual

/-- An operand of the tightest operator. -/
def operand (src : List Char) : Nat → List Spanned → Except Flaw (Parsed Expr)
  | room, ⟨.symbol .not, _⟩ :: rest =>
    match room with
    | 0 => .error (faultAt src rest .tooDeep)
    | room + 1 => do
      let (e, rest) ← operand src room rest
      return (.not e, rest)
  | room, ⟨.symbol .openParen, _⟩ :: rest =>
    match room with
    | 0 => .error (faultAt src rest .tooDeep)
    | room + 1 => do
      match ← climb (operand src room) (chain src room) Rung.all rest with
      | (e, ⟨.symbol .closeParen, _⟩ :: rest) => return (e, rest)
      | (_, t :: _) => .error (.fault t.offset (.unclosed t.token))
      | (_, []) => .error (faultAt src [] .unexpectedEnd)
  | _, tokens => leaf src tokens

/-- The operators of one rung that follow `left`, with their operands. -/
def chain (src : List Char) : Nat → Rung → Expr → List Spanned → Except Flaw (Parsed Expr)
  | room, rung, left, ⟨.symbol symbol, offset⟩ :: rest =>
    match rung.operator? symbol with
    | none => .ok (left, ⟨.symbol symbol, offset⟩ :: rest)
    | some op =>
      match room with
      | 0 => .error (faultAt src rest .tooDeep)
      | room + 1 => do
        let (right, rest) ← climb (operand src room) (chain src room) rung.tighter rest
        chain src room rung (.binary op left right) rest
  | _, _, left, tokens => .ok (left, tokens)

end

/-- The room for nesting of an expression. -/
def maxNesting : Nat := 128

/-- The expression that all of the tokens spell. -/
def parseTokens (src : List Char) (tokens : List Spanned) : Except Flaw Expr :=
  match tokens with
  | [] => .error (.fault 0 .empty)
  | tokens => do
    match ← climb (operand src maxNesting) (chain src maxNesting) Rung.all tokens with
    | (e, []) => return e
    | (_, t :: _) => .error (.fault t.offset (.unexpected t.token))

end Parser

/-- The expression that a whole text spells. -/
def Expr.parse (src : String) : Except ExprError Expr := do
  let tokens ← tokenize src
  (Parser.parseTokens src.toList tokens).mapError fun flaw => ⟨src, flaw⟩

end Runbook
