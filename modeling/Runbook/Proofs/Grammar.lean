import Runbook.Expr.Parser

/-!
# The grammar of expressions

Which tokens spell which expression, rung by rung:

    or         := and ('||' and)*
    and        := equality ('&&' equality)*
    equality   := comparison (('==' | '!=' | '===' | '!==') comparison)*
    comparison := additive (('<' | '<=' | '>' | '>=') additive)*
    additive   := unary ('+' unary)*
    unary      := '!' unary | primary
    primary    := literal | path | '(' or ')'
    path       := identifier ('.' identifier | '[' integer ']')*

A chain of operators of one rung associates to the left, so a chain is an operand, or a shorter chain with one more operator and
operand behind it.
-/

namespace Runbook

/-- The levels of the grammar: the rungs of the binary operators, and what is tighter than all of them. -/
inductive Level where
  | rung (r : Rung)
  | unary
  | primary

namespace Rung

/-- The level of the operands of a rung. -/
def operands : Rung → Level
  | disjunction => .rung conjunction
  | conjunction => .rung equality
  | equality => .rung comparison
  | comparison => .rung concatenation
  | concatenation => .unary

/-- The operators of a rung, and how they are written. -/
inductive Operator : Rung → Symbol → BinaryOp → Prop
  | or : Operator disjunction .or .or
  | and : Operator conjunction .and .and
  | looseEq : Operator equality .looseEq .looseEq
  | looseNe : Operator equality .looseNe .looseNe
  | strictEq : Operator equality .strictEq .strictEq
  | strictNe : Operator equality .strictNe .strictNe
  | lt : Operator comparison .lt .lt
  | le : Operator comparison .le .le
  | gt : Operator comparison .gt .gt
  | ge : Operator comparison .ge .ge
  | concat : Operator concatenation .plus .concat

end Rung

/-- The segments of a path: names behind points, and indices of 64 bits in brackets. -/
inductive Segment.Spelled : List Token → List Segment → Prop
  | nil : Spelled [] []
  | key (name : String) {ts : List Token} {path : List Segment} (rest : Spelled ts path) :
      Spelled (.symbol .dot :: .ident name :: ts) (.key name :: path)
  | index {n : Nat} (fits : n < 2 ^ 64) {ts : List Token} {path : List Segment} (rest : Spelled ts path) :
      Spelled (.symbol .openBracket :: .number (.int n) :: .symbol .closeBracket :: ts) (.index n :: path)

/-- The tokens spell the expression at a level. -/
inductive Expr.Spelled : Level → List Token → Expr → Prop
  | number (n : Number) : Spelled .primary [.number n] (.literal (.num n))
  | text (s : String) : Spelled .primary [.text s] (.literal (.str s))
  | true : Spelled .primary [.ident "true"] (.literal (.bool true))
  | false : Spelled .primary [.ident "false"] (.literal (.bool false))
  | null : Spelled .primary [.ident "null"] (.literal .null)
  | undefined : Spelled .primary [.ident "undefined"] .undefined
  | path {root : String} {ts : List Token} {segments : List Segment} (name : root ∉ Expr.literalNames)
      (rest : Segment.Spelled ts segments) : Spelled .primary (.ident root :: ts) (.path ⟨root, segments⟩)
  | group {ts : List Token} {e : Expr} (inner : Spelled (.rung .disjunction) ts e) :
      Spelled .primary (.symbol .openParen :: (ts ++ [.symbol .closeParen])) e
  | primary {ts : List Token} {e : Expr} (h : Spelled .primary ts e) : Spelled .unary ts e
  | not {ts : List Token} {e : Expr} (h : Spelled .unary ts e) : Spelled .unary (.symbol .not :: ts) (.not e)
  | operand {r : Rung} {ts : List Token} {e : Expr} (h : Spelled r.operands ts e) : Spelled (.rung r) ts e
  | chain {r : Rung} {symbol : Symbol} {op : BinaryOp} {ts us : List Token} {left right : Expr}
      (before : Spelled (.rung r) ts left) (operator : r.Operator symbol op) (behind : Spelled r.operands us right) :
      Spelled (.rung r) (ts ++ .symbol symbol :: us) (.binary op left right)

/-- A token that takes room for nesting: an opening parenthesis, a negation or a binary operator. -/
def Token.nests : Token → Bool
  | .symbol s => match s with
    | .openParen | .not | .or | .and | .plus | .looseEq | .looseNe | .strictEq | .strictNe | .lt | .le | .gt | .ge => true
    | .dot | .openBracket | .closeBracket | .closeParen => false
  | .ident _ | .number _ | .text _ => false

/-- The number of opening parentheses, negations and binary operators among tokens. -/
def nestings (ts : List Token) : Nat := ts.countP Token.nests

@[simp] theorem nestings_nil : nestings [] = 0 := rfl

@[simp] theorem nestings_append (ts us : List Token) : nestings (ts ++ us) = nestings ts + nestings us := List.countP_append

/-- A token adds one nesting if it opens one. -/
theorem nestings_cons (t : Token) (ts : List Token) : nestings (t :: ts) = nestings ts + if t.nests then 1 else 0 :=
  List.countP_cons

/-- Only a whole number is read as an index, and as itself. -/
theorem Number.nat?_eq_some {n : Number} {i : Nat} : n.nat? = some i ↔ n = .int i := by
  constructor
  · intro h
    unfold Number.nat? at h
    split at h
    · obtain rfl := Option.some.inj h
      rfl
    · cases h
  · rintro rfl
    rfl

namespace Rung

/-- The symbol of a rung stands for an operator exactly if it is one of the rung. -/
theorem operator?_eq_some {r : Rung} {s : Symbol} {op : BinaryOp} : r.operator? s = some op ↔ r.Operator s op := by
  constructor
  · intro h
    cases r <;> cases s <;> simp only [operator?, reduceCtorEq, Option.some.injEq] at h <;> subst h <;> constructor
  · rintro ⟨⟩ <;> rfl

/-- The symbol of an operator opens a nesting. -/
theorem Operator.nests {r : Rung} {s : Symbol} {op : BinaryOp} (h : r.Operator s op) : (Token.symbol s).nests = true := by
  cases h <;> rfl

/-- No symbol is an operator of two rungs. -/
theorem Operator.rung_unique {r r' : Rung} {s : Symbol} {op op' : BinaryOp} (h : r.Operator s op) (h' : r'.Operator s op') :
    r = r' := by
  cases h <;> cases h' <;> rfl

end Rung

namespace Level

/-- The rungs whose chains an expression of a level may be, the tightest first. -/
def rungs : Level → List Rung
  | rung r => r.tighter ++ [r]
  | unary | primary => []

/-- The operands of a rung are of the rungs that bind tighter. -/
theorem rungs_operands (r : Rung) : r.operands.rungs = r.tighter := by cases r <;> rfl

/-- What holds of the tightest level, and of a rung once it holds of the operands of the rung, holds of all rungs. -/
theorem climbing {P : Level → Prop} (unary : P .unary) (rung : ∀ r : Rung, P r.operands → P (.rung r)) (r : Rung) :
    P r.operands ∧ P (.rung r) := by
  have concatenation : P (.rung .concatenation) := rung .concatenation unary
  have comparison : P (.rung .comparison) := rung .comparison concatenation
  have equality : P (.rung .equality) := rung .equality comparison
  have conjunction : P (.rung .conjunction) := rung .conjunction equality
  cases r with
  | concatenation => exact ⟨unary, concatenation⟩
  | comparison => exact ⟨concatenation, comparison⟩
  | equality => exact ⟨comparison, equality⟩
  | conjunction => exact ⟨equality, conjunction⟩
  | disjunction => exact ⟨conjunction, rung .disjunction conjunction⟩

end Level

end Runbook
