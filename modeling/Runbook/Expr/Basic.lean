import Runbook.Expr.Token
import Runbook.Value.Basic

/-!
# Expressions
-/

namespace Runbook

/-- One step of a path. -/
inductive Segment where
  | key (name : String)
  | index (n : Nat)
  deriving DecidableEq, Repr

/-- A path such as `search.output.results[0].title`: a name of the scope, and the way into its value. -/
structure Path where
  root : String
  segments : List Segment
  deriving DecidableEq, Repr

inductive BinaryOp where
  | or | and | concat
  | looseEq | looseNe | strictEq | strictNe
  | lt | le | gt | ge
  deriving DecidableEq, Repr

/-- A parsed expression. -/
inductive Expr where
  | undefined
  | literal (value : Value)
  | path (path : Path)
  | not (e : Expr)
  | binary (op : BinaryOp) (left right : Expr)
  deriving Repr

/-- The names of the paths of an expression, in source order. -/
def Expr.roots : Expr → List String
  | undefined => []
  | literal _ => []
  | path p => [p.root]
  | not e => e.roots
  | binary _ left right => left.roots ++ right.roots

/-- The most operators on a way from the root of an expression to a leaf. -/
def Expr.height : Expr → Nat
  | undefined => 0
  | literal _ => 0
  | path _ => 0
  | not e => e.height + 1
  | binary _ left right => max left.height right.height + 1

/-- The names that are literals, never paths. -/
def Expr.literalNames : List String := ["true", "false", "null", "undefined"]

end Runbook
