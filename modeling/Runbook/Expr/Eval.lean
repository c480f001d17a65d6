import Runbook.Expr.Basic
import Runbook.Json.Printer
import Runbook.Text.Blank

/-!
# Evaluating expressions

Evaluation never fails: what is missing is undefined, written `none`. Numbers are compared as 64-bit floating-point numbers,
texts in the order of their characters.
-/

namespace Runbook

/-- The names that an expression can refer to. -/
abbrev Scope := String → Option Value

namespace Scope

/-- The fields of an object as a scope; any other value has no names. -/
def ofValue (v : Value) : Scope := v.get?

/-- The scope of an iteration: its item and index, then the records of the steps before in the same iteration, then the
enclosing scope. -/
def iteration (outer : Scope) (item : Value) (index : Nat) (locals : Fields) : Scope := fun name =>
  if name = "item" then some item
  else if name = "index" then some (.ofNat index)
  else (locals.get? name).or (outer name)

end Scope

namespace Value

/-- What a possibly undefined value counts as in `!`, `&&` and conditions. -/
def truthy : Option Value → Bool
  | none | some .null => false
  | some (.bool b) => b
  | some (.num n) => n.order ≠ 0
  | some (.str s) => s ≠ ""
  | some (.arr _) | some (.obj _) => true

/-- The values that `||` takes: all but undefined, null, false and the empty text. -/
def present : Option Value → Bool
  | none | some .null | some (.bool false) => false
  | some (.str s) => s ≠ ""
  | some _ => true

/-- The text of a value within a text; undefined and null have the empty one. -/
def toText : Option Value → String
  | none | some .null => ""
  | some (.str s) => s
  | some (.num n) => n.plainText
  | some v => Json.render v

/-- The place among the numbers of the numeral that a text spells. -/
def textOrder? (s : String) : Option Int := Decimal.orderOfText? (Text.trimChars s.toList)

/-- Equality of numbers and texts, where a text stands for the number that it spells. -/
def looseScalar : Value → Value → Bool
  | .num a, .num b => a.order = b.order
  | .num a, .str s | .str s, .num a => textOrder? s = some a.order
  | a, b => a == b

/-- A truth value as the number it stands for. -/
def unbool : Value → Value
  | .bool b => .ofNat b.toNat
  | v => v

/-- Equality up to spelling: undefined equals null, a truth value its number, and a text the number it spells. -/
def looseEq : Option Value → Option Value → Bool
  | none, none | none, some .null | some .null, none | some .null, some .null => true
  | none, _ | some .null, _ | _, none | _, some .null => false
  | some a, some b => looseScalar a.unbool b.unbool

/-- Equality of possibly undefined values; numbers are equal when their floating-point numbers are. -/
def strictEq : Option Value → Option Value → Bool
  | some (.num a), some (.num b) => a.order = b.order
  | some a, some b => a == b
  | none, none => true
  | _, _ => false

/-- The order of two numbers or two texts; other pairs have none. -/
def ordering? : Option Value → Option Value → Option Ordering
  | some (.num a), some (.num b) => some (compare a.order b.order)
  | some (.str a), some (.str b) => some (compare a b)
  | _, _ => none

/-- The answer of a comparison; the other operators never hold. -/
def compareBy (op : BinaryOp) (a b : Option Value) : Bool :=
  match op with
  | .looseEq => looseEq a b
  | .looseNe => !looseEq a b
  | .strictEq => strictEq a b
  | .strictNe => !strictEq a b
  | .lt => ordering? a b == some .lt
  | .le => ordering? a b == some .lt || ordering? a b == some .eq
  | .gt => ordering? a b == some .gt
  | .ge => ordering? a b == some .gt || ordering? a b == some .eq
  | .or | .and | .concat => false

/-- The value at the end of a path. Arrays and texts have a `length`, which ends the path; that of a text counts characters. -/
def follow (v : Value) : List Segment → Option Value
  | [] => some v
  | .key name :: rest =>
    match v with
    | .obj fields => match Keyed.get? fields name with
      | some v => v.follow rest
      | none => none
    | .arr items => if name = "length" ∧ rest = [] then some (.ofNat items.length) else none
    | .str s => if name = "length" ∧ rest = [] then some (.ofNat s.length) else none
    | _ => none
  | .index i :: rest =>
    match v with
    | .arr items => match items[i]? with
      | some v => v.follow rest
      | none => none
    | _ => none

end Value

/-- The value of a path. -/
def Path.eval (scope : Scope) (p : Path) : Option Value := (scope p.root).bind (·.follow p.segments)

/-- The value of an expression. -/
def Expr.eval (scope : Scope) : Expr → Option Value
  | undefined => none
  | literal v => some v
  | path p => p.eval scope
  | not e => some (.bool (!Value.truthy (e.eval scope)))
  | binary .or left right =>
    let l := left.eval scope
    if Value.present l then l else right.eval scope
  | binary .and left right =>
    let l := left.eval scope
    if Value.truthy l then right.eval scope else l
  | binary .concat left right => some (.str (Value.toText (left.eval scope) ++ Value.toText (right.eval scope)))
  | binary op left right => some (.bool (Value.compareBy op (left.eval scope) (right.eval scope)))

end Runbook
