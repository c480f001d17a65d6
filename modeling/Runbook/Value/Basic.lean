import Runbook.Numeric.Number
import Runbook.Value.Keyed

/-!
# Values

The data that flows through a workflow: documents, tool inputs and answers. The fields of an object are held in the order of
their keys, each key once (`Keyed`).
-/

namespace Runbook

/-- A structured value. -/
inductive Value where
  | null
  | bool (b : Bool)
  | num (n : Number)
  | str (s : String)
  | arr (items : List Value)
  | obj (fields : List (String × Value))
  deriving Repr, Inhabited

/-- The fields of an object. -/
abbrev Fields := Keyed Value

namespace Value

/-- An object with these fields. -/
def ofFields (entries : List (String × Value)) : Value := .obj (Keyed.ofList entries)

def ofNat (n : Nat) : Value := .num (.int n)

def ofStrings (items : List String) : Value := .arr (items.map .str)

/-- A value or null. -/
def ofOption : Option Value → Value
  | some v => v
  | none => .null

/-- The fields of an object. -/
def fields? : Value → Option Fields
  | .obj fs => some fs
  | _ => none

/-- The value of a key of an object. -/
def get? (v : Value) (key : String) : Option Value := v.fields?.bind fun fields => Keyed.get? fields key

def str? : Value → Option String
  | .str s => some s
  | _ => none

mutual

/-- Structural equality. -/
def beq : Value → Value → Bool
  | .null, .null => true
  | .bool a, .bool b => a == b
  | .num a, .num b => a.same b
  | .str a, .str b => a == b
  | .arr as, .arr bs => beqItems as bs
  | .obj fs, .obj gs => beqFields fs gs
  | _, _ => false

def beqItems : List Value → List Value → Bool
  | [], [] => true
  | a :: as, b :: bs => beq a b && beqItems as bs
  | _, _ => false

def beqFields : List (String × Value) → List (String × Value) → Bool
  | [], [] => true
  | (k, a) :: fs, (l, b) :: gs => k == l && beq a b && beqFields fs gs
  | _, _ => false

end

instance : BEq Value := ⟨beq⟩

mutual

theorem beq_refl : (v : Value) → v.beq v = true
  | .null => rfl
  | .bool b => by simp [beq]
  | .num n => Number.same_refl n
  | .str s => by simp [beq]
  | .arr items => beqItems_refl items
  | .obj fields => beqFields_refl fields

theorem beqItems_refl : (items : List Value) → beqItems items items = true
  | [] => rfl
  | v :: vs => by simp [beqItems, beq_refl v, beqItems_refl vs]

theorem beqFields_refl : (fields : List (String × Value)) → beqFields fields fields = true
  | [] => rfl
  | (k, v) :: fs => by simp [beqFields, beq_refl v, beqFields_refl fs]

end

end Value

end Runbook
