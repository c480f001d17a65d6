import Runbook.Value.Basic

/-!
# Documents as written

A document keeps what a value forgets: the order of the fields, repeated keys, and the place where a text stops being well
formed. A decoder that visits a document in order therefore meets the first fault of the text, be it of form or of content.
-/

namespace Runbook

/-- A document in the order of its text. A container that is not closed ends where the text stops being well formed; `broken`
stands where a value was expected and none was found. A number that is not finite has no value but null. -/
inductive Document where
  | broken
  | null
  | bool (b : Bool)
  | num (n : Number)
  | nonFinite
  | str (s : String)
  | arr (items : List Document) (closed : Bool)
  | obj (fields : List (String × Document)) (closed : Bool)
  deriving Repr, Inhabited

namespace Document

mutual

/-- The value of a well-formed document, in which the last of several fields with one key counts. -/
def value? : Document → Option Value
  | .broken => none
  | .null => some .null
  | .bool b => some (.bool b)
  | .num n => some (.num n)
  | .nonFinite => some .null
  | .str s => some (.str s)
  | .arr items closed => match valueItems? items with
    | some vs => if closed then some (.arr vs) else none
    | none => none
  | .obj fields closed => match valueFields? fields with
    | some fs => if closed then some (.ofFields fs) else none
    | none => none

def valueItems? : List Document → Option (List Value)
  | [] => some []
  | d :: ds => match value? d, valueItems? ds with
    | some v, some vs => some (v :: vs)
    | _, _ => none

def valueFields? : List (String × Document) → Option (List (String × Value))
  | [] => some []
  | (k, d) :: fs => match value? d, valueFields? fs with
    | some v, some gs => some ((k, v) :: gs)
    | _, _ => none

end

mutual

/-- A value as a document. -/
def ofValue : Value → Document
  | .null => .null
  | .bool b => .bool b
  | .num n => .num n
  | .str s => .str s
  | .arr items => .arr (ofItems items) true
  | .obj fields => .obj (ofFields fields) true

def ofItems : List Value → List Document
  | [] => []
  | v :: vs => ofValue v :: ofItems vs

def ofFields : List (String × Value) → List (String × Document)
  | [] => []
  | (k, v) :: fs => (k, ofValue v) :: ofFields fs

end

end Document

end Runbook
