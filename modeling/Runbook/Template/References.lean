import Runbook.Template.Basic
import Runbook.Text.Names

/-!
# Names that a template refers to

The roots of the paths in the fragments of a value or source. A text that is no expression still counts, as far as it has
tokens, by its identifiers that do not follow a dot.
-/

namespace Runbook

/-- The names that never refer to a step. -/
def reservedNames : List String := ["inputs", "defaults", "item", "index"]

/-- The identifiers among the tokens that do not follow a dot. -/
def looseIdentifiers : Option Token → List Spanned → List String
  | _, [] => []
  | previous, ⟨.ident name, _⟩ :: rest =>
    let names := looseIdentifiers (some (.ident name)) rest
    match previous with
    | some (.symbol .dot) => names
    | _ => name :: names
  | _, t :: rest => looseIdentifiers (some t.token) rest

/-- The names that an expression text refers to, literals included. -/
def Expr.namesOf (src : String) : List String :=
  match Expr.parse src with
  | .ok e => e.roots
  | .error _ => match tokenize src with
    | .ok tokens => looseIdentifiers none tokens
    | .error _ => []

namespace Value

mutual

/-- The expression texts of all fragments inside a value, in order. -/
def fragments : Value → List String
  | .str s => (Template.ofString s).fragments
  | .arr items => fragmentsOfItems items
  | .obj fields => fragmentsOfFields fields
  | .null | .bool _ | .num _ => []

def fragmentsOfItems : List Value → List String
  | [] => []
  | v :: vs => fragments v ++ fragmentsOfItems vs

def fragmentsOfFields : List (String × Value) → List String
  | [] => []
  | (_, v) :: fs => fragments v ++ fragmentsOfFields fs

end

end Value

/-- The names that expression texts refer to, without the reserved names and the literals. -/
def references (reserved : List String) (expressions : List String) : Names :=
  Names.ofList ((expressions.flatMap Expr.namesOf).filter fun name =>
    !reserved.contains name && !Expr.literalNames.contains name)

/-- The names that the fragments of a value refer to. -/
def Value.references (reserved : List String) (v : Value) : Names := Runbook.references reserved v.fragments

/-- The names that a condition or loop source refers to. -/
def Source.references (reserved : List String) (s : Source) : Names := Runbook.references reserved s.expressions

end Runbook
