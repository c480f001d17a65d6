import Runbook.Expr.Parser
import Runbook.Expr.Eval

/-!
# Templates

A fragment is the text between `{{` and the next `}}`; the scan takes the leftmost `{{` first. A source that is a single
fragment keeps the type of its value. In any other source the fragments are replaced by the texts of their values.
-/

namespace Runbook

/-- A fragment and the text between it and the fragment before. -/
structure Span where
  before : List Char
  inner : List Char
  deriving DecidableEq, Repr

/-- The fragments of a source in order, and the text after the last one. -/
structure Template where
  spans : List Span
  rest : List Char
  deriving DecidableEq, Repr

namespace Template

/-- Cuts a text at the first place where a character stands twice in a row. -/
def cutAtPair (c : Char) : List Char → Option (List Char × List Char)
  | a :: b :: rest =>
    if a = c ∧ b = c then some ([], rest)
    else match cutAtPair c (b :: rest) with
      | some (before, after) => some (a :: before, after)
      | none => none
  | _ => none

/-- The two parts and the pair between them make up the text. -/
theorem eq_of_cutAtPair {c : Char} {s before after : List Char} (h : cutAtPair c s = some (before, after)) :
    s = before ++ c :: c :: after := by
  fun_induction cutAtPair c s generalizing before with
  | case1 a b rest hc => simp_all
  | case2 a b rest hc x y hr ih =>
    simp only [Option.some.injEq, Prod.mk.injEq] at h
    obtain ⟨rfl, rfl⟩ := h
    rw [ih hr]
    rfl
  | case3 => simp at h
  | case4 => simp at h

/-- Cuts a text around its first fragment: the text before, the inner text, and the text after. -/
def cutFragment (s : List Char) : Option (List Char × List Char × List Char) :=
  match cutAtPair '\x7b' s with
  | none => none
  | some (before, s) => match cutAtPair '\x7d' s with
    | none => none
    | some (inner, after) => some (before, inner, after)

/-- A text is what is before its first fragment, the fragment between its braces, and what is after it. -/
theorem eq_of_cutFragment {s before inner after : List Char} (h : cutFragment s = some (before, inner, after)) :
    s = before ++ '\x7b' :: '\x7b' :: (inner ++ '\x7d' :: '\x7d' :: after) := by
  unfold cutFragment at h
  split at h
  · simp at h
  · rename_i b r hb
    split at h
    · simp at h
    · rename_i i a hi
      simp only [Option.some.injEq, Prod.mk.injEq] at h
      obtain ⟨rfl, rfl, rfl⟩ := h
      rw [eq_of_cutAtPair hb, eq_of_cutAtPair hi]

/-- What is after the first fragment is shorter than the text. -/
theorem length_lt_of_cutFragment {s before inner after : List Char}
    (h : cutFragment s = some (before, inner, after)) : after.length < s.length := by
  rw [eq_of_cutFragment h]
  simp only [List.length_append, List.length_cons]
  omega

/-- The fragments of a text. -/
def scan (s : List Char) : Template :=
  match _h : cutFragment s with
  | none => ⟨[], s⟩
  | some (before, inner, after) =>
    let t := scan after
    ⟨⟨before, inner⟩ :: t.spans, t.rest⟩
termination_by s.length
decreasing_by exact length_lt_of_cutFragment _h

/-- The fragments of a source. -/
def ofString (source : String) : Template := scan source.toList

def hasFragment (t : Template) : Bool := !t.spans.isEmpty

/-- The inner text of the fragment that is the whole source. -/
def lone? (t : Template) : Option (List Char) :=
  match t with
  | ⟨[⟨[], inner⟩], []⟩ => some inner
  | _ => none

end Template

/-- The expression text of a fragment: its inner text without the blanks at both ends. -/
def Span.expression (s : Span) : String := String.ofList (Text.trimChars s.inner)

/-- The expression texts of all fragments of a source, in order. -/
def Template.fragments (t : Template) : List String := t.spans.map Span.expression

namespace Template

/-- The text that takes the place of a fragment: null is spelled out, undefined leaves nothing. -/
def substitute : Option Value → String
  | some .null => "null"
  | v => Value.toText v

/-- The source with every fragment replaced by its text. -/
def fill (scope : Scope) (rest : List Char) : List Span → Except ExprError String
  | [] => .ok (String.ofList rest)
  | span :: spans => do
    let e ← Expr.parse span.expression
    let tail ← fill scope rest spans
    return String.ofList span.before ++ (substitute (e.eval scope) ++ tail)

/-- The value of a source with fragments; a lone fragment keeps the type of its value. -/
def resolve (scope : Scope) (t : Template) : Except ExprError (Option Value) :=
  match t.lone? with
  | some inner => do
    let e ← Expr.parse (String.ofList (Text.trimChars inner))
    return e.eval scope
  | none => do
    let text ← fill scope t.rest t.spans
    return some (.str text)

/-- Every fragment is an expression. -/
def validate (t : Template) : Except ExprError Unit := t.fragments.forM fun f => (fun _ => ()) <$> Expr.parse f

end Template

/-- Conditions and loop sources: a template if there is a fragment, otherwise a bare expression. -/
inductive Source where
  | template (t : Template)
  | bare (expression : String)

namespace Source

def ofString (source : String) : Source :=
  let t := Template.ofString source
  if t.hasFragment then .template t else .bare (Text.trim source)

def evaluate (scope : Scope) : Source → Except ExprError (Option Value)
  | template t => t.resolve scope
  | bare expression => (·.eval scope) <$> Expr.parse expression

/-- Every expression of the source is one. -/
def validate : Source → Except ExprError Unit
  | template t => t.validate
  | bare expression => (fun _ => ()) <$> Expr.parse expression

/-- The expression texts of the source. -/
def expressions : Source → List String
  | template t => t.fragments
  | bare expression => [expression]

/-- Whether a condition holds for its value: the text `false` between blanks does not. -/
def accepts : Option Value → Bool
  | some (.str s) => if Text.trim s = "false" then false else Value.truthy (some (.str s))
  | v => Value.truthy v

/-- Whether a condition holds. -/
def holds (scope : Scope) (s : Source) : Except ExprError Bool := accepts <$> s.evaluate scope

end Source

namespace Value

mutual

/-- Resolves every text of a value. An item that is undefined becomes null, a field that is undefined is left out. -/
def resolveNode (scope : Scope) : Value → Except ExprError (Option Value)
  | .str s =>
    let t := Template.ofString s
    if t.hasFragment then t.resolve scope else .ok (some (.str s))
  | .arr items => do
    let items ← resolveItems scope items
    return some (.arr items)
  | .obj fields => do
    let fields ← resolveFields scope fields
    return some (.obj fields)
  | .null => .ok (some .null)
  | .bool b => .ok (some (.bool b))
  | .num n => .ok (some (.num n))

def resolveItems (scope : Scope) : List Value → Except ExprError (List Value)
  | [] => .ok []
  | v :: vs => do
    let item ← resolveNode scope v
    let items ← resolveItems scope vs
    return Value.ofOption item :: items

def resolveFields (scope : Scope) : List (String × Value) → Except ExprError (List (String × Value))
  | [] => .ok []
  | (k, v) :: fs => do
    let field ← resolveNode scope v
    let fields ← resolveFields scope fs
    return match field with
      | some v => (k, v) :: fields
      | none => fields

end

/-- Resolves every text of a value; an undefined result is null. -/
def resolve (scope : Scope) (v : Value) : Except ExprError Value := Value.ofOption <$> v.resolveNode scope

mutual

/-- Every fragment inside the value is an expression. -/
def validate : Value → Except ExprError Unit
  | .str s => (Template.ofString s).validate
  | .arr items => validateItems items
  | .obj fields => validateFields fields
  | .null | .bool _ | .num _ => .ok ()

def validateItems : List Value → Except ExprError Unit
  | [] => .ok ()
  | v :: vs => do
    validate v
    validateItems vs

def validateFields : List (String × Value) → Except ExprError Unit
  | [] => .ok ()
  | (_, v) :: fs => do
    validate v
    validateFields fs

end

end Value

end Runbook
