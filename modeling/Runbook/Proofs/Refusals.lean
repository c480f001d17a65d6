import Runbook.Proofs.Acceptance
import Runbook.Proofs.Resolving

/-!
# Refused texts

Of the expression texts of a value or a source the first that is no expression is what it is refused for. Validating and resolving go
through the same texts in the same order, at all depths, so they are refused together and with the same error, whatever the data are.
-/

namespace Runbook

/-- The error of the first of some texts that is no expression. -/
def Refused (texts : List String) (err : ExprError) : Prop :=
  ∃ before text after, texts = before ++ text :: after ∧ (∀ t ∈ before, IsExpression t) ∧ Expr.parse text = .error err

/-- Texts checked one by one are refused for the first that is no expression; those behind it are not looked at. -/
theorem check_eq_error {texts : List String} {err : ExprError} :
    (texts.forM fun text => Except.forget (Expr.parse text)) = .error err ↔ Refused texts err := by
  induction texts with
  | nil =>
    refine ⟨nofun, ?_⟩
    rintro ⟨before, text, after, heq, -⟩
    cases before <;> cases heq
  | cons text texts ih =>
    rw [List.forM_eq_forM, List.forM_cons]
    cases htext : Expr.parse text with
    | error err' =>
      constructor
      · intro h
        obtain rfl := Except.error.inj h
        exact ⟨[], text, texts, rfl, nofun, htext⟩
      · rintro ⟨before, first, after, heq, hbefore, hfirst⟩
        cases before with
        | nil =>
          obtain ⟨rfl, -⟩ := List.cons.inj heq
          rw [htext] at hfirst
          exact congrArg Except.error (Except.error.inj hfirst)
        | cons t before =>
          obtain ⟨rfl, -⟩ := List.cons.inj heq
          obtain ⟨e, he⟩ := hbefore text List.mem_cons_self
          rw [htext] at he
          cases he
    | ok e =>
      refine Iff.trans ih ?_
      constructor
      · rintro ⟨before, first, after, rfl, hbefore, hfirst⟩
        exact ⟨text :: before, first, after, rfl, List.forall_mem_cons.mpr ⟨⟨e, htext⟩, hbefore⟩, hfirst⟩
      · rintro ⟨before, first, after, heq, hbefore, hfirst⟩
        cases before with
        | nil =>
          obtain ⟨rfl, -⟩ := List.cons.inj heq
          rw [htext] at hfirst
          cases hfirst
        | cons t before =>
          obtain ⟨rfl, rfl⟩ := List.cons.inj heq
          exact ⟨before, first, after, rfl, (List.forall_mem_cons.mp hbefore).2, hfirst⟩

namespace Value

mutual

/-- A value is validated by checking the expression texts in it one by one. -/
theorem validate_eq_check : (v : Value) → v.validate = v.fragments.forM fun text => Except.forget (Expr.parse text)
  | .null | .bool _ | .num _ => rfl
  | .str _ => rfl
  | .arr items => by
    rw [validate, fragments]
    exact validateItems_eq_check items
  | .obj fields => by
    rw [validate, fragments]
    exact validateFields_eq_check fields

/-- To validate items is to check all fragments in them, in order. -/
theorem validateItems_eq_check :
    (items : List Value) → validateItems items = (fragmentsOfItems items).forM fun text => Except.forget (Expr.parse text)
  | [] => rfl
  | v :: vs => by
    rw [validateItems, fragmentsOfItems, List.forM_eq_forM, List.forM_append, validate_eq_check v, validateItems_eq_check vs]
    rfl

/-- To validate fields is to check all fragments in them, in order. -/
theorem validateFields_eq_check :
    (fields : List (String × Value)) →
      validateFields fields = (fragmentsOfFields fields).forM fun text => Except.forget (Expr.parse text)
  | [] => rfl
  | (_, v) :: fs => by
    rw [validateFields, fragmentsOfFields, List.forM_eq_forM, List.forM_append, validate_eq_check v, validateFields_eq_check fs]
    rfl

end

end Value

/-- To validate a source is to check its expressions, in order. -/
theorem Source.validate_eq_check (s : Source) : s.validate = s.expressions.forM fun text => Except.forget (Expr.parse text) := by
  cases s with
  | template t => rfl
  | bare expression =>
    rw [validate, expressions, List.forM_eq_forM, List.forM_cons, List.forM_nil]
    cases Expr.parse expression <;> rfl

namespace Except

/-- Without its result, a check fails as it did with it. -/
theorem forget_eq_error {r : Except ε α} {err : ε} : Except.forget r = .error err ↔ r = .error err := by
  cases r with
  | error err' => exact ⟨fun h => congrArg Except.error (Except.error.inj h), fun h => congrArg Except.error (Except.error.inj h)⟩
  | ok a => exact ⟨nofun, nofun⟩

/-- Without its result, a check passes exactly if it had one. -/
theorem forget_eq_ok {r : Except ε α} : Except.forget r = .ok () ↔ ∃ a, r = .ok a := by
  constructor
  · exact Except.exists_of_forget
  · rintro ⟨a, rfl⟩
    rfl

end Except

/-- Validating a value and resolving it fail together and with the same error, that of the first expression text in it that is no
expression; and so do validating a source, evaluating it and deciding a condition with it. Whether they succeed depends on the texts
alone, whatever is in the scope. -/
theorem refused_together :
    (∀ (v : Value) (scope : Scope), ((∃ out, v.resolve scope = .ok out) ↔ ∀ text ∈ v.fragments, IsExpression text) ∧
      ∀ err, (v.resolve scope = .error err ↔ v.validate = .error err) ∧ (v.validate = .error err ↔ Refused v.fragments err)) ∧
    ∀ (source : Source) (scope : Scope),
      ((∃ out, source.evaluate scope = .ok out) ↔ ∀ text ∈ source.expressions, IsExpression text) ∧
      ((∃ out, source.holds scope = .ok out) ↔ ∀ text ∈ source.expressions, IsExpression text) ∧
      ∀ err, (source.evaluate scope = .error err ↔ source.validate = .error err) ∧
        (source.holds scope = .error err ↔ source.validate = .error err) ∧
        (source.validate = .error err ↔ Refused source.expressions err) := by
  refine ⟨fun v scope => ⟨?_, fun err => ⟨?_, ?_⟩⟩, fun source scope => ⟨?_, ?_, fun err => ⟨?_, ?_, ?_⟩⟩⟩
  · rw [← Value.validate_eq_ok, ← Value.forget_resolve scope, Except.forget_eq_ok]
  · rw [← Value.forget_resolve scope, Except.forget_eq_error]
  · rw [Value.validate_eq_check, check_eq_error]
  · rw [← Source.validate_eq_ok, ← Source.forget_evaluate scope, Except.forget_eq_ok]
  · rw [← Source.validate_eq_ok, ← Source.forget_holds scope, Except.forget_eq_ok]
  · rw [← Source.forget_evaluate scope, Except.forget_eq_error]
  · rw [← Source.forget_holds scope, Except.forget_eq_error]
  · rw [Source.validate_eq_check, check_eq_error]

end Runbook
