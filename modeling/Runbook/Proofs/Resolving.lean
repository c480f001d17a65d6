import Runbook.Proofs.Reading
import Runbook.Proofs.Validity

/-!
# What validates resolves

Validation reads every expression of a text, in the order in which it is resolved, so the two fail together and with the same error.
A step without faults is therefore never in want of an expression: its condition decides, its sequence is one or is refused for what
it is, and its inputs are there.
-/

namespace Runbook

namespace Except

/-- What is left of a result when its value is forgotten. -/
abbrev forget (r : Except ε α) : Except ε Unit := (fun _ => ()) <$> r

end Except

namespace Template

/-- A template is filled if its fragments are expressions, and fails with the error of the first that is none. -/
theorem forget_fill (scope : Scope) (rest : List Char) (spans : List Span) :
    Except.forget (fill scope rest spans) = forM (spans.map Span.expression) fun f => Except.forget (Expr.parse f) := by
  induction spans with
  | nil => rfl
  | cons span spans ih =>
    rw [List.map_cons, List.forM_cons, ← ih, fill]
    cases Expr.parse span.expression with
    | error err => rfl
    | ok e =>
      cases fill scope rest spans with
      | error err => rfl
      | ok text => rfl

/-- A template is resolved exactly if it is valid, and else the errors are the same. -/
theorem forget_resolve (scope : Scope) (t : Template) : Except.forget (t.resolve scope) = t.validate := by
  unfold resolve validate
  cases hl : t.lone? with
  | none =>
    have h := forget_fill scope t.rest t.spans
    rw [List.forM_eq_forM, fragments, ← h]
    cases fill scope t.rest t.spans with
    | error err => rfl
    | ok text => rfl
  | some inner =>
    rw [lone?_some hl, List.forM_eq_forM, List.forM_cons, List.forM_nil]
    dsimp only
    cases Expr.parse (String.ofList (Text.trimChars inner)) with
    | error err => rfl
    | ok e => rfl

end Template

namespace Source

/-- A source is evaluated exactly if it is valid, and else the errors are the same. -/
theorem forget_evaluate (scope : Scope) (src : Source) : Except.forget (src.evaluate scope) = src.validate := by
  cases src with
  | template t => exact Template.forget_resolve scope t
  | bare expression =>
    simp only [evaluate, validate]
    cases Expr.parse expression with
    | error err => rfl
    | ok e => rfl

/-- A condition holds or not exactly if it is valid, and else the errors are the same. -/
theorem forget_holds (scope : Scope) (src : Source) : Except.forget (src.holds scope) = src.validate := by
  rw [← forget_evaluate scope src]
  unfold holds
  cases src.evaluate scope with
  | error err => rfl
  | ok v => rfl

end Source

namespace Value

mutual

/-- A part of a value is resolved exactly if it is valid, and else the errors are the same. -/
theorem forget_resolveNode (scope : Scope) : (v : Value) → Except.forget (v.resolveNode scope) = v.validate
  | .null => rfl
  | .bool _ => rfl
  | .num _ => rfl
  | .str text => by
    unfold resolveNode validate
    dsimp only
    split
    · exact Template.forget_resolve scope _
    · rename_i h
      have hspans : (Template.ofString text).spans = [] := by simpa [Template.hasFragment] using h
      simp [Template.validate, Template.fragments, hspans, Functor.map, Except.map, pure, Except.pure]
  | .arr items => by
    unfold resolveNode validate
    rw [← forget_resolveItems scope items]
    cases resolveItems scope items with
    | error err => rfl
    | ok items => rfl
  | .obj fields => by
    unfold resolveNode validate
    rw [← forget_resolveFields scope fields]
    cases resolveFields scope fields with
    | error err => rfl
    | ok fields => rfl

/-- Items are resolved exactly if they are valid, and else the errors are the same. -/
theorem forget_resolveItems (scope : Scope) :
    (items : List Value) → Except.forget (resolveItems scope items) = validateItems items
  | [] => rfl
  | v :: vs => by
    unfold resolveItems validateItems
    rw [← forget_resolveNode scope v, ← forget_resolveItems scope vs]
    cases resolveNode scope v with
    | error err => rfl
    | ok item =>
      cases resolveItems scope vs with
      | error err => rfl
      | ok items => rfl

/-- Fields are resolved exactly if they are valid, and else the errors are the same. -/
theorem forget_resolveFields (scope : Scope) :
    (fields : List (String × Value)) → Except.forget (resolveFields scope fields) = validateFields fields
  | [] => rfl
  | (_, v) :: fs => by
    unfold resolveFields validateFields
    rw [← forget_resolveNode scope v, ← forget_resolveFields scope fs]
    cases resolveNode scope v with
    | error err => rfl
    | ok field =>
      cases resolveFields scope fs with
      | error err => rfl
      | ok fields => rfl

end

/-- A value is resolved exactly if it is valid, and else the errors are the same. -/
theorem forget_resolve (scope : Scope) (v : Value) : Except.forget (v.resolve scope) = v.validate := by
  rw [← forget_resolveNode scope v]
  unfold resolve
  cases v.resolveNode scope with
  | error err => rfl
  | ok r => rfl

end Value

/-- A result that is one when its value is forgotten has a value. -/
theorem Except.exists_of_forget {r : Except ε α} (h : Except.forget r = .ok ()) : ∃ a, r = .ok a := by
  cases r with
  | error err => cases h
  | ok a => exact ⟨a, rfl⟩

/-- The errors that a step can come to once its definition is valid: its tool fails, panics, is missing, is aborted or takes too long,
or its source is no sequence. -/
def StepError.AtRunTime : StepError → Prop
  | expression _ | invalidLoop _ => False
  | tool _ | unavailable _ | notIterable _ | timeout _ | panicked _ | aborted _ => True

/-- The errors of calls are those of a run. -/
theorem Call.result_atRunTime {c : Call} {r : Reply} {err : StepError} (h : c.result r = .error err) : err.AtRunTime := by
  unfold Call.result at h
  split at h
  · cases h
  · cases h
    trivial
  · cases h
    trivial
  · cases h
    trivial
  · cases h
    trivial

/-- The errors of iterated values are those of a run. -/
theorem Step.items_atRunTime {v : Option Value} {err : StepError} (h : Step.items v = .error err) : err.AtRunTime := by
  have hkind {kind : ScalarKind} (h : (.error (.notIterable kind) : Except StepError (List Value)) = .error err) :
      err.AtRunTime := by
    obtain rfl := Except.error.inj h
    trivial
  cases v with
  | none => simp only [Step.items, reduceCtorEq] at h
  | some v =>
    cases v with
    | null => simp only [Step.items, reduceCtorEq] at h
    | arr items => simp only [Step.items, reduceCtorEq] at h
    | bool b => exact hkind (by simpa only [Step.items] using h)
    | num n => exact hkind (by simpa only [Step.items] using h)
    | obj fields => exact hkind (by simpa only [Step.items] using h)
    | str text =>
      simp only [Step.items] at h
      split at h
      · cases h
      · exact hkind h

namespace Step.Faultless

variable {s : Step} (hs : s.Faultless)

include hs

/-- A condition decides in every scope. -/
theorem admits (scope : Scope) : ∃ b, s.admits scope = .ok b := by
  unfold Step.admits
  cases hc : s.condition with
  | none => exact ⟨true, rfl⟩
  | some c =>
    obtain ⟨b, hb⟩ := Except.exists_of_forget ((Source.forget_holds scope _).trans (hs.condition c hc))
    exact ⟨b, by simp [hb, Except.mapError]⟩

/-- A sequence is refused only for what it is. -/
theorem sequence_atRunTime (hsource : s.forEach.isSome = true) {scope : Scope} {err : StepError}
    (h : s.sequence scope = .error err) : err.AtRunTime := by
  obtain ⟨c, hc⟩ := Option.isSome_iff_exists.mp hsource
  obtain ⟨v, hv⟩ := Except.exists_of_forget ((Source.forget_evaluate scope _).trans (hs.forEach c hc))
  simp only [Step.sequence, hc, hv, Except.mapError, bind, Except.bind] at h
  exact Step.items_atRunTime h

/-- The inputs of a call are there in every scope. -/
theorem request (e : Engine) (path : List String) (hl : s.isLoop = false) (scope : Scope) :
    ∃ inputs, s.inputs.resolve scope = .ok inputs ∧ e.request path s scope = .ok ⟨path, s.tool, inputs, e.timeoutMs s⟩ := by
  have hinputs : s.inputs.validate = .ok () := by
    have h := hs.inputs
    rwa [Step.inputsWithoutBody_eq hl] at h
  obtain ⟨inputs, hok⟩ := Except.exists_of_forget ((Value.forget_resolve scope s.inputs).trans hinputs)
  exact ⟨inputs, hok, by simp [Engine.request, hok, Except.mapError, bind, Except.bind, pure, Except.pure]⟩

end Step.Faultless

end Runbook
