import Runbook.Engine.Execution
import Runbook.Proofs.References

/-!
# What is read of a scope

An expression reads the roots of its paths and nothing else. So a source, a structured value and a step read only the names of their
fragments: scopes that agree on those give the same value, or the same error.
-/

namespace Runbook

/-- Expressions that agree on the roots that they name have the same value. -/
theorem Expr.eval_congr {e : Expr} {s s' : Scope} (h : ∀ r ∈ e.roots, s r = s' r) : e.eval s = e.eval s' := by
  induction e with
  | undefined => rfl
  | literal v => rfl
  | path p => simp [Expr.eval, Path.eval, h p.root (by simp [Expr.roots])]
  | not e ih => simp [Expr.eval, ih h]
  | binary op left right ihl ihr =>
    have hl := ihl fun r hr => h r (by simp [Expr.roots, hr])
    have hr := ihr fun r hr => h r (by simp [Expr.roots, hr])
    cases op <;> simp [Expr.eval, hl, hr]

/-- Scopes that agree on every name in some expression texts. -/
def Scope.AgreeOn (texts : List String) (s s' : Scope) : Prop := ∀ t ∈ texts, ∀ n ∈ Expr.namesOf t, s n = s' n

namespace Scope.AgreeOn

variable {s s' : Scope}

theorem mono {texts texts' : List String} (h : AgreeOn texts s s') (hsub : ∀ t ∈ texts', t ∈ texts) : AgreeOn texts' s s' :=
  fun t ht => h t (hsub t ht)

theorem left {texts texts' : List String} (h : AgreeOn (texts ++ texts') s s') : AgreeOn texts s s' :=
  h.mono fun _ ht => List.mem_append_left _ ht

theorem right {texts texts' : List String} (h : AgreeOn (texts ++ texts') s s') : AgreeOn texts' s s' :=
  h.mono fun _ ht => List.mem_append_right _ ht

/-- An expression text has the same value in both. -/
theorem eval {texts : List String} (h : AgreeOn texts s s') {t : String} (ht : t ∈ texts) {e : Expr} (he : Expr.parse t = .ok e) :
    e.eval s = e.eval s' :=
  Expr.eval_congr fun r hr => h t ht r (by simpa [Expr.namesOf, he] using hr)

end Scope.AgreeOn

namespace Template

variable {s s' : Scope}

/-- Scopes that agree on the expressions of fragments fill them the same way. -/
theorem fill_congr {rest : List Char} {spans : List Span} (h : Scope.AgreeOn (spans.map Span.expression) s s') :
    fill s rest spans = fill s' rest spans := by
  induction spans with
  | nil => rfl
  | cons span spans ih =>
    have htail := ih (h.mono fun t ht => List.mem_cons_of_mem _ ht)
    unfold fill
    cases he : Expr.parse span.expression with
    | error err => rfl
    | ok e => simp only [bind, Except.bind, h.eval (List.mem_cons_self ..) he, htail]

/-- The fragment of a template that is nothing else is its only one. -/
theorem lone?_some {t : Template} {inner : List Char} (h : t.lone? = some inner) :
    t.fragments = [String.ofList (Text.trimChars inner)] := by
  unfold lone? at h
  split at h
  · obtain rfl := Option.some.inj h
    rfl
  · cases h

/-- Scopes that agree on the fragments of a template resolve it the same way. -/
theorem resolve_congr {t : Template} (h : Scope.AgreeOn t.fragments s s') : t.resolve s = t.resolve s' := by
  unfold resolve
  cases hl : t.lone? with
  | none => simp only [fill_congr h]
  | some inner =>
    rw [lone?_some hl] at h
    simp only
    cases he : Expr.parse (String.ofList (Text.trimChars inner)) with
    | error err => rfl
    | ok e => simp only [bind, Except.bind, h.eval (List.mem_cons_self ..) he]

end Template

namespace Source

variable {s s' : Scope}

/-- Scopes that agree on the expressions of a source evaluate it the same way. -/
theorem evaluate_congr {src : Source} (h : Scope.AgreeOn src.expressions s s') : src.evaluate s = src.evaluate s' := by
  cases src with
  | template t => exact Template.resolve_congr h
  | bare expression =>
    simp only [evaluate]
    cases he : Expr.parse expression with
    | error err => rfl
    | ok e => simp only [Functor.map, Except.map, h.eval (List.mem_cons_self ..) he]

/-- Scopes that agree on the expressions of a condition let it hold, or not, the same way. -/
theorem holds_congr {src : Source} (h : Scope.AgreeOn src.expressions s s') : src.holds s = src.holds s' := by
  unfold holds
  rw [evaluate_congr h]

end Source

namespace Value

variable {s s' : Scope}

mutual

/-- Scopes that agree on the fragments of a value resolve every part of it the same way. -/
theorem resolveNode_congr : (v : Value) → Scope.AgreeOn v.fragments s s' → v.resolveNode s = v.resolveNode s'
  | .null, _ => rfl
  | .bool _, _ => rfl
  | .num _, _ => rfl
  | .str text, h => by
    unfold resolveNode
    simp only [Template.resolve_congr h]
  | .arr items, h => by
    unfold resolveNode
    rw [resolveItems_congr items h]
  | .obj fields, h => by
    unfold resolveNode
    rw [resolveFields_congr fields h]

/-- Scopes that agree on the fragments of items resolve them the same way. -/
theorem resolveItems_congr :
    (items : List Value) → Scope.AgreeOn (fragmentsOfItems items) s s' → resolveItems s items = resolveItems s' items
  | [], _ => rfl
  | v :: vs, h => by
    unfold resolveItems
    rw [resolveNode_congr v h.left, resolveItems_congr vs h.right]

/-- Scopes that agree on the fragments of fields resolve them the same way. -/
theorem resolveFields_congr : (fields : List (String × Value)) → Scope.AgreeOn (fragmentsOfFields fields) s s' →
    resolveFields s fields = resolveFields s' fields
  | [], _ => rfl
  | (_, v) :: fs, h => by
    unfold resolveFields
    rw [resolveNode_congr v h.left, resolveFields_congr fs h.right]

end

/-- Scopes that agree on the fragments of a value resolve it the same way. -/
theorem resolve_congr {v : Value} (h : Scope.AgreeOn v.fragments s s') : v.resolve s = v.resolve s' := by
  unfold resolve
  rw [resolveNode_congr v h]

end Value

/-- Names that no step refers to without being one of them: neither reserved nor literals. -/
def Unreserved (hidden : List String) : Prop := ∀ n ∈ hidden, n ∉ reservedNames ∧ n ∉ Expr.literalNames

/-- Scopes that agree on every name that is not hidden. -/
def Scope.AgreeOutside (hidden : List String) (s s' : Scope) : Prop := ∀ n, n ∉ hidden → s n = s' n

namespace Scope.AgreeOutside

variable {hidden : List String} {s s' : Scope}

/-- Scopes that agree outside of names that some texts do not refer to agree on the texts. -/
theorem agreeOn (h : AgreeOutside hidden s s') (hun : Unreserved hidden) {texts : List String}
    (href : ∀ n ∈ hidden, n ∉ references reservedNames texts) : AgreeOn texts s s' := by
  intro t ht n hn
  by_cases hhid : n ∈ hidden
  · obtain ⟨hres, hlit⟩ := hun n hhid
    exact absurd (mem_references.mpr ⟨⟨t, ht, hn⟩, hres, hlit⟩) (href n hhid)
  · exact h n hhid

/-- The scopes of an iteration agree where those around it do. -/
theorem iteration (h : AgreeOutside hidden s s') (item : Value) (index : Nat) (locals : Fields) :
    AgreeOutside hidden (iterationScope item index locals s) (iterationScope item index locals s') := by
  intro n hn
  simp only [iterationScope, Scope.iteration, h n hn]

end Scope.AgreeOutside

namespace Step

variable {hidden : List String} {s s' : Scope} {step : Step}

/-- The inputs of a step that is no loop are its inputs without body. -/
theorem inputsWithoutBody_eq (h : step.isLoop = false) : step.inputsWithoutBody = step.inputs := by
  unfold inputsWithoutBody
  split <;> simp_all

/-- What a step does not refer to is in none of its sources. -/
theorem source_not_mem (href : ∀ n ∈ hidden, n ∉ step.ownReferences) {src : Source} (hsrc : src ∈ step.sources) :
    ∀ n ∈ hidden, n ∉ references reservedNames src.expressions := by
  intro n hn hmem
  refine href n hn ?_
  simp only [ownReferences, Names.mem_union, Names.mem_ofList, List.mem_flatMap]
  exact Or.inr ⟨src, hsrc, hmem⟩

/-- What a step that is no loop does not refer to is not in its inputs. -/
theorem inputs_not_mem (href : ∀ n ∈ hidden, n ∉ step.ownReferences) (hl : step.isLoop = false) :
    ∀ n ∈ hidden, n ∉ references reservedNames step.inputs.fragments := by
  intro n hn hmem
  refine href n hn ?_
  simp only [ownReferences, Names.mem_union, inputsWithoutBody_eq hl]
  exact Or.inl hmem

/-- What a step does not refer to does not decide whether it runs. -/
theorem admits_congr (h : s.AgreeOutside hidden s') (hun : Unreserved hidden) (href : ∀ n ∈ hidden, n ∉ step.ownReferences) :
    step.admits s = step.admits s' := by
  unfold admits
  cases hc : step.condition with
  | none => rfl
  | some c =>
    have hsrc : Source.ofString c ∈ step.sources := by simp [sources, hc]
    simp only [Source.holds_congr (h.agreeOn hun (source_not_mem href hsrc))]

/-- What a step does not refer to is not in the sequence that it goes through. -/
theorem sequence_congr (h : s.AgreeOutside hidden s') (hun : Unreserved hidden) (href : ∀ n ∈ hidden, n ∉ step.ownReferences) :
    step.sequence s = step.sequence s' := by
  unfold sequence
  cases hc : step.forEach with
  | none => rfl
  | some c =>
    have hsrc : Source.ofString c ∈ step.sources := by simp [sources, hc]
    simp only [Source.evaluate_congr (h.agreeOn hun (source_not_mem href hsrc))]

/-- What a step does not refer to is not in its call. -/
theorem request_congr (e : Engine) (path : List String) (h : s.AgreeOutside hidden s') (hun : Unreserved hidden)
    (href : ∀ n ∈ hidden, n ∉ step.ownReferences) (hl : step.isLoop = false) :
    e.request path step s = e.request path step s' := by
  unfold Engine.request
  rw [Value.resolve_congr (h.agreeOn hun (inputs_not_mem href hl))]

end Step

end Runbook
