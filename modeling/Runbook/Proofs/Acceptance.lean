import Mathlib.Data.List.TakeWhile
import Runbook.Proofs.Cycles
import Runbook.Proofs.References
import Runbook.Proofs.Tables
import Runbook.Proofs.Validity

/-!
# What is accepted

A definition gets a graph exactly when it is well formed and none of its steps depends on itself, however indirectly. Well formed is
said of the steps as they are written, at all depths, and of the expressions in them, one by one. A cycle is reported of well-formed
definitions only, and of all others some issue.
-/

namespace Runbook

/-! ## Expressions -/

/-- A text that spells an expression. -/
def IsExpression (text : String) : Prop := ∃ e, Expr.parse text = .ok e

/-- A text passes the check of expressions exactly if it is one. -/
theorem validate_text_eq_ok {text : String} : ((fun _ => ()) <$> Expr.parse text : Except ExprError Unit) = .ok () ↔ IsExpression text := by
  unfold IsExpression
  cases Expr.parse text <;> simp [Functor.map, Except.map]

/-- Texts pass the check of expressions exactly if each of them is one. -/
theorem validate_texts_eq_ok {texts : List String} :
    (texts.forM fun text => ((fun _ => ()) <$> Expr.parse text : Except ExprError Unit)) = .ok () ↔ ∀ text ∈ texts, IsExpression text := by
  induction texts with
  | nil => simp [pure, Except.pure]
  | cons text texts ih =>
    rw [List.forM_eq_forM, List.forM_cons, List.forall_mem_cons, ← validate_text_eq_ok, ← ih]
    cases Expr.parse text <;> simp [Functor.map, Except.map, bind, Except.bind]

/-- A template is valid exactly if all of its fragments are expressions. -/
theorem Template.validate_eq_ok {t : Template} : t.validate = .ok () ↔ ∀ text ∈ t.fragments, IsExpression text :=
  validate_texts_eq_ok

/-- A condition or loop source is valid when all of its expressions are expressions. -/
theorem Source.validate_eq_ok {s : Source} : s.validate = .ok () ↔ ∀ text ∈ s.expressions, IsExpression text := by
  cases s with
  | template t => exact Template.validate_eq_ok
  | bare expression => simpa [validate, expressions] using validate_text_eq_ok

namespace Value

/-- Two checks one after the other pass when both do. -/
theorem seq_eq_ok {x y : Except ε Unit} : (do x; y) = .ok () ↔ x = .ok () ∧ y = .ok () := by
  cases x <;> simp [bind, Except.bind]

mutual

/-- A value is valid when all fragments of the texts in it are expressions. -/
theorem validate_eq_ok : (v : Value) → (v.validate = .ok () ↔ ∀ text ∈ v.fragments, IsExpression text)
  | .null | .bool _ | .num _ => by simp [validate, fragments]
  | .str _ => Template.validate_eq_ok
  | .arr items => by
    unfold validate fragments
    exact validateItems_eq_ok items
  | .obj fields => by
    unfold validate fragments
    exact validateFields_eq_ok fields

theorem validateItems_eq_ok :
    (items : List Value) → (validateItems items = .ok () ↔ ∀ text ∈ fragmentsOfItems items, IsExpression text)
  | [] => by simp [validateItems, fragmentsOfItems]
  | v :: vs => by
    rw [validateItems, seq_eq_ok, validate_eq_ok v, validateItems_eq_ok vs, fragmentsOfItems, List.forall_mem_append]

theorem validateFields_eq_ok :
    (fields : List (String × Value)) → (validateFields fields = .ok () ↔ ∀ text ∈ fragmentsOfFields fields, IsExpression text)
  | [] => by simp [validateFields, fragmentsOfFields]
  | (_, v) :: fs => by
    rw [validateFields, seq_eq_ok, validate_eq_ok v, validateFields_eq_ok fs, fragmentsOfFields, List.forall_mem_append]

end

end Value

/-! ## Steps -/

namespace Text

/-- Nothing is left of a text that is cut from its end exactly if all of it is to be cut. -/
theorem dropEndWhile_eq_nil {p : Char → Bool} {s : List Char} : dropEndWhile p s = [] ↔ ∀ c ∈ s, p c = true := by
  simp [dropEndWhile, List.dropWhile_eq_nil_iff]

/-- Nothing is left of a text without its blanks exactly when it has nothing but blanks. -/
theorem trimChars_eq_nil {s : List Char} : trimChars s = [] ↔ ∀ c ∈ s, isBlank c = true := by
  rw [trimChars, dropEndWhile_eq_nil]
  constructor
  · intro h c hc
    rw [← List.takeWhile_append_dropWhile (p := isBlank) (l := s)] at hc
    rcases List.mem_append.mp hc with hc | hc
    · exact List.mem_takeWhile_imp hc
    · exact h c hc
  · exact fun h c hc => h c ((List.dropWhile_sublist _).subset hc)

end Text

/-- An id that a step may have: something of it can be seen, and it is neither reserved nor the name of a literal. -/
structure IsStepId (id : String) : Prop where
  visible : ∃ c ∈ id.toList, Text.isBlank c = false
  notReserved : id ∉ reservedNames
  notLiteral : id ∉ Expr.literalNames

/-- The ids that a step may have are those that pass the two checks of ids. -/
theorem isStepId_iff {id : String} : IsStepId id ↔ isBlankId id = false ∧ isReservedId id = false := by
  have hblank : isBlankId id = false ↔ ∃ c ∈ id.toList, Text.isBlank c = false := by
    rw [← Bool.not_eq_true, isBlankId, Text.trim, String.isEmpty_iff, String.ofList_eq_empty_iff, Text.trimChars_eq_nil]
    simp
  have hreserved : isReservedId id = false ↔ id ∉ reservedNames ∧ id ∉ Expr.literalNames := by simp [isReservedId]
  rw [hblank, hreserved]
  exact ⟨fun h => ⟨h.visible, h.notReserved, h.notLiteral⟩, fun h => ⟨h.1, h.2.1, h.2.2⟩⟩

/-- A step that is another one, or stands in the body of a loop in it, at any depth. -/
inductive Step.Within : Step → Step → Prop
  | self {s : Step} : Within s s
  | body {s t u : Step} {body : List Step} (loop : s.isLoop = true) (decoded : s.body = .ok body) (ht : t ∈ body)
      (h : Within u t) : Within u s

/-- A step as it may stand in a definition with steps of these ids, its body left to speak for itself. -/
structure Step.WellFormed (topIds : List String) (s : Step) : Prop where
  tool : s.tool ∈ ToolKind.names
  inputs : ∀ text ∈ s.inputsWithoutBody.fragments, IsExpression text
  sources : ∀ source ∈ s.sources, ∀ text ∈ source.expressions, IsExpression text
  loop : s.isLoop = true → s.forEach.isSome = true ∧ ∃ body, s.body = .ok body ∧ body ≠ [] ∧ (body.map (·.id)).Nodup ∧
    ∀ t ∈ body, IsStepId t.id ∧ t.id ∉ topIds

/-- A step is of a kind exactly if its tool is one of the known ones. -/
theorem Step.toolKind?_isSome {s : Step} : s.toolKind?.isSome = true ↔ s.tool ∈ ToolKind.names := by
  simp [toolKind?, ToolKind.ofName?, ToolKind.names, List.find?_isSome]

/-- A step without faults of its own names a tool and holds nothing but expressions in its fragments. -/
theorem Step.faultless_iff {s : Step} : s.Faultless ↔ s.tool ∈ ToolKind.names ∧
    (∀ text ∈ s.inputsWithoutBody.fragments, IsExpression text) ∧
      ∀ source ∈ s.sources, ∀ text ∈ source.expressions, IsExpression text := by
  have hsources : (∀ source ∈ s.sources, ∀ text ∈ source.expressions, IsExpression text) ↔
      (∀ c, s.condition = some c → (Source.ofString c).validate = .ok ()) ∧
        ∀ c, s.forEach = some c → (Source.ofString c).validate = .ok () := by
    simp [sources, Source.validate_eq_ok, or_imp, forall_and]
  rw [hsources, ← Step.toolKind?_isSome, ← Value.validate_eq_ok]
  exact ⟨fun h => ⟨h.tool, h.inputs, h.condition, h.forEach⟩, fun h => ⟨h.1, h.2.1, h.2.2.1, h.2.2.2⟩⟩

/-- The ids of a body are in order exactly if they differ, may be ids, and name no step outside. -/
theorem bodyIds_iff {topIds ids : List String} : BodyIds topIds ids ↔ ids.Nodup ∧ ∀ id ∈ ids, IsStepId id ∧ id ∉ topIds := by
  simp only [isStepId_iff]
  exact ⟨fun h => ⟨h.nodup, fun id hid => ⟨⟨h.notBlank id hid, h.notReserved id hid⟩, h.apart id hid⟩⟩,
    fun h => ⟨fun id hid => (h.2 id hid).1.1, fun id hid => (h.2 id hid).1.2, fun id hid => (h.2 id hid).2, h.1⟩⟩

/-- The plan of a step is without faults exactly when all steps within it are well formed. -/
theorem Plan.faultless_ofStep_iff {topIds : List String} (s : Step) :
    (ofStep s).Faultless topIds ↔ ∀ t : Step, t.Within s → t.WellFormed topIds := by
  induction s using ofStep.induct with
  | case1 s hs err hb =>
    rw [ofStep_broken hs hb]
    constructor
    · intro h
      cases h
    · intro h
      obtain ⟨-, body, hbody, -⟩ := (h s .self).loop hs
      rw [hb] at hbody
      cases hbody
  | case2 s hs steps hb ih =>
    rw [ofStep_loop hs hb]
    have hids : (steps.map ofStep).map (·.step.id) = steps.map (·.id) := by simp [Function.comp_def]
    constructor
    · rintro (_ | ⟨own, -, source, nonempty, ids, plans⟩) t ht
      obtain ⟨hnd, hsteps⟩ := bodyIds_iff.mp (hids ▸ ids)
      obtain ⟨htool, hinputs, hsources⟩ := Step.faultless_iff.mp own
      cases ht with
      | self => exact ⟨htool, hinputs, hsources, fun _ => ⟨source, steps, hb, by simpa using nonempty, hnd, by simpa using hsteps⟩⟩
      | @body _ u _ body _ decoded hu ht =>
        obtain rfl := Except.ok.inj (hb.symm.trans decoded)
        exact (ih u hu).mp (plans _ (List.mem_map_of_mem hu)) t ht
    · intro h
      obtain ⟨htool, hinputs, hsources, hloop⟩ := h s .self
      obtain ⟨hsource, body, hbody, hne, hnd, hsteps⟩ := hloop hs
      obtain rfl := Except.ok.inj (hb.symm.trans hbody)
      refine .loop (Step.faultless_iff.mpr ⟨htool, hinputs, hsources⟩) hs hsource (by simpa using hne) ?_ ?_
      · exact hids ▸ bodyIds_iff.mpr ⟨hnd, by simpa using hsteps⟩
      · rw [List.forall_mem_map]
        exact fun t ht => (ih t ht).mpr fun u hu => h u (.body hs hb ht hu)
  | case3 s hs =>
    have hs' : s.isLoop = false := by simpa using hs
    rw [ofStep_single hs']
    constructor
    · rintro (⟨own, -⟩ | _) t ht
      obtain ⟨htool, hinputs, hsources⟩ := Step.faultless_iff.mp own
      cases ht with
      | self => exact ⟨htool, hinputs, hsources, fun hloop => absurd hloop hs⟩
      | body hloop => exact absurd hloop hs
    · intro h
      obtain ⟨htool, hinputs, hsources, -⟩ := h s .self
      exact .single (Step.faultless_iff.mpr ⟨htool, hinputs, hsources⟩) hs'

/-! ## Definitions -/

namespace Definition

variable {d : Definition}

/-- A definition whose steps at all depths are well formed, with ids of their own, and list steps as dependencies. -/
structure WellFormed (d : Definition) : Prop where
  ids : ∀ id ∈ d.ids, IsStepId id
  nodup : d.ids.Nodup
  steps : ∀ s ∈ d.steps, ∀ t : Step, t.Within s → t.WellFormed d.ids
  dependsOn : ∀ s ∈ d.steps, ∀ name ∈ s.dependsOn, name ∈ d.ids

/-- The step with the first id depends on that with the second: it refers to it, or it lists it. -/
def DependsOn (d : Definition) (a b : String) : Prop :=
  ∃ s ∈ d.steps, s.id = a ∧ b ∈ d.ids ∧ (s.RefersTo b ∨ b ∈ s.dependsOn)

/-- No step depends on itself, not even indirectly. -/
def Acyclic (d : Definition) : Prop := ∀ id, ¬Relation.TransGen d.DependsOn id id

/-- A definition has no faults exactly if it is well formed. -/
theorem faultless_iff : d.Faultless ↔ d.WellFormed := by
  have hplans : (∀ p ∈ d.plans, p.Faultless d.ids) ↔ ∀ s ∈ d.steps, ∀ t : Step, t.Within s → t.WellFormed d.ids := by
    simp only [plans, List.forall_mem_map, Plan.faultless_ofStep_iff]
  constructor
  · intro h
    exact ⟨fun id hid => isStepId_iff.mpr ⟨h.notBlank id hid, h.notReserved id hid⟩, h.nodup, hplans.mp h.plans, h.dependsOn⟩
  · intro h
    exact ⟨fun id hid => (isStepId_iff.mp (h.ids id hid)).1, fun id hid => (isStepId_iff.mp (h.ids id hid)).2, h.nodup,
      hplans.mpr h.steps, h.dependsOn⟩

/-- The graph of a definition before its steps are ordered. -/
def unordered (d : Definition) : Graph := ⟨d.plans.map fun p => (p.step.id, dependenciesOf d.ids p), []⟩

/-- What a step of a graph depends on is what it refers to or lists. -/
theorem mem_dependencies_unordered (hnd : d.ids.Nodup) {a b : String} : b ∈ d.unordered.dependencies a ↔ d.DependsOn a b := by
  have hkeys : d.unordered.nodes.map (·.1) = d.ids := by simp [unordered, plans, ids, Function.comp_def]
  have hnode {s : Step} (hs : s ∈ d.steps) : (s.id, dependenciesOf d.ids (Plan.ofStep s)) ∈ d.unordered.nodes :=
    List.mem_map.mpr ⟨Plan.ofStep s, List.mem_map_of_mem hs, by rw [Plan.step_ofStep]⟩
  have hmem {s : Step} : b ∈ dependenciesOf d.ids (Plan.ofStep s) ↔ b ∈ d.ids ∧ (s.RefersTo b ∨ b ∈ s.dependsOn) := by
    simp [dependenciesOf, Plan.mem_references_ofStep, and_comm]
  constructor
  · intro h
    cases hfind : d.unordered.nodes.find? (·.1 == a) with
    | none => simp [Graph.dependencies, hfind] at h
    | some n =>
      obtain ⟨p, hp, rfl⟩ := List.mem_map.mp (List.mem_of_find?_eq_some hfind)
      obtain ⟨s, hs, rfl⟩ := List.mem_map.mp hp
      have hid : s.id = a := by simpa using List.find?_some hfind
      exact ⟨s, hs, hid, hmem.mp (by simpa [Graph.dependencies, hfind] using h)⟩
  · rintro ⟨s, hs, rfl, h⟩
    have hfind := find?_of_nodup (fun n : String × Names => n.1) (hkeys ▸ hnd) (hnode hs)
    simpa [Graph.dependencies, hfind] using hmem.mpr h

/-- A definition without faults gets a graph, or a cycle of it is reported, as the walk finds an order or a cycle. -/
theorem build_of_faultless (hd : d.Faultless) : Graph.build d =
    match Sort.topological d.ids d.unordered.dependencies with
    | .ok order => .ok ⟨d.unordered.nodes, order⟩
    | .error steps => .error (.cycle steps) := by
  have hkeys : d.unordered.nodes.map (·.1) = d.ids := by simp [unordered, plans, ids, Function.comp_def]
  unfold Graph.build
  rw [issues_eq_nil.mpr hd, knownIds_eq hd.notBlank]
  show (match Sort.topological (d.unordered.nodes.map (·.1)) d.unordered.dependencies with
    | .ok order => _
    | .error steps => _) = _
  rw [hkeys]
  rfl

/-- The walk finds an order of a definition without faults exactly when there is no cycle. -/
theorem topological_ok_iff (hd : d.Faultless) : (∃ order, Sort.topological d.ids d.unordered.dependencies = .ok order) ↔ d.Acyclic := by
  have hneeds : Sort.Needs d.unordered.dependencies = d.DependsOn := by
    funext a b
    exact propext (mem_dependencies_unordered hd.nodup)
  have hacyclic : Sort.Acyclic d.unordered.dependencies ↔ d.Acyclic := by
    unfold Sort.Acyclic Acyclic
    rw [hneeds]
  rw [← hacyclic]
  refine Sort.topological_ok_iff hd.nodup ?_ ?_
  · intro a _ b h
    exact ((mem_dependencies_unordered hd.nodup).mp h).choose_spec.2.2.1
  · intro a h
    obtain ⟨b, hb⟩ := List.exists_mem_of_ne_nil _ h
    obtain ⟨s, hs, rfl, -⟩ := (mem_dependencies_unordered hd.nodup).mp hb
    exact List.mem_map_of_mem hs

end Definition

/-- A definition is accepted exactly when it is well formed and acyclic. A cycle is reported exactly of those that are well formed and
not acyclic, and of those that are not well formed some issue. -/
theorem Graph.build_accepts_wellFormed_acyclic (d : Definition) :
    ((∃ g, Graph.build d = .ok g) ↔ d.WellFormed ∧ d.Acyclic) ∧
      ((∃ steps, Graph.build d = .error (.cycle steps)) ↔ d.WellFormed ∧ ¬d.Acyclic) ∧
      ((∃ issues, issues ≠ [] ∧ Graph.build d = .error (.invalid issues)) ↔ ¬d.WellFormed) := by
  by_cases hd : d.Faultless
  · have hwf := Definition.faultless_iff.mp hd
    rw [Definition.build_of_faultless hd, ← Definition.topological_ok_iff hd]
    cases Sort.topological d.ids d.unordered.dependencies with
    | ok order => simp [hwf]
    | error steps => simp [hwf]
  · have hwf : ¬d.WellFormed := mt Definition.faultless_iff.mpr hd
    have hissues : d.issues ≠ [] := mt Definition.issues_eq_nil.mp hd
    have hbuild : Graph.build d = .error (.invalid d.issues) := by
      unfold Graph.build
      split
      · rename_i hnil
        exact absurd hnil hissues
      · rfl
    rw [hbuild]
    simp [hwf, hissues]

end Runbook
