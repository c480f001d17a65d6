import Mathlib.Data.List.Nodup
import Runbook.Graph.Basic

/-!
# Definitions without faults

Validation finds nothing wrong with a definition exactly when it is faultless: every step names a tool and holds nothing but
expressions in its fragments, every loop has a source and a body of steps with ids of their own, at every depth, and every
dependency that is listed is a step.
-/

namespace Runbook

/-- A step that names a tool and whose inputs, condition and source hold expressions only; its body is left aside. -/
structure Step.Faultless (s : Step) : Prop where
  tool : s.toolKind?.isSome = true
  inputs : s.inputsWithoutBody.validate = .ok ()
  condition : ∀ c, s.condition = some c → (Source.ofString c).validate = .ok ()
  forEach : ∀ c, s.forEach = some c → (Source.ofString c).validate = .ok ()

/-- The ids of the steps of a body: no blank or reserved ones, none of a step outside of loops, each once. -/
structure BodyIds (topIds ids : List String) : Prop where
  notBlank : ∀ id ∈ ids, isBlankId id = false
  notReserved : ∀ id ∈ ids, isReservedId id = false
  apart : ∀ id ∈ ids, id ∉ topIds
  nodup : ids.Nodup

/-- A plan without faults at any depth. -/
inductive Plan.Faultless (topIds : List String) : Plan → Prop
  | single {s : Step} (own : s.Faultless) (tool : s.isLoop = false) : Faultless topIds (.single s)
  | loop {s : Step} {body : List Plan} (own : s.Faultless) (tool : s.isLoop = true) (source : s.forEach.isSome = true)
      (nonempty : body ≠ []) (ids : BodyIds topIds (body.map (·.step.id))) (steps : ∀ p ∈ body, Faultless topIds p) :
      Faultless topIds (.loop s body)

/-- The step of a plan without faults has none. -/
theorem Plan.Faultless.step {topIds : List String} {p : Plan} (h : p.Faultless topIds) : p.step.Faultless := by
  cases h with
  | single own _ => exact own
  | loop own _ _ _ _ _ => exact own

/-- An expression is no issue exactly if it is valid. -/
theorem expressionIssues_eq_nil {label : String} {field : StepField} {r : Except ExprError Unit} :
    (match r with
      | .error e => [Issue.expression label field e]
      | .ok () => []) = [] ↔ r = .ok () := by
  cases r <;> simp

/-- A field is no issue exactly if it is missing or valid. -/
theorem fieldIssues_eq_nil {label : String} {field : StepField} {o : Option String} :
    (o.toList.flatMap fun c => match (Source.ofString c).validate with
      | .error e => [Issue.expression label field e]
      | .ok () => []) = [] ↔ ∀ c, o = some c → (Source.ofString c).validate = .ok () := by
  cases o <;> simp [expressionIssues_eq_nil]

/-- A step has no issue of its own exactly if it has no fault. -/
theorem Step.ownIssues_eq_nil {s : Step} {label : String} : s.ownIssues label = [] ↔ s.Faultless := by
  have htool : (if s.toolKind?.isNone then [Issue.unknownTool label s.tool (Text.closest? s.tool ToolKind.names)] else []) = []
      ↔ s.toolKind?.isSome = true := by
    cases s.toolKind? <;> simp
  simp only [Step.ownIssues, List.append_eq_nil_iff, htool]
  constructor
  · rintro ⟨⟨⟨htool, hinputs⟩, hcondition⟩, hforEach⟩
    exact ⟨htool, expressionIssues_eq_nil.mp hinputs, fieldIssues_eq_nil.mp hcondition, fieldIssues_eq_nil.mp hforEach⟩
  · rintro ⟨htool, hinputs, hcondition, hforEach⟩
    exact ⟨⟨⟨htool, expressionIssues_eq_nil.mpr hinputs⟩, fieldIssues_eq_nil.mpr hcondition⟩, fieldIssues_eq_nil.mpr hforEach⟩

/-- The source of a loop is no issue exactly if it is there. -/
theorem Step.sourceIssues_eq_nil {s : Step} {label : String} : s.sourceIssues label = [] ↔ s.forEach.isSome = true := by
  unfold Step.sourceIssues
  cases s.forEach <;> simp

/-- The id of a body step is no issue exactly if it is not reserved, not that of a step outside and new. -/
theorem bodyIdIssues_eq_nil {topIds seen : List String} {id : String} :
    bodyIdIssues topIds seen id = [] ↔ isReservedId id = false ∧ id ∉ topIds ∧ id ∉ seen := by
  unfold bodyIdIssues
  cases isReservedId id <;> simp

namespace Plan

/-- Nothing is wrong with a body when nothing is wrong with its steps and their ids are new, each once. -/
theorem bodyIssues_eq_nil {topIds : List String} {label : String} {position : Nat} {seen : List String} {ps : List Plan} :
    bodyIssues topIds label position seen ps = [] ↔
      BodyIds topIds (ps.map (·.step.id)) ∧ (∀ id ∈ ps.map (·.step.id), id ∉ seen) ∧
        ∀ p ∈ ps, p.issues topIds s!"{label}.{p.step.id}" = [] := by
  induction ps generalizing position seen with
  | nil => simp [bodyIssues, BodyIds.mk]
  | cons p ps ih =>
    unfold bodyIssues
    by_cases hb : isBlankId p.step.id = true
    · simp only [hb, if_true, reduceCtorEq, false_iff]
      rintro ⟨hids, -⟩
      simp [hids.notBlank p.step.id (by simp)] at hb
    · simp only [hb, if_false, List.append_eq_nil_iff, List.map_eq_nil_iff, bodyIdIssues_eq_nil, ih, Bool.false_eq_true]
      constructor
      · rintro ⟨⟨hres, htop, hseen⟩, hown, hids, hnew, hps⟩
        refine ⟨⟨?_, ?_, ?_, ?_⟩, ?_, ?_⟩
        · simpa [List.forall_mem_cons] using ⟨by simpa using hb, by simpa using hids.notBlank⟩
        · simpa [List.forall_mem_cons] using ⟨hres, by simpa using hids.notReserved⟩
        · simpa [List.forall_mem_cons] using ⟨htop, by simpa using hids.apart⟩
        · exact List.nodup_cons.mpr ⟨fun hmem => hnew _ hmem (by simp), hids.nodup⟩
        · rw [List.map_cons, List.forall_mem_cons]
          exact ⟨hseen, fun id hid h => hnew id hid (by simp [h])⟩
        · rw [List.forall_mem_cons]
          exact ⟨hown, hps⟩
      · rintro ⟨hids, hnew, hps⟩
        rw [List.map_cons, List.forall_mem_cons] at hnew
        rw [List.forall_mem_cons] at hps
        have hnd := List.nodup_cons.mp hids.nodup
        refine ⟨⟨hids.notReserved _ (by simp), hids.apart _ (by simp), hnew.1⟩, hps.1, ⟨?_, ?_, ?_, hnd.2⟩, ?_, hps.2⟩
        · exact fun id hid => hids.notBlank id (by simp at hid ⊢; exact Or.inr hid)
        · exact fun id hid => hids.notReserved id (by simp at hid ⊢; exact Or.inr hid)
        · exact fun id hid => hids.apart id (by simp at hid ⊢; exact Or.inr hid)
        · intro id hid hmem
          rcases List.mem_cons.mp hmem with rfl | hmem
          · exact hnd.1 hid
          · exact hnew.2 id hid hmem

/-- Validation finds nothing wrong with the plan of a step exactly when it has no faults. -/
theorem issues_ofStep_eq_nil {topIds : List String} (s : Step) (label : String) :
    (ofStep s).issues topIds label = [] ↔ (ofStep s).Faultless topIds := by
  induction s using ofStep.induct generalizing label with
  | case1 s hs e hb =>
    rw [ofStep_broken hs hb]
    simp only [issues, List.append_eq_nil_iff, reduceCtorEq, and_false, false_iff]
    exact fun h => nomatch h
  | case2 s hs steps hb ih =>
    rw [ofStep_loop hs hb]
    have hbody (label : String) : (∀ p ∈ steps.map ofStep, p.issues topIds s!"{label}.{p.step.id}" = [])
        ↔ ∀ p ∈ steps.map ofStep, p.Faultless topIds := by
      simp only [List.forall_mem_map]
      exact forall₂_congr fun t ht => ih t ht _
    simp only [issues, List.append_eq_nil_iff, Step.ownIssues_eq_nil, Step.sourceIssues_eq_nil]
    by_cases hne : (steps.map ofStep).isEmpty = true
    · simp only [hne, if_true, reduceCtorEq, and_false, false_iff]
      rintro (_ | ⟨_, _, _, hne', _, _⟩)
      exact hne' (by simpa using hne)
    · rw [if_neg hne, bodyIssues_eq_nil, hbody]
      constructor
      · rintro ⟨⟨hown, hsrc⟩, hids, -, hsteps⟩
        exact .loop hown hs hsrc (by simpa using hne) hids hsteps
      · rintro (_ | ⟨hown, _, hsrc, _, hids, hsteps⟩)
        exact ⟨⟨hown, hsrc⟩, hids, by simp, hsteps⟩
  | case3 s hs =>
    have hs' : s.isLoop = false := by simpa using hs
    rw [ofStep_single hs']
    simp only [issues, Step.ownIssues_eq_nil]
    exact ⟨fun h => .single h hs', fun h => by cases h; assumption⟩

end Plan

namespace Definition

/-- A definition without faults, cycles aside. -/
structure Faultless (d : Definition) : Prop where
  notBlank : ∀ id ∈ d.ids, isBlankId id = false
  notReserved : ∀ id ∈ d.ids, isReservedId id = false
  nodup : d.ids.Nodup
  plans : ∀ p ∈ d.plans, p.Faultless d.ids
  dependsOn : ∀ s ∈ d.steps, ∀ name ∈ s.dependsOn, name ∈ d.ids

/-- The ids of steps are no issue exactly if they differ and none of them is blank, reserved or seen before. -/
theorem idIssues_eq_nil {position : Nat} {seen : List String} {steps : List Step} :
    idIssues position seen steps = [] ↔
      (∀ id ∈ steps.map (·.id), isBlankId id = false ∧ isReservedId id = false ∧ id ∉ seen) ∧ (steps.map (·.id)).Nodup := by
  induction steps generalizing position seen with
  | nil => simp [idIssues]
  | cons s rest ih =>
    unfold idIssues
    rw [List.map_cons, List.forall_mem_cons, List.nodup_cons]
    cases hb : isBlankId s.id with
    | true => simp
    | false =>
      simp only [Bool.false_eq_true, if_false, List.append_eq_nil_iff, ih, true_and]
      constructor
      · rintro ⟨⟨hres, hseen⟩, hrest, hnd⟩
        refine ⟨⟨⟨by simpa using hres, by simpa using hseen⟩, ?_⟩, ?_, hnd⟩
        · intro id hid
          obtain ⟨h1, h2, h3⟩ := hrest id hid
          exact ⟨h1, h2, fun h => h3 (by simp [h])⟩
        · intro hmem
          exact (hrest s.id hmem).2.2 (by simp)
      · rintro ⟨⟨⟨hres, hseen⟩, hrest⟩, hnew, hnd⟩
        refine ⟨⟨by simpa using hres, by simpa using hseen⟩, ?_, hnd⟩
        intro id hid
        obtain ⟨h1, h2, h3⟩ := hrest id hid
        refine ⟨h1, h2, ?_⟩
        intro h
        rcases List.mem_cons.mp h with rfl | h
        · exact hnew hid
        · exact h3 h

/-- A step has no unknown dependency exactly if it names known steps only. -/
theorem unknownDependencies_eq_nil {known : List String} {s : Step} :
    unknownDependencies known s = [] ↔ ∀ name ∈ s.dependsOn, name ∈ known := by
  simp [unknownDependencies, List.filter_eq_nil_iff]

/-- When no id is blank, every id is known. -/
theorem knownIds_eq {d : Definition} (h : ∀ id ∈ d.ids, isBlankId id = false) : d.knownIds = d.ids :=
  List.filter_eq_self.mpr fun id hid => by simp [h id hid]

/-- The step of a plan of a definition is one of its steps. -/
theorem step_mem_of_mem_plans {d : Definition} {p : Plan} (h : p ∈ d.plans) : p.step ∈ d.steps := by
  obtain ⟨s, hs, rfl⟩ := List.mem_map.mp h
  rwa [Plan.step_ofStep]

/-- The id of a plan of a definition is one of its ids. -/
theorem id_mem_of_mem_plans {d : Definition} {p : Plan} (h : p ∈ d.plans) : p.step.id ∈ d.ids :=
  List.mem_map_of_mem (step_mem_of_mem_plans h)

/-- Validation finds nothing wrong with a definition exactly when it has no faults. -/
theorem issues_eq_nil {d : Definition} : d.issues = [] ↔ d.Faultless := by
  have hplans (known : List String) (hb : ∀ id ∈ d.ids, isBlankId id = false) :
      (d.plans.filter (!isBlankId ·.step.id)).flatMap (fun p => p.issues known p.step.id) = []
        ↔ ∀ p ∈ d.plans, p.Faultless known := by
    rw [List.filter_eq_self.mpr fun p hp => by simp [hb _ (id_mem_of_mem_plans hp)], List.flatMap_eq_nil_iff]
    simp only [plans, List.forall_mem_map, Plan.issues_ofStep_eq_nil]
  simp only [issues, List.append_eq_nil_iff, idIssues_eq_nil]
  constructor
  · rintro ⟨⟨⟨hids, hnd⟩, hps⟩, hdeps⟩
    have hb : ∀ id ∈ d.ids, isBlankId id = false := fun id hid => (hids id hid).1
    rw [knownIds_eq hb] at hps hdeps
    refine ⟨hb, fun id hid => (hids id hid).2.1, hnd, (hplans _ hb).mp hps, ?_⟩
    intro s hs
    exact unknownDependencies_eq_nil.mp (List.flatMap_eq_nil_iff.mp hdeps s hs)
  · rintro ⟨hb, hres, hnd, hps, hdeps⟩
    rw [knownIds_eq hb]
    refine ⟨⟨⟨fun id hid => ⟨hb id hid, hres id hid, by simp⟩, hnd⟩, (hplans _ hb).mpr hps⟩, ?_⟩
    exact List.flatMap_eq_nil_iff.mpr fun s hs => unknownDependencies_eq_nil.mpr (hdeps s hs)

end Definition

end Runbook
