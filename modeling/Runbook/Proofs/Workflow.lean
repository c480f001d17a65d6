import Runbook.Engine.Machine
import Runbook.Proofs.Order
import Runbook.Proofs.Tables
import Runbook.Proofs.Validity

/-!
# Valid workflows

What a workflow is once its definition has been accepted: every step has one plan, its dependencies are steps, dependents are the
other view of dependencies, and the order of execution puts every step behind what it depends on.
-/

namespace Runbook

namespace Workflow

/-- What validation promises of a workflow. -/
structure Valid (w : Workflow) : Prop where
  faultless : w.definition.Faultless
  nodes : w.graph.nodes = w.definition.plans.map fun p => (p.step.id, Definition.dependenciesOf w.definition.ids p)
  order : w.graph.order.Perm w.definition.ids
  depsFirst : Sort.DepsFirst w.graph.dependencies w.graph.order

variable {w : Workflow}

/-- The plan of a step is one of the definition, and has the id of the step. -/
theorem plan?_some {id : String} {p : Plan} (h : w.plan? id = some p) : p ∈ w.definition.plans ∧ p.step.id = id := by
  obtain ⟨s, hs, rfl⟩ := Option.map_eq_some_iff.mp h
  refine ⟨List.mem_map_of_mem (List.mem_of_find?_eq_some hs), ?_⟩
  rw [Plan.step_ofStep]
  simpa using List.find?_some hs

/-- Steps are the same ones when they are put in order. -/
theorem mem_inOrder {ids : List String} {id : String} : id ∈ w.inOrder ids ↔ id ∈ w.graph.order ∧ id ∈ ids := by
  simp [inOrder]

namespace Valid

variable (hw : w.Valid)

include hw

/-- The steps of the graph are those of the definition. -/
theorem steps_eq : w.graph.steps = w.definition.ids := by
  simp [Graph.steps, hw.nodes, Definition.ids, Definition.plans, Function.comp_def]

theorem nodup_steps : w.graph.steps.Nodup := hw.steps_eq ▸ hw.faultless.nodup

/-- The order has the steps of the workflow, and no other. -/
theorem mem_order {id : String} : id ∈ w.graph.order ↔ id ∈ w.graph.steps := hw.steps_eq ▸ hw.order.mem_iff

theorem nodup_order : w.graph.order.Nodup := hw.order.nodup_iff.mpr hw.faultless.nodup

/-- Every step has its plan. -/
theorem plan?_of_mem {id : String} (h : id ∈ w.graph.steps) : ∃ p, w.plan? id = some p := by
  rw [hw.steps_eq] at h
  obtain ⟨s, hs, rfl⟩ := List.mem_map.mp h
  exact ⟨Plan.ofStep s, by simp [plan?, find?_of_nodup _ hw.faultless.nodup hs]⟩

/-- What has a plan is a step. -/
theorem mem_steps_of_plan? {id : String} {p : Plan} (h : w.plan? id = some p) : id ∈ w.graph.steps := by
  obtain ⟨hp, rfl⟩ := plan?_some h
  exact hw.steps_eq ▸ Definition.id_mem_of_mem_plans hp

/-- The plans of a valid workflow have no faults. -/
theorem plan_faultless {id : String} {p : Plan} (h : w.plan? id = some p) : p.Faultless w.graph.steps :=
  hw.steps_eq ▸ hw.faultless.plans p (plan?_some h).1

/-- The dependencies of a step are those of its node. -/
theorem dependencies_of_node {n : String × Names} (h : n ∈ w.graph.nodes) : w.graph.dependencies n.1 = n.2 := by
  have hfind := find?_of_nodup (fun n : String × Names => n.1) hw.nodup_steps h
  simp [Graph.dependencies, hfind]

/-- The dependencies of a step are those of its plan. -/
theorem dependencies_eq {id : String} {p : Plan} (h : w.plan? id = some p) :
    w.graph.dependencies id = Definition.dependenciesOf w.graph.steps p := by
  obtain ⟨hp, rfl⟩ := plan?_some h
  have hmem : (p.step.id, Definition.dependenciesOf w.definition.ids p) ∈ w.graph.nodes := by
    rw [hw.nodes]
    exact List.mem_map_of_mem hp
  rw [hw.steps_eq]
  exact hw.dependencies_of_node hmem

omit hw in
/-- What is no step has no dependencies. -/
theorem dependencies_of_not_mem {id : String} (h : id ∉ w.graph.steps) : w.graph.dependencies id = [] := by
  have hfind : w.graph.nodes.find? (·.1 == id) = none := by
    rw [List.find?_eq_none]
    intro n hn hid
    obtain rfl : n.1 = id := by simpa using hid
    exact h (List.mem_map_of_mem hn)
  simp [Graph.dependencies, hfind]

/-- What a step depends on are steps. -/
theorem mem_steps_of_dependency {id d : String} (h : d ∈ w.graph.dependencies id) : d ∈ w.graph.steps := by
  by_cases hid : id ∈ w.graph.steps
  · obtain ⟨p, hp⟩ := hw.plan?_of_mem hid
    rw [hw.dependencies_eq hp] at h
    simpa using (List.mem_filter.mp h).2
  · rw [dependencies_of_not_mem hid] at h
    simp at h

/-- The dependencies of a step are sorted. -/
theorem sorted_dependencies (id : String) : Names.Sorted (w.graph.dependencies id) := by
  by_cases hid : id ∈ w.graph.steps
  · obtain ⟨p, hp⟩ := hw.plan?_of_mem hid
    rw [hw.dependencies_eq hp]
    exact ((Names.sorted_ofList _).union _).filter _
  · rw [dependencies_of_not_mem hid]
    exact List.Pairwise.nil

/-- The steps that wait for a step are those that depend on it. -/
theorem mem_dependents {a b : String} :
    b ∈ w.graph.dependents a ↔ b ∈ w.graph.steps ∧ a ∈ w.graph.dependencies b := by
  simp only [Graph.dependents, Names.mem_ofList, List.mem_map, List.mem_filter, List.contains_iff_mem]
  constructor
  · rintro ⟨n, ⟨hn, ha⟩, rfl⟩
    exact ⟨List.mem_map_of_mem hn, by rwa [hw.dependencies_of_node hn]⟩
  · rintro ⟨hb, ha⟩
    obtain ⟨n, hn, rfl⟩ := List.mem_map.mp hb
    exact ⟨n, ⟨hn, by rwa [hw.dependencies_of_node hn] at ha⟩, rfl⟩

omit hw in
/-- The dependents of a step are sorted. -/
theorem sorted_dependents (id : String) : Names.Sorted (w.graph.dependents id) := Names.sorted_ofList _

/-- The steps that the machine starts with are those that depend on nothing. -/
theorem mem_roots {id : String} : id ∈ w.graph.roots ↔ id ∈ w.graph.steps ∧ w.graph.dependencies id = [] := by
  simp only [Graph.roots, List.mem_map, List.mem_filter, List.isEmpty_iff]
  constructor
  · rintro ⟨n, ⟨hn, hempty⟩, rfl⟩
    exact ⟨List.mem_map_of_mem hn, by rwa [hw.dependencies_of_node hn]⟩
  · rintro ⟨hid, hempty⟩
    obtain ⟨n, hn, rfl⟩ := List.mem_map.mp hid
    exact ⟨n, ⟨hn, by rwa [hw.dependencies_of_node hn] at hempty⟩, rfl⟩

/-- The ids of steps are no reserved names. -/
theorem not_reserved {id : String} (h : id ∈ w.graph.steps) : id ∉ reservedNames ∧ id ∉ Expr.literalNames := by
  have := hw.faultless.notReserved id (hw.steps_eq ▸ h)
  simpa [isReservedId] using this

end Valid

/-- A workflow that a definition makes is made of it without error. -/
theorem ofDefinition_of_toOption {d : Definition} (h : (ofDefinition d).toOption = some w) : ofDefinition d = .ok w := by
  cases hd : ofDefinition d with
  | error err => rw [hd] at h; cases h
  | ok w' => rw [hd] at h; exact congrArg Except.ok (Option.some.inj h)

/-- What a computation that is evaluated comes to is what its result comes to. -/
theorem exists_of_map_toOption {x : Except ε β} {f : β → α} {a : α} (h : x.toOption.map f = some a) : ∃ b, x = .ok b ∧ f b = a := by
  cases x with
  | error err => cases h
  | ok b => exact ⟨b, rfl, Option.some.inj h⟩

/-- Validation accepts only valid workflows. -/
theorem valid_of_definition {d : Definition} (h : ofDefinition d = .ok w) : w.definition = d ∧ w.Valid := by
  unfold ofDefinition Graph.build at h
  split at h
  · rename_i hissues
    have hd := Definition.issues_eq_nil.mp hissues
    rw [Definition.knownIds_eq hd.notBlank] at h
    have hids : (d.plans.map fun p => (p.step.id, Definition.dependenciesOf d.ids p)).map (·.1) = d.ids := by
      simp [Definition.ids, Definition.plans, Function.comp_def]
    simp only [hids] at h
    split at h
    · rename_i order horder
      obtain rfl : (⟨d, ⟨_, order⟩⟩ : Workflow) = w := by simpa [Functor.map, Except.map] using h
      have hdeps : ∀ x ∈ d.ids, ∀ y ∈ Graph.dependencies ⟨d.plans.map fun p => (p.step.id, Definition.dependenciesOf d.ids p), []⟩ x,
          y ∈ d.ids := by
        intro x _ y hy
        simp only [Graph.dependencies] at hy
        cases hf : (d.plans.map fun p => (p.step.id, Definition.dependenciesOf d.ids p)).find? (·.1 == x) with
        | none => simp [hf] at hy
        | some n =>
          obtain ⟨p, -, rfl⟩ := List.mem_map.mp (List.mem_of_find?_eq_some hf)
          simp only [hf, Option.map_some, Option.getD_some] at hy
          simpa using (List.mem_filter.mp hy).2
      obtain ⟨hperm, hfirst⟩ := Sort.topological_ok hd.nodup hdeps horder
      exact ⟨rfl, hd, rfl, hperm, hfirst⟩
    · simp [Functor.map, Except.map] at h
  · simp [Functor.map, Except.map] at h

end Workflow

/-! ## A small definition -/

/-- A loop that fetches every item of the output of the step `list`. -/
def Step.sampleLoop : Step :=
  let fetch : Value :=
    .obj [("id", .str "fetch"), ("inputs", .obj [("url", .str "\x7b\x7b item \x7d\x7d")]), ("tool", .str "http")]
  { Step.empty with id := "each", tool := "loop", forEach := some "list.output", inputs := .obj [("steps", .arr [fetch])] }

/-- A step, a loop over its output, and a step beside them. -/
def Definition.sample : Definition :=
  let fetch (id : String) : Step := { Step.empty with id, tool := "http" }
  { Definition.empty with name := "sample", steps := [fetch "list", .sampleLoop, fetch "apart"] }

/-- The sample definition makes a workflow. -/
theorem Workflow.ofDefinition_sample : ∃ w, ofDefinition .sample = .ok w := by
  have hok : (ofDefinition .sample).isOk = true := by decide +kernel
  cases h : ofDefinition .sample with
  | error err => rw [h] at hok; cases hok
  | ok w => exact ⟨w, rfl⟩

end Runbook
