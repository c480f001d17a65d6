import Runbook.Proofs.Precedence

/-!
# The views of a graph

The steps, their order, the dependencies and dependents of each, the edges and the roots all tell of one relation: which step depends on
which. It is the one that the definition spells out, and it has no cycles.
-/

namespace Runbook

/-- The first stands before the second. -/
def Before (order : List α) (x y : α) : Prop := [x, y].Sublist order

instance [DecidableEq α] (order : List α) (x y : α) : Decidable (Before order x y) := inferInstanceAs (Decidable ([x, y].Sublist order))

/-- What is in the part of an order before something is before it. -/
theorem before_of_split {order before after : List α} {x y : α} (h : order = before ++ y :: after) (hx : x ∈ before) :
    Before order x y := by
  rw [h, Before, show [x, y] = [x] ++ [y] from rfl]
  exact (List.singleton_sublist.mpr hx).append (List.singleton_sublist.mpr List.mem_cons_self)

/-- Of a list, any earlier item stands before any later one. -/
theorem pairwise_before (order : List α) : order.Pairwise (Before order) := List.pairwise_iff_forall_sublist.mpr id

/-- In an order everything stands behind what it depends on. -/
theorem Sort.DepsFirst.before {deps : String → List String} {order : List String} (h : Sort.DepsFirst deps order) {a b : String}
    (ha : a ∈ order) (hb : b ∈ deps a) : Before order b a := by
  obtain ⟨before, after, hsplit⟩ := List.append_of_mem ha
  exact before_of_split hsplit (h before a after hsplit b hb)

namespace Graph

/-- What a graph shows of steps of which each needs others. -/
structure Views (g : Graph) (ids : List String) (needs : String → String → Prop) : Prop where
  steps : g.steps = ids
  order : g.order.Perm ids
  neededFirst : ∀ a b, needs a b → Before g.order b a
  dependencies : ∀ a b, b ∈ g.dependencies a ↔ needs a b
  dependents : ∀ a b, a ∈ g.dependents b ↔ needs a b
  edges : ∀ a b, (b, a) ∈ g.edges ↔ needs a b
  nodup_edges : g.edges.Nodup
  edgesInOrder : g.edges.Pairwise fun e f => e.2 = f.2 ∨ Before g.order e.2 f.2
  roots : ∀ a, a ∈ g.roots ↔ a ∈ ids ∧ ∀ b, ¬needs a b
  rootsAsWritten : g.roots.Sublist ids

end Graph

namespace Workflow.Valid

variable {w : Workflow}

/-- The edges end where something depends on something else, with each end once for each dependency. -/
theorem mem_edges (hw : w.Valid) {a b : String} : (b, a) ∈ w.graph.edges ↔ b ∈ w.graph.dependencies a := by
  simp only [Graph.edges, List.mem_flatMap, List.mem_map, Prod.mk.injEq]
  constructor
  · rintro ⟨id, -, dep, hdep, rfl, rfl⟩
    exact hdep
  · intro h
    have ha : a ∈ w.graph.steps := by
      by_contra ha
      rw [dependencies_of_not_mem ha] at h
      cases h
    exact ⟨a, hw.mem_order.mpr ha, b, h, rfl, rfl⟩

theorem nodup_edges (hw : w.Valid) : w.graph.edges.Nodup := by
  refine List.pairwise_flatMap.mpr ⟨?_, ?_⟩
  · intro id _
    exact (hw.sorted_dependencies id).nodup.map fun _ _ h => congrArg Prod.fst h
  · refine hw.nodup_order.imp ?_
    intro a b hne e he f hf heq
    obtain ⟨_, -, rfl⟩ := List.mem_map.mp he
    obtain ⟨_, -, rfl⟩ := List.mem_map.mp hf
    exact hne (congrArg Prod.snd heq)

/-- The edges into a step stand together, where the step stands in the order. -/
theorem edges_inOrder (w : Workflow) : w.graph.edges.Pairwise fun e f => e.2 = f.2 ∨ Before w.graph.order e.2 f.2 := by
  refine List.pairwise_flatMap.mpr ⟨?_, ?_⟩
  · intro id _
    exact List.pairwise_map.mpr (List.pairwise_of_forall fun _ _ => Or.inl rfl)
  · refine (pairwise_before w.graph.order).imp ?_
    intro a b hbefore e he f hf
    obtain ⟨_, -, rfl⟩ := List.mem_map.mp he
    obtain ⟨_, -, rfl⟩ := List.mem_map.mp hf
    exact Or.inr hbefore

end Workflow.Valid

namespace Graph

/-- An accepted definition and its graph are a valid workflow. -/
theorem valid_of_build {d : Definition} {g : Graph} (h : Graph.build d = .ok g) : Workflow.Valid ⟨d, g⟩ :=
  (Workflow.valid_of_definition (w := ⟨d, g⟩) (by rw [Workflow.ofDefinition, h]; rfl)).2

/-- The order of the graph of an accepted definition is what the walk finds. -/
theorem topological_of_build {d : Definition} {g : Graph} (h : Graph.build d = .ok g) :
    Sort.topological d.ids d.unordered.dependencies = .ok g.order ∧ g.dependencies = d.unordered.dependencies := by
  rw [Definition.build_of_faultless (d := d) (valid_of_build h).faultless] at h
  cases horder : Sort.topological d.ids d.unordered.dependencies with
  | error steps =>
    rw [horder] at h
    cases h
  | ok order =>
    rw [horder] at h
    obtain rfl := Except.ok.inj h
    exact ⟨rfl, rfl⟩

/-- What a step needs in the graph of an accepted definition is what it depends on. -/
theorem needs_dependencies {d : Definition} {g : Graph} (h : Graph.build d = .ok g) : Sort.Needs g.dependencies = d.DependsOn := by
  funext a b
  exact propext (valid_of_build h).mem_dependencies

/-- A definition that is accepted has no cycle. -/
theorem acyclic_of_build {d : Definition} {g : Graph} (h : Graph.build d = .ok g) : d.Acyclic :=
  (Definition.topological_ok_iff (d := d) (valid_of_build h).faultless).mp ⟨g.order, (topological_of_build h).1⟩

/-- The graph of an accepted definition shows what its steps depend on, in all of its views: the order puts every step once, behind
all that it depends on; dependents are dependencies seen from the other side; the edges are the pairs of the two, each once, in the
order of the dependents; the roots are the steps that depend on nothing, as they are written. And nothing depends on itself. -/
theorem views_of_build {d : Definition} {g : Graph} (h : Graph.build d = .ok g) : g.Views d.ids d.DependsOn ∧ d.ids.Nodup ∧ d.Acyclic := by
  have hw := valid_of_build h
  have hneeds {a b : String} : b ∈ g.dependencies a ↔ d.DependsOn a b := hw.mem_dependencies
  have hstep {a b : String} (hab : d.DependsOn a b) : a ∈ g.steps := by
    obtain ⟨s, hs, rfl, -⟩ := hab
    exact hw.steps_eq ▸ List.mem_map_of_mem hs
  refine ⟨⟨hw.steps_eq, hw.order, ?_, fun _ _ => hneeds, ?_, ?_, hw.nodup_edges, Workflow.Valid.edges_inOrder ⟨d, g⟩, ?_, ?_⟩,
    hw.faultless.nodup, acyclic_of_build h⟩
  · intro a b hab
    exact hw.depsFirst.before (hw.mem_order.mpr (hstep hab)) (hneeds.mpr hab)
  · intro a b
    exact hw.mem_dependents.trans ⟨fun h => hneeds.mp h.2, fun hab => ⟨hstep hab, hneeds.mpr hab⟩⟩
  · exact fun _ _ => hw.mem_edges.trans hneeds
  · intro a
    rw [hw.mem_roots, List.eq_nil_iff_forall_not_mem]
    exact and_congr (hw.steps_eq ▸ Iff.rfl) (forall_congr' fun b => not_congr hneeds)
  · rw [← hw.steps_eq]
    exact List.filter_sublist.map _

/-- A step, a loop over its output, and a step beside them, in all views. -/
theorem views_of_build_of_sample : ∃ g, Graph.build .sample = .ok g ∧ g.order = ["list", "each", "apart"] ∧
    g.edges = [("list", "each")] ∧ g.roots = ["list", "apart"] ∧ g.Views Definition.sample.ids Definition.sample.DependsOn := by
  have hviews : (Graph.build .sample).toOption.map (fun g => (g.order, g.edges, g.roots)) =
      some (["list", "each", "apart"], [("list", "each")], ["list", "apart"]) := by decide +kernel
  obtain ⟨g, hg, heq⟩ := Workflow.exists_of_map_toOption hviews
  obtain ⟨horder, hrest⟩ := Prod.mk.inj heq
  obtain ⟨hedges, hroots⟩ := Prod.mk.inj hrest
  exact ⟨g, hg, horder, hedges, hroots, (views_of_build hg).1⟩

end Graph

end Runbook
