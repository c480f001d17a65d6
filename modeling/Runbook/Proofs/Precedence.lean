import Runbook.Proofs.Acceptance
import Runbook.Proofs.Scheduling

/-!
# What comes first

Before a step does anything, all that it depends on has ended, however indirectly it depends on it; and this holds of all steps in its
body, too. To list a step is to depend on it. But this is said of the steps of a definition: what the steps of a body list is not read,
so it is neither known to exist nor waited for.
-/

namespace Runbook

/-- The dependencies in the graph of a valid workflow are those of its definition. -/
theorem Workflow.Valid.mem_dependencies {w : Workflow} (hw : w.Valid) {a b : String} :
    b ∈ w.graph.dependencies a ↔ w.definition.DependsOn a b := by
  have hnodes : w.graph.dependencies a = w.definition.unordered.dependencies a := by
    unfold Graph.dependencies
    rw [hw.nodes]
    rfl
  rw [hnodes]
  exact Definition.mem_dependencies_unordered hw.faultless.nodup

namespace Machine

variable {w : Workflow} {e : Engine} {may : Policy} {inputs : Fields} {m : Machine}

/-- The first step ends before anything is done in the name of the second: before its condition is evaluated, and before it or a step
in its body, at any depth, calls a tool. -/
def EndsBefore (m : Machine) (a b : String) : Prop :=
  ∀ before x after, m.trace = before ++ x :: after → x.acting? = some b → ∃ o, Trace.ended a o ∈ before

/-- Once a step is dispatched, all that it depends on has ended: what has ended was dispatched, too. -/
theorem Sound.ended_of_dependsOn (hw : w.Valid) (h : m.Sound w e inputs) {a b : String} (ha : a ∈ m.dispatched)
    (hab : Relation.TransGen w.definition.DependsOn a b) : ∃ o, Trace.ended b o ∈ m.trace := by
  have hended : b ∈ m.endedIds := by
    induction hab with
    | single hdep => exact h.scheduled.ended_of_dependency ha (hw.mem_dependencies.mpr hdep)
    | tail _ hdep ih => exact h.scheduled.ended_of_dependency (h.scheduled.dispatched_of_ended ih) (hw.mem_dependencies.mpr hdep)
  obtain ⟨⟨_, o⟩, hmem, rfl⟩ := List.mem_map.mp hended
  exact ⟨o, mem_trace_of_mem_ended.mp hmem⟩

/-- A move keeps what comes first: whatever step acts in it was dispatched before. -/
theorem EndsBefore.move (hw : w.Valid) (hs : m.Sound w e inputs) {a b : String}
    (hab : Relation.TransGen w.definition.DependsOn a b) (h : m.EndsBefore b a) (now : Nat) (mv : Move) :
    (m.move w e now mv).1.EndsBefore b a := by
  obtain ⟨new, hnew, hacting⟩ := trace_move hw hs now mv
  intro before x after htrace hx
  have hlate (hmem : x ∈ new) (hold : m.trace <+: before) : ∃ o, Trace.ended b o ∈ before := by
    obtain ⟨o, ho⟩ := hs.ended_of_dependsOn hw (hacting x hmem a hx) hab
    exact ⟨o, hold.subset ho⟩
  rw [hnew] at htrace
  rcases List.append_eq_append_iff.mp htrace with ⟨begun, rfl, hrest⟩ | ⟨rest, hold, hrest⟩
  · exact hlate (hrest ▸ List.mem_append_right _ List.mem_cons_self) (List.prefix_append _ _)
  · cases rest with
    | nil =>
      rw [List.append_nil] at hold
      rw [List.nil_append] at hrest
      exact hlate (hrest ▸ List.mem_cons_self) (hold ▸ List.prefix_refl _)
    | cons y rest =>
      obtain ⟨rfl, -⟩ := List.cons.inj hrest
      exact h before x rest hold hx

/-- In every run, what a step depends on ends before it does anything. -/
theorem Run.endsBefore (hw : w.Valid) {now : Nat} (hrun : Run w e may (start w inputs now) m) {a b : String}
    (hab : Relation.TransGen w.definition.DependsOn a b) : m.EndsBefore b a := by
  induction hrun with
  | refl =>
    intro before x after htrace
    exact absurd htrace.symm (List.append_ne_nil_of_right_ne_nil before (List.cons_ne_nil x after))
  | move hrun now' mv _ ih => exact ih.move hw (hrun.sound hw (start_sound hw e inputs now)) hab now' mv

end Machine

/-- A step that lists two others. -/
def Step.sampleInner : Step := { Step.empty with id := "inner", tool := "http", dependsOn := ["last", "ghost"] }

/-- A loop over an input with this step as its body, which itself lists the steps that are given. -/
def Step.sampleListing (listed : List String) : Step :=
  let inner : Value := .obj [("dependsOn", .arr [.str "last", .str "ghost"]), ("id", .str "inner"), ("tool", .str "http")]
  { Step.empty with
    id := "each", tool := "loop", forEach := some "inputs.xs", inputs := .obj [("steps", .arr [inner])], dependsOn := listed }

/-- Such a loop, and one of the steps that its body lists. -/
def Definition.sampleListing (listed : List String) : Definition :=
  { Definition.empty with name := "sample", steps := [.sampleListing listed, { Step.empty with id := "last", tool := "http" }] }

/-- The plan of the sample loop has the plan of its inner step. -/
theorem Plan.ofStep_sampleListing (listed : List String) :
    ofStep (.sampleListing listed) = .loop (.sampleListing listed) [.single .sampleInner] := by
  have hbody : (Step.sampleListing listed).body = .ok [.sampleInner] := by rfl
  rw [ofStep_loop (by rfl) hbody, List.map_cons, List.map_nil, ofStep_single (by rfl)]

namespace Workflow

open Machine

/-- What a step of an accepted definition lists are steps. And however a run is driven, they end before anything is done in the name
of the step that lists them, and so does everything else that a step depends on, however indirectly. So what a step of a body lists
has ended before it is called if the step that the body belongs to depends on it. -/
theorem listed_steps_end_first {d : Definition} {w : Workflow} (hd : ofDefinition d = .ok w) (e : Engine) (inputs : Fields) (now : Nat)
    {m : Machine} (hrun : Run w e .any (start w inputs now) m) :
    (∀ s ∈ d.steps, ∀ name ∈ s.dependsOn, name ∈ d.ids ∧ m.EndsBefore name s.id) ∧
      ∀ a b, Relation.TransGen d.DependsOn a b → m.EndsBefore b a := by
  obtain ⟨rfl, hw⟩ := valid_of_definition hd
  refine ⟨?_, fun a b hab => hrun.endsBefore hw hab⟩
  intro s hs name hname
  have hid := hw.faultless.dependsOn s hs name hname
  exact ⟨hid, hrun.endsBefore hw (.single ⟨s, hs, rfl, hid, Or.inr hname⟩)⟩

/-- A loop lists the step that its body lists, and the call in its body comes after the end of that. -/
theorem listed_steps_end_first_of_loop : ∃ (w : Workflow) (m : Machine) (before after : List Trace) (c : Call),
    ofDefinition (.sampleListing ["last"]) = .ok w ∧
    Run w ⟨.default, fun _ => true⟩ .any (start w [("xs", .arr [.null])] 0) m ∧
    m.trace = before ++ .called c :: after ∧ c.path = ["each", "inner"] ∧ ∃ o, Trace.ended "last" o ∈ before := by
  let e : Engine := ⟨.default, fun _ => true⟩
  let moves : List Move := [.dispatch, .ask "last", .begin "last" none, .reply ⟨"last", none⟩ (.answer (.value .null)) none, .hear, .hear,
    .join 0, .dispatch, .ask "each", .begin "each" none]
  let last (w : Workflow) : Machine := moves.foldl (fun m mv => (m.move w e 0 mv).1) (start w [("xs", .arr [.null])] 0)
  have hcalls : ((ofDefinition (.sampleListing ["last"])).toOption.map fun w => (last w).calls.map (·.path)) =
      some [["last"], ["each", "inner"]] := by decide +kernel
  obtain ⟨w, hd, hcalls⟩ := exists_of_map_toOption hcalls
  have hrun := Machine.run_foldl w e 0 moves (start w [("xs", .arr [.null])] 0)
  obtain ⟨c, hc, hpath⟩ := List.mem_map.mp (hcalls ▸ (by simp) : ["each", "inner"] ∈ (last w).calls.map (·.path))
  obtain ⟨before, after, htrace⟩ := List.append_of_mem (mem_calls.mp hc)
  have hbefore := ((listed_steps_end_first hd e [("xs", .arr [.null])] 0 hrun).1 (.sampleListing ["last"]) List.mem_cons_self
    "last" List.mem_cons_self).2
  exact ⟨w, last w, before, after, c, hd, hrun, htrace, hpath, hbefore before _ after htrace (congrArg List.head? hpath)⟩

/-- What a step of a body lists is not read: the definition is accepted though one of these is no step, and the call of the step is made
while the other has not ended. -/
theorem listed_in_body_unread : ∃ (w : Workflow) (p : Plan) (m : Machine) (c : Call), ofDefinition (.sampleListing []) = .ok w ∧
    (Definition.sampleListing []).PlanAt ["each", "inner"] p ∧ p.step.dependsOn = ["last", "ghost"] ∧
    (Definition.sampleListing []).ids = ["each", "last"] ∧
    Run w ⟨.default, fun _ => true⟩ .any (start w [("xs", .arr [.null])] 0) m ∧
    Trace.called c ∈ m.trace ∧ c.path = ["each", "inner"] ∧ ∀ o, Trace.ended "last" o ∉ m.trace := by
  let e : Engine := ⟨.default, fun _ => true⟩
  let moves : List Move := [.dispatch, .dispatch, .ask "each", .begin "each" none]
  let last (w : Workflow) : Machine := moves.foldl (fun m mv => (m.move w e 0 mv).1) (start w [("xs", .arr [.null])] 0)
  have hend : ((ofDefinition (.sampleListing [])).toOption.map fun w => ((last w).calls.map (·.path), (last w).ended.map (·.1))) =
      some ([["each", "inner"]], []) := by decide +kernel
  obtain ⟨w, hd, hend⟩ := exists_of_map_toOption hend
  obtain ⟨hcalls, hended⟩ := Prod.mk.inj hend
  obtain ⟨c, hc, hpath⟩ := List.mem_map.mp (hcalls ▸ List.mem_singleton_self ["each", "inner"])
  have hat : (Definition.sampleListing []).PlanAt ["each", "inner"] (.single .sampleInner) := by
    refine ⟨Plan.ofStep (.sampleListing []), List.mem_cons_self, ?_⟩
    rw [Plan.ofStep_sampleListing]
    exact .body List.mem_cons_self .here
  refine ⟨w, _, last w, c, hd, hat, rfl, rfl, Machine.run_foldl w e 0 moves _, mem_calls.mp hc, hpath, ?_⟩
  intro o ho
  have hmem := List.mem_map_of_mem (f := (·.1)) (mem_trace_of_mem_ended.mpr ho)
  rw [hended] at hmem
  cases hmem

end Workflow

end Runbook
