import Runbook.Proofs.Blindness
import Runbook.Proofs.Contexts

/-!
# Dependencies cover what is read

The dependencies of a step are all that it can see of the other steps. Two contexts of a workflow that agree on the inputs, the
defaults and the records of the dependencies of a step admit it alike, and it is the same procedure in both: `dispatch` makes the
same calls with the same inputs and comes to the same outcome, however it is answered.
-/

namespace Runbook

namespace Plan

/-- What its step refers to, a plan refers to. -/
theorem own_mem_references {p : Plan} {n : String} (h : n ∈ p.step.ownReferences) : n ∈ p.references := by
  cases p with
  | single s => exact h
  | broken s err => exact h
  | loop s body => exact mem_references_loop.mpr (.inl h)

/-- What a step of a body refers to, its loop refers to, unless it is a step of the same body. -/
theorem body_mem_references {s : Step} {body : List Plan} {q : Plan} (hq : q ∈ body) {n : String} (h : n ∈ q.references)
    (hn : n ∉ body.map (·.step.id)) : n ∈ (loop s body).references :=
  mem_references_loop.mpr (.inr ⟨⟨q, hq, h⟩, hn⟩)

end Plan

namespace Engine

/-- A step is blind to every step outside of its loop that its plan does not refer to: bodies have ids of their own, so what hides
a name from the plan hides it from every step of every body. -/
theorem dispatch_blind (e : Engine) {hidden topIds : List String} {p : Plan} (hp : p.Faultless topIds)
    (hun : Unreserved hidden) (hsub : ∀ n ∈ hidden, n ∈ topIds) (href : ∀ n ∈ hidden, n ∉ p.references) (path : List String) :
    (e.dispatch path p).Blind hidden := by
  induction hp generalizing path with
  | @single s own tool =>
    have hown : ∀ n ∈ hidden, n ∉ s.ownReferences := href
    unfold dispatch
    refine Proc.Blind.bind ?_ (conclude_blind path)
    split
    · exact iterate_blind hun hown (callEach_blind hun hown tool)
    · exact callOnce_blind hun hown tool
  | @loop s body own tool source nonempty ids steps ih =>
    have hown : ∀ n ∈ hidden, n ∉ s.ownReferences := fun n hn h => href n hn (Plan.own_mem_references (p := .loop s body) h)
    have hbody : ∀ q ∈ body, ∀ n ∈ hidden, n ∉ q.references := fun q hq n hn h =>
      href n hn (Plan.body_mem_references hq h fun hmem => ids.apart n hmem (hsub n hn))
    unfold dispatch
    refine (iterate_blind hun hown fun items => runEach_blind ?_ items [] 0).bind (conclude_blind path)
    intro item index
    refine runBody_blind hun (fun q hq n hn h => hbody q hq n hn (Plan.own_mem_references h)) ?_ [] []
    intro q hq path
    exact ih q hq (hbody q hq) path

end Engine

namespace Workflow

variable {w : Workflow}

/-- The steps that a step does not depend on. -/
def unrelated (w : Workflow) (id : String) : List String := w.graph.steps.filter (!(w.graph.dependencies id).contains ·)

/-- The steps that a step has nothing to do with are those that it does not depend on. -/
theorem mem_unrelated {id n : String} : n ∈ w.unrelated id ↔ n ∈ w.graph.steps ∧ n ∉ w.graph.dependencies id := by
  simp [unrelated]

namespace Valid

variable (hw : w.Valid)

include hw

/-- The steps that a step has nothing to do with have no reserved names. -/
theorem unreserved_unrelated (id : String) : Unreserved (w.unrelated id) := fun _ hn => hw.not_reserved (mem_unrelated.mp hn).1

/-- A plan does not refer to steps that it does not depend on. -/
theorem not_mem_references {id : String} {p : Plan} (hp : w.plan? id = some p) : ∀ n ∈ w.unrelated id, n ∉ p.references := by
  intro n hn href
  obtain ⟨hstep, hdep⟩ := mem_unrelated.mp hn
  rw [hw.dependencies_eq hp] at hdep
  exact hdep (List.mem_filter.mpr ⟨Names.mem_union.mpr (Or.inl href), by simpa using hstep⟩)

/-- A step of a valid workflow is blind to every step that it does not depend on. -/
theorem dispatch_blind (e : Engine) {id : String} {p : Plan} (hp : w.plan? id = some p) (path : List String) :
    (e.dispatch path p).Blind (w.unrelated id) :=
  Engine.dispatch_blind e (hw.plan_faultless hp) (hw.unreserved_unrelated id) (fun _ hn => (mem_unrelated.mp hn).1)
    (hw.not_mem_references hp) path

/-- Whether a step of a valid workflow runs does not depend on steps that it does not depend on. -/
theorem admits_congr {id : String} {p : Plan} (hp : w.plan? id = some p) {s s' : Scope}
    (h : s.AgreeOutside (w.unrelated id) s') : p.step.admits s = p.step.admits s' :=
  Step.admits_congr h (hw.unreserved_unrelated id) fun n hn href => hw.not_mem_references hp n hn (Plan.own_mem_references href)

/-- A step executed from its condition on is blind to every step that it does not depend on. -/
theorem execute_blind (e : Engine) {id : String} {p : Plan} (hp : w.plan? id = some p) (path : List String) :
    (e.execute path p).Blind (w.unrelated id) :=
  Engine.guard_blind (hw.unreserved_unrelated id)
    (fun n hn href => hw.not_mem_references hp n hn (Plan.own_mem_references href)) (hw.dispatch_blind e hp path)

end Valid

/-- A step sees of the other steps only those that it depends on. -/
theorem dependencies_cover_reads {d : Definition} (hd : ofDefinition d = .ok w) (e : Engine) {s : Step} (hs : s ∈ d.steps)
    {c c' : Context} (hc : c.Serves w.graph.steps) (hc' : c'.Serves w.graph.steps) (hinputs : c.inputs = c'.inputs)
    (hdefaults : c.defaults = c'.defaults)
    (hrecords : ∀ dependency ∈ w.graph.dependencies s.id, c.entry? dependency = c'.entry? dependency) :
    s.admits c.scope = s.admits c'.scope ∧
      ((e.dispatch [s.id] (Plan.ofStep s)).within fun _ => c.scope) = ((e.dispatch [s.id] (Plan.ofStep s)).within fun _ => c'.scope) ∧
      ∀ ask : Call → Reply, (e.dispatch [s.id] (Plan.ofStep s)).answered ask c.scope =
        (e.dispatch [s.id] (Plan.ofStep s)).answered ask c'.scope := by
  obtain ⟨rfl, hw⟩ := valid_of_definition hd
  have hp : w.plan? s.id = some (Plan.ofStep s) := by
    simp [plan?, find?_of_nodup _ hw.faultless.nodup hs]
  have hagree : c.scope.AgreeOutside (w.unrelated s.id) c'.scope := by
    refine Context.agreeOutside hc hc' hinputs hdefaults fun id hid hun => hrecords id ?_
    by_contra hdep
    exact hun (mem_unrelated.mpr ⟨hid, hdep⟩)
  have hblind := hw.dispatch_blind e hp [s.id]
  refine ⟨?_, hblind.within_const hagree, fun ask => hblind.answered ask hagree⟩
  simpa using hw.admits_congr hp hagree

/-- The loop over the output of `list` does not see the record of `apart`: what it does is the same with and without. -/
theorem dependencies_cover_reads_of_sample : ∃ (w : Workflow) (c c' : Context), ofDefinition .sample = .ok w ∧
    c.entry? "apart" = none ∧ c'.entry? "apart" = some .null ∧ Step.sampleLoop.admits c.scope = Step.sampleLoop.admits c'.scope ∧
      ∀ ask : Call → Reply,
        (Engine.dispatch ⟨.default, fun _ => true⟩ ["each"] (Plan.ofStep .sampleLoop)).answered ask c.scope =
          (Engine.dispatch ⟨.default, fun _ => true⟩ ["each"] (Plan.ofStep .sampleLoop)).answered ask c'.scope := by
  obtain ⟨w, hw⟩ := ofDefinition_sample
  have hdeps : (ofDefinition .sample).toOption.map (·.graph.dependencies "each") = some ["list"] := by decide +kernel
  have hsteps : (ofDefinition .sample).toOption.map (·.graph.steps) = some ["list", "each", "apart"] := by decide +kernel
  simp only [hw, Except.toOption, Option.map_some, Option.some.injEq] at hdeps hsteps
  let c : Context := (Context.start [] [] w.graph.steps).close "list" (.obj [("output", .arr [.str "a"])])
  have hc : c.Serves w.graph.steps := Context.serves_close (Context.serves_start [] [] _) _ _
  have hrecords : ∀ dependency ∈ w.graph.dependencies Step.sampleLoop.id,
      c.entry? dependency = Context.entry? (c.close "apart" .null) dependency := by
    intro dependency hdep
    obtain rfl : dependency = "list" := by simpa [Step.sampleLoop, hdeps] using hdep
    exact (Context.entry_close_of_ne (by decide) _).symm
  obtain ⟨hadmits, -, hanswered⟩ := dependencies_cover_reads hw ⟨.default, fun _ => true⟩ (s := .sampleLoop)
    (by simp [Definition.sample]) hc (Context.serves_close hc _ _) (Context.inputs_close ..).symm
    (Context.defaults_close ..).symm hrecords
  refine ⟨w, c, c.close "apart" .null, hw, ?_, ?_, hadmits, hanswered⟩
  · simp only [c, hsteps]
    rfl
  · simp only [c, hsteps]
    rfl

end Workflow

end Runbook
