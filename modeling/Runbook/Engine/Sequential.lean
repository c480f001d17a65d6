import Runbook.Engine.Machine

/-!
# Runs one step at a time

What a step does when its calls are made one after the other and each is answered at once, and what a workflow does when its steps
are executed so, in the order of execution. The answers are a function of the calls, so such a run is a function of the workflow and
its inputs. It says what a run with the same answers comes to, however its steps and calls overlap.
-/

namespace Runbook

/-- What a procedure came to, with the calls and notes that it made. -/
structure Performed (α : Type) where
  result : α
  calls : List Call
  notes : List Note

namespace Performed

/-- What was done before, and then this. -/
def after (calls : List Call) (notes : List Note) (p : Performed α) : Performed α :=
  ⟨p.result, calls ++ p.calls, notes ++ p.notes⟩

@[simp] theorem after_nil (p : Performed α) : p.after [] [] = p := rfl

/-- What was done before what was done before comes first. -/
@[simp] theorem after_after (calls calls' : List Call) (notes notes' : List Note) (p : Performed α) :
    (p.after calls' notes').after calls notes = p.after (calls ++ calls') (notes ++ notes') := by
  simp [after]

end Performed

namespace Slot

/-- The result of a slot whose call, if it is in flight, is answered now. -/
def answered (ask : Call → Reply) : Slot → Except StepError Value
  | refused e => .error e
  | flying c => c.result (ask c)
  | finished r => r

end Slot

namespace Gathering

/-- The calls that the jobs still to be made will make; those that cannot be made make none. -/
def callsToMake (scope : Scope) (g : Gathering) : List Call := g.jobs.filterMap fun job => (job scope).toOption

/-- The results of all jobs, each call answered at once. -/
def answered (ask : Call → Reply) (scope : Scope) (g : Gathering) : List (Except StepError Value) :=
  g.begun.map (Slot.answered ask) ++ g.jobs.map fun job => (job scope).bind fun c => c.result (ask c)

end Gathering

namespace Proc

/-- Runs a procedure to its end in a run that is not cancelled, each call answered at once. -/
def answered (ask : Call → Reply) (scope : Scope) : Proc α → Performed α
  | done a => ⟨a, [], []⟩
  | read next => answered ask scope (next scope)
  | poll next => answered ask scope (next false)
  | note n next => (answered ask scope next).after [] [n]
  | call c next => (answered ask scope (next (ask c))).after [c] []
  | gather g next => (answered ask scope (next ⟨g.answered ask scope, g.stopped⟩)).after (g.callsToMake scope) []

/-- A procedure that goes on with the result of another does what that one does, and then the rest. -/
theorem answered_bind (ask : Call → Reply) (scope : Scope) (p : Proc α) (f : α → Proc β) :
    (p.bind f).answered ask scope =
      ((f (p.answered ask scope).result).answered ask scope).after (p.answered ask scope).calls (p.answered ask scope).notes := by
  induction p with
  | done a => simp [bind, answered]
  | read next ih => simpa [bind, answered] using ih scope
  | poll next ih => simpa [bind, answered] using ih false
  | note n next ih => simp [bind, answered, ih, Performed.after]
  | call c next ih => simp [bind, answered, ih, Performed.after]
  | gather g next ih => simp [bind, answered, ih, Performed.after]

/-- To read an inner scope is to be run in it. -/
theorem answered_within (ask : Call → Reply) (scope : Scope) (inner : Scope → Scope) (p : Proc α) :
    (p.within inner).answered ask scope = p.answered ask (inner scope) := by
  induction p with
  | done a => rfl
  | read next ih => exact ih (inner scope)
  | poll next ih => exact ih false
  | note n next ih => simp [within, answered, ih]
  | call c next ih => simp [within, answered, ih]
  | gather g next ih =>
    have hjobs : (Gathering.mk g.width g.begun (g.jobs.map (· ∘ inner)) g.stopped).answered ask scope =
        g.answered ask (inner scope) := by
      simp [Gathering.answered, Function.comp_def]
    have hcalls : (Gathering.mk g.width g.begun (g.jobs.map (· ∘ inner)) g.stopped).callsToMake scope =
        g.callsToMake (inner scope) := by
      simp [Gathering.callsToMake, List.filterMap_map, Function.comp_def]
    simp only [within, answered, hjobs, hcalls, ih]

end Proc

/-- What has been done of a workflow one step at a time. -/
structure SequentialRun where
  context : Context
  outcomes : List (String × Outcome StepError)
  calls : List Call

namespace Workflow

/-- Executes a step after those before it. -/
def executeNext (w : Workflow) (e : Engine) (ask : Call → Reply) (r : SequentialRun) (id : String) : SequentialRun :=
  match w.plan? id with
  | none => r
  | some p =>
    let performed := (e.execute [id] p).answered ask r.context.scope
    ⟨r.context.close id (performed.result.mapError StepError.message).record, r.outcomes ++ [(id, performed.result)],
      r.calls ++ performed.calls⟩

/-- Executes all steps, one at a time, in the order of execution. -/
def sequentially (w : Workflow) (e : Engine) (ask : Call → Reply) (inputs : Fields) : SequentialRun :=
  w.graph.order.foldl (w.executeNext e ask) ⟨.start inputs w.definition.defaults w.graph.steps, [], []⟩

end Workflow

end Runbook
