import Runbook.Proofs.Driving
import Runbook.Proofs.Execution

/-!
# Every step comes to an end

Whatever a plan is made of, executing it comes to an outcome after finitely many replies, if there are permits for the calls that an
iterating step may make at a time: there is room for at least one call wherever replies are gathered, and every procedure goes on with
each reply. All calls on the way are made by the step or below it.
-/

namespace Runbook

/-- The conduct of procedures that call tools at a path or below it, and gather the replies to as many calls as an iterating step may
make at a time. -/
def Conduct.below (e : Engine) (path : List String) : Conduct :=
  ⟨fun c => path <+: c.path, fun _ => True, (· = e.settings.loopSlots)⟩

/-- A procedure that calls tools at a path or below it, and gathers replies only where there is room for a call. -/
def Proc.Below (e : Engine) (path : List String) (p : Proc α) : Prop := p.Obeys (.below e path) fun _ => True

namespace Proc.Below

variable {e : Engine} {path : List String}

/-- A procedure stays below a place if it does and all that follows it does. -/
theorem bind {p : Proc α} {f : α → Proc β} (h : p.Below e path) (hf : ∀ a, (f a).Below e path) : (p.bind f).Below e path :=
  Obeys.bind h fun a _ => hf a

/-- What is below a place in a body is below the step with the body. -/
theorem of_below {p : Proc α} {id : String} (h : p.Below e (path ++ [id])) : p.Below e path :=
  Obeys.mono h (fun _ hc => (List.prefix_append _ _).trans hc) (fun _ hn => hn) (fun _ hn => hn) fun _ ha => ha

end Proc.Below

namespace Engine

variable {e : Engine} {path : List String}

/-- To note failures makes no call. -/
theorem noteFailures_below (results : List (Except StepError Value)) {next : Proc α} (h : next.Below e path) :
    (noteFailures path results next).Below e path := by
  induction results with
  | nil => exact h
  | cons r rest ih =>
    cases r with
    | error err => exact .note trivial ih
    | ok v => exact ih

/-- To come to an outcome makes no call. -/
theorem conclude_below (r : Except StepError Value) : (conclude path r).Below e path := by
  cases r with
  | ok v => exact .done trivial
  | error err => exact .note trivial (.done trivial)

/-- A step under its condition stays where the step does. -/
theorem guard_below (s : Step) {run : Proc (Outcome StepError)} (h : run.Below e path) :
    (guard path s run).Below e path := by
  refine .read ?_
  intro scope
  split
  · exact h
  · exact .done trivial
  · exact conclude_below _

/-- To call a tool once is to call at the place of the step. -/
theorem callOnce_below (e : Engine) (path : List String) (s : Step) : (e.callOnce path s).Below e path := by
  refine .read ?_
  intro scope
  split
  · exact .done trivial
  · rename_i c hc
    split
    · exact .call (request_path hc ▸ List.prefix_refl _) fun _ => .done trivial
    · exact .done trivial

/-- To go through a sequence stays where what is done with its items does. -/
theorem iterate_below (e : Engine) (path : List String) (s : Step)
    {run : List Value → Proc (Except StepError (List (Except IterationError Value) × Bool))} (h : ∀ items, (run items).Below e path) :
    (e.iterate path s run).Below e path := by
  refine .read ?_
  intro scope
  split
  · exact .done trivial
  · refine (h _).bind ?_
    intro r
    split
    · exact .done trivial
    · exact .note trivial (.done trivial)

/-- There is room for at least one call of an iterating step. -/
theorem callEach_below (e : Engine) (path : List String) (s : Step) (items : List Value) : (e.callEach path s items).Below e path := by
  unfold callEach
  split
  · refine .gather (Nat.le_max_left 1 _) rfl ?_ fun g _ => noteFailures_below g.results (.done trivial)
    intro job hjob scope c hc
    exact path_of_mem_jobs hjob hc ▸ List.prefix_refl _
  · exact .done trivial

/-- To run a body for every item stays where the body does. -/
theorem runEach_below {body : Value → Nat → Proc (Except IterationError Value)} (h : ∀ item index, (body item index).Below e path)
    (results : List (Except IterationError Value)) (index : Nat) (items : List Value) : (runEach body results index items).Below e path := by
  induction items generalizing results index with
  | nil => exact .done trivial
  | cons item items ih =>
    refine .poll ?_
    intro cancelled
    split
    · exact .done trivial
    · exact (h item index).bind fun r => ih (r :: results) (index + 1)

/-- A step of a body is below its loop. -/
theorem runBody_below (e : Engine) {ps : List Plan} (h : ∀ p ∈ ps, (e.dispatch (path ++ [p.step.id]) p).Below e (path ++ [p.step.id]))
    (item : Value) (index : Nat) (locals outputs : Fields) : (runBody e path item index locals outputs ps).Below e path := by
  induction ps generalizing locals outputs with
  | nil => exact .done trivial
  | cons p ps ih =>
    have hrest := ih fun q hq => h q (List.mem_cons_of_mem _ hq)
    have hguard := (guard_below p.step (h p List.mem_cons_self)).of_below
    unfold runBody
    refine Proc.Below.bind (hguard.within _) ?_
    intro outcome
    dsimp only
    split
    · split
      · exact hrest _ _
      · exact .done trivial
    · exact hrest _ _
    · exact hrest _ _
    · exact hrest _ _

/-- Whatever a plan is made of, there is room for its calls, and for those of its body at every depth. -/
theorem dispatch_below (e : Engine) (path : List String) : (p : Plan) → (e.dispatch path p).Below e path
  | .single s => by
    unfold dispatch
    refine Proc.Below.bind ?_ fun r => conclude_below r
    split
    · exact iterate_below e path s fun items => callEach_below e path s items
    · exact callOnce_below e path s
  | .broken s err => by
    unfold dispatch
    refine Proc.Below.bind ?_ fun r => conclude_below r
    exact iterate_below e path s fun _ => .done trivial
  | .loop s body => by
    unfold dispatch
    refine Proc.Below.bind ?_ fun r => conclude_below r
    refine iterate_below e path s fun items => runEach_below ?_ [] 0 items
    exact fun item index => runBody_below e (fun p _ => dispatch_below e (path ++ [p.step.id]) p) item index [] []

/-- All calls of a plan are made at its place or below it. -/
theorem execute_below (e : Engine) (path : List String) (p : Plan) : (e.execute path p).Below e path :=
  guard_below p.step (dispatch_below e path p)

section Ends

variable (e : Engine) (hloops : e.settings.loopSlots ≤ Semaphore.maxPermits) (path : List String)

include hloops

/-- Executing a step comes to an outcome, whatever is replied. -/
theorem execute_ends (p : Plan) (scope : Scope) (token : CancelToken) : ((e.execute path p).settle scope token).proc.Ends scope :=
  (execute_below e path p).ends (fun _ hn => hn ▸ hloops) scope token

end Ends

end Engine

end Runbook
