import Runbook.Proofs.Contexts
import Runbook.Proofs.Endings

/-!
# One iteration of a body

The steps of a body have their turns one after the other. A step sees the item and the index, the records of the steps before it in the
same iteration, and otherwise what its loop sees. The iteration ends with the first step that fails for good, or with the outputs of its
completed steps.
-/

namespace Runbook

/-- What a step of a body did in its turn, and how it ended. -/
structure Turn where
  plan : Plan
  acts : List Act
  outcome : Outcome StepError

namespace Turn

def id (t : Turn) : String := t.plan.step.id

/-- The name and the record under which later steps of the iteration see the step. -/
def entry (t : Turn) : String × Value := (t.id, t.outcome.entry)

/-- The name and the output of a step that completed. -/
def output? (t : Turn) : Option (String × Value) :=
  match t.outcome with
  | .completed output => some (t.id, output)
  | .skipped | .failed _ | .cancelled => none

/-- A step that ends its iteration: it failed, and does not continue on error. -/
def Stops (t : Turn) (err : StepError) : Prop := t.outcome = .failed err ∧ t.plan.step.continueOnError = false

/-- What a step of a body sees after these turns of its iteration. -/
def sees (item : Value) (index : Nat) (outer : Scope) (earlier : List Turn) : Scope := fun name =>
  if name = "item" then some item
  else if name = "index" then some (.ofNat index)
  else match earlier.find? fun t => t.id = name with
    | some t => some t.outcome.entry
    | none => outer name

/-- A turn of a step in a scope: the step was executed in it. -/
def In (e : Engine) (path : List String) (scope : Scope) (t : Turn) : Prop :=
  (e.execute (path ++ [t.id]) t.plan).Driven scope t.acts (.done t.outcome)

/-- How an iteration goes on after earlier turns: it ends with a step that stops it, or when no step is left. -/
inductive Sequence (e : Engine) (path : List String) (item : Value) (index : Nat) (scope : Scope) :
    List Turn → List Plan → List Act → Except IterationError Value → Prop
  | whole {earlier : List Turn} :
      Sequence e path item index scope earlier [] [] (.ok (.ofFields (earlier.filterMap output?)))
  | goOn {earlier : List Turn} {t : Turn} {body : List Plan} {acts : List Act} {result : Except IterationError Value}
      (inScope : t.In e path (sees item index scope earlier)) (goesOn : ∀ err, ¬t.Stops err)
      (rest : Sequence e path item index scope (earlier ++ [t]) body acts result) :
      Sequence e path item index scope earlier (t.plan :: body) (t.acts ++ acts) result
  | stop {earlier : List Turn} {t : Turn} {err : StepError} {body : List Plan} (inScope : t.In e path (sees item index scope earlier))
      (stops : t.Stops err) : Sequence e path item index scope earlier (t.plan :: body) t.acts (.error (.step t.id err))

/-! ## Records and outputs -/

/-- A turn that has not failed stops nothing. -/
theorem not_stops {t : Turn} (h : ∀ err, t.outcome ≠ .failed err) (err : StepError) : ¬t.Stops err := fun hstops => h err hstops.1

/-- In its turn a step calls tools at its own place or below it. -/
theorem In.below {e : Engine} {path : List String} {scope : Scope} {t : Turn} (h : t.In e path scope) :
    ∀ a ∈ t.acts, path ++ [t.id] <+: a.call.path :=
  ((Engine.execute_below e (path ++ [t.id]) t.plan).driven h).2

/-- The turns of an iteration: the first steps of the body have theirs, one after the other, and it ends with the last of them. -/
theorem Sequence.turns {e : Engine} {path : List String} {item : Value} {index : Nat} {scope : Scope} {earlier : List Turn}
    {body : List Plan} {acts : List Act} {result : Except IterationError Value}
    (h : Sequence e path item index scope earlier body acts result) :
    ∃ turns rest, body = turns.map plan ++ rest ∧ acts = turns.flatMap Turn.acts ∧
      (∀ before t after, turns = before ++ t :: after → t.In e path (sees item index scope (earlier ++ before))) ∧
      ((rest = [] ∧ (∀ t ∈ turns, ∀ err, ¬t.Stops err) ∧ result = .ok (.ofFields ((earlier ++ turns).filterMap output?))) ∨
        ∃ before last err, turns = before ++ [last] ∧ (∀ t ∈ before, ∀ err, ¬t.Stops err) ∧ last.Stops err ∧
          result = .error (.step last.id err)) := by
  induction h with
  | whole => exact ⟨[], [], rfl, rfl, by simp, .inl ⟨rfl, by simp, by simp⟩⟩
  | @goOn earlier t body acts result inScope goesOn _ ih =>
    obtain ⟨turns, rest, rfl, rfl, hturns, hend⟩ := ih
    refine ⟨t :: turns, rest, rfl, rfl, ?_, ?_⟩
    · intro before u after hsplit
      rcases List.cons_eq_append_iff.mp hsplit with ⟨rfl, hhead⟩ | ⟨before, rfl, htail⟩
      · obtain ⟨rfl, -⟩ := List.cons.inj hhead
        rwa [List.append_nil]
      · rw [List.append_cons]
        exact hturns before u after htail
    · rcases hend with ⟨rfl, hgoOn, rfl⟩ | ⟨before, last, err, rfl, hgoOn, hstops, rfl⟩
      · exact .inl ⟨rfl, List.forall_mem_cons.mpr ⟨goesOn, hgoOn⟩, by rw [← List.append_cons]⟩
      · exact .inr ⟨t :: before, last, err, rfl, List.forall_mem_cons.mpr ⟨goesOn, hgoOn⟩, hstops, rfl⟩
  | @stop earlier t err body inScope stops =>
    refine ⟨[t], body, rfl, by simp, ?_, .inr ⟨[], t, err, rfl, by simp, stops, rfl⟩⟩
    intro before u after hsplit
    obtain ⟨rfl, hhead⟩ | ⟨before, rfl, htail⟩ := List.cons_eq_append_iff.mp hsplit
    · obtain ⟨rfl, -⟩ := List.cons.inj hhead
      rwa [List.append_nil]
    · simp at htail

end Turn

namespace Engine

variable {e : Engine} {path : List String} {scope : Scope} {item : Value} {index : Nat} {acts : List Act}
  {result : Except IterationError Value}

end Engine

end Runbook
