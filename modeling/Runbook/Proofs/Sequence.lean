import Runbook.Proofs.Answering
import Runbook.Proofs.Dependencies

/-!
# One step at a time

What a workflow does when its steps are executed one at a time, in the order of execution. Each step then does what it would do at
the end, when the records of all steps are there: what it depends on comes before it, and nothing else matters to it. How many steps
or calls the settings allow at a time does not matter either.
-/

namespace Runbook

variable {ask : Call → Reply}

/-- The engine that lets one step run and one call fly at a time. -/
def Engine.oneByOne (e : Engine) : Engine :=
  { e with settings := { e.settings with maxConcurrency := 1, loopConcurrency := 1 } }

/-! ## Calls at a time -/

namespace Engine

/-- Procedures that do the same, each call answered at once. -/
def Alike (ask : Call → Reply) (p q : Proc α) : Prop := ∀ scope, p.answered ask scope = q.answered ask scope

variable {e : Engine} {path : List String} {s : Step}

/-- Procedures are alike if they are and all that follows them is. -/
theorem Alike.bind {p q : Proc α} {f g : α → Proc β} (h : Alike ask p q) (hf : ∀ a, Alike ask (f a) (g a)) :
    Alike ask (p.bind f) (q.bind g) := by
  intro scope
  rw [Proc.answered_bind, Proc.answered_bind, h scope, hf _ scope]

/-- Procedures are alike in an inner scope if they are. -/
theorem Alike.within {p q : Proc α} (h : Alike ask p q) (inner : Scope → Scope) : Alike ask (p.within inner) (q.within inner) := by
  intro scope
  rw [Proc.answered_within, Proc.answered_within, h (inner scope)]

/-- One by one, a step has the same jobs. -/
theorem jobs_oneByOne (index : Nat) (items : List Value) : e.oneByOne.jobs path s index items = e.jobs path s index items := by
  induction items generalizing index with
  | nil => rfl
  | cons item items ih => exact congrArg (e.job path s item index :: ·) (ih (index + 1))

/-- How many calls may be in flight makes no difference to what they come to. -/
theorem callEach_oneByOne (items : List Value) : Alike ask (e.oneByOne.callEach path s items) (e.callEach path s items) := by
  intro scope
  have htool : e.oneByOne.hasTool s.tool = e.hasTool s.tool := rfl
  unfold callEach
  rw [jobs_oneByOne, htool]
  cases e.hasTool s.tool with
  | true => rfl
  | false => rfl

/-- To go through a sequence is alike one by one if what is done with its items is. -/
theorem iterate_oneByOne {run run' : List Value → Proc (Except StepError (List (Except IterationError Value) × Bool))}
    (h : ∀ items, Alike ask (run items) (run' items)) : Alike ask (e.oneByOne.iterate path s run) (e.iterate path s run') := by
  intro scope
  have hmax : e.oneByOne.maxIterations s = e.maxIterations s := rfl
  simp only [iterate, Proc.answered, hmax]
  cases s.sequence scope with
  | error err => rfl
  | ok all => exact (h _).bind (fun r => fun _ => rfl) scope

/-- To run a body for every item is alike if the body is. -/
theorem runEach_alike {body body' : Value → Nat → Proc (Except IterationError Value)}
    (h : ∀ item index, Alike ask (body item index) (body' item index)) (items : List Value)
    (results : List (Except IterationError Value)) (index : Nat) :
    Alike ask (runEach body results index items) (runEach body' results index items) := by
  induction items generalizing results index with
  | nil => exact fun _ => rfl
  | cons item items ih =>
    intro scope
    exact (h item index).bind (fun r => ih (r :: results) (index + 1)) scope

/-- Steps under their conditions are alike if the steps are. -/
theorem guard_alike {run run' : Proc (Outcome StepError)} (h : Alike ask run run') :
    Alike ask (guard path s run) (guard path s run') := by
  intro scope
  simp only [guard, Proc.answered]
  split
  · exact h scope
  · rfl
  · rfl

/-- A body is run alike one by one if each of its plans is. -/
theorem runBody_oneByOne {item : Value} {index : Nat} {ps : List Plan}
    (h : ∀ p ∈ ps, ∀ path, Alike ask (e.oneByOne.dispatch path p) (e.dispatch path p)) (locals outputs : Fields) :
    Alike ask (runBody e.oneByOne path item index locals outputs ps) (runBody e path item index locals outputs ps) := by
  induction ps generalizing locals outputs with
  | nil =>
    unfold runBody
    exact fun _ => rfl
  | cons p ps ih =>
    have ih' := ih fun q hq => h q (List.mem_cons_of_mem _ hq)
    unfold runBody
    refine ((guard_alike (h p (by simp) _)).within _).bind ?_
    intro outcome
    dsimp only
    split
    · split
      · exact ih' _ _
      · exact fun _ => rfl
    · exact ih' _ _
    · exact ih' _ _
    · exact ih' _ _

/-- What a step does with its answers does not depend on how much may be done at a time. -/
theorem dispatch_oneByOne (e : Engine) {topIds : List String} {p : Plan} (hp : p.Faultless topIds) (path : List String) :
    Alike ask (e.oneByOne.dispatch path p) (e.dispatch path p) := by
  induction hp generalizing path with
  | @single s own tool =>
    unfold dispatch
    refine Alike.bind ?_ fun r _ => rfl
    split
    · exact iterate_oneByOne callEach_oneByOne
    · exact fun _ => rfl
  | @loop s body own tool source nonempty ids steps ih =>
    unfold dispatch
    refine Alike.bind (iterate_oneByOne ?_) fun r _ => rfl
    intro items
    exact runEach_alike (fun item index => runBody_oneByOne ih [] []) items [] 0

/-- A plan is executed alike one by one. -/
theorem execute_oneByOne (e : Engine) {topIds : List String} {p : Plan} (hp : p.Faultless topIds) (path : List String) :
    Alike ask (e.oneByOne.execute path p) (e.execute path p) := guard_alike (dispatch_oneByOne e hp path)

end Engine

/-! ## Steps in order -/

namespace Workflow

/-- What a step does when it is executed in a context, each call answered at once. -/
def performed (w : Workflow) (e : Engine) (ask : Call → Reply) (c : Context) (id : String) : Performed (Outcome StepError) :=
  match w.plan? id with
  | none => ⟨.skipped, [], []⟩
  | some p => (e.execute [id] p).answered ask c.scope

/-- What has been done when these steps have been executed, in this order: each has done what it would do now. -/
structure Upto (w : Workflow) (e : Engine) (ask : Call → Reply) (inputs : Fields) (ids : List String) (r : SequentialRun) : Prop where
  context : r.context.Holds w inputs fun id => if id ∈ ids then some (w.performed e ask r.context id).result.entry else none
  outcomes : r.outcomes = ids.map fun id => (id, (w.performed e ask r.context id).result)
  calls : r.calls = ids.flatMap fun id => (w.performed e ask r.context id).calls

variable {w : Workflow} {e : Engine} {inputs : Fields}

/-- What a step does when it is performed is what its plan does in the scope at that time. -/
theorem performed_eq {id : String} {p : Plan} (hp : w.plan? id = some p) (c : Context) :
    w.performed e ask c id = (e.execute [id] p).answered ask c.scope := by
  simp only [performed, hp]

/-- To execute a step closes it with its result, and adds its outcome and its calls. -/
theorem executeNext_eq {id : String} {p : Plan} (hp : w.plan? id = some p) (r : SequentialRun) :
    w.executeNext e ask r id = ⟨r.context.close id (w.performed e ask r.context id).result.entry,
      r.outcomes ++ [(id, (w.performed e ask r.context id).result)], r.calls ++ (w.performed e ask r.context id).calls⟩ := by
  simp only [executeNext, hp, performed_eq hp, Outcome.entry]

namespace Valid

variable (hw : w.Valid)

include hw

/-- A step does the same in contexts in which the same records of what it depends on are written. -/
theorem performed_congr {c c' : Context} {written written' : String → Option Value} (h : c.Holds w inputs written)
    (h' : c'.Holds w inputs written') {id : String} (hdeps : ∀ d ∈ w.graph.dependencies id, written d = written' d) :
    w.performed e ask c id = w.performed e ask c' id := by
  cases hp : w.plan? id with
  | none => simp only [performed, hp]
  | some p =>
    rw [performed_eq hp, performed_eq hp]
    refine (hw.execute_blind e hp [id]).answered ask (h.agreeOutside h' fun d hd hshown => hdeps d ?_)
    by_contra hno
    exact hshown (mem_unrelated.mpr ⟨hd, hno⟩)

/-- A step does the same one by one. -/
theorem performed_oneByOne (c : Context) : w.performed e.oneByOne ask c = w.performed e ask c := by
  funext id
  cases hp : w.plan? id with
  | none => simp only [performed, hp]
  | some p =>
    rw [performed_eq hp, performed_eq hp]
    exact Engine.execute_oneByOne e (hw.plan_faultless hp) [id] c.scope

/-- To execute one more step changes nothing of what those before it would do. -/
theorem executeNext_upto {ids : List String} {id : String} {r : SequentialRun} (h : w.Upto e ask inputs ids r)
    (hid : id ∈ w.graph.steps) (hnew : id ∉ ids) (hdeps : ∀ x ∈ ids ++ [id], ∀ d ∈ w.graph.dependencies x, d ∈ ids) :
    w.Upto e ask inputs (ids ++ [id]) (w.executeNext e ask r id) := by
  obtain ⟨p, hp⟩ := hw.plan?_of_mem hid
  have hclosed := h.context.close hid (by rw [if_neg hnew]) (w.performed e ask r.context id).result.entry
  rw [executeNext_eq hp]
  generalize hc : r.context.close id (w.performed e ask r.context id).result.entry = c at hclosed
  have hsame : ∀ x ∈ ids ++ [id], w.performed e ask c x = w.performed e ask r.context x := by
    intro x hx
    refine hw.performed_congr hclosed h.context ?_
    intro d hd
    have hne : d ≠ id := fun heq => hnew (heq ▸ hdeps x hx d hd)
    rw [if_neg hne]
  refine ⟨hclosed.congr ?_, ?_, ?_⟩
  · intro k _
    by_cases hk : k = id
    · subst hk
      rw [if_pos rfl, if_pos (by simp), hsame k (by simp)]
    · rw [if_neg hk]
      by_cases hmem : k ∈ ids
      · rw [if_pos hmem, if_pos (by simp [hmem]), hsame k (by simp [hmem])]
      · rw [if_neg hmem, if_neg (by simp [hmem, hk])]
  · have hold := List.map_congr_left fun x hx => congrArg (fun p => (x, Performed.result p)) (hsame x hx)
    rw [hold, h.outcomes, List.map_append]
    rfl
  · have hold := List.flatMap_congr fun x hx => congrArg Performed.calls (hsame x hx)
    rw [hold, h.calls, List.flatMap_append, List.flatMap_singleton]

/-- When all steps have been executed, each has done what it would do now. -/
theorem sequentially_upto (e : Engine) (ask : Call → Reply) (inputs : Fields) :
    w.Upto e ask inputs w.graph.order (w.sequentially e ask inputs) := by
  have hprefix (ids rest : List String) (horder : w.graph.order = ids ++ rest) :
      w.Upto e ask inputs ids (ids.foldl (w.executeNext e ask) ⟨.start inputs w.definition.defaults w.graph.steps, [], []⟩) := by
    induction ids using List.reverseRecOn generalizing rest with
    | nil => exact ⟨(Context.Holds.start w inputs).congr fun _ _ => by simp, rfl, rfl⟩
    | append_singleton ids id ih =>
      have horder' : w.graph.order = ids ++ id :: rest := by simpa using horder
      have hnodup := horder' ▸ hw.nodup_order
      rw [List.foldl_append]
      refine hw.executeNext_upto (ih (id :: rest) horder') (hw.mem_order.mp (by simp [horder'])) ?_ ?_
      · exact fun hmem => (List.nodup_append.mp hnodup).2.2 id hmem id (by simp) rfl
      · intro x hx d hd
        rcases List.mem_append.mp hx with hx | hx
        · obtain ⟨before, after, rfl⟩ := List.append_of_mem hx
          exact List.mem_append_left _ (hw.depsFirst before x (after ++ id :: rest) (by simpa using horder') d hd)
        · obtain rfl := List.mem_singleton.mp hx
          exact hw.depsFirst ids x rest horder' d hd
  exact hprefix w.graph.order [] (by simp)

/-- A run one step at a time does not depend on how much may be done at a time. -/
theorem sequentially_oneByOne (e : Engine) (ask : Call → Reply) (inputs : Fields) :
    w.Upto e ask inputs w.graph.order (w.sequentially e.oneByOne ask inputs) := by
  obtain ⟨hcontext, houtcomes, hcalls⟩ := hw.sequentially_upto e.oneByOne ask inputs
  rw [hw.performed_oneByOne] at hcontext houtcomes hcalls
  exact ⟨hcontext, houtcomes, hcalls⟩

end Valid

end Workflow

end Runbook
