import Runbook.Engine.Context
import Runbook.Engine.Execution
import Runbook.Engine.RunState
import Runbook.Graph.Basic

/-!
# The machine that runs a workflow

The runner dispatches the steps that are released, one after the other. A dispatched step asks for one of the places for running
steps and, once it has been handed one, checks its condition and runs until it waits for replies; when it ends it writes its record
and gives its place back. The runner hears of starts and joins ends, which come to it in two queues: it looks at that of the starts
first, and it joins an end only when it has just found nothing there. By then a step may have started and ended, so an end may be
joined before the start of its step is heard. What the runner hears and joins it enters in the books, and the steps that waited for
nothing else are released.

The machine moves when it is told to. Whoever drives it decides in which order the runner, the steps and the replies come; the moves
alone decide what each does. A move that cannot be made changes nothing.
-/

namespace Runbook

/-- A definition with its graph. -/
structure Workflow where
  definition : Definition
  graph : Graph

namespace Workflow

/-- The workflow of a valid definition. -/
def ofDefinition (d : Definition) : Except ValidationError Workflow := (⟨d, ·⟩) <$> Graph.build d

/-- The plan of a step. -/
def plan? (w : Workflow) (id : String) : Option Plan := (w.definition.steps.find? (·.id == id)).map Plan.ofStep

/-- Steps in the order of execution. -/
def inOrder (w : Workflow) (ids : List String) : List String := w.graph.order.filter ids.contains

end Workflow

/-- A dispatched step: it has yet to begin, or it runs. -/
inductive Phase where
  | queued
  | active (proc : Proc (Outcome StepError))

namespace Phase

def isActive : Phase → Bool
  | active _ => true
  | queued => false

def isQueued (p : Phase) : Bool := !p.isActive

end Phase

structure Task where
  id : String
  plan : Plan
  phase : Phase

/-- What is seen of a run. -/
inductive Event where
  | runStarted (workflow : String) (order : List String)
  | stepStarted (step : Step)
  | stepFinished (step : Step) (outcome : Outcome StepError)
  | runFinished (result : RunResult)
  deriving Repr

/-- What has been going on in a run, as the engine sees it at once. -/
inductive Trace where
  | dispatched (id : String)
  | asked (id : String)
  | turn (id : String) (decision : Except StepError Bool)
  | called (c : Call)
  | noted (n : Note)
  | ended (id : String) (outcome : Outcome StepError)
  | died (id : String)
  deriving Repr

def Trace.call? : Trace → Option Call
  | called c => some c
  | dispatched _ | asked _ | turn _ _ | noted _ | ended _ _ | died _ => none

/-- A run at a moment: the records and books, the number of dependencies that each step waits for, the steps that are released, those
that are dispatched and have not ended, the places for running steps, what the runner has not heard and joined yet, and whether it has
just found that there is no start to be heard. -/
structure Machine where
  context : Context
  books : RunState
  waiting : Keyed Nat
  ready : List String
  tasks : List Task
  places : Semaphore
  starts : List String
  ends : List (String × Outcome StepError)
  listened : Bool
  cancelled : Bool
  events : List Event
  trace : List Trace

/-- A call in flight: the step that waits for it, and which of its calls it is. -/
structure Ticket where
  step : String
  index : CallIndex
  deriving DecidableEq, Repr

/-- What a machine may do next. The runner dispatches a step, looks for a start or joins one of the ends. A step asks for a place,
begins, or goes on after a reply; while it does, the run may be cancelled, after a number of checks. -/
inductive Move where
  | dispatch
  | hear
  | join (index : Nat)
  | ask (id : String)
  | begin (id : String) (cut : Option Nat)
  | reply (t : Ticket) (r : Reply) (cut : Option Nat)
  | cancel
  deriving Repr

/-- What a move asks for: a call to be made, or that a step that can go on asks for a place, if it has not, and begins. -/
inductive Signal where
  | called (t : Ticket) (c : Call)
  | wake (id : String)
  deriving Repr

namespace Machine

/-- A run before its first step. -/
def start (w : Workflow) (inputs : Fields) (now : Nat) : Machine where
  context := .start inputs w.definition.defaults w.graph.steps
  books := .start w.definition.name w.graph.steps now
  waiting := Keyed.ofList (w.graph.nodes.map fun (id, dependencies) => (id, dependencies.length))
  ready := w.graph.order.filter w.graph.roots.contains
  tasks := []
  places := .idle
  starts := []
  ends := []
  listened := false
  cancelled := false
  events := [.runStarted w.definition.name w.graph.order]
  trace := []

/-- Nothing is left to be done. -/
def finished (m : Machine) : Bool := m.ready.isEmpty && m.tasks.isEmpty && m.starts.isEmpty && m.ends.isEmpty

/-! ## The runner -/

/-- The runner dispatches the first step that is released; if the run is cancelled, it drops them all. -/
def dispatch (w : Workflow) (m : Machine) : Machine × List Signal :=
  match m.ready with
  | [] => (m, [])
  | id :: ready =>
    if m.cancelled then ({ m with books := m.books.markCancelled, ready := [] }, [])
    else match w.plan? id with
      | none => ({ m with ready }, [])
      | some plan =>
        ({ m with ready, tasks := m.tasks ++ [⟨id, plan, .queued⟩], trace := m.trace ++ [.dispatched id] }, [.wake id])

/-- The runner looks for a start and hears of the first, if there is one. -/
def hear (w : Workflow) (now : Nat) (m : Machine) : Machine :=
  match m.starts with
  | [] => { m with listened := true }
  | id :: starts =>
    { m with
      books := m.books.markRunning now id
      events := m.events ++ ((w.plan? id).map fun p => Event.stepStarted p.step).toList
      starts
      listened := false }

/-- The end of a step counts down the steps that depend on it and releases those that wait for nothing else. -/
def release (w : Workflow) (id : String) (m : Machine) : Machine :=
  let dependents := w.graph.dependents id
  let waiting := dependents.foldl (fun waiting d => waiting.modify d (· - 1)) m.waiting
  let free := w.inOrder (dependents.filter fun d => waiting.get? d = some 0)
  { m with waiting, ready := m.ready ++ free }

/-- The runner joins one of the ends. -/
def join (w : Workflow) (now : Nat) (index : Nat) (m : Machine) : Machine :=
  match m.ends[index]? with
  | none => m
  | some (id, outcome) =>
    let m := { m with ends := m.ends.eraseIdx index, listened := false }
    match w.plan? id with
    | none => m
    | some p =>
      let books := match outcome with
        | .cancelled => m.books.markCancelled
        | _ => m.books
      let books := books.addOutcome now id (outcome.mapError StepError.message) p.step.continueOnError
      release w id { m with books, events := m.events ++ [.stepFinished p.step outcome] }

/-- What the runner does next, if it is not kept from it: it dispatches all that is released, hears of all starts, and then joins the
ends one by one, looking for starts before each. -/
def next (m : Machine) : Option Move :=
  if !m.ready.isEmpty then some .dispatch
  else if !m.starts.isEmpty then some .hear
  else if m.ends.isEmpty then none
  else if m.listened then some (.join 0)
  else some .hear

/-! ## Steps -/

/-- The number of running steps. -/
def running (m : Machine) : Nat := m.tasks.countP (·.phase.isActive)

/-- The token of the run, for a step that goes on while the run may be cancelled. -/
def token (m : Machine) (cut : Option Nat) : CancelToken := if m.cancelled then some 0 else cut

/-- The step that waits longest for a place can go on. -/
def handOver (m : Machine) : List Signal := m.places.queue.head?.toList.map .wake

/-- Ends a step: its record is written, its place is given back, and the runner can join it. -/
def finish (id : String) (outcome : Outcome StepError) (m : Machine) : Machine :=
  { m with
    context := m.context.close id (outcome.mapError StepError.message).record
    tasks := m.tasks.filter (·.id ≠ id)
    places := m.places.release
    ends := m.ends ++ [(id, outcome)]
    trace := m.trace ++ [.ended id outcome] }

/-- A step dies: its place is given back, and nothing else is left of it. -/
def die (id : String) (m : Machine) : Machine :=
  { m with
    tasks := m.tasks.filter (·.id ≠ id)
    places := m.places.release
    trace := m.trace ++ [.died id] }

/-- A step goes on to wait for replies. -/
def suspend (id : String) (p : Proc (Outcome StepError)) (m : Machine) : Machine :=
  { m with tasks := m.tasks.map fun t => if t.id = id then { t with phase := .active p } else t }

/-- Writes down the calls and notes of a step, and that the run is cancelled if its token is. -/
def log (token : CancelToken) (s : Settled α) (m : Machine) : Machine :=
  { m with
    cancelled := m.cancelled || token.isSome
    trace := m.trace ++ (s.calls.map fun (_, c) => Trace.called c) ++ s.notes.map Trace.noted }

/-- Lets a step go on until it waits, ends or dies. -/
def advance (token : CancelToken) (id : String) (p : Proc (Outcome StepError)) (m : Machine) : Machine × List Signal :=
  let s := p.settle m.context.scope token
  let calls := s.calls.map fun (index, c) => Signal.called ⟨id, index⟩ c
  match s.proc with
  | .done outcome => ((m.log token s).finish id outcome, calls ++ m.handOver)
  | p => if p.panics then ((m.log token s).die id, calls ++ m.handOver) else ((m.log token s).suspend id p, calls)

/-- A step asks for a place. -/
def ask (e : Engine) (id : String) (m : Machine) : Machine :=
  if m.tasks.any (fun t => t.id == id && t.phase.isQueued) && !m.places.knows id then
    { m with places := m.places.acquire e.settings.stepSlots id, trace := m.trace ++ [.asked id] }
  else m

/-- A step that has been handed a place begins: unless the run is cancelled, its condition decides whether it runs. -/
def begin (e : Engine) (id : String) (cut : Option Nat) (m : Machine) : Machine × List Signal :=
  match m.tasks.find? fun t => t.id == id && t.phase.isQueued && m.places.handed.contains id with
  | none => (m, [])
  | some t =>
    let token := m.token cut
    let m := { m with places := m.places.take id }
    if token.cancelled then m.advance token id (.done .cancelled)
    else
      let decision := t.plan.step.admits m.context.scope
      let m := { m with trace := m.trace ++ [Trace.turn id decision] }
      match decision with
      | .ok true => advance token.checked id (e.dispatch [id] t.plan) { m with starts := m.starts ++ [id] }
      | .ok false => m.advance token.checked id (.done .skipped)
      | .error err => m.advance token.checked id (Engine.conclude [id] (.error err))

/-- A call comes back to the step that waits for it. -/
def reply (t : Ticket) (r : Reply) (cut : Option Nat) (m : Machine) : Machine × List Signal :=
  match m.tasks.find? (·.id == t.step) with
  | some ⟨_, _, .active p⟩ =>
    if p.waitingFor.any (·.1 = t.index) then m.advance (m.token cut) t.step (p.reply t.index r) else (m, [])
  | _ => (m, [])

/-- Makes a move. The runner looks at what has happened only when there is nothing to dispatch. -/
def move (w : Workflow) (e : Engine) (now : Nat) : Move → Machine → Machine × List Signal
  | .dispatch, m => m.dispatch w
  | .hear, m => if m.ready.isEmpty then (m.hear w now, []) else (m, [])
  | .join index, m => if m.ready.isEmpty && m.listened then (m.join w now index, []) else (m, [])
  | .ask id, m => (m.ask e id, [])
  | .begin id cut, m => m.begin e id cut
  | .reply t r cut, m => m.reply t r cut
  | .cancel, m => ({ m with cancelled := true }, [])

/-- The calls that have been made, in order. -/
def calls (m : Machine) : List Call := m.trace.filterMap Trace.call?

/-- The result of a run. -/
def result (now : Nat) (m : Machine) : RunResult := m.books.result now

end Machine

end Runbook
