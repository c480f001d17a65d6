import Runbook.Engine.Outcome
import Runbook.Engine.Semaphore
import Runbook.Expr.Eval

/-!
# Procedures

What a step does, as a tree of requests to the engine that runs it: to read the scope, to ask whether the run is cancelled, to
leave a note, to call a tool and wait for the reply, or to gather the replies of many calls of which only some may be in flight
at a time. A procedure decides nothing about time; whoever runs it chooses when replies arrive.
-/

namespace Runbook

/-- A call of a tool. The path leads to the step that makes it: the id of a step, and below it the ids of steps of bodies. -/
structure Call where
  path : List String
  tool : String
  inputs : Value
  timeoutMs : Option Nat
  deriving Repr

/-- What a call comes back with: the answer of the tool, or none in time, or none because the task that made it was aborted. -/
inductive Reply where
  | answer (a : Answer)
  | timedOut
  | aborted
  deriving Repr

/-- The result of a call for the step that made it. -/
def Call.result (c : Call) : Reply → Except StepError Value
  | .answer (.value v) => .ok v
  | .answer (.error e) => .error (.tool e)
  | .answer .panic => .error (.panicked c.tool)
  | .timedOut => .error (.timeout (c.timeoutMs.getD 0))
  | .aborted => .error (.aborted c.tool)

/-- What the engine is told about a step while it runs: that it or an iteration of it failed, or what its iterations came to. -/
inductive Note where
  | failed (path : List String) (error : StepError)
  | iterated (path : List String) (summary : Summary)
  deriving Repr

/-- The token that cancels a run, as a task sees it while it goes on: it is never cancelled, or it is cancelled once it has been
checked so many times. -/
abbrev CancelToken := Option Nat

namespace CancelToken

/-- What the next check finds. -/
def cancelled (t : CancelToken) : Bool := t == some 0

/-- The token after a check. -/
def checked (t : CancelToken) : CancelToken := t.map (· - 1)

end CancelToken

/-- One of many calls: it could not be made, it is in flight, or it has its result. -/
inductive Slot where
  | refused (error : StepError)
  | flying (call : Call)
  | finished (result : Except StepError Value)
  deriving Repr

namespace Slot

def isFlying : Slot → Bool
  | flying _ => true
  | refused _ | finished _ => false

def call? : Slot → Option Call
  | flying c => some c
  | refused _ | finished _ => none

def result? : Slot → Option (Except StepError Value)
  | refused e => some (.error e)
  | finished r => some r
  | flying _ => none

/-- The slot after a reply to its call. -/
def reply (r : Reply) : Slot → Slot
  | flying c => finished (c.result r)
  | s => s

end Slot

/-- Many calls, of which at most `width` are in flight at a time: those that have begun, in order, and those still to be made,
for which the inputs are read only when their turn comes. -/
structure Gathering where
  width : Nat
  begun : List Slot
  jobs : List (Scope → Except StepError Call)
  stopped : Bool

namespace Gathering

def flying (g : Gathering) : Nat := g.begun.countP Slot.isFlying

/-- Begins calls while there is room. A job that cannot be made takes no room. A cancelled run begins no more calls, which is
found out when there is room for the next one. -/
def fillFrom (scope : Scope) (token : CancelToken) (width : Nat) (begun : List Slot) :
    List (Scope → Except StepError Call) → Gathering
  | [] => ⟨width, begun, [], false⟩
  | job :: jobs =>
    match job scope with
    | .error e => fillFrom scope token width (begun ++ [.refused e]) jobs
    | .ok call =>
      if width ≤ begun.countP Slot.isFlying then ⟨width, begun, job :: jobs, false⟩
      else if token.cancelled then ⟨width, begun, [], true⟩
      else fillFrom scope token.checked width (begun ++ [.flying call]) jobs

/-- Begins calls while there is room. -/
def fill (scope : Scope) (token : CancelToken) (g : Gathering) : Gathering :=
  if g.stopped then g else fillFrom scope token g.width g.begun g.jobs

/-- Whether there are more calls at a time than a semaphore can have permits. -/
def tooWide (g : Gathering) : Bool := Semaphore.maxPermits < g.width

/-- The calls of a gathering that were not in it when it had `before` slots, with their places. -/
def callsFrom (before : Nat) (g : Gathering) : List (Nat × Call) :=
  (((List.range g.begun.length).zip g.begun).drop before).filterMap fun (i, s) => s.call?.map (i, ·)

/-- The gathering after a reply to the call at a place. -/
def reply (g : Gathering) (index : Nat) (r : Reply) : Gathering := { g with begun := g.begun.modify index (Slot.reply r) }

/-- The results, once nothing is in flight and nothing is left to be made. -/
def results? (g : Gathering) : Option (List (Except StepError Value)) :=
  if g.jobs.isEmpty then g.begun.mapM Slot.result? else none

end Gathering

/-- What a gathering came to: the results of the jobs that were begun, and whether the run was cancelled before the others. -/
structure Gathered where
  results : List (Except StepError Value)
  stopped : Bool

/-- What a step does. -/
inductive Proc (α : Type) where
  | done (result : α)
  | read (next : Scope → Proc α)
  | poll (next : Bool → Proc α)
  | note (n : Note) (next : Proc α)
  | call (c : Call) (next : Reply → Proc α)
  | gather (g : Gathering) (next : Gathered → Proc α)

/-- Which of the calls that a procedure waits for: the only one, or one of many. -/
abbrev CallIndex := Option Nat

/-- A procedure that waits, with the calls and notes that it made on the way there. -/
structure Settled (α : Type) where
  proc : Proc α
  calls : List (CallIndex × Call)
  notes : List Note

namespace Proc

/-- Goes on with the result of a procedure. -/
def bind : Proc α → (α → Proc β) → Proc β
  | done a, f => f a
  | read next, f => read fun scope => (next scope).bind f
  | poll next, f => poll fun cancelled => (next cancelled).bind f
  | note n next, f => note n (next.bind f)
  | call c next, f => call c fun r => (next r).bind f
  | gather g next, f => gather g fun r => (next r).bind f

/-- A procedure that reads an inner scope, made from that of the engine. -/
def within (inner : Scope → Scope) : Proc α → Proc α
  | done a => done a
  | read next => read fun scope => (next (inner scope)).within inner
  | poll next => poll fun cancelled => (next cancelled).within inner
  | note n next => note n (next.within inner)
  | call c next => call c fun r => (next r).within inner
  | gather g next => gather { g with jobs := g.jobs.map (· ∘ inner) } fun r => (next r).within inner

/-- Runs a procedure to the next point where it waits for replies, or to its end. A gathering that is too wide is not begun. One that
has its results at once has made no call, so its token has not been checked, or is cancelled already. -/
def settle (scope : Scope) (token : CancelToken) : Proc α → Settled α
  | done a => ⟨done a, [], []⟩
  | read next => settle scope token (next scope)
  | poll next => settle scope token.checked (next token.cancelled)
  | note n next =>
    let s := settle scope token next
    ⟨s.proc, s.calls, n :: s.notes⟩
  | call c next => ⟨call c next, [(none, c)], []⟩
  | gather g next =>
    if g.tooWide then ⟨gather g next, [], []⟩
    else
      let filled := g.fill scope token
      let calls := (filled.callsFrom g.begun.length).map fun (i, c) => (some i, c)
      match filled.results? with
      | none => ⟨gather filled next, calls, []⟩
      | some results =>
        let s := settle scope token (next ⟨results, filled.stopped⟩)
        ⟨s.proc, calls ++ s.calls, s.notes⟩

/-- Whether a procedure has come to a gathering that is too wide: what goes through it panics. -/
def panics : Proc α → Bool
  | gather g _ => g.tooWide
  | done _ | read _ | poll _ | note _ _ | call _ _ => false

/-- The procedure after a reply to one of the calls that it waits for. -/
def reply (index : CallIndex) (r : Reply) : Proc α → Proc α
  | call c next => match index with
    | none => next r
    | some _ => call c next
  | gather g next => match index with
    | some i => gather (g.reply i r) next
    | none => gather g next
  | p => p

/-- The calls that a procedure waits for. -/
def waitingFor : Proc α → List (CallIndex × Call)
  | call c _ => [(none, c)]
  | gather g _ => (g.callsFrom 0).map fun (i, c) => (some i, c)
  | _ => []

end Proc

end Runbook
