import Runbook.Engine.Machine

/-!
# The clock

The clock drives a system of procedures: it makes their calls, lets the tools act, and delivers the replies. Time passes only
while a tool sleeps. What is due at a moment is done in the order in which it became due; when nothing is due, the runner wakes up and
does all that there is for it to do; when there is nothing, time moves on to the next timer. Timers of one moment ring in the order in
which they were set, so a call that is due to end when its time is over is too late.
-/

namespace Runbook

/-- What a clock drives: what a move does, and which move its runner makes next. -/
structure System (S : Type) where
  move : Nat → Move → S → S × List Signal
  next : S → Option Move

/-- What a step and its iterations have for each other: a call to be made, numbered as one in flight, or a reply. -/
inductive Errand where
  | invoke (call : Nat)
  | deliver (t : Ticket) (r : Reply)

/-- Something that is due. A hand-over takes the place in the order of what is done a little later. -/
inductive Due where
  | invoke (call : Nat)
  | resume (call : Nat)
  | expire (call : Nat)
  | deliver (t : Ticket) (r : Reply)
  | wake (id : String)
  | handOver (x : Errand)

def Errand.due : Errand → Due
  | invoke call => .invoke call
  | deliver t r => .deliver t r

/-- A call in flight, with what its tool does next. -/
structure Flight (W : Type) where
  number : Nat
  ticket : Ticket
  call : Call
  rest : Activity W

structure Timer where
  time : Nat
  call : Nat
  due : Due

/-- A clock with the system that it drives and the world of the tools. The first thing due is the head of `due`, then those of
`later` from its end. While the runner is awake, nothing else is done. -/
structure Clock (S W : Type) where
  now : Nat
  system : S
  world : W
  due : List Due
  later : List Due
  timers : List Timer
  flights : List (Flight W)
  calls : Nat
  awake : Bool

namespace Clock

def start (now : Nat) (system : S) (world : W) : Clock S W := ⟨now, system, world, [], [], [], [], 0, false⟩

def enqueue (d : Due) (c : Clock S W) : Clock S W := { c with later := d :: c.later }

/-- Sets a timer, behind those of the same time. -/
def insertTimer (t : Timer) : List Timer → List Timer
  | [] => [t]
  | u :: rest => if u.time ≤ t.time then u :: insertTimer t rest else t :: u :: rest

def setTimer (t : Timer) (c : Clock S W) : Clock S W := { c with timers := insertTimer t c.timers }

/-- Takes a call out of flight, with its timers. -/
def land (call : Nat) (c : Clock S W) : Clock S W :=
  { c with flights := c.flights.filter (·.number ≠ call), timers := c.timers.filter (·.call ≠ call) }

def flight? (call : Nat) (c : Clock S W) : Option (Flight W) := c.flights.find? (·.number = call)

/-- An iteration runs beside its step, so what goes between the two is handed over once more. -/
def handed (t : Ticket) (x : Errand) : Due := if t.index.isSome then .handOver x else x.due

/-- Takes up a call: the tool is invoked next. A call without any time is over at once. -/
def takeUp (box : Toolbox W) (t : Ticket) (call : Call) (c : Clock S W) : Clock S W :=
  match call.timeoutMs with
  | some 0 => { c with due := .deliver t .timedOut :: c.due }
  | limit =>
    let number := c.calls
    let rest := match box.find? call.tool with
      | some tool => tool call.inputs
      | none => .answer .panic
    let c := { c with calls := number + 1, flights := c.flights ++ [(⟨number, t, call, rest⟩ : Flight W)] }
    let c := match limit with
      | some ms => c.setTimer ⟨c.now + ms, number, .expire number⟩
      | none => c
    c.enqueue (handed t (.invoke number))

/-- Does what signals ask for. -/
def obey (box : Toolbox W) (signals : List Signal) (c : Clock S W) : Clock S W :=
  signals.foldl (fun c s => match s with
    | .called t call => c.takeUp box t call
    | .wake id => c.enqueue (.wake id)) c

def makeMove (system : System S) (box : Toolbox W) (m : Move) (c : Clock S W) : Clock S W :=
  let (s, signals) := system.move c.now m c.system
  { c with system := s }.obey box signals

/-- Lets the tool of a call act until it sleeps or answers. -/
def actOn (system : System S) (box : Toolbox W) (f : Flight W) : Activity W → Clock S W → Clock S W
  | .answer a, c => (c.land f.number).enqueue (handed f.ticket (.deliver f.ticket (.answer a)))
  | .sleep d rest, c =>
    if d.ticks = 0 then actOn system box f rest c
    else
      let flights := c.flights.map fun g => if g.number = f.number then { g with rest } else g
      { c with flights }.setTimer ⟨c.now + d.ticks, f.number, .resume f.number⟩
  | .cancel rest, c => actOn system box f rest (c.makeMove system box .cancel)
  | .act update rest, c => actOn system box f (rest c.world) { c with world := update c.world }

/-- Does what is due. -/
def perform (system : System S) (box : Toolbox W) (c : Clock S W) : Due → Clock S W
  | .invoke call | .resume call =>
    match c.flight? call with
    | some f => actOn system box f f.rest c
    | none => c
  | .expire call =>
    match c.flight? call with
    | some f =>
      let c := c.land call
      if f.ticket.index.isSome then c.enqueue (.deliver f.ticket .timedOut)
      else c.makeMove system box (.reply f.ticket .timedOut none)
    | none => c
  | .deliver t r => c.makeMove system box (.reply t r none)
  | .wake id => (c.makeMove system box (.ask id)).makeMove system box (.begin id none)
  | .handOver x => c.enqueue x.due

/-- The runner makes its next move, or goes to sleep. -/
def attend (system : System S) (box : Toolbox W) (c : Clock S W) : Clock S W :=
  match system.next c.system with
  | some m => { c.makeMove system box m with awake := true }
  | none => { c with awake := false }

/-- Moves on to the next timer; all timers of its time ring. -/
def ring (c : Clock S W) (t : Timer) : Clock S W :=
  let (ringing, timers) := c.timers.partition (·.time = t.time)
  { c with now := t.time, timers, later := (ringing.map (·.due)).reverse ++ c.later }

/-- The next moment of the clock; none when everything has come to its end. -/
def step (system : System S) (box : Toolbox W) (c : Clock S W) : Option (Clock S W) :=
  if c.awake then some (c.attend system box)
  else match c.due, c.later with
    | d :: due, _ => some ({ c with due }.perform system box d)
    | [], d :: later => some { c with due := (d :: later).reverse, later := [] }
    | [], [] =>
      if (system.next c.system).isSome then some (c.attend system box)
      else c.timers.head?.map c.ring

/-- Drives a system to its end. -/
def run (system : System S) (box : Toolbox W) (c : Clock S W) : Clock S W :=
  have : Nonempty (Clock S W) := ⟨c⟩
  Id.run <| repeatM (fun c => pure <| match c.step system box with
    | some c => .inl c
    | none => .inr c) c

/-- A clock goes on moment by moment until there is none left. -/
theorem run_eq (system : System S) (box : Toolbox W) (c : Clock S W) :
    c.run system box = match c.step system box with
      | some c => c.run system box
      | none => c := by
  have : Nonempty (Clock S W) := ⟨c⟩
  rw [run, repeatM_eq_of_monadTail]
  cases hstep : c.step system box <;> simp [repeatM.body, run, hstep]

end Clock

end Runbook
