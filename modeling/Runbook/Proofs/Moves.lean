import Runbook.Engine.Machine

/-!
# Moves of the machine

What a move does, said once. The runner dispatches one step, hears of one start, joins one end, or finds that there is nothing to hear.
A step asks for a place, begins, or goes on after a reply: then it advances until it rests, ends or dies. What has been dispatched, has
asked for a place, has ended, has died and has been booked is read off the trace and the events.
-/

namespace Runbook

namespace Trace

/-- The step that was dispatched. -/
def dispatched? : Trace → Option String
  | dispatched id => some id
  | asked _ | turn _ _ | called _ | noted _ | ended _ _ | died _ => none

/-- The step that asked for a place. -/
def asked? : Trace → Option String
  | asked id => some id
  | dispatched _ | turn _ _ | called _ | noted _ | ended _ _ | died _ => none

/-- The step that ended, with its outcome. -/
def ended? : Trace → Option (String × Outcome StepError)
  | ended id outcome => some (id, outcome)
  | dispatched _ | asked _ | turn _ _ | called _ | noted _ | died _ => none

/-- The step that died. -/
def died? : Trace → Option String
  | died id => some id
  | dispatched _ | asked _ | turn _ _ | called _ | noted _ | ended _ _ => none

/-- The step whose condition was evaluated or whose tool was called. -/
def acting? : Trace → Option String
  | turn id _ => some id
  | called c => c.path.head?
  | dispatched _ | asked _ | noted _ | ended _ _ | died _ => none

end Trace

namespace Event

/-- The step whose start was heard. -/
def started? : Event → Option String
  | stepStarted step => some step.id
  | runStarted _ _ | stepFinished _ _ | runFinished _ => none

/-- The step whose end was booked, with its outcome. -/
def finished? : Event → Option (String × Outcome StepError)
  | stepFinished step outcome => some (step.id, outcome)
  | runStarted _ _ | stepStarted _ | runFinished _ => none

end Event

/-- A move with which the run is cancelled. -/
def Move.cancels : Move → Bool
  | cancel => true
  | begin _ cut | reply _ _ cut => cut.isSome
  | dispatch | hear | join _ | ask _ => false

theorem Phase.isQueued_iff {p : Phase} : p.isQueued = true ↔ p = .queued := by cases p <;> simp [isQueued, isActive]

/-- What a step does once its condition was evaluated. -/
def Task.begun (e : Engine) (t : Task) : Except StepError Bool → Proc (Outcome StepError)
  | .ok true => e.dispatch [t.id] t.plan
  | .ok false => .done .skipped
  | .error err => Engine.conclude [t.id] (.error err)

namespace Machine

/-- The steps that have been dispatched, in order. -/
def dispatched (m : Machine) : List String := m.trace.filterMap Trace.dispatched?

/-- The steps that have asked for a place, in order. -/
def asked (m : Machine) : List String := m.trace.filterMap Trace.asked?

/-- The steps that have ended, in order, with their outcomes. -/
def ended (m : Machine) : List (String × Outcome StepError) := m.trace.filterMap Trace.ended?

/-- The steps that have died, in order. -/
def died (m : Machine) : List String := m.trace.filterMap Trace.died?

/-- The steps whose ends the runner has booked, in order, with their outcomes. -/
def booked (m : Machine) : List (String × Outcome StepError) := m.events.filterMap Event.finished?

/-- The calls that have been made are in the trace. -/
theorem mem_calls {m : Machine} {c : Call} : c ∈ m.calls ↔ Trace.called c ∈ m.trace := by
  rw [calls, List.mem_filterMap]
  constructor
  · rintro ⟨x, hx, hcall⟩
    cases x <;> simp only [Trace.call?, reduceCtorEq, Option.some.injEq] at hcall
    exact hcall ▸ hx
  · exact fun h => ⟨_, h, rfl⟩

/-- The calls of a step, in order. -/
def callsOf (id : String) (m : Machine) : List Call := m.calls.filter (·.path.head? = some id)

section Trace

variable {α : Type} (m : Machine) (token : CancelToken) (s : Settled α) (id : String) (outcome : Outcome StepError)

/-- The calls and notes of a settled procedure, as they are written down. -/
def traceOf (s : Settled α) : List Trace := (s.calls.map fun (_, c) => Trace.called c) ++ s.notes.map Trace.noted

/-- What a procedure does on its way is added to the trace. -/
theorem trace_log : (m.log token s).trace = m.trace ++ traceOf s := by simp [log, traceOf]

/-- A trace of what is done consists of its calls and its notes. -/
theorem mem_traceOf {t : Trace} :
    t ∈ traceOf s ↔ (∃ c ∈ s.calls, t = .called c.2) ∨ ∃ n ∈ s.notes, t = .noted n := by
  simp [traceOf, eq_comm]

/-- Calls and notes add nothing to what is read off neither. -/
theorem filterMap_trace_log {β : Type} {f : Trace → Option β} (hcalled : ∀ c, f (.called c) = none)
    (hnoted : ∀ n, f (.noted n) = none) : (m.log token s).trace.filterMap f = m.trace.filterMap f := by
  have hnil : (traceOf s).filterMap f = [] := by
    rw [List.filterMap_eq_nil_iff]
    intro t ht
    rcases (mem_traceOf s).mp ht with ⟨c, -, rfl⟩ | ⟨n, -, rfl⟩
    · exact hcalled c.2
    · exact hnoted n
  rw [trace_log, List.filterMap_append, hnil, List.append_nil]

/-- The calls in a trace of what is done are those that are made. -/
theorem call?_traceOf : (traceOf s).filterMap Trace.call? = s.calls.map (·.2) := by
  have hnotes : (s.notes.map Trace.noted).filterMap Trace.call? = [] := by
    rw [List.filterMap_eq_nil_iff]
    intro t ht
    obtain ⟨n, -, rfl⟩ := List.mem_map.mp ht
    rfl
  have hcalls : (s.calls.map fun (_, c) => Trace.called c).filterMap Trace.call? = s.calls.map (·.2) := by
    rw [List.filterMap_map, ← List.filterMap_eq_map]
    rfl
  rw [traceOf, List.filterMap_append, hcalls, hnotes, List.append_nil]

@[simp] theorem dispatched_log : (m.log token s).dispatched = m.dispatched :=
  filterMap_trace_log m token s (fun _ => rfl) fun _ => rfl

@[simp] theorem asked_log : (m.log token s).asked = m.asked := filterMap_trace_log m token s (fun _ => rfl) fun _ => rfl

@[simp] theorem ended_log : (m.log token s).ended = m.ended := filterMap_trace_log m token s (fun _ => rfl) fun _ => rfl

@[simp] theorem died_log : (m.log token s).died = m.died := filterMap_trace_log m token s (fun _ => rfl) fun _ => rfl

@[simp] theorem calls_log : (m.log token s).calls = m.calls ++ s.calls.map (·.2) := by
  rw [calls, trace_log, List.filterMap_append, call?_traceOf, calls]

@[simp] theorem dispatched_finish : (m.finish id outcome).dispatched = m.dispatched := by
  simp [dispatched, finish, Trace.dispatched?]

@[simp] theorem asked_finish : (m.finish id outcome).asked = m.asked := by simp [asked, finish, Trace.asked?]

@[simp] theorem ended_finish : (m.finish id outcome).ended = m.ended ++ [(id, outcome)] := by
  simp [ended, finish, Trace.ended?]

@[simp] theorem died_finish : (m.finish id outcome).died = m.died := by simp [died, finish, Trace.died?]

@[simp] theorem calls_finish : (m.finish id outcome).calls = m.calls := by
  simp [calls, finish, Trace.call?]

@[simp] theorem dispatched_die : (m.die id).dispatched = m.dispatched := by simp [dispatched, die, Trace.dispatched?]

@[simp] theorem asked_die : (m.die id).asked = m.asked := by simp [asked, die, Trace.asked?]

@[simp] theorem ended_die : (m.die id).ended = m.ended := by simp [ended, die, Trace.ended?]

@[simp] theorem died_die : (m.die id).died = m.died ++ [id] := by simp [died, die, Trace.died?]

@[simp] theorem calls_die : (m.die id).calls = m.calls := by simp [calls, die, Trace.call?]

end Trace

/-! ## The token -/

/-- The token of a cancelled run is cancelled, and so is one that is to be cancelled on the way. -/
theorem token_eq_none {m : Machine} {cut : Option Nat} : m.token cut = none ↔ m.cancelled = false ∧ cut = none := by
  unfold token
  cases m.cancelled <;> simp

/-- A token is set if the run is cancelled, or will be after so many checks. -/
theorem isSome_token (m : Machine) (cut : Option Nat) : (m.token cut).isSome = (m.cancelled || cut.isSome) := by
  unfold token
  cases m.cancelled <;> simp

/-! ## Steps that go on -/

/-- The machine in which a step goes on with the place that it was handed. -/
def taking (id : String) (m : Machine) : Machine := { m with places := m.places.take id }

/-- The machine after the condition of a step was evaluated. -/
def decided (t : Task) (decision : Except StepError Bool) (m : Machine) : Machine :=
  { m with
    places := m.places.take t.id
    trace := m.trace ++ [.turn t.id decision]
    starts := m.starts ++ match decision with
      | .ok true => [t.id]
      | .ok false | .error _ => [] }

section Decided

variable (m : Machine) (t : Task) (decision : Except StepError Bool)

@[simp] theorem dispatched_decided : (m.decided t decision).dispatched = m.dispatched := by
  simp [dispatched, decided, Trace.dispatched?]

@[simp] theorem asked_decided : (m.decided t decision).asked = m.asked := by simp [asked, decided, Trace.asked?]

@[simp] theorem ended_decided : (m.decided t decision).ended = m.ended := by
  simp [ended, decided, Trace.ended?]

@[simp] theorem died_decided : (m.decided t decision).died = m.died := by simp [died, decided, Trace.died?]

@[simp] theorem calls_decided : (m.decided t decision).calls = m.calls := by
  simp [calls, decided, Trace.call?]

/-- A decision adds no start but that of its task. -/
theorem mem_starts_decided {id : String} (h : id ∈ (m.decided t decision).starts) : id ∈ m.starts ∨ id = t.id := by
  rcases List.mem_append.mp h with h | h
  · exact Or.inl h
  · split at h
    · exact Or.inr (List.mem_singleton.mp h)
    · cases h
    · cases h

end Decided

/-- The calls that a step makes as signals. -/
def signalsOf {α : Type} (id : String) (s : Settled α) : List Signal := s.calls.map fun (index, c) => Signal.called ⟨id, index⟩ c

/-- A step that is at its end just ends. -/
theorem advance_done (token : CancelToken) (id : String) (outcome : Outcome StepError) (m : Machine) :
    m.advance token id (.done outcome) =
      ((m.log token (⟨.done outcome, [], []⟩ : Settled (Outcome StepError))).finish id outcome, m.handOver) := by
  simp [advance, Proc.settle]

/-- A step advances until it ends, dies or waits for replies. -/
theorem advance_cases (token : CancelToken) (id : String) (p : Proc (Outcome StepError)) (m : Machine) :
    (∃ outcome, (p.settle m.context.scope token).proc = .done outcome ∧
      m.advance token id p = ((m.log token (p.settle m.context.scope token)).finish id outcome,
        signalsOf id (p.settle m.context.scope token) ++ m.handOver)) ∨
    ((p.settle m.context.scope token).proc.panics = true ∧
      m.advance token id p = ((m.log token (p.settle m.context.scope token)).die id,
        signalsOf id (p.settle m.context.scope token) ++ m.handOver)) ∨
    ((∀ outcome, (p.settle m.context.scope token).proc ≠ .done outcome) ∧ (p.settle m.context.scope token).proc.panics = false ∧
      m.advance token id p = ((m.log token (p.settle m.context.scope token)).suspend id (p.settle m.context.scope token).proc,
        signalsOf id (p.settle m.context.scope token))) := by
  unfold advance signalsOf
  dsimp only
  split
  · rename_i outcome houtcome
    exact .inl ⟨outcome, houtcome, rfl⟩
  · rename_i hdone
    split
    · rename_i hpanics
      exact .inr (.inl ⟨hpanics, rfl⟩)
    · rename_i hpanics
      exact .inr (.inr ⟨hdone, by simpa using hpanics, rfl⟩)

section Advance

variable {token : CancelToken} {id : String} {p : Proc (Outcome StepError)} {m : Machine}

/-- A task of a machine in which a step advances is another one, or it is that of the step, which waits. -/
theorem mem_tasks_advance {u : Task} (hu : u ∈ (m.advance token id p).1.tasks) :
    (u ∈ m.tasks ∧ u.id ≠ id) ∨ (u.id = id ∧ u.phase = .active (p.settle m.context.scope token).proc) := by
  have hothers (hu : u ∈ m.tasks.filter (·.id ≠ id)) : u ∈ m.tasks ∧ u.id ≠ id := by simpa using hu
  rcases advance_cases token id p m with ⟨outcome, -, heq⟩ | ⟨-, heq⟩ | ⟨-, -, heq⟩ <;> rw [heq] at hu
  · exact .inl (hothers hu)
  · exact .inl (hothers hu)
  · obtain ⟨t, ht, rfl⟩ := List.mem_map.mp hu
    by_cases hid : t.id = id
    · rw [if_pos hid]
      exact .inr ⟨hid, rfl⟩
    · rw [if_neg hid]
      exact .inl ⟨ht, hid⟩

/-- What has ended when a step advances had ended before, or it is the step. -/
theorem mem_ended_advance {k : String} {o : Outcome StepError} (h : (k, o) ∈ (m.advance token id p).1.ended) :
    (k, o) ∈ m.ended ∨ (k = id ∧ (p.settle m.context.scope token).proc = .done o) := by
  rcases advance_cases token id p m with ⟨outcome, hdone, heq⟩ | ⟨-, heq⟩ | ⟨-, -, heq⟩ <;> rw [heq] at h
  · rw [ended_finish, ended_log] at h
    rcases List.mem_append.mp h with h | h
    · exact .inl h
    · obtain ⟨rfl, rfl⟩ := Prod.mk.inj (List.mem_singleton.mp h)
      exact .inr ⟨rfl, hdone⟩
  · rw [ended_die, ended_log] at h
    exact .inl h
  · exact .inl (ended_log m token _ ▸ h)

/-- What is noted when a step advances had been noted before, or the step leaves it. -/
theorem mem_noted_advance {n : Note} (h : Trace.noted n ∈ (m.advance token id p).1.trace) :
    Trace.noted n ∈ m.trace ∨ n ∈ (p.settle m.context.scope token).notes := by
  have hlog : Trace.noted n ∈ (m.log token (p.settle m.context.scope token)).trace := by
    rcases advance_cases token id p m with ⟨o, -, heq⟩ | ⟨-, heq⟩ | ⟨-, -, heq⟩ <;> rw [heq] at h
    · exact (List.mem_append.mp h).resolve_right fun hlast => nomatch List.mem_singleton.mp hlast
    · exact (List.mem_append.mp h).resolve_right fun hlast => nomatch List.mem_singleton.mp hlast
    · exact h
  rw [trace_log, List.mem_append, mem_traceOf] at hlog
  rcases hlog with hlog | ⟨c, -, hc⟩ | ⟨n', hn', heq⟩
  · exact .inl hlog
  · cases hc
  · exact .inr (Trace.noted.inj heq ▸ hn')

variable (token id p m)

/-- A task that advances makes the calls that its procedure makes. -/
theorem calls_advance : (m.advance token id p).1.calls = m.calls ++ (p.settle m.context.scope token).calls.map (·.2) := by
  rcases advance_cases token id p m with ⟨o, -, heq⟩ | ⟨-, heq⟩ | ⟨-, -, heq⟩ <;> rw [heq]
  · rw [calls_finish, calls_log]
  · rw [calls_die, calls_log]
  · exact calls_log m token _

/-- A task that advances dispatches nothing. -/
theorem dispatched_advance : (m.advance token id p).1.dispatched = m.dispatched := by
  rcases advance_cases token id p m with ⟨o, -, heq⟩ | ⟨-, heq⟩ | ⟨-, -, heq⟩ <;> rw [heq]
  · rw [dispatched_finish, dispatched_log]
  · rw [dispatched_die, dispatched_log]
  · exact dispatched_log m token _

/-- A task that advances asks for no turn. -/
theorem asked_advance : (m.advance token id p).1.asked = m.asked := by
  rcases advance_cases token id p m with ⟨o, -, heq⟩ | ⟨-, heq⟩ | ⟨-, -, heq⟩ <;> rw [heq]
  · rw [asked_finish, asked_log]
  · rw [asked_die, asked_log]
  · exact asked_log m token _

/-- What the runner sees to is left as it is when a step advances, but for the end of the step. -/
theorem advance_untouched : (m.advance token id p).1.books = m.books ∧ (m.advance token id p).1.events = m.events ∧
    (m.advance token id p).1.waiting = m.waiting ∧ (m.advance token id p).1.ready = m.ready ∧
    (m.advance token id p).1.starts = m.starts ∧ (m.advance token id p).1.listened = m.listened := by
  rcases advance_cases token id p m with ⟨o, -, heq⟩ | ⟨-, heq⟩ | ⟨-, -, heq⟩ <;> rw [heq] <;> exact ⟨rfl, rfl, rfl, rfl, rfl, rfl⟩

/-- A task that advances leaves the run cancelled if its token was set. -/
theorem cancelled_advance : (m.advance token id p).1.cancelled = (m.cancelled || token.isSome) := by
  rcases advance_cases token id p m with ⟨o, -, heq⟩ | ⟨-, heq⟩ | ⟨-, -, heq⟩ <;> rw [heq] <;> rfl

end Advance

/-! ## What comes of a move -/

/-- The machine in which a step has been dispatched. -/
def dispatching (id : String) (plan : Plan) (ready : List String) (m : Machine) : Machine :=
  { m with ready, tasks := m.tasks ++ [⟨id, plan, .queued⟩], trace := m.trace ++ [.dispatched id] }

/-- The machine in which a step has asked for a place. -/
def asking (e : Engine) (id : String) (m : Machine) : Machine :=
  { m with places := m.places.acquire e.settings.stepSlots id, trace := m.trace ++ [.asked id] }

/-- What comes of a move: nothing, or what the runner does, or that a step asks for a place, or that the run is cancelled, or that one
step advances: one that begins with the place that it was handed, or one that was replied. -/
inductive Effect (w : Workflow) (e : Engine) (now : Nat) (m : Machine) : Move → Machine × List Signal → Prop
  | idle (move : Move) : Effect w e now m move (m, [])
  | dispatched {id : String} {ready : List String} {plan : Plan} (first : m.ready = id :: ready) (going : m.cancelled = false)
      (found : w.plan? id = some plan) :
      Effect w e now m .dispatch (m.dispatching id plan ready, [.wake id])
  | passed {id : String} {ready : List String} (first : m.ready = id :: ready) (missing : w.plan? id = none) :
      Effect w e now m .dispatch ({ m with ready }, [])
  | dropped (some : m.ready ≠ []) (stopped : m.cancelled = true) :
      Effect w e now m .dispatch ({ m with books := m.books.markCancelled, ready := [] }, [])
  | listened (idle : m.ready = []) (silent : m.starts = []) : Effect w e now m .hear ({ m with listened := true }, [])
  | heard {id : String} {starts : List String} (idle : m.ready = []) (first : m.starts = id :: starts) :
      Effect w e now m .hear (m.hear w now, [])
  | joined {index : Nat} {id : String} {outcome : Outcome StepError} (idle : m.ready = []) (listened : m.listened = true)
      (found : m.ends[index]? = some (id, outcome)) : Effect w e now m (.join index) (m.join w now index, [])
  | asked {t : Task} (mem : t ∈ m.tasks) (queued : t.phase = .queued) (new : m.places.knows t.id = false) :
      Effect w e now m (.ask t.id) (m.asking e t.id, [])
  | cancelled : Effect w e now m .cancel ({ m with cancelled := true }, [])
  | refused {t : Task} {cut : Option Nat} (mem : t ∈ m.tasks) (queued : t.phase = .queued) (handed : t.id ∈ m.places.handed)
      (stopped : (m.token cut).cancelled = true) :
      Effect w e now m (.begin t.id cut) ((m.taking t.id).advance (m.token cut) t.id (.done .cancelled))
  | began {t : Task} {cut : Option Nat} (mem : t ∈ m.tasks) (queued : t.phase = .queued) (handed : t.id ∈ m.places.handed)
      (going : (m.token cut).cancelled = false) :
      Effect w e now m (.begin t.id cut) ((m.decided t (t.plan.step.admits m.context.scope)).advance (m.token cut).checked t.id
        (t.begun e (t.plan.step.admits m.context.scope)))
  | replied {t : Task} {p : Proc (Outcome StepError)} {index : CallIndex} {c : Call} {cut : Option Nat} (r : Reply) (mem : t ∈ m.tasks)
      (active : t.phase = .active p) (waits : (index, c) ∈ p.waitingFor) :
      Effect w e now m (.reply ⟨t.id, index⟩ r cut) (m.advance (m.token cut) t.id (p.reply index r))

/-- To dispatch a step has one of the effects of a dispatch. -/
theorem dispatch_effect (w : Workflow) (e : Engine) (now : Nat) (m : Machine) : Effect w e now m .dispatch (m.dispatch w) := by
  unfold dispatch
  split
  · exact .idle _
  · rename_i id ready hready
    split
    · rename_i hstopped
      exact .dropped (by simp [hready]) hstopped
    · rename_i hgoing
      split
      · rename_i hmissing
        exact .passed hready hmissing
      · rename_i plan hfound
        exact .dispatched hready (by simpa using hgoing) hfound

/-- To hear of a start has the effect of a hearing. -/
theorem hear_effect (w : Workflow) (e : Engine) (now : Nat) {m : Machine} (hready : m.ready = []) :
    Effect w e now m .hear (m.hear w now, []) := by
  cases hstarts : m.starts with
  | nil =>
    have hlistened : m.hear w now = { m with listened := true } := by simp only [hear, hstarts]
    rw [hlistened]
    exact .listened hready hstarts
  | cons id starts => exact .heard hready hstarts

/-- A step that asks for a place has been dispatched and has not begun. -/
theorem ask_effect (w : Workflow) (e : Engine) (now : Nat) (id : String) (m : Machine) :
    Effect w e now m (.ask id) (m.ask e id, []) := by
  unfold ask
  split
  · rename_i h
    obtain ⟨hany, hnew⟩ := Bool.and_eq_true_iff.mp h
    obtain ⟨t, ht, hasks⟩ := List.any_eq_true.mp hany
    obtain ⟨hid, hqueued⟩ := Bool.and_eq_true_iff.mp hasks
    obtain rfl : t.id = id := by simpa using hid
    exact .asked ht (Phase.isQueued_iff.mp hqueued) (by simpa using hnew)
  · exact .idle _

/-- A step that is dispatched and that no one knows to have asked for a place asks for one. -/
theorem ask_eq_asking (e : Engine) {m : Machine} {t : Task} (ht : t ∈ m.tasks) (hqueued : t.phase = .queued)
    (hnew : m.places.knows t.id = false) : m.ask e t.id = m.asking e t.id := by
  have hany : m.tasks.any (fun u => u.id == t.id && u.phase.isQueued) = true :=
    List.any_eq_true.mpr ⟨t, ht, by simp [hqueued, Phase.isQueued_iff]⟩
  simp [ask, hany, hnew, asking]

/-- A step that has been handed a place is refused in a cancelled run, and its condition decides what it does in any other. -/
theorem begin_of_find? (e : Engine) {id : String} (cut : Option Nat) {m : Machine} {t : Task}
    (h : m.tasks.find? (fun t => t.id == id && t.phase.isQueued && m.places.handed.contains id) = some t) :
    t ∈ m.tasks ∧ t.id = id ∧ t.phase = .queued ∧ id ∈ m.places.handed ∧ m.begin e id cut =
      if (m.token cut).cancelled then (m.taking id).advance (m.token cut) id (.done .cancelled)
      else (m.decided t (t.plan.step.admits m.context.scope)).advance (m.token cut).checked id
        (t.begun e (t.plan.step.admits m.context.scope)) := by
  have hfound : ((t.id = id ∧ t.phase.isQueued = true) ∧ id ∈ m.places.handed) := by simpa using List.find?_some h
  obtain ⟨⟨rfl, hqueued⟩, hhanded⟩ := hfound
  refine ⟨List.mem_of_find?_eq_some h, rfl, Phase.isQueued_iff.mp hqueued, hhanded, ?_⟩
  unfold begin
  rw [h]
  dsimp only
  split
  · rfl
  · generalize t.plan.step.admits m.context.scope = decision
    cases decision with
    | error err => simp [decided, Task.begun]
    | ok b => cases b <;> simp [decided, Task.begun]

/-- To give a task its turn has one of the effects of a beginning. -/
theorem begin_effect (w : Workflow) (e : Engine) (now : Nat) (id : String) (cut : Option Nat) (m : Machine) :
    Effect w e now m (.begin id cut) (m.begin e id cut) := by
  cases hfind : m.tasks.find? fun t => t.id == id && t.phase.isQueued && m.places.handed.contains id with
  | none =>
    unfold begin
    rw [hfind]
    exact .idle _
  | some t =>
    obtain ⟨hmem, rfl, hqueued, hhanded, heq⟩ := begin_of_find? e cut hfind
    rw [heq]
    split
    · rename_i hstopped
      exact .refused hmem hqueued hhanded hstopped
    · rename_i hgoing
      exact .began hmem hqueued hhanded (by simpa using hgoing)

/-- A reply goes to the step that waits for it, if it does. -/
theorem reply_cases (ticket : Ticket) (r : Reply) (cut : Option Nat) (m : Machine) : m.reply ticket r cut = (m, []) ∨
    ∃ t ∈ m.tasks, ∃ p c, t.id = ticket.step ∧ t.phase = .active p ∧ (ticket.index, c) ∈ p.waitingFor ∧
      m.reply ticket r cut = m.advance (m.token cut) t.id (p.reply ticket.index r) := by
  unfold reply
  split
  · rename_i id plan p hfind
    split
    · rename_i hwaits
      obtain ⟨⟨index, c⟩, hc, hindex⟩ := List.any_eq_true.mp hwaits
      obtain rfl : index = ticket.index := by simpa using hindex
      have hid : id = ticket.step := by simpa using List.find?_some hfind
      subst hid
      exact .inr ⟨_, List.mem_of_find?_eq_some hfind, p, c, rfl, rfl, hc, rfl⟩
    · exact .inl rfl
  · exact .inl rfl

/-- Every move has one of these effects. -/
theorem move_effect (w : Workflow) (e : Engine) (now : Nat) (move : Move) (m : Machine) :
    Effect w e now m move (m.move w e now move) := by
  cases move with
  | dispatch => exact dispatch_effect w e now m
  | hear =>
    show Effect w e now m .hear (if m.ready.isEmpty then (m.hear w now, []) else (m, []))
    split
    · rename_i hready
      exact hear_effect w e now (by simpa using hready)
    · exact .idle _
  | join index =>
    show Effect w e now m (.join index) (if m.ready.isEmpty && m.listened then (m.join w now index, []) else (m, []))
    split
    · rename_i h
      obtain ⟨hready, hlistened⟩ := Bool.and_eq_true_iff.mp h
      cases hfound : m.ends[index]? with
      | none =>
        have hidle : m.join w now index = m := by simp only [join, hfound]
        rw [hidle]
        exact .idle _
      | some last => exact .joined (by simpa using hready) hlistened hfound
    · exact .idle _
  | ask id => exact ask_effect w e now id m
  | begin id cut => exact begin_effect w e now id cut m
  | reply ticket r cut =>
    show Effect w e now m (.reply ticket r cut) (m.reply ticket r cut)
    rcases reply_cases ticket r cut m with heq | ⟨t, ht, p, c, hid, hp, hwaits, heq⟩
    · rw [heq]
      exact .idle _
    · obtain ⟨step, index⟩ := ticket
      obtain rfl : t.id = step := hid
      rw [heq]
      exact .replied r ht hp hwaits
  | cancel => exact .cancelled

end Machine

end Runbook
