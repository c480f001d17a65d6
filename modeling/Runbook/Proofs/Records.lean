import Runbook.Proofs.Dependencies
import Runbook.Proofs.Execution
import Runbook.Proofs.Schedule

/-!
# Records and conduct

At every moment of a run the context holds the records of the steps that have ended and no others, every procedure is under way and
waits for a reply, and the trace keeps to what the plans allow.
-/

namespace Runbook

/-- The outcome of a step: it ran, or its condition did not hold, or it was stopped with its run. -/
inductive Outcome.Fair (cancelled : Bool) : Outcome StepError → Prop
  | ran {o : Outcome StepError} (h : o.Ran) : Fair cancelled o
  | skipped : Fair cancelled .skipped
  | cancelled (h : cancelled = true) : Fair cancelled .cancelled

/-- What is fair in a run is fair in one that is cancelled if it is. -/
theorem Outcome.Fair.mono {cancelled cancelled' : Bool} {o : Outcome StepError} (h : o.Fair cancelled)
    (hc : cancelled = true → cancelled' = true) : o.Fair cancelled' := by
  cases h with
  | ran h => exact .ran h
  | skipped => exact .skipped
  | cancelled h => exact .cancelled (hc h)

/-- A call of a plan is made on the way of the plan. -/
theorem Plan.Makes.prefix_path {e : Engine} {path : List String} {p : Plan} {c : Call} (h : p.Makes e path c) : path <+: c.path := by
  induction h with
  | own => exact List.prefix_refl _
  | body _ _ ih => exact (List.prefix_append _ _).trans ih

/-- A call is made by the step at its place, with the tool and inputs of this step. -/
theorem Plan.Makes.at_place {e : Engine} {path : List String} {p : Plan} {c : Call} (h : p.Makes e path c) :
    ∃ s, p.At path c.path (.single s) ∧ c.tool = s.tool ∧ ∃ scope, s.inputs.resolve scope = .ok c.inputs := by
  induction h with
  | own resolved _ => exact ⟨_, .here, rfl, _, resolved⟩
  | body hp _ ih =>
    obtain ⟨s, hat, hcall⟩ := ih
    exact ⟨s, .body hp hat, hcall⟩

/-- The call of a step outside of loops is made in its name. -/
theorem Plan.Makes.head?_path {e : Engine} {id : String} {p : Plan} {c : Call} (h : p.Makes e [id] c) : c.path.head? = some id := by
  obtain ⟨rest, hrest⟩ := h.prefix_path
  rw [← hrest]
  rfl

/-- What is under way to some results is so to others that they imply. -/
theorem Proc.UnderWay.mono {k : Conduct} {P Q : α → Prop} {p : Proc α} (hp : p.UnderWay k P) (h : ∀ a, P a → Q a) :
    p.UnderWay k Q := by
  cases hp with
  | fresh hp => exact .fresh (hp.mono (fun _ hc => hc) (fun _ hn => hn) (fun _ hn => hn) h)
  | gathering room wide fits serves made rest =>
    exact .gathering room wide fits serves made fun r hr => (rest r hr).mono (fun _ hc => hc) (fun _ hn => hn) (fun _ hn => hn) h

namespace Machine

/-- The outcome of a step, once it has ended. -/
def outcome? (m : Machine) (id : String) : Option (Outcome StepError) := (m.ended.find? (·.1 == id)).map (·.2)

/-- A step has no outcome exactly if it has not ended. -/
theorem outcome?_eq_none {m : Machine} {id : String} : m.outcome? id = none ↔ id ∉ m.endedIds := by
  rw [outcome?, endedIds, Option.map_eq_none_iff, List.find?_eq_none, List.mem_map]
  constructor
  · rintro h ⟨e, he, hid⟩
    exact h e he (by simpa using hid)
  · exact fun h e he hid => h ⟨e, he, by simpa using hid⟩

/-- The outcome of a step is one that it has ended with. -/
theorem mem_ended_of_outcome? {m : Machine} {id : String} {o : Outcome StepError} (h : m.outcome? id = some o) :
    (id, o) ∈ m.ended := by
  obtain ⟨⟨id', o'⟩, hfind, rfl⟩ := Option.map_eq_some_iff.mp h
  obtain rfl : id' = id := by simpa using List.find?_some hfind
  exact List.mem_of_find?_eq_some hfind

/-- The ends of steps are those in the trace. -/
theorem mem_trace_of_mem_ended {m : Machine} {id : String} {o : Outcome StepError} :
    (id, o) ∈ m.ended ↔ Trace.ended id o ∈ m.trace := by
  rw [ended, List.mem_filterMap]
  constructor
  · rintro ⟨x, hx, hended⟩
    cases x <;> simp only [Trace.ended?, reduceCtorEq, Option.some.injEq, Prod.mk.injEq] at hended
    obtain ⟨rfl, rfl⟩ := hended
    exact hx
  · exact fun h => ⟨_, h, rfl⟩

/-- The context holds the records of what has ended. -/
def Recorded (w : Workflow) (inputs : Fields) (m : Machine) : Prop :=
  m.context.Holds w inputs fun id => (m.outcome? id).map Outcome.entry

namespace Recorded

variable {w : Workflow} {inputs : Fields} {m : Machine}

/-- At the start the context holds no record. -/
theorem start (w : Workflow) (inputs : Fields) (now : Nat) : (start w inputs now).Recorded w inputs := Context.Holds.start w inputs

/-- Whether records are kept shows in the context and the ends only. -/
theorem of_eq {m' : Machine} (h : m.Recorded w inputs) (hcontext : m'.context = m.context) (hended : m'.ended = m.ended) :
    m'.Recorded w inputs := by
  have houtcome : m'.outcome? = m.outcome? := by
    funext id
    rw [outcome?, outcome?, hended]
  rw [Recorded, hcontext, houtcome]
  exact h

/-- A step that ends has its outcome, and the others have theirs as before. -/
theorem outcome?_finish {id : String} (hnew : id ∉ m.endedIds) (outcome : Outcome StepError) (k : String) :
    (m.finish id outcome).outcome? k = if k = id then some outcome else m.outcome? k := by
  rw [outcome?, ended_finish, List.find?_append]
  by_cases hk : k = id
  · subst hk
    have hfind : m.ended.find? (·.1 == k) = none := by simpa [outcome?] using outcome?_eq_none.mpr hnew
    simp [hfind]
  · simp [hk, Ne.symm hk, outcome?]

/-- The record of a step is written when it ends, once. -/
theorem finish (h : m.Recorded w inputs) {id : String} (hid : id ∈ w.graph.steps) (hnew : id ∉ m.endedIds)
    (outcome : Outcome StepError) : (m.finish id outcome).Recorded w inputs := by
  have hnone : (m.outcome? id).map Outcome.entry = none := by rw [outcome?_eq_none.mpr hnew, Option.map_none]
  refine (Context.Holds.close h hid hnone outcome.entry).congr ?_
  intro k _
  rw [outcome?_finish hnew]
  split
  · rfl
  · rfl

/-- What a procedure does on its way writes no record. -/
theorem log {α : Type} (h : m.Recorded w inputs) (token : CancelToken) (s : Settled α) : (m.log token s).Recorded w inputs :=
  h.of_eq rfl (ended_log m token s)

/-- The context holds the records of what has ended when a task advances. -/
theorem advance (h : m.Recorded w inputs) (hs : m.Scheduled w) {t : Task} (ht : t ∈ m.tasks) (token : CancelToken)
    (p : Proc (Outcome StepError)) : (m.advance token t.id p).1.Recorded w inputs := by
  have hlog : (m.log token (p.settle m.context.scope token)).Recorded w inputs := h.log token _
  rcases advance_cases token t.id p m with ⟨outcome, -, heq⟩ | ⟨-, heq⟩ | ⟨-, -, heq⟩ <;> rw [heq]
  · refine hlog.finish (hs.step_of_dispatched (hs.dispatched_of_task ht)) ?_ outcome
    rw [endedIds, ended_log]
    exact hs.not_ended_of_task ht
  · exact hlog.of_eq rfl (ended_die _ t.id)
  · exact hlog.of_eq rfl rfl

/-- Every move keeps the records. -/
theorem move (h : m.Recorded w inputs) (hs : m.Scheduled w) (e : Engine) (now : Nat) (move : Move) :
    (m.move w e now move).1.Recorded w inputs := by
  have heffect := move_effect w e now move m
  generalize m.move w e now move = r at heffect
  cases heffect with
  | idle => exact h
  | dispatched => exact h.of_eq rfl ended_dispatching
  | passed => exact h.of_eq rfl rfl
  | dropped => exact h.of_eq rfl rfl
  | listened => exact h.of_eq rfl rfl
  | heard =>
    obtain ⟨hcontext, -, htrace, -⟩ := hear_untouched w now m
    exact h.of_eq hcontext (congrArg (List.filterMap Trace.ended?) htrace)
  | @joined index =>
    obtain ⟨hcontext, -, htrace, -⟩ := join_untouched w now index m
    exact h.of_eq hcontext (congrArg (List.filterMap Trace.ended?) htrace)
  | asked => exact h.of_eq rfl (ended_asking e _ m)
  | cancelled => exact h.of_eq rfl rfl
  | @refused t cut mem =>
    have htaking : (m.taking t.id).Recorded w inputs := h.of_eq rfl rfl
    exact htaking.advance (taking_scheduled hs t.id) mem _ _
  | @began t cut mem =>
    have hdecided : (m.decided t (t.plan.step.admits m.context.scope)).Recorded w inputs := h.of_eq rfl (ended_decided m t _)
    exact hdecided.advance (decided_scheduled hs mem _) mem _ _
  | replied r mem => exact h.advance hs mem _ _

end Recorded

/-- Procedures, outcomes, calls and notes are what the plans allow. -/
structure Conforms (w : Workflow) (e : Engine) (m : Machine) : Prop where
  procs : ∀ t ∈ m.tasks, ∀ p, t.phase = .active p →
    p.UnderWay (t.plan.conduct e [t.id]) (Outcome.Fair m.cancelled) ∧ p.waitingFor ≠ []
  outcomes : ∀ id o, Trace.ended id o ∈ m.trace → o.Fair m.cancelled
  calls : ∀ c, Trace.called c ∈ m.trace → ∃ id p, w.plan? id = some p ∧ p.Makes e [id] c
  notes : ∀ n, Trace.noted n ∈ m.trace → ∃ id p, w.plan? id = some p ∧ p.Leaves e [id] n

namespace Conforms

variable {w : Workflow} {e : Engine} {m : Machine}

/-- At the start nothing is called. -/
theorem start (w : Workflow) (e : Engine) (inputs : Fields) (now : Nat) : (start w inputs now).Conforms w e := by
  exact ⟨nofun, nofun, nofun, nofun⟩

/-- A procedure is under way whether or not its run is cancelled while it goes on. -/
theorem way (h : m.Conforms w e) {t : Task} (ht : t ∈ m.tasks) {p : Proc (Outcome StepError)} (hp : t.phase = .active p)
    (token : CancelToken) : p.UnderWay (t.plan.conduct e [t.id]) (Outcome.Fair (m.cancelled || token.isSome)) :=
  (h.procs t ht p hp).1.mono fun _ ho => ho.mono fun hc => Bool.or_eq_true_iff.mpr (.inl hc)

/-- What is written down of neither ends, calls nor notes changes nothing of them. -/
theorem of_trace {m' : Machine} (h : m.Conforms w e) (new : List Trace) (htrace : m'.trace = m.trace ++ new)
    (hnew : ∀ x ∈ new, (∀ id o, x ≠ .ended id o) ∧ (∀ c, x ≠ .called c) ∧ ∀ n, x ≠ .noted n)
    (htasks : ∀ t ∈ m'.tasks, t ∈ m.tasks ∨ t.phase = .queued) (hcancelled : m.cancelled = true → m'.cancelled = true) :
    m'.Conforms w e := by
  have hfair {o : Outcome StepError} (ho : o.Fair m.cancelled) : o.Fair m'.cancelled := ho.mono hcancelled
  have hold {x : Trace} (hx : x ∈ m'.trace) (hno : x ∉ new) : x ∈ m.trace := by
    rw [htrace] at hx
    exact (List.mem_append.mp hx).resolve_right hno
  refine ⟨?_, fun id o ho => hfair (h.outcomes id o (hold ho fun hn => (hnew _ hn).1 id o rfl)),
    fun c hc => h.calls c (hold hc fun hn => (hnew _ hn).2.1 c rfl), fun n hn => h.notes n (hold hn fun hn' => (hnew _ hn').2.2 n rfl)⟩
  intro t ht p hp
  rcases htasks t ht with ht | hqueued
  · exact ⟨(h.procs t ht p hp).1.mono fun _ => hfair, (h.procs t ht p hp).2⟩
  · rw [hqueued] at hp
    cases hp

/-- A decision calls nothing. -/
theorem decided (h : m.Conforms w e) (t : Task) (decision : Except StepError Bool) : (m.decided t decision).Conforms w e :=
  h.of_trace [.turn t.id decision] rfl (by simp) (fun _ => .inl) id

/-- To take a place calls nothing. -/
theorem taking (h : m.Conforms w e) (id : String) : (m.taking id).Conforms w e :=
  h.of_trace [] (List.append_nil _).symm nofun (fun _ => .inl) fun hc => hc

/-- What a procedure does until it rests is written down. -/
theorem log (h : m.Conforms w e) {id : String} {p : Plan} (hplan : w.plan? id = some p) (token : CancelToken)
    {s : Settled (Outcome StepError)} {P : Outcome StepError → Prop} {before : List (CallIndex × Call)}
    (hs : s.Keeps (p.conduct e [id]) P before) : (m.log token s).Conforms w e := by
  have hfair {o : Outcome StepError} (ho : o.Fair m.cancelled) : o.Fair (m.log token s).cancelled :=
    ho.mono fun hc => Bool.or_eq_true_iff.mpr (.inl hc)
  refine ⟨fun t ht p hp => ⟨(h.procs t ht p hp).1.mono fun _ => hfair, (h.procs t ht p hp).2⟩, ?_, ?_, ?_⟩
  · intro id o ho
    rw [trace_log, List.mem_append, mem_traceOf] at ho
    rcases ho with ho | ⟨c, -, hc⟩ | ⟨n, -, hn⟩
    · exact hfair (h.outcomes id o ho)
    · cases hc
    · cases hn
  · intro c hc
    rw [trace_log, List.mem_append, mem_traceOf] at hc
    rcases hc with hc | ⟨c', hc', heq⟩ | ⟨n, -, hn⟩
    · exact h.calls c hc
    · obtain rfl := Trace.called.inj heq
      exact ⟨id, p, hplan, hs.calls c' hc'⟩
    · cases hn
  · intro n hn
    rw [trace_log, List.mem_append, mem_traceOf] at hn
    rcases hn with hn | ⟨c, -, hc⟩ | ⟨n', hn', heq⟩
    · exact h.notes n hn
    · cases hc
    · obtain rfl := Trace.noted.inj heq
      exact ⟨id, p, hplan, hs.notes _ hn'⟩

/-- The calls keep to the plans when a task ends fairly. -/
theorem finish (h : m.Conforms w e) (id : String) {outcome : Outcome StepError} (fair : outcome.Fair m.cancelled) :
    (m.finish id outcome).Conforms w e := by
  have hold {x : Trace} (hx : x ∈ (m.finish id outcome).trace) (hno : x ≠ .ended id outcome) : x ∈ m.trace := by
    rcases List.mem_append.mp hx with hx | hx
    · exact hx
    · exact absurd (List.mem_singleton.mp hx) hno
  refine ⟨fun t ht => h.procs t (List.mem_of_mem_filter ht), ?_, fun c hc => h.calls c (hold hc nofun),
    fun n hn => h.notes n (hold hn nofun)⟩
  intro k o ho
  rcases List.mem_append.mp ho with ho | ho
  · exact h.outcomes k o ho
  · obtain ⟨rfl, rfl⟩ := Trace.ended.inj (List.mem_singleton.mp ho)
    exact fair

/-- The calls keep to the plans when a task dies. -/
theorem die (h : m.Conforms w e) (id : String) : (m.die id).Conforms w e :=
  h.of_trace [.died id] rfl (by simp) (fun _ ht => .inl (List.mem_of_mem_filter ht)) fun hc => hc

/-- The calls keep to the plans when a task waits for calls. -/
theorem suspend (h : m.Conforms w e) {id : String} {p : Proc (Outcome StepError)}
    (hp : ∀ t ∈ m.tasks, t.id = id → p.UnderWay (t.plan.conduct e [t.id]) (Outcome.Fair m.cancelled) ∧ p.waitingFor ≠ []) :
    (m.suspend id p).Conforms w e := by
  refine ⟨?_, h.outcomes, h.calls, h.notes⟩
  intro t ht q hq
  obtain ⟨u, hu, rfl⟩ := List.mem_map.mp ht
  by_cases hid : u.id = id
  · rw [if_pos hid] at hq ⊢
    obtain rfl := Phase.active.inj hq
    exact hp u hu hid
  · rw [if_neg hid] at hq ⊢
    exact h.procs u hu q hq

/-- A step that advances keeps to its plan. -/
theorem advance (h : m.Conforms w e) (hs : m.Scheduled w) {t : Task} (ht : t ∈ m.tasks) {token : CancelToken}
    {p : Proc (Outcome StepError)}
    (hp : p.UnderWay (t.plan.conduct e [t.id]) (Outcome.Fair (m.cancelled || token.isSome))) :
    (m.advance token t.id p).1.Conforms w e := by
  have hkeeps := hp.settle m.context.scope token
  have hplan := hs.plans t ht
  have hlog : (m.log token (p.settle m.context.scope token)).Conforms w e := h.log hplan token hkeeps
  have hrests := hkeeps.rests
  rcases advance_cases token t.id p m with ⟨outcome, hdone, heq⟩ | ⟨-, heq⟩ | ⟨hdone, hpanics, heq⟩ <;> rw [heq]
  · refine hlog.finish t.id ?_
    rw [hdone] at hrests
    exact hrests.result
  · exact hlog.die t.id
  · refine hlog.suspend ?_
    intro u hu hid
    have huplan := hs.plans u hu
    rw [hid, hplan] at huplan
    obtain huplan := Option.some.inj huplan
    rw [hid, ← huplan]
    generalize (p.settle m.context.scope token).proc = q at hrests hdone hpanics
    cases hrests with
    | done _ => exact absurd rfl (hdone _)
    | waiting way waits => exact ⟨way, waits⟩
    | panicked _ panics => simp [panics] at hpanics

/-- What a step does once its condition was evaluated. -/
theorem begun_obeys (hw : w.Valid) (hs : m.Scheduled w) (e : Engine) {t : Task} (ht : t ∈ m.tasks) (scope : Scope) (cancelled : Bool) :
    (t.begun e (t.plan.step.admits scope)).Obeys (t.plan.conduct e [t.id]) (Outcome.Fair cancelled) := by
  have hplan := hw.plan_faultless (hs.plans t ht)
  obtain ⟨b, hb⟩ := hplan.step.admits scope
  rw [hb]
  cases b with
  | true => exact (Engine.dispatch_obeys e hplan [t.id]).mono (fun _ h => h) (fun _ h => h) (fun _ h => h) fun _ h => .ran h
  | false => exact .done .skipped

/-- Every move keeps to the plans. -/
theorem move (hw : w.Valid) (h : m.Conforms w e) (hs : m.Scheduled w) (now : Nat) (move : Move) :
    (m.move w e now move).1.Conforms w e := by
  have heffect := move_effect w e now move m
  generalize m.move w e now move = r at heffect
  have same {m' : Machine} (htrace : m'.trace = m.trace) (htasks : m'.tasks = m.tasks)
      (hcancelled : m.cancelled = true → m'.cancelled = true) : m'.Conforms w e :=
    h.of_trace [] (htrace.trans (List.append_nil _).symm) nofun (fun _ ht => .inl (htasks ▸ ht)) hcancelled
  cases heffect with
  | idle => exact h
  | @dispatched id ready plan =>
    refine h.of_trace [.dispatched id] rfl (by simp) ?_ fun hc => hc
    intro t ht
    rcases List.mem_append.mp ht with ht | ht
    · exact .inl ht
    · exact .inr (by rw [List.mem_singleton.mp ht])
  | passed => exact same rfl rfl fun hc => hc
  | dropped => exact same rfl rfl fun hc => hc
  | listened => exact same rfl rfl fun hc => hc
  | heard =>
    obtain ⟨-, htasks, htrace, hcancelled, -⟩ := hear_untouched w now m
    exact same htrace htasks fun hc => hcancelled.trans hc
  | @joined index =>
    obtain ⟨-, htasks, htrace, hcancelled, -⟩ := join_untouched w now index m
    exact same htrace htasks fun hc => hcancelled.trans hc
  | @asked t => exact h.of_trace [.asked t.id] rfl (by simp) (fun _ => .inl) fun hc => hc
  | cancelled => exact same rfl rfl fun _ => rfl
  | @refused t cut mem _ _ stopped =>
    refine (h.taking t.id).advance (taking_scheduled hs t.id) mem (.fresh (.done (.cancelled ?_)))
    rw [Option.isSome_iff_ne_none.mpr (CancelToken.ne_none_of_cancelled stopped), Bool.or_true]
  | @began t cut mem =>
    exact (h.decided t _).advance (decided_scheduled hs mem _) mem (.fresh (begun_obeys hw hs e mem _ _))
  | @replied t p index c cut r mem active =>
    exact h.advance hs mem ((h.way mem active _).reply index r)

/-- In a run, every call is that of the step at its place. -/
theorem call_at_place (h : m.Conforms w e) {c : Call} (hc : Trace.called c ∈ m.trace) :
    ∃ s, w.definition.PlanAt c.path (.single s) ∧ c.tool = s.tool ∧ ∃ scope, s.inputs.resolve scope = .ok c.inputs := by
  obtain ⟨id, p, hp, hmakes⟩ := h.calls c hc
  obtain ⟨hmem, rfl⟩ := Workflow.plan?_some hp
  obtain ⟨s, hat, hcall⟩ := hmakes.at_place
  exact ⟨s, ⟨p, hmem, hat⟩, hcall⟩

end Conforms

end Machine

end Runbook
