import Runbook.Command.Event
import Runbook.Proofs.Closing
import Runbook.Proofs.Precedence
import Runbook.Proofs.Timekeeping

/-!
# What an observer sees

An observer is told of the start of the run, of the start and the end of steps, and of the end of the run. The runner hears of starts
apart from ends: it reports the start of a step that ran before its end, or after it if the start is late. A step that was skipped or
refused its turn has no start. Only a run that says that it was cancelled has not told of the end of every step, unless a step died.
-/

namespace Runbook

namespace Event

/-- The steps whose starts are reported, in order. -/
def startedIn (events : List Event) : List String := events.filterMap started?

/-- The steps whose ends are reported, in order. -/
def finishedIn (events : List Event) : List String := (events.filterMap finished?).map (·.1)

@[simp] theorem startedIn_concat (events : List Event) (x : Event) :
    startedIn (events ++ [x]) = startedIn events ++ x.started?.toList := by
  rw [startedIn, List.filterMap_append, startedIn]
  cases x <;> rfl

@[simp] theorem finishedIn_concat (events : List Event) (x : Event) :
    finishedIn (events ++ [x]) = finishedIn events ++ (x.finished?.map (·.1)).toList := by
  rw [finishedIn, List.filterMap_append, List.map_append, finishedIn]
  cases x <;> rfl

/-- What may be reported of a run that goes on, after what was reported before: first the run, the start of a step once and when all
that it depends on has ended, and the end of a step once. -/
def MayFollow (w : Workflow) (before : List Event) : Event → Prop
  | runStarted name order => before = [] ∧ name = w.definition.name ∧ order = w.graph.order
  | stepStarted s => s ∈ w.definition.steps ∧ s.id ∉ startedIn before ∧ ∀ d ∈ w.graph.dependencies s.id, d ∈ finishedIn before
  | stepFinished s _ => s ∈ w.definition.steps ∧ s.id ∉ finishedIn before
  | runFinished _ => False

/-- Reports of a run that goes on, in an order in which each of them may follow those before. -/
inductive InOrder (w : Workflow) : List Event → Prop
  | nil : InOrder w []
  | snoc {events : List Event} {x : Event} (h : InOrder w events) (next : x.MayFollow w events) : InOrder w (events ++ [x])

namespace InOrder

variable {w : Workflow} {events before after : List Event} {x : Event}

/-- Every event of an order may follow what is before it. -/
theorem mayFollow (h : InOrder w events) (hsplit : events = before ++ x :: after) : x.MayFollow w before := by
  induction h generalizing after with
  | nil => exact absurd hsplit.symm (List.append_ne_nil_of_right_ne_nil before (List.cons_ne_nil x after))
  | @snoc events y h next ih =>
    rcases List.eq_nil_or_concat after with rfl | ⟨rest, z, rfl⟩
    · obtain ⟨rfl, hlast⟩ := List.append_inj' hsplit rfl
      obtain rfl := List.singleton_inj.mp hlast
      exact next
    · rw [List.concat_eq_append, ← List.cons_append, ← List.append_assoc] at hsplit
      exact ih (List.append_inj_left' hsplit rfl)

/-- Every event of an order has a place in it where it may stand. -/
theorem mayFollow_of_mem (h : InOrder w events) (hx : x ∈ events) :
    ∃ before after, events = before ++ x :: after ∧ x.MayFollow w before := by
  obtain ⟨before, after, hsplit⟩ := List.append_of_mem hx
  exact ⟨before, after, hsplit, h.mayFollow hsplit⟩

/-- No step is reported as started twice. -/
theorem nodup_started (h : InOrder w events) : (startedIn events).Nodup := by
  induction h with
  | nil => exact List.nodup_nil
  | @snoc events x _ next ih =>
    rw [startedIn_concat]
    cases x with
    | stepStarted s =>
      refine List.nodup_append.mpr ⟨ih, List.nodup_singleton _, ?_⟩
      rintro id ha _ hb rfl
      obtain rfl : id = s.id := List.mem_singleton.mp hb
      exact next.2.1 ha
    | runStarted name order => simpa [started?] using ih
    | stepFinished s o => simpa [started?] using ih
    | runFinished r => simpa [started?] using ih

/-- No step is reported as finished twice. -/
theorem nodup_finished (h : InOrder w events) : (finishedIn events).Nodup := by
  induction h with
  | nil => exact List.nodup_nil
  | @snoc events x _ next ih =>
    rw [finishedIn_concat]
    cases x with
    | stepFinished s o =>
      refine List.nodup_append.mpr ⟨ih, List.nodup_singleton _, ?_⟩
      rintro id ha _ hb rfl
      obtain rfl : id = s.id := List.mem_singleton.mp hb
      exact next.2 ha
    | runStarted name order => simpa [finished?] using ih
    | stepStarted s => simpa [finished?] using ih
    | runFinished r => simpa [finished?] using ih

end InOrder

/-- A step whose start is reported at all is reported to start before it ends, or late. -/
theorem started_before_or_late {events before after : List Event} {s : Step} {o : Outcome StepError}
    (hsplit : events = before ++ .stepFinished s o :: after) (hs : s.id ∈ startedIn events) : s.id ∈ startedIn before ∨ Late events s.id := by
  rw [startedIn, hsplit, List.filterMap_append, List.mem_append] at hs
  refine hs.imp_right fun hlate => ⟨before ++ [.stepFinished s o], after, by rw [hsplit, List.append_assoc, List.singleton_append], ?_, hlate⟩
  simp [finished?]

/-- What is reported before the end of the run. -/
theorem split_of_concat {events before after : List Event} {x y : Event} (hsplit : events ++ [y] = before ++ x :: after) (hne : x ≠ y) :
    ∃ rest, events = before ++ x :: rest := by
  rcases List.eq_nil_or_concat after with rfl | ⟨rest, z, rfl⟩
  · obtain ⟨-, hlast⟩ := List.append_inj' hsplit rfl
    exact absurd (List.singleton_inj.mp hlast).symm hne
  · rw [List.concat_eq_append, ← List.cons_append, ← List.append_assoc] at hsplit
    exact ⟨rest, List.append_inj_left' hsplit rfl⟩

end Event

/-- The step that began, its condition being met. -/
def Trace.begun? : Trace → Option String
  | turn id (.ok true) => some id
  | turn _ (.ok false) | turn _ (.error _) | dispatched _ | asked _ | called _ | noted _ | ended _ _ | died _ => none

namespace Machine

/-- The steps that began, in order. -/
def begunIds (m : Machine) : List String := m.trace.filterMap Trace.begun?

section Begun

variable {α : Type} (m : Machine) (token : CancelToken) (s : Settled α) (id : String)

@[simp] theorem begunIds_log : (m.log token s).begunIds = m.begunIds := filterMap_trace_log m token s (fun _ => rfl) fun _ => rfl

@[simp] theorem begunIds_finish (outcome : Outcome StepError) : (m.finish id outcome).begunIds = m.begunIds := by
  simp [begunIds, finish, Trace.begun?]

@[simp] theorem begunIds_die : (m.die id).begunIds = m.begunIds := by simp [begunIds, die, Trace.begun?]

/-- To go on begins no step. -/
theorem begunIds_advance (p : Proc (Outcome StepError)) : (m.advance token id p).1.begunIds = m.begunIds := by
  rcases advance_cases token id p m with ⟨o, -, heq⟩ | ⟨-, heq⟩ | ⟨-, -, heq⟩ <;> rw [heq]
  · rw [begunIds_finish, begunIds_log]
  · rw [begunIds_die, begunIds_log]
  · exact begunIds_log m token _

/-- A step that begins is one of which the runner has still to hear. -/
theorem begunIds_decided (t : Task) (decision : Except StepError Bool) :
    ∃ new, (m.decided t decision).begunIds = m.begunIds ++ new ∧ (m.decided t decision).starts = m.starts ++ new ∧
      (decision = .ok true ∧ new = [t.id] ∨ decision ≠ .ok true ∧ new = []) := by
  cases decision with
  | error err => exact ⟨[], by simp [begunIds, decided, Trace.begun?], rfl, Or.inr ⟨by simp, rfl⟩⟩
  | ok b =>
    cases b with
    | true => exact ⟨[t.id], by simp [begunIds, decided, Trace.begun?], rfl, Or.inl ⟨rfl, rfl⟩⟩
    | false => exact ⟨[], by simp [begunIds, decided, Trace.begun?], rfl, Or.inr ⟨by simp, rfl⟩⟩

/-- A step that begins is given its turn. -/
theorem mem_turnedIds_of_begun {m : Machine} {id : String} (h : id ∈ m.begunIds) : id ∈ m.turnedIds := by
  obtain ⟨x, hx, hid⟩ := List.mem_filterMap.mp h
  cases x with
  | turn k decision =>
    refine mem_turnedIds.mpr ⟨decision, ?_⟩
    obtain rfl : k = id := by
      cases decision with
      | error err => cases hid
      | ok b =>
        cases b with
        | true => exact Option.some.inj hid
        | false => cases hid
    exact hx
  | dispatched k => cases hid
  | asked k => cases hid
  | called c => cases hid
  | noted n => cases hid
  | ended k o => cases hid
  | died k => cases hid

end Begun

/-- What the runner has reported is in order: what began is what it told of and what it has still to hear of, and what ended ran if and
only if it began. -/
structure Reported (w : Workflow) (m : Machine) : Prop where
  opened : ∃ rest, m.events = .runStarted w.definition.name w.graph.order :: rest
  inOrder : Event.InOrder w m.events
  begun : Event.startedIn m.events ++ m.starts = m.begunIds
  once : m.begunIds.Nodup
  running : ∀ t ∈ m.tasks, ∀ p, t.phase = .active p → t.id ∈ m.begunIds ∧ p.UnderWay .any Outcome.Ran
  ended : ∀ id o, (id, o) ∈ m.ended → (o.status = .skipped ↔ id ∉ m.begunIds)

namespace Reported

variable {w : Workflow} {e : Engine} {inputs : Fields} {m : Machine}

theorem start (w : Workflow) (inputs : Fields) (now : Nat) : (start w inputs now).Reported w :=
  ⟨⟨[], rfl⟩, .snoc .nil ⟨rfl, rfl, rfl⟩, rfl, List.nodup_nil, nofun, nofun⟩

/-- Nothing of what began and ended has changed, and nothing is reported. -/
theorem of_eq {m' : Machine} (h : m.Reported w) (hevents : m'.events = m.events) (hstarts : m'.starts = m.starts)
    (htasks : ∀ t ∈ m'.tasks, ∀ p, t.phase = .active p → t ∈ m.tasks) (hbegun : m'.begunIds = m.begunIds) (hended : m'.ended = m.ended) :
    m'.Reported w := by
  refine ⟨hevents ▸ h.opened, hevents ▸ h.inOrder, ?_, hbegun ▸ h.once, ?_, hended ▸ hbegun ▸ h.ended⟩
  · rw [hevents, hstarts, hbegun]
    exact h.begun
  · intro t ht p hp
    rw [hbegun]
    exact h.running t (htasks t ht p hp) p hp

/-- The start that the runner hears of is reported. -/
theorem hear (hw : w.Valid) (h : m.Reported w) (hs : m.Scheduled w) {id : String} {starts : List String}
    (hstarts : m.starts = id :: starts) (now : Nat) : (m.hear w now).Reported w := by
  have hdispatched := hs.heard id (hstarts ▸ List.mem_cons_self)
  obtain ⟨p, hp⟩ := hw.plan?_of_mem (hs.step_of_dispatched hdispatched)
  obtain ⟨hplan, hpid⟩ := Workflow.plan?_some hp
  have hbegun := h.begun
  rw [hstarts] at hbegun
  have hnew : id ∉ Event.startedIn m.events := fun hid =>
    (List.nodup_append.mp (hbegun.symm ▸ h.once)).2.2 id hid id List.mem_cons_self rfl
  have hnext : Event.InOrder w (m.events ++ [.stepStarted p.step]) := by
    refine .snoc h.inOrder ⟨Definition.step_mem_of_mem_plans hplan, ?_⟩
    rw [hpid]
    exact ⟨hnew, (hs.freed id (List.mem_append_right _ hdispatched)).2⟩
  obtain ⟨rest, hrest⟩ := h.opened
  rw [Booked.hear_eq hstarts hp]
  refine ⟨⟨rest ++ _, congrArg (· ++ _) hrest⟩, hnext, ?_, h.once, h.running, h.ended⟩
  show Event.startedIn (m.events ++ [.stepStarted p.step]) ++ starts = m.begunIds
  rw [← hbegun, Event.startedIn_concat, Event.started?, hpid, List.append_assoc]
  rfl

/-- The end that the runner joins is reported. -/
theorem join (hw : w.Valid) (h : m.Reported w) (hs : m.Scheduled w) {index : Nat} {id : String} {o : Outcome StepError}
    (hends : m.ends[index]? = some (id, o)) (now : Nat) : (m.join w now index).Reported w := by
  obtain ⟨p, hp⟩ := hs.plan_of_end hw hends
  obtain ⟨hplan, hpid⟩ := Workflow.plan?_some hp
  have hnext : Event.InOrder w (m.events ++ [.stepFinished p.step o]) := by
    refine .snoc h.inOrder ⟨Definition.step_mem_of_mem_plans hplan, ?_⟩
    rw [hpid]
    exact hs.not_booked_of_end hends
  obtain ⟨rest, hrest⟩ := h.opened
  rw [join_eq hends hp]
  refine ⟨⟨rest ++ _, congrArg (· ++ _) hrest⟩, hnext, ?_, h.once, h.running, h.ended⟩
  show Event.startedIn (m.events ++ [.stepFinished p.step o]) ++ m.starts = m.begunIds
  rw [Event.startedIn_concat, ← h.begun]
  simp [Event.started?]

/-- A step that has not begun is skipped or refused its turn. -/
theorem skip (h : m.Reported w) {id : String} (hid : id ∉ m.begunIds) (token : CancelToken) {o : Outcome StepError}
    (ho : o.status = .skipped) : (m.advance token id (.done o)).1.Reported w := by
  have hbegun := begunIds_advance m token id (.done o)
  obtain ⟨-, hevents, -, -, hstarts, -⟩ := advance_untouched token id (.done o) m
  refine ⟨hevents ▸ h.opened, hevents ▸ h.inOrder, ?_, hbegun ▸ h.once, ?_, ?_⟩
  · rw [hevents, hstarts, hbegun]
    exact h.begun
  · intro t ht p hp
    rw [hbegun]
    rw [advance_done] at ht
    exact h.running t (List.mem_of_mem_filter ht) p hp
  · intro k o' hmem
    rw [hbegun]
    rcases mem_ended_advance hmem with hmem | ⟨rfl, hdone⟩
    · exact h.ended k o' hmem
    · obtain rfl := Proc.done.inj hdone
      exact iff_of_true ho hid

/-- A step that has begun goes on until it waits, has run or dies. -/
theorem advance (h : m.Reported w) {t : Task} (hbegun : t.id ∈ m.begunIds) (token : CancelToken) {p : Proc (Outcome StepError)}
    (hp : p.UnderWay .any Outcome.Ran) : (m.advance token t.id p).1.Reported w := by
  have hrests := (hp.settle m.context.scope token).rests
  have hsame := begunIds_advance m token t.id p
  obtain ⟨-, hevents, -, -, hstarts, -⟩ := advance_untouched token t.id p m
  refine ⟨hevents ▸ h.opened, hevents ▸ h.inOrder, ?_, hsame ▸ h.once, ?_, ?_⟩
  · rw [hevents, hstarts, hsame]
    exact h.begun
  · intro u hu q hq
    rw [hsame]
    rcases mem_tasks_advance hu with ⟨hu, -⟩ | ⟨hid, hactive⟩
    · exact h.running u hu q hq
    · obtain rfl := Phase.active.inj (hq.symm.trans hactive)
      exact ⟨hid ▸ hbegun, hrests.way⟩
  · intro k o hmem
    rw [hsame]
    rcases mem_ended_advance hmem with hmem | ⟨rfl, hdone⟩
    · exact h.ended k o hmem
    · rw [hdone] at hrests
      cases hrests.result <;> exact iff_of_false nofun fun hnot => hnot hbegun

/-- A step that had no turn may be given it, and may begin. -/
theorem decided (h : m.Reported w) (hs : m.Scheduled w) {t : Task} (ht : t ∈ m.tasks) (hnot : t.id ∉ m.begunIds)
    (decision : Except StepError Bool) : (m.decided t decision).Reported w := by
  obtain ⟨new, hbegun, hstarts, hnew⟩ := begunIds_decided m t decision
  have hown : ∀ id ∈ new, id = t.id := by
    intro id hid
    rcases hnew with ⟨-, rfl⟩ | ⟨-, rfl⟩
    · exact List.mem_singleton.mp hid
    · cases hid
  refine ⟨h.opened, h.inOrder, ?_, ?_, ?_, ?_⟩
  · rw [hbegun, hstarts, ← List.append_assoc, ← h.begun]
    rfl
  · rw [hbegun]
    refine List.nodup_append.mpr ⟨h.once, ?_, ?_⟩
    · rcases hnew with ⟨-, rfl⟩ | ⟨-, rfl⟩
      · exact List.nodup_singleton _
      · exact List.nodup_nil
    · rintro id hid _ hid' rfl
      exact hnot (hown id hid' ▸ hid)
  · intro u hu p hp
    rw [hbegun]
    exact ⟨List.mem_append_left _ (h.running u hu p hp).1, (h.running u hu p hp).2⟩
  · intro id o ho
    rw [ended_decided] at ho
    have hother : id ∉ new := by
      intro hid
      obtain rfl := hown id hid
      exact hs.not_ended_of_task ht (List.mem_map_of_mem (f := (·.1)) ho)
    rw [hbegun, List.mem_append, or_iff_left hother]
    exact h.ended id o ho

/-- Every move keeps the reports in order. -/
theorem move (hw : w.Valid) (h : m.Reported w) (hs : m.Scheduled w) (ht : m.Turns w e) (now : Nat) (mv : Move) :
    (m.move w e now mv).1.Reported w := by
  have hfresh {t : Task} (hmem : t ∈ m.tasks) (hqueued : t.phase = .queued) : t.id ∉ m.begunIds := fun hid =>
    ht.waiting t hmem hqueued (mem_turnedIds_of_begun hid)
  have hactive {t : Task} (hmem : t ∈ m.tasks) : ∀ p, t.phase = .active p → t ∈ m.tasks := fun _ _ => hmem
  have heffect := move_effect w e now mv m
  generalize m.move w e now mv = r at heffect
  cases heffect with
  | idle => exact h
  | dispatched =>
    refine h.of_eq rfl rfl ?_ (by simp [begunIds, dispatching, Trace.begun?]) ended_dispatching
    intro t hmem p hp
    refine (List.mem_append.mp hmem).resolve_right fun hmem => ?_
    rw [List.mem_singleton.mp hmem] at hp
    cases hp
  | passed => exact h.of_eq rfl rfl (fun _ => hactive) rfl rfl
  | dropped => exact h.of_eq rfl rfl (fun _ => hactive) rfl rfl
  | listened => exact h.of_eq rfl rfl (fun _ => hactive) rfl rfl
  | heard _ first => exact h.hear hw hs first now
  | joined _ _ found => exact h.join hw hs found now
  | asked => exact h.of_eq rfl rfl (fun _ => hactive) (by simp [begunIds, asking, Trace.begun?]) (ended_asking ..)
  | cancelled => exact h.of_eq rfl rfl (fun _ => hactive) rfl rfl
  | @refused t cut mem queued =>
    have htaking : (m.taking t.id).Reported w := h.of_eq rfl rfl (fun _ => hactive) rfl rfl
    exact htaking.skip (hfresh mem queued) _ rfl
  | @began t cut mem queued =>
    have hplan := hw.plan_faultless (hs.plans t mem)
    have hdecided := h.decided hs mem (hfresh mem queued)
    obtain ⟨b, hb⟩ := hplan.step.admits m.context.scope
    rw [hb]
    cases b with
    | true =>
      have hobeys : (e.dispatch [t.id] t.plan).Obeys .any Outcome.Ran :=
        (Engine.dispatch_obeys e hplan [t.id]).mono (fun _ _ => trivial) (fun _ _ => trivial) (fun _ _ => trivial) fun _ h => h
      exact (hdecided (.ok true)).advance (by simp [begunIds, Machine.decided, Trace.begun?]) _ (.fresh hobeys)
    | false =>
      have hnot : t.id ∉ (m.decided t (.ok false)).begunIds := by
        simpa [begunIds, Machine.decided, Trace.begun?] using hfresh mem queued
      exact (hdecided (.ok false)).skip hnot _ rfl
  | @replied t p index c cut r mem active waits =>
    obtain ⟨hbegun, hway⟩ := h.running t mem p active
    exact h.advance hbegun _ (hway.reply index r)

end Reported

/-- Every run keeps its reports in order. -/
theorem Run.reported {w : Workflow} (hw : w.Valid) {e : Engine} {may : Policy} {inputs : Fields} {now : Nat} {m : Machine}
    (hrun : Run w e may (start w inputs now) m) : m.Reported w := by
  induction hrun with
  | refl => exact .start w inputs now
  | move hrun now' mv _ ih =>
    exact ih.move hw (hrun.sound hw (start_sound hw e inputs now)).scheduled (hrun.turns_and_gaps hw).1 now' mv

end Machine

/-! ## What is reported of a run that is over -/

/-- Every record is closed in the end. -/
theorem StepRun.terminal_closeRun (r : StepRun) (now : Nat) (cancelled : Bool) :
    (RunState.closeRun now cancelled r).status.terminal = true := by
  unfold RunState.closeRun
  split
  · rename_i hclosing
    unfold RunState.closing? at hclosing
    split at hclosing
    · assumption
    · split at hclosing <;> cases hclosing
  · rename_i outcome _
    cases outcome <;> rfl

namespace RunResult

/-- Of steps that have all ended, each is completed, skipped or failed. -/
theorem count_terminal {steps : Keyed StepRun} (h : ∀ entry ∈ steps, entry.2.status.terminal = true) :
    (steps.countP (·.2.status = .completed)) + (steps.countP (·.2.status = .skipped)) + (steps.countP (·.2.status = .error))
      = steps.length := by
  induction steps with
  | nil => rfl
  | cons entry steps ih =>
    have hrest := ih fun entry hmem => h entry (List.mem_cons_of_mem _ hmem)
    have hentry := h entry List.mem_cons_self
    rw [List.countP_cons, List.countP_cons, List.countP_cons, List.length_cons]
    cases hstatus : entry.2.status with
    | pending => simp [hstatus, StepStatus.terminal] at hentry
    | running => simp [hstatus, StepStatus.terminal] at hentry
    | skipped => simp; omega
    | completed => simp; omega
    | error => simp; omega

/-- The result of books with an entry for every step counts every step once. -/
theorem count_steps {w : Workflow} (hw : w.Valid) {s : RunState} {booked : List (String × Outcome StepError)} {late : String → Prop}
    (h : s.Books w booked late) (now : Nat) :
    (s.result now).count .completed + (s.result now).count .skipped + (s.result now).count .error = w.definition.steps.length := by
  obtain ⟨hsorted, hkeys⟩ := h.keys_result now
  have hended : ∀ entry ∈ (s.result now).steps, entry.2.status.terminal = true := by
    intro entry hmem
    obtain ⟨⟨id, r⟩, -, rfl⟩ := List.mem_map.mp hmem
    exact r.terminal_closeRun now s.cancelled
  have hperm : (Keyed.keys (s.result now).steps).Perm w.graph.steps := by
    refine (List.perm_ext_iff_of_nodup hsorted.nodup hw.nodup_steps).mpr fun id => ?_
    rw [hkeys, Keyed.mem_keys_ofList]
    simp
  calc (s.result now).count .completed + (s.result now).count .skipped + (s.result now).count .error
    _ = (s.result now).steps.length := count_terminal hended
    _ = (Keyed.keys (s.result now).steps).length := (List.length_map _).symm
    _ = w.graph.steps.length := hperm.length_eq
    _ = w.definition.steps.length := by rw [hw.steps_eq, Definition.ids, List.length_map]

end RunResult

/-- What an observer sees of a run that came to a result. The start of a step may be late. -/
structure Observed (d : Definition) (r : RunResult) (events : List Event) : Prop where
  first : ∃ order rest, events = .runStarted d.name order :: rest ∧ ∀ name order, .runStarted name order ∉ rest
  last : ∃ before, events = before ++ [.runFinished r] ∧ ∀ r', .runFinished r' ∉ before
  steps : ∀ s, (.stepStarted s ∈ events ∨ ∃ o, .stepFinished s o ∈ events) → s ∈ d.steps
  startsOnce : (Event.startedIn events).Nodup
  endsOnce : (Event.finishedIn events).Nodup
  startFirst : ∀ before s o after, events = before ++ .stepFinished s o :: after → s.id ∈ Event.startedIn events →
    s.id ∈ Event.startedIn before ∨ Event.Late events s.id
  ran : ∀ before s o after, events = before ++ .stepFinished s o :: after → o.status = .completed ∨ o.status = .error →
    s.id ∈ Event.startedIn before ∨ Event.Late events s.id
  skipped : ∀ s o, .stepFinished s o ∈ events → o.status = .skipped → s.id ∉ Event.startedIn events
  dependenciesFirst : ∀ before s after, events = before ++ .stepStarted s :: after → ∀ b, d.DependsOn s.id b →
    b ∈ Event.finishedIn before
  counted : ∀ x ∈ events, ∀ success cancelled durationMs completed skipped failed,
    .workflowComplete success cancelled durationMs completed skipped failed ∈ x.shown r →
      completed + skipped + failed = d.steps.length

namespace Machine

variable {w : Workflow} {m : Machine}

/-- Of a run that is over, the starts of those steps that began were reported. -/
theorem Reported.skipped_iff (h : m.Reported w) (hs : m.Scheduled w) (hf : m.finished = true) {s : Step} {o : Outcome StepError}
    (hmem : .stepFinished s o ∈ m.events) : o.status = .skipped ↔ s.id ∉ Event.startedIn m.events := by
  have hstarts : m.starts = [] := by simp_all [finished]
  have hbegun := h.begun
  rw [hstarts, List.append_nil] at hbegun
  have hbooked : (s.id, o) ∈ m.booked := List.mem_filterMap.mpr ⟨_, hmem, rfl⟩
  rw [hbegun]
  exact h.ended s.id o (hs.accounts.mem_iff.mpr (List.mem_append_left _ hbooked))

/-- The start of the run is reported before all else, and never again. -/
theorem Reported.started_first (h : m.Reported w) :
    ∃ rest, m.events = .runStarted w.definition.name w.graph.order :: rest ∧ ∀ name order, .runStarted name order ∉ rest := by
  obtain ⟨rest, hrest⟩ := h.opened
  refine ⟨rest, hrest, ?_⟩
  intro name order hmem
  obtain ⟨before, after, rfl⟩ := List.append_of_mem hmem
  have hnext : Event.MayFollow w (.runStarted w.definition.name w.graph.order :: before) (.runStarted name order) :=
    h.inOrder.mayFollow hrest
  exact List.cons_ne_nil _ _ hnext.1

/-- The end of the run is not reported before the run is over. -/
theorem Reported.not_finished (h : m.Reported w) (r : RunResult) : .runFinished r ∉ m.events := by
  intro hmem
  obtain ⟨before, after, -, hnever⟩ := h.inOrder.mayFollow_of_mem hmem
  exact hnever

/-- The counts that the end of the run is shown with add up to the steps of the workflow. -/
theorem Reported.counted (hw : w.Valid) (h : m.Reported w) (hb : m.Booked w) (later : Nat) {x : Event}
    (hx : x ∈ m.events ++ [.runFinished (m.result later)]) {success cancelled : Bool} {durationMs completed skipped failed : Nat}
    (hshown : .workflowComplete success cancelled durationMs completed skipped failed ∈ x.shown (m.result later)) :
    completed + skipped + failed = w.definition.steps.length := by
  rcases List.mem_append.mp hx with hx | hx
  · cases x with
    | runStarted name order => simp [Event.shown] at hshown
    | stepStarted s => simp [Event.shown] at hshown
    | stepFinished s o => cases o <;> simp [Event.shown] at hshown
    | runFinished r => exact absurd hx (h.not_finished r)
  · obtain rfl := List.mem_singleton.mp hx
    simp only [Event.shown, List.mem_singleton, OutputEvent.workflowComplete.injEq] at hshown
    obtain ⟨-, -, -, rfl, rfl, rfl⟩ := hshown
    exact RunResult.count_steps hw hb.books later

/-- The reports of a run that is over are what an observer sees of it. -/
theorem Reported.observed (hw : w.Valid) (h : m.Reported w) (hs : m.Scheduled w) (hb : m.Booked w) (hf : m.finished = true) (later : Nat) :
    Observed w.definition (m.result later) (m.events ++ [.runFinished (m.result later)]) := by
  set r := m.result later
  have hstarted : Event.startedIn (m.events ++ [.runFinished r]) = Event.startedIn m.events := by simp [Event.started?]
  have hfinished : Event.finishedIn (m.events ++ [.runFinished r]) = Event.finishedIn m.events := by simp [Event.finished?]
  have hold {x : Event} (hx : x ∈ m.events ++ [.runFinished r]) (hne : x ≠ .runFinished r) : x ∈ m.events :=
    (List.mem_append.mp hx).resolve_right fun hlast => hne (List.mem_singleton.mp hlast)
  have hended {before after : List Event} {s : Step} {o : Outcome StepError}
      (hsplit : m.events ++ [.runFinished r] = before ++ .stepFinished s o :: after) : .stepFinished s o ∈ m.events :=
    hold (by simp [hsplit]) (by simp)
  refine ⟨?_, ?_, ?_, hstarted ▸ h.inOrder.nodup_started, hfinished ▸ h.inOrder.nodup_finished,
    fun before s o after => Event.started_before_or_late, ?_, ?_, ?_, ?_⟩
  · obtain ⟨rest, hrest, honce⟩ := h.started_first
    refine ⟨w.graph.order, rest ++ [.runFinished r], congrArg (· ++ _) hrest, ?_⟩
    intro name order hmem
    rcases List.mem_append.mp hmem with hmem | hmem
    · exact honce name order hmem
    · cases List.mem_singleton.mp hmem
  · exact ⟨m.events, rfl, h.not_finished⟩
  · rintro s (hmem | ⟨o, hmem⟩)
    · obtain ⟨before, after, -, hnext⟩ := h.inOrder.mayFollow_of_mem (hold hmem (by simp))
      exact hnext.1
    · obtain ⟨before, after, -, hnext⟩ := h.inOrder.mayFollow_of_mem (hold hmem (by simp))
      exact hnext.1
  · intro before s o after hsplit hran
    refine Event.started_before_or_late hsplit ?_
    rw [hstarted]
    by_contra hnot
    have hskipped := (h.skipped_iff hs hf (hended hsplit)).mpr hnot
    simp [hskipped] at hran
  · intro s o hmem hskipped
    rw [hstarted]
    exact (h.skipped_iff hs hf (hold hmem (by simp))).mp hskipped
  · intro before s after hsplit b hb
    obtain ⟨rest, hrest⟩ := Event.split_of_concat hsplit (by simp)
    exact (h.inOrder.mayFollow hrest).2.2 b (hw.mem_dependencies.mpr hb)
  · intro x hx success cancelled durationMs completed skipped failed hshown
    exact h.counted hw hb later hx hshown

/-- Unless a step died, the end of a step is missing only in a run that says that it was cancelled. -/
theorem Run.cancelled_of_unfinished {e : Engine} {may : Policy} {inputs : Fields} {now : Nat} (hw : w.Valid)
    (hrun : Run w e may (start w inputs now) m) (hf : m.finished = true) (hdied : m.died = []) (later : Nat) {s : Step}
    (hmem : s ∈ w.definition.steps) (hnot : s.id ∉ Event.finishedIn (m.events ++ [.runFinished (m.result later)])) :
    (m.result later).cancelled = true := by
  have hs := hrun.sound hw (start_sound hw e inputs now)
  have hid : s.id ∈ w.graph.steps := hw.steps_eq ▸ List.mem_map_of_mem hmem
  obtain ⟨hended, hdispatched⟩ := hs.scheduled.over hf hdied
  refine ((hrun.tells hw hf hdied later).left s.id hid fun hmem => hnot ?_).1
  rw [Event.finishedIn_concat]
  exact List.mem_append_left _ ((hended.map _).mem_iff.mp (hdispatched.mem_iff.mp hmem))

end Machine

namespace Workflow

open Machine

/-- However a run of a valid workflow is driven and whenever it is cancelled, its observer sees it begin once and first and end once
and last, sees the start of a step before its end, or late, and after the ends of all that it depends on, and no start of a step that is
skipped. With settings that a semaphore has permits for, it misses the end of a step only if the result says that the run was cancelled.
Where the runner joins ends only when it has heard of their starts, no start is late; and so it is with every run on the clock. -/
theorem observer_sees_run {d : Definition} {w : Workflow} (hd : ofDefinition d = .ok w) (e : Engine) (inputs : Fields) (now : Nat) :
    (∀ m, Run w e .any (start w inputs now) m → m.finished = true → ∀ later,
      Observed d (m.result later) (m.events ++ [.runFinished (m.result later)]) ∧
      (e.settings.Permitted → ∀ s ∈ d.steps, s.id ∉ Event.finishedIn (m.events ++ [.runFinished (m.result later)]) →
        (m.result later).cancelled = true)) ∧
    (∀ m, Run w e (.inTime .any) (start w inputs now) m → ∀ later id, ¬Event.Late (m.events ++ [.runFinished (m.result later)]) id) ∧
    ∀ (W : Type) (settings : EngineSettings) (box : Toolbox W) (world : W) (supplied : Fields) (cancelled : Bool) (report : RunReport W),
      d.run settings box world supplied cancelled now = .ok report →
        Observed d report.result report.events ∧ (∀ id, ¬Event.Late report.events id) ∧
        (settings.Permitted → ∀ s ∈ d.steps, s.id ∉ Event.finishedIn report.events → report.result.cancelled = true) := by
  obtain ⟨rfl, hw⟩ := valid_of_definition hd
  have hseen {e : Engine} {inputs : Fields} {m : Machine} {may : Policy} (hrun : Run w e may (start w inputs now) m)
      (hf : m.finished = true) (later : Nat) :
      Observed w.definition (m.result later) (m.events ++ [.runFinished (m.result later)]) ∧
      (e.settings.Permitted → ∀ s ∈ w.definition.steps, s.id ∉ Event.finishedIn (m.events ++ [.runFinished (m.result later)]) →
        (m.result later).cancelled = true) := by
    have hs := hrun.sound hw (start_sound hw e inputs now)
    refine ⟨(hrun.reported hw).observed hw hs.scheduled hs.booked hf later, ?_⟩
    exact fun hpermitted s hmem hnot => hrun.cancelled_of_unfinished hw hf (hrun.died_eq_nil hw hpermitted.loops) later hmem hnot
  have hinTime {e : Engine} {inputs : Fields} {m : Machine} (hrun : Run w e (.inTime .any) (start w inputs now) m) (later : Nat)
      (id : String) : ¬Event.Late (m.events ++ [.runFinished (m.result later)]) id := by
    rw [Event.late_concat]
    exact fun h => h.elim (hrun.not_late hw id) fun h => nomatch h.1
  refine ⟨fun m hrun hf later => hseen hrun hf later, fun m hrun later id => hinTime hrun later id, ?_⟩
  intro W settings box world supplied cancelled report hreport
  cases hbound : w.definition.bindInputs supplied with
  | error name => simp [Definition.run, hd, hbound, Except.mapError, bind, Except.bind] at hreport
  | ok inputs =>
    obtain ⟨report', m, later, hreport', hrun, hf, hresult, hevents, -⟩ := run_on_clock hd settings box world hbound cancelled now
    obtain rfl := Except.ok.inj (hreport.symm.trans hreport')
    rw [hevents, hresult]
    exact ⟨(hseen hrun hf later).1, hinTime hrun later, (hseen hrun hf later).2⟩

/-- A run that is cancelled while its first steps run: their starts and ends are reported, the loop's are not, and the run is cancelled. -/
theorem observer_sees_run_of_sample : ∃ (w : Workflow) (m : Machine), ofDefinition .sample = .ok w ∧ m.finished = true ∧
    Event.startedIn m.events = ["list", "apart"] ∧ Event.finishedIn m.events = ["list", "apart"] ∧
    Observed .sample (m.result 0) (m.events ++ [.runFinished (m.result 0)]) ∧ (m.result 0).cancelled = true := by
  let e : Engine := ⟨.default, fun _ => true⟩
  let moves : List Move := [.dispatch, .dispatch, .ask "list", .begin "list" none, .ask "apart", .begin "apart" none, .hear, .hear,
    .cancel, .reply ⟨"list", none⟩ (.answer (.value (.arr []))) none, .reply ⟨"apart", none⟩ (.answer (.value .null)) none,
    .hear, .join 0, .dispatch, .hear, .join 0]
  let last (w : Workflow) : Machine := moves.foldl (fun m mv => (m.move w e 0 mv).1) (start w [] 0)
  have hend : ((ofDefinition .sample).toOption.map fun w =>
      ((last w).finished, Event.startedIn (last w).events, Event.finishedIn (last w).events)) =
        some (true, ["list", "apart"], ["list", "apart"]) := by decide +kernel
  obtain ⟨w, hd, hend⟩ := exists_of_map_toOption hend
  obtain ⟨hf, hreports⟩ := Prod.mk.inj hend
  obtain ⟨hstarted, hfinished⟩ := Prod.mk.inj hreports
  have hseen := (observer_sees_run hd e [] 0).1 (last w) (Machine.run_foldl w e 0 moves (start w [] 0)) hf 0
  refine ⟨w, last w, hd, hf, hstarted, hfinished, hseen.1, hseen.2 (by decide) .sampleLoop (by simp [Definition.sample]) ?_⟩
  have hwhole : Event.finishedIn ((last w).events ++ [.runFinished ((last w).result 0)]) = ["list", "apart"] := by
    rw [Event.finishedIn_concat, hfinished]
    rfl
  rw [hwhole]
  decide

/-- The run of the sample that hears of a start after the end: its observer sees the first step complete before it starts. -/
theorem late_start_observed : ∃ (w : Workflow) (before after : List Event) (s : Step) (o : Outcome StepError),
    ofDefinition .sample = .ok w ∧ Run w ⟨.default, fun _ => true⟩ .uncancelled (start w [] 0) w.lateRun ∧ w.lateRun.finished = true ∧
    w.lateRun.events = before ++ .stepFinished s o :: after ∧ o.status = .completed ∧ s.id ∉ Event.startedIn before ∧
    s.id ∈ Event.startedIn after := by
  have hend : ((ofDefinition .sample).toOption.map fun w => (w.lateRun.finished,
      (w.lateRun.events.tail.head?.bind Event.finished?).any fun x =>
        decide (x.2.status = .completed ∧ x.1 ∈ Event.startedIn w.lateRun.events.tail.tail))) = some (true, true) := by decide +kernel
  obtain ⟨w, hd, hend⟩ := exists_of_map_toOption hend
  obtain ⟨hf, hany⟩ := Prod.mk.inj hend
  obtain ⟨rest, hrest⟩ := (w.run_lateRun.reported (valid_of_definition hd).2).opened
  rw [hrest, List.tail_cons] at hany
  simp only [Option.any_eq_true, Option.bind_eq_some_iff, decide_eq_true_eq] at hany
  obtain ⟨_, ⟨x, hx, hfinished⟩, hcompleted, hstarted⟩ := hany
  obtain ⟨after, rfl⟩ : ∃ after, rest = x :: after := by
    cases rest with
    | nil => cases hx
    | cons y after => exact ⟨after, by rw [Option.some.inj hx]⟩
  cases x with
  | stepFinished s o =>
    obtain rfl := Option.some.inj hfinished
    exact ⟨w, [.runStarted _ _], after, s, o, hd, w.run_lateRun, hf, hrest, hcompleted, List.not_mem_nil, hstarted⟩
  | runStarted _ _ => cases hfinished
  | stepStarted _ => cases hfinished
  | runFinished _ => cases hfinished

end Workflow

end Runbook
