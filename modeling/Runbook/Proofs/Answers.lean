import Runbook.Proofs.Sequence
import Runbook.Proofs.Signals

/-!
# Answered runs

A run in which every call comes back with its own answer, in whatever order, does what the steps do one at a time: a step that runs
has made the first of its calls and will make the others, and a step that has ended has made all of them and has come to its outcome.
-/

namespace Runbook

/-! ## What is left of a performance -/

/-- What is left of a performance when these calls of it have been made. -/
structure Performed.Left (whole : Performed α) (made : List Call) (rest : Performed α) : Prop where
  result : rest.result = whole.result
  calls : made ++ rest.calls = whole.calls

namespace Performed.Left

variable {whole rest : Performed α} {made : List Call}

/-- What is done of what is left is no longer left. -/
theorem after {calls : List Call} {notes : List Note} (h : whole.Left made (rest.after calls notes)) :
    whole.Left (made ++ calls) rest :=
  ⟨h.result, (List.append_assoc ..).trans h.calls⟩

end Performed.Left

/-! ## Turns -/

/-- A step that gets its turn does what it does when it is executed. -/
theorem Task.answered_begun (e : Engine) (ask : Call → Reply) (scope : Scope) (t : Task) :
    (t.begun e (t.plan.step.admits scope)).answered ask scope = (e.execute [t.id] t.plan).answered ask scope := by
  unfold Engine.execute Engine.guard
  simp only [Proc.answered]
  cases t.plan.step.admits scope with
  | error err => rfl
  | ok b =>
    cases b with
    | true => rfl
    | false => rfl

/-- What a task does once it has begun is blind to the steps that it has nothing to do with. -/
theorem Task.begun_blind {w : Workflow} (hw : w.Valid) (e : Engine) {t : Task} (hplan : w.plan? t.id = some t.plan)
    (decision : Except StepError Bool) : (t.begun e decision).Blind (w.unrelated t.id) := by
  cases decision with
  | error err => exact Engine.conclude_blind [t.id] (.error err)
  | ok b =>
    cases b with
    | true => exact hw.dispatch_blind e hplan [t.id]
    | false => exact .done _

namespace Machine

/-- There is one call in flight for a ticket. -/
theorem inFlight_unique {m : Machine} (hnd : (m.tasks.map (·.id)).Nodup) {t : Task} (ht : t ∈ m.tasks)
    {p : Proc (Outcome StepError)} (hp : t.phase = .active p) {index : CallIndex} {c c' : Call} (hc : (index, c) ∈ p.waitingFor)
    (hc' : (⟨t.id, index⟩, c') ∈ m.inFlight) : c' = c := by
  obtain ⟨t', ht', hid, p', hp', hmem⟩ := mem_inFlight.mp hc'
  have hfind := find?_of_nodup (fun t : Task => t.id) hnd ht
  have hfind' := find?_of_nodup (fun t : Task => t.id) hnd ht'
  simp only [hid] at hfind'
  obtain rfl := Option.some.inj (hfind.symm.trans hfind')
  obtain rfl := Phase.active.inj (hp.symm.trans hp')
  exact Proc.waitingFor_unique hmem hc

/-- A driver that never cancels, and lets every call come back with its answer. -/
def Policy.answering (ask : Call → Reply) : Policy := fun m mv =>
  match mv with
  | .cancel => False
  | .begin _ cut => cut = none
  | .reply ticket r cut => cut = none ∧ ∃ c, (ticket, c) ∈ m.inFlight ∧ r = ask c
  | .dispatch | .hear | .join _ | .ask _ => True

/-- A driver that answers lets everything go on. -/
theorem Policy.answering_live (ask : Call → Reply) : (Policy.answering ask).Live :=
  ⟨fun _ => trivial, fun _ => trivial, fun _ _ => trivial, fun _ _ => trivial, fun _ _ => rfl,
    fun _ t p _ c ht hp hc => ⟨ask c, rfl, c, mem_inFlight.mpr ⟨t, ht, rfl, p, hp, hc⟩, rfl⟩⟩

/-! ## What has been done -/

/-- A run that is not cancelled in which everything that is done is what the steps do in a context. -/
structure Follows (w : Workflow) (e : Engine) (ask : Call → Reply) (c : Context) (m : Machine) : Prop where
  going : m.cancelled = false
  running : ∀ t ∈ m.tasks, ∀ p, t.phase = .active p → p.Blind (w.unrelated t.id) ∧
    (w.performed e ask c t.id).Left (m.callsOf t.id) (p.remaining ask c.scope)
  ended : ∀ id o, (id, o) ∈ m.ended → (w.performed e ask c id).Left (m.callsOf id) ⟨o, [], []⟩
  queued : ∀ t ∈ m.tasks, t.phase = .queued → m.callsOf t.id = []
  unseen : ∀ id, id ∉ m.dispatched → m.callsOf id = []

section Calls

variable {m : Machine}

/-- A step that advances makes calls of its own and of no other step. -/
theorem callsOf_advance {e : Engine} {t : Task} {p : Proc (Outcome StepError)} {P : Outcome StepError → Prop}
    (hp : p.UnderWay (t.plan.conduct e [t.id]) P) (token : CancelToken) (k : String) :
    (m.advance token t.id p).1.callsOf k =
      m.callsOf k ++ if k = t.id then (p.settle m.context.scope token).calls.map (·.2) else [] := by
  have hown : ∀ c ∈ (p.settle m.context.scope token).calls.map (·.2), c.path.head? = some t.id := by
    intro c hc
    obtain ⟨c', hc', rfl⟩ := List.mem_map.mp hc
    have hmakes : t.plan.Makes e [t.id] c'.2 := (hp.settle m.context.scope token).calls c' hc'
    exact hmakes.head?_path
  rw [callsOf, calls_advance, List.filter_append, callsOf]
  congr 1
  split
  · rename_i hk
    exact List.filter_eq_self.mpr fun c hc => by simp [hown c hc, hk]
  · rename_i hk
    exact List.filter_eq_nil_iff.mpr fun c hc => by simp [hown c hc, Ne.symm hk]

end Calls

namespace Follows

variable {w : Workflow} {e : Engine} {ask : Call → Reply} {inputs : Fields} {c : Context} {m : Machine}

theorem start (w : Workflow) (e : Engine) (ask : Call → Reply) (c : Context) (inputs : Fields) (now : Nat) :
    (start w inputs now).Follows w e ask c := ⟨rfl, nofun, nofun, nofun, fun _ _ => rfl⟩

/-- What a run follows shows in its tasks and in what has happened only. -/
theorem of_eq {m' : Machine} (h : m.Follows w e ask c) (hcancelled : m'.cancelled = m.cancelled) (htasks : m'.tasks = m.tasks)
    (hended : m'.ended = m.ended) (hcalls : m'.calls = m.calls) (hdispatched : m'.dispatched = m.dispatched) :
    m'.Follows w e ask c := by
  have hcallsOf (id : String) : m'.callsOf id = m.callsOf id := by rw [callsOf, callsOf, hcalls]
  refine ⟨hcancelled.trans h.going, ?_, ?_, ?_, ?_⟩
  · intro t ht p hp
    rw [hcallsOf]
    exact h.running t (htasks ▸ ht) p hp
  · intro id o ho
    rw [hcallsOf]
    exact h.ended id o (hended ▸ ho)
  · intro t ht hq
    rw [hcallsOf]
    exact h.queued t (htasks ▸ ht) hq
  · intro id hid
    rw [hcallsOf]
    exact h.unseen id (hdispatched ▸ hid)

/-- A dispatched step sees what it would see at the end. -/
theorem agreeOutside (h : m.Follows w e ask c) (hs : m.Scheduled w) (hr : m.Recorded w inputs)
    (hc : c.Holds w inputs fun id => some (w.performed e ask c id).result.entry) {id : String} (hid : id ∈ m.dispatched) :
    m.context.scope.AgreeOutside (w.unrelated id) c.scope := by
  refine Context.Holds.agreeOutside hr hc ?_
  intro d hd hshown
  have hdep : d ∈ w.graph.dependencies id := by
    by_contra hno
    exact hshown (Workflow.mem_unrelated.mpr ⟨hd, hno⟩)
  have hended := hs.ended_of_dependency hid hdep
  cases ho : m.outcome? d with
  | none => exact absurd hended (outcome?_eq_none.mp ho)
  | some o =>
    have hresult := (h.ended d o (mem_ended_of_outcome? ho)).result
    rw [← hresult]
    rfl

/-- A step that advances goes on with what is left of it. -/
theorem advance {P : Outcome StepError → Prop} (h : m.Follows w e ask c) (hs : m.Scheduled w) (hr : m.Recorded w inputs)
    (hc : c.Holds w inputs fun id => some (w.performed e ask c id).result.entry) {t : Task} (ht : t ∈ m.tasks)
    {p : Proc (Outcome StepError)} (hway : p.UnderWay (t.plan.conduct e [t.id]) P)
    (hblind : p.Blind (w.unrelated t.id))
    (hleft : (w.performed e ask c t.id).Left (m.callsOf t.id) (p.answered ask m.context.scope)) :
    (m.advance none t.id p).1.Follows w e ask c := by
  have hdispatched := hs.dispatched_of_task ht
  have hagree := h.agreeOutside hs hr hc hdispatched
  have hcallsOf := callsOf_advance (m := m) hway none
  have hother {k : String} (hk : k ≠ t.id) : (m.advance none t.id p).1.callsOf k = m.callsOf k := by
    rw [hcallsOf, if_neg hk, List.append_nil]
  have hrest : (w.performed e ask c t.id).Left ((m.advance none t.id p).1.callsOf t.id)
      ((p.settle m.context.scope none).proc.remaining ask c.scope) := by
    rw [hcallsOf, if_pos rfl, ← (hblind.settle m.context.scope).remaining ask hagree]
    rw [Proc.answered_settle] at hleft
    exact hleft.after
  have hblind' : (p.settle m.context.scope none).proc.Blind (w.unrelated t.id) := hblind.settle m.context.scope
  have hgoing : (m.advance none t.id p).1.cancelled = false := by
    rw [cancelled_advance, h.going]
    rfl
  refine ⟨hgoing, ?_, ?_, ?_, ?_⟩
  · intro u hu q hq
    rcases mem_tasks_advance hu with ⟨hmem, hne⟩ | ⟨hid, hphase⟩
    · rw [hother hne]
      exact h.running u hmem q hq
    · obtain rfl := Phase.active.inj (hq.symm.trans hphase)
      rw [hid]
      exact ⟨hblind', hrest⟩
  · intro id o ho
    rcases mem_ended_advance ho with hmem | ⟨rfl, hdone⟩
    · have hne : id ≠ t.id := fun heq => hs.not_ended_of_task ht (heq ▸ List.mem_map_of_mem (f := (·.1)) hmem)
      rw [hother hne]
      exact h.ended id o hmem
    · rw [hdone] at hrest
      exact hrest
  · intro u hu hq
    rcases mem_tasks_advance hu with ⟨hmem, hne⟩ | ⟨-, hphase⟩
    · rw [hother hne]
      exact h.queued u hmem hq
    · rw [hq] at hphase
      cases hphase
  · intro id hid
    rw [dispatched_advance] at hid
    have hne : id ≠ t.id := fun heq => hid (heq ▸ hdispatched)
    rw [hother hne]
    exact h.unseen id hid

/-- What changes nothing of the tasks and of what has happened changes nothing here. -/
theorem of_trace {m' : Machine} (h : m.Follows w e ask c) (hcancelled : m'.cancelled = m.cancelled) (htasks : m'.tasks = m.tasks)
    (htrace : m'.trace = m.trace) : m'.Follows w e ask c :=
  h.of_eq hcancelled htasks (congrArg (List.filterMap Trace.ended?) htrace) (congrArg (List.filterMap Trace.call?) htrace)
    (congrArg (List.filterMap Trace.dispatched?) htrace)

/-- A dispatched step has made no calls. -/
theorem dispatching (h : m.Follows w e ask c) (hs : m.Scheduled w) {id : String} {ready : List String} (hready : m.ready = id :: ready)
    (plan : Plan) : (m.dispatching id plan ready).Follows w e ask c := by
  have hcallsOf (k : String) : (m.dispatching id plan ready).callsOf k = m.callsOf k := by
    rw [callsOf, calls_dispatching, callsOf]
  have hnew : id ∉ m.dispatched := fun hid => (List.nodup_append.mp hs.once).2.2 id (by simp [hready]) id hid rfl
  refine ⟨h.going, ?_, ?_, ?_, ?_⟩
  · intro t ht p hp
    rw [hcallsOf]
    rcases List.mem_append.mp ht with ht | ht
    · exact h.running t ht p hp
    · rw [List.mem_singleton.mp ht] at hp
      cases hp
  · intro k o ho
    rw [hcallsOf]
    rw [ended_dispatching] at ho
    exact h.ended k o ho
  · intro t ht hq
    rw [hcallsOf]
    rcases List.mem_append.mp ht with ht | ht
    · exact h.queued t ht hq
    · rw [List.mem_singleton.mp ht]
      exact h.unseen id hnew
  · intro k hk
    rw [hcallsOf]
    rw [dispatched_dispatching] at hk
    exact h.unseen k fun hmem => hk (List.mem_append_left _ hmem)

/-- Every move of a driver that answers goes on with what is left. -/
theorem move (hw : w.Valid) (h : m.Follows w e ask c) (hs : m.Sound w e inputs)
    (hc : c.Holds w inputs fun id => some (w.performed e ask c id).result.entry) (now : Nat) {mv : Move}
    (hmay : Policy.answering ask m mv) : (m.move w e now mv).1.Follows w e ask c := by
  have heffect := move_effect w e now mv m
  generalize m.move w e now mv = r at heffect
  cases heffect with
  | idle => exact h
  | dispatched first => exact h.dispatching hs.scheduled first _
  | passed => exact h.of_eq rfl rfl rfl rfl rfl
  | dropped => exact h.of_eq rfl rfl rfl rfl rfl
  | listened => exact h.of_eq rfl rfl rfl rfl rfl
  | heard =>
    obtain ⟨-, htasks, htrace, hcancelled, -⟩ := hear_untouched w now m
    exact h.of_trace hcancelled htasks htrace
  | @joined index =>
    obtain ⟨-, htasks, htrace, hcancelled, -⟩ := join_untouched w now index m
    exact h.of_trace hcancelled htasks htrace
  | asked => exact h.of_eq rfl rfl (ended_asking ..) (calls_asking ..) (dispatched_asking ..)
  | cancelled => cases hmay
  | @refused t cut _ _ _ stopped =>
    obtain rfl : cut = none := hmay
    rw [token_eq_none.mpr ⟨h.going, rfl⟩] at stopped
    cases stopped
  | @began t cut mem queued =>
    obtain rfl : cut = none := hmay
    rw [token_eq_none.mpr ⟨h.going, rfl⟩]
    have hplan := hs.scheduled.plans t mem
    have hagree := h.agreeOutside hs.scheduled hs.recorded hc (hs.scheduled.dispatched_of_task mem)
    have hdecided := decided_scheduled hs.scheduled mem (t.plan.step.admits m.context.scope)
    have hfollows : (m.decided t (t.plan.step.admits m.context.scope)).Follows w e ask c :=
      h.of_eq rfl rfl (ended_decided ..) (calls_decided ..) (dispatched_decided ..)
    have hrecorded : (m.decided t (t.plan.step.admits m.context.scope)).Recorded w inputs :=
      hs.recorded.of_eq rfl (ended_decided m t _)
    have hobeys := Conforms.begun_obeys hw hs.scheduled e mem m.context.scope false
    refine hfollows.advance hdecided hrecorded hc mem (.fresh hobeys) (Task.begun_blind hw e hplan _) ?_
    have hnone := hfollows.queued t mem queued
    have hanswered : (t.begun e (t.plan.step.admits m.context.scope)).answered ask m.context.scope = w.performed e ask c t.id := by
      rw [Task.answered_begun, Workflow.performed_eq hplan]
      exact (hw.execute_blind e hplan [t.id]).answered ask hagree
    rw [hnone]
    exact ⟨congrArg _ hanswered, congrArg Performed.calls hanswered⟩
  | @replied t p index call cut r mem active waits =>
    obtain ⟨rfl, call', hflight, rfl⟩ := hmay
    rw [token_eq_none.mpr ⟨h.going, rfl⟩]
    obtain rfl := inFlight_unique hs.scheduled.nodup_tasks mem active waits hflight
    obtain ⟨hblind, hleft⟩ := h.running t mem p active
    have hagree := h.agreeOutside hs.scheduled hs.recorded hc (hs.scheduled.dispatched_of_task mem)
    have hway := (hs.conforms.procs t mem p active).1
    refine h.advance hs.scheduled hs.recorded hc mem (hway.reply index _) (hblind.reply index _) ?_
    rw [Proc.answered_reply waits, hblind.remaining ask hagree]
    exact hleft

/-- Every run of a driver that answers does what the steps do. -/
theorem run (hw : w.Valid) (h : m.Follows w e ask c) (hs : m.Sound w e inputs)
    (hc : c.Holds w inputs fun id => some (w.performed e ask c id).result.entry) {m' : Machine}
    (hrun : Run w e (.answering ask) m m') : m'.Follows w e ask c := by
  induction hrun with
  | refl => exact h
  | move hrun now mv allowed ih => exact ih.move hw (hrun.sound hw hs) hc now allowed

end Follows

end Machine

/-! ## The end -/

namespace SequentialRun

/-- The books of a run one step at a time. -/
def books (w : Workflow) (r : SequentialRun) : RunState :=
  r.outcomes.foldl (fun books (id, o) => books.addOutcome 0 id (o.mapError StepError.message) (w.continues id))
    (.start w.definition.name w.graph.steps 0)

/-- The result of a run one step at a time. -/
def result (w : Workflow) (r : SequentialRun) : RunResult := (r.books w).result 0

/-- The books of a run one step at a time are those of its outcomes, without late starts and not cancelled. -/
theorem books_books {w : Workflow} {r : SequentialRun} (hnd : (r.outcomes.map (·.1)).Nodup) :
    (r.books w).Books w r.outcomes (fun _ => False) ∧ (r.books w).cancelled = false := by
  unfold books
  generalize r.outcomes = outcomes at hnd
  induction outcomes using List.reverseRecOn with
  | nil => exact ⟨.start w 0 fun _ => id, rfl⟩
  | append_singleton outcomes e ih =>
    rw [List.map_append, List.nodup_append] at hnd
    obtain ⟨hbooks, hcancelled⟩ := ih hnd.1
    have hnew : e.1 ∉ outcomes.map (·.1) := fun hmem => hnd.2.2 e.1 hmem e.1 (by simp) rfl
    rw [List.foldl_append]
    exact ⟨hbooks.addOutcome hnew 0 e.2, hcancelled⟩

end SequentialRun

namespace Machine

variable {w : Workflow} {e : Engine} {ask : Call → Reply} {inputs : Fields} {r : SequentialRun} {m : Machine}

/-- Every call is made at a place in a step of the workflow. -/
theorem Sound.path_of_mem_calls (hw : w.Valid) (hs : m.Sound w e inputs) {c : Call} (hc : c ∈ m.calls) :
    ∃ id ∈ w.graph.order, c.path.head? = some id := by
  obtain ⟨id, p, hp, hmakes⟩ := hs.conforms.calls c (mem_calls.mp hc)
  exact ⟨id, hw.mem_order.mpr (hw.mem_steps_of_plan? hp), hmakes.head?_path⟩

/-- When nothing is left to be done and no step died, what has been done is what is done one step at a time; so is what the result says
of it if no start was late. -/
theorem Follows.same (hw : w.Valid) (hs : m.Sound w e inputs) (hr : w.Upto e ask inputs w.graph.order r)
    (h : m.Follows w e ask r.context) (hf : m.finished = true) (hdied : m.died = []) :
    m.ended.Perm r.outcomes ∧ m.calls.Perm r.calls ∧ ((∀ id, ¬m.Late id) → ∀ now, (m.result now).Same (r.result w)) := by
  have hclosed := hs.closed hw hf h.going hdied
  have hids : m.endedIds.Perm w.graph.order :=
    hclosed.ended.trans ((List.perm_ext_iff_of_nodup hw.nodup_steps hw.nodup_order).mpr fun _ => hw.mem_order.symm)
  have hended : m.ended = m.endedIds.map fun id => (id, (w.performed e ask r.context id).result) := by
    rw [endedIds, List.map_map]
    refine ((List.map_congr_left ?_).trans (List.map_id _)).symm
    intro x hx
    obtain ⟨id, o⟩ := x
    exact congrArg (id, ·) (h.ended id o hx).result.symm
  have hperm : m.ended.Perm r.outcomes := by
    rw [hended, hr.outcomes]
    exact hids.map _
  have hnodup : (r.outcomes.map (·.1)).Nodup := by
    rw [hr.outcomes, List.map_map]
    simpa [Function.comp_def] using hw.nodup_order
  obtain ⟨hbooks, hcancelled⟩ := SequentialRun.books_books (w := w) hnodup
  refine ⟨hperm, ?_, ?_⟩
  · have hcalls := perm_flatMap_filter (fun c : Call => c.path.head?) hw.nodup_order fun c hc => hs.path_of_mem_calls hw hc
    refine hcalls.trans ?_
    rw [hr.calls]
    refine List.Perm.of_eq (List.flatMap_congr ?_)
    intro id hid
    obtain ⟨⟨k, o⟩, hmem, rfl⟩ := List.mem_map.mp (hids.mem_iff.mpr hid)
    have hmade := (h.ended k o hmem).calls
    rw [List.append_nil] at hmade
    exact hmade
  · intro hlate now
    have hbooks' : m.books.cancelled = (r.books w).cancelled := (hclosed.cancelled now).trans hcancelled.symm
    have hall := hs.scheduled.all_booked_of_complete hw hf hdied (hs.scheduled.complete h.going)
    exact hs.booked.books.same hbooks hall ((hs.scheduled.over hf hdied).1.symm.trans hperm) hbooks' hlate (fun _ => id) now 0

end Machine

end Runbook
