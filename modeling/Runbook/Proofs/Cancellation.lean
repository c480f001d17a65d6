import Runbook.Proofs.Scheduling

/-!
# What a cancelled run tells

The result of a run says that it was cancelled if and only if a step of it had no turn: it was dropped when it was released, it was
refused its turn, or it waited for one of these. Otherwise every step has come to an outcome of its own. What a loop left out it tells
in its own summary, and only there: a run in which nothing but loops are cut short does not say that it was cancelled.
-/

namespace Runbook

/-- The step that was given its turn. -/
def Trace.turned? : Trace → Option String
  | turn id _ => some id
  | dispatched _ | asked _ | called _ | noted _ | ended _ _ | died _ => none

/-- The conduct of steps whose loops account for their sequences. -/
def Workflow.tally (w : Workflow) (e : Engine) : Conduct where
  call _ := True
  note n := ∀ path summary, n = .iterated path summary →
    ∃ p, w.definition.PlanAt path p ∧ ∃ scope all, p.step.sequence scope = .ok all ∧ summary.Accounts e p.step all
  width _ := True

namespace Machine

/-- The steps that were given their turn, in order. -/
def turnedIds (m : Machine) : List String := m.trace.filterMap Trace.turned?

/-- A step had its turn exactly if this has happened. -/
theorem mem_turnedIds {m : Machine} {id : String} : id ∈ m.turnedIds ↔ ∃ decision, Trace.turn id decision ∈ m.trace := by
  rw [turnedIds, List.mem_filterMap]
  constructor
  · rintro ⟨x, hx, hid⟩
    cases x <;> simp only [Trace.turned?, reduceCtorEq, Option.some.injEq] at hid
    subst hid
    exact ⟨_, hx⟩
  · exact fun ⟨_, h⟩ => ⟨_, h, rfl⟩

section Turned

variable {α : Type} (m : Machine) (token : CancelToken) (s : Settled α) (id : String) (outcome : Outcome StepError)

@[simp] theorem turnedIds_log : (m.log token s).turnedIds = m.turnedIds :=
  filterMap_trace_log m token s (fun _ => rfl) fun _ => rfl

@[simp] theorem turnedIds_finish : (m.finish id outcome).turnedIds = m.turnedIds := by
  simp [turnedIds, finish, Trace.turned?]

@[simp] theorem turnedIds_die : (m.die id).turnedIds = m.turnedIds := by simp [turnedIds, die, Trace.turned?]

/-- A step whose condition is evaluated has its turn. -/
@[simp] theorem turnedIds_decided (t : Task) (decision : Except StepError Bool) :
    (m.decided t decision).turnedIds = m.turnedIds ++ [t.id] := by
  simp [turnedIds, decided, Trace.turned?]

@[simp] theorem turnedIds_dispatching (plan : Plan) (ready : List String) : (m.dispatching id plan ready).turnedIds = m.turnedIds := by
  simp [turnedIds, dispatching, Trace.turned?]

@[simp] theorem turnedIds_asking (e : Engine) : (m.asking e id).turnedIds = m.turnedIds := by simp [turnedIds, asking, Trace.turned?]

/-- To go on gives no step its turn. -/
theorem turnedIds_advance (p : Proc (Outcome StepError)) : (m.advance token id p).1.turnedIds = m.turnedIds := by
  rcases advance_cases token id p m with ⟨o, -, heq⟩ | ⟨-, heq⟩ | ⟨-, -, heq⟩ <;> rw [heq]
  · rw [turnedIds_finish, turnedIds_log]
  · rw [turnedIds_die, turnedIds_log]
  · exact turnedIds_log m token _

end Turned

/-! ## Turns -/

/-- Of the dispatched steps, those that run or ended by themselves had their turn, and no others. -/
structure Turns (w : Workflow) (e : Engine) (m : Machine) : Prop where
  waiting : ∀ t ∈ m.tasks, t.phase = .queued → t.id ∉ m.turnedIds
  running : ∀ t ∈ m.tasks, ∀ p, t.phase = .active p → t.id ∈ m.turnedIds ∧ p.UnderWay (w.tally e) (· ≠ .cancelled)
  ended : ∀ id o, (id, o) ∈ m.ended → (o = .cancelled ↔ id ∉ m.turnedIds)
  known : ∀ id ∈ m.turnedIds, id ∈ m.dispatched
  notes : ∀ n, Trace.noted n ∈ m.trace → (w.tally e).note n

namespace Turns

variable {w : Workflow} {e : Engine} {m : Machine}

/-- At the start no step has had its turn. -/
theorem start (w : Workflow) (e : Engine) (inputs : Fields) (now : Nat) : (start w inputs now).Turns w e :=
  ⟨nofun, nofun, nofun, nofun, nofun⟩

/-- What gives no step its turn and lets none go on changes nothing. -/
theorem of_eq (h : m.Turns w e) {m' : Machine} (htasks : ∀ t ∈ m'.tasks, t ∈ m.tasks) (hended : m'.ended = m.ended)
    (hturned : m'.turnedIds = m.turnedIds) (hdispatched : m'.dispatched = m.dispatched)
    (hnotes : ∀ n, Trace.noted n ∈ m'.trace → Trace.noted n ∈ m.trace) : m'.Turns w e := by
  refine ⟨?_, ?_, ?_, ?_, fun n hn => h.notes n (hnotes n hn)⟩
  · rw [hturned]
    exact fun t ht => h.waiting t (htasks t ht)
  · rw [hturned]
    exact fun t ht => h.running t (htasks t ht)
  · rw [hturned, hended]
    exact h.ended
  · rw [hturned, hdispatched]
    exact h.known

/-- A step that is dispatched now was not dispatched before, and so it had no turn. -/
theorem dispatching (h : m.Turns w e) (hs : m.Scheduled w) {id : String} {ready : List String} (hready : m.ready = id :: ready)
    (plan : Plan) : (m.dispatching id plan ready).Turns w e := by
  have hnew : id ∉ m.turnedIds := fun hid =>
    (List.nodup_append.mp hs.once).2.2 id (by simp [hready]) id (h.known id hid) rfl
  refine ⟨?_, ?_, ?_, ?_, ?_⟩
  · intro t ht hqueued
    rw [turnedIds_dispatching]
    rcases List.mem_append.mp ht with ht | ht
    · exact h.waiting t ht hqueued
    · rw [List.mem_singleton.mp ht]
      exact hnew
  · intro t ht p hp
    rw [turnedIds_dispatching]
    rcases List.mem_append.mp ht with ht | ht
    · exact h.running t ht p hp
    · rw [List.mem_singleton.mp ht] at hp
      cases hp
  · rw [turnedIds_dispatching, ended_dispatching]
    exact h.ended
  · rw [turnedIds_dispatching, dispatched_dispatching]
    exact fun k hk => List.mem_append_left _ (h.known k hk)
  · intro n hn
    rcases List.mem_append.mp hn with hn | hn
    · exact h.notes n hn
    · cases List.mem_singleton.mp hn

/-- A step that is refused its turn ends without one. -/
theorem refuse (h : m.Turns w e) {t : Task} (ht : t ∈ m.tasks) (hqueued : t.phase = .queued) :
    (m.finish t.id .cancelled).Turns w e := by
  refine ⟨?_, ?_, ?_, ?_, ?_⟩
  · intro u hu
    rw [turnedIds_finish]
    exact h.waiting u (List.mem_of_mem_filter hu)
  · intro u hu
    rw [turnedIds_finish]
    exact h.running u (List.mem_of_mem_filter hu)
  · intro id o ho
    rw [turnedIds_finish]
    rw [ended_finish] at ho
    rcases List.mem_append.mp ho with ho | ho
    · exact h.ended id o ho
    · obtain ⟨rfl, rfl⟩ := Prod.mk.inj (List.mem_singleton.mp ho)
      exact iff_of_true rfl (h.waiting t ht hqueued)
  · rw [turnedIds_finish, dispatched_finish]
    exact h.known
  · intro n hn
    rcases List.mem_append.mp hn with hn | hn
    · exact h.notes n hn
    · cases List.mem_singleton.mp hn

/-- A machine in which one step more had its turn, or the same steps. -/
structure Turning (m m' : Machine) (id : String) : Prop where
  tasks : m'.tasks = m.tasks
  ended : m'.ended = m.ended
  dispatched : m'.dispatched = m.dispatched
  turned : ∀ k, k ∈ m'.turnedIds ↔ k ∈ m.turnedIds ∨ k = id
  notes : ∀ n, Trace.noted n ∈ m'.trace → Trace.noted n ∈ m.trace

/-- A step that advances once it had its turn keeps to its plan and does not end as cancelled. -/
theorem advance (h : m.Turns w e) (hs : m.Scheduled w) {t : Task} (ht : t ∈ m.tasks) {m' : Machine} (hm : Turning m m' t.id)
    (token : CancelToken) {p : Proc (Outcome StepError)} (hp : p.UnderWay (w.tally e) (· ≠ .cancelled)) :
    (m'.advance token t.id p).1.Turns w e := by
  have hkeeps := hp.settle m'.context.scope token
  have hrests := hkeeps.rests
  have hturned (k : String) : k ∈ (m'.advance token t.id p).1.turnedIds ↔ k ∈ m.turnedIds ∨ k = t.id := by
    rw [turnedIds_advance]
    exact hm.turned k
  refine ⟨?_, ?_, ?_, ?_, ?_⟩
  · intro u hu hqueued
    rcases mem_tasks_advance hu with ⟨hu, hne⟩ | ⟨-, hactive⟩
    · rw [hturned]
      rintro (hmem | heq)
      · exact h.waiting u (hm.tasks ▸ hu) hqueued hmem
      · exact hne heq
    · rw [hqueued] at hactive
      cases hactive
  · intro u hu q hq
    rw [hturned]
    rcases mem_tasks_advance hu with ⟨hu, -⟩ | ⟨hid, hactive⟩
    · obtain ⟨hturn, hway⟩ := h.running u (hm.tasks ▸ hu) q hq
      exact ⟨.inl hturn, hway⟩
    · obtain rfl := Phase.active.inj (hq.symm.trans hactive)
      exact ⟨.inr hid, hrests.way⟩
  · intro id o ho
    rw [hturned]
    rcases mem_ended_advance ho with ho | ⟨rfl, hdone⟩
    · rw [hm.ended] at ho
      have hne : id ≠ t.id := by
        rintro rfl
        exact hs.not_ended_of_task ht (List.mem_map_of_mem (f := (·.1)) ho)
      simpa [hne] using h.ended id o ho
    · rw [hdone] at hrests
      exact iff_of_false hrests.result fun hnot => hnot (Or.inr rfl)
  · intro id hid
    rw [dispatched_advance, hm.dispatched]
    rcases (hturned id).mp hid with hid | rfl
    · exact h.known id hid
    · exact hs.dispatched_of_task ht
  · intro n hn
    rcases mem_noted_advance hn with hn | hn
    · exact h.notes n (hm.notes n hn)
    · exact hkeeps.notes n hn

/-- A plan at its own place may do what the workflow counts on. -/
theorem begun_obeys (hw : w.Valid) (hs : m.Scheduled w) (e : Engine) {t : Task} (ht : t ∈ m.tasks) (scope : Scope) :
    (t.begun e (t.plan.step.admits scope)).Obeys (w.tally e) (· ≠ .cancelled) := by
  have hplan := hw.plan_faultless (hs.plans t ht)
  obtain ⟨hmem, hid⟩ := Workflow.plan?_some (hs.plans t ht)
  obtain ⟨b, hb⟩ := hplan.step.admits scope
  rw [hb]
  cases b with
  | false => exact .done nofun
  | true =>
    refine (Engine.dispatch_obeys_allowed e hplan (k := w.tally e) ?_).mono (fun _ h => h) (fun _ h => h) (fun _ h => h) ?_
    · intro path q hq
      refine ⟨fun _ _ _ _ _ _ => trivial, fun _ _ => nofun, ?_, trivial⟩
      intro scope all summary hall haccounts path' summary' heq
      obtain ⟨rfl, rfl⟩ := Note.iterated.inj heq
      exact ⟨q, ⟨t.plan, hmem, hid ▸ hq⟩, scope, all, hall, haccounts⟩
    · rintro o hran rfl
      cases hran

/-- Every move gives turns in order. -/
theorem move (hw : w.Valid) (h : m.Turns w e) (hs : m.Scheduled w) (now : Nat) (move : Move) : (m.move w e now move).1.Turns w e := by
  have heffect := move_effect w e now move m
  generalize m.move w e now move = r at heffect
  have same {m' : Machine} (htrace : m'.trace = m.trace) (htasks : m'.tasks = m.tasks) : m'.Turns w e :=
    h.of_eq (fun _ ht => htasks ▸ ht) (by rw [Machine.ended, htrace, Machine.ended]) (by rw [turnedIds, htrace, turnedIds])
      (by rw [dispatched, htrace, dispatched]) fun _ hn => htrace ▸ hn
  cases heffect with
  | idle => exact h
  | dispatched first => exact h.dispatching hs first _
  | passed => exact same rfl rfl
  | dropped => exact same rfl rfl
  | listened => exact same rfl rfl
  | heard =>
    obtain ⟨-, htasks, htrace, -⟩ := hear_untouched w now m
    exact same htrace htasks
  | @joined index =>
    obtain ⟨-, htasks, htrace, -⟩ := join_untouched w now index m
    exact same htrace htasks
  | asked =>
    refine h.of_eq (fun _ ht => ht) (ended_asking ..) (turnedIds_asking ..) (dispatched_asking ..) fun n hn => ?_
    simpa [Machine.asking] using hn
  | cancelled => exact same rfl rfl
  | @refused t cut mem queued =>
    rw [advance_done]
    have hlog : ((m.taking t.id).log (m.token cut) (⟨.done .cancelled, [], []⟩ : Settled (Outcome StepError))).Turns w e := by
      refine h.of_eq (fun _ ht => ht) (ended_log ..) (turnedIds_log ..) (dispatched_log ..) fun n hn => ?_
      rw [trace_log] at hn
      simpa [traceOf, taking] using hn
    exact hlog.refuse mem queued
  | @began t cut mem =>
    have hturning : Turning m (m.decided t (t.plan.step.admits m.context.scope)) t.id := by
      refine ⟨rfl, ended_decided .., dispatched_decided .., fun k => by simp, fun n hn => ?_⟩
      rcases List.mem_append.mp hn with hn | hn
      · exact hn
      · cases List.mem_singleton.mp hn
    exact h.advance hs mem hturning _ (.fresh (begun_obeys hw hs e mem _))
  | @replied t p index c cut r mem active waits =>
    obtain ⟨hturn, hway⟩ := h.running t mem p active
    have hturning : Turning m m t.id := ⟨rfl, rfl, rfl, fun k => ⟨Or.inl, fun h => h.elim id fun heq => heq ▸ hturn⟩, fun _ h => h⟩
    exact h.advance hs mem hturning _ (hway.reply index r)

end Turns

/-! ## Gaps -/

/-- The books call a run cancelled if and only if something was left out of it. -/
structure Gaps (w : Workflow) (m : Machine) : Prop where
  left : m.books.cancelled = true → m.cancelled = true ∧ ∃ id ∈ w.graph.steps, id ∉ m.turnedIds
  complete : m.books.cancelled = false →
    ∀ id ∈ w.graph.steps, (∀ d ∈ w.graph.dependencies id, d ∈ m.bookedIds) → id ∈ m.released
  own : m.books.cancelled = false → ∀ id, (id, .cancelled) ∉ m.booked

namespace Gaps

variable {w : Workflow} {e : Engine} {inputs : Fields} {m : Machine}

/-- At the start there is no gap. -/
theorem start (hw : w.Valid) (inputs : Fields) (now : Nat) : (start w inputs now).Gaps w :=
  ⟨nofun, fun _ => (start_scheduled hw inputs now).complete rfl, nofun⟩

/-- What gives no step its turn and books nothing leaves no gap. -/
theorem of_eq (h : m.Gaps w) {m' : Machine} (hbooks : m'.books.cancelled = m.books.cancelled) (hbooked : m'.booked = m.booked)
    (hcancelled : m.cancelled = true → m'.cancelled = true)
    (hturned : m.cancelled = true → ∀ id, id ∈ m'.turnedIds → id ∈ m.turnedIds)
    (hreleased : ∀ id, id ∈ m.released → id ∈ m'.released) : m'.Gaps w := by
  have hids : m'.bookedIds = m.bookedIds := by rw [bookedIds, hbooked, bookedIds]
  refine ⟨?_, ?_, ?_⟩
  · intro hb
    obtain ⟨hc, id, hid, hnot⟩ := h.left (hbooks ▸ hb)
    exact ⟨hcancelled hc, id, hid, fun hmem => hnot (hturned hc id hmem)⟩
  · intro hb id hid hdeps
    exact hreleased id (h.complete (hbooks ▸ hb) id hid (hids ▸ hdeps))
  · rw [hbooks, hbooked]
    exact h.own

/-- To hear of starts leaves no gap. -/
theorem hear (h : m.Gaps w) (now : Nat) : (m.hear w now).Gaps w := by
  obtain ⟨-, -, htrace, hcancelled, hready, -⟩ := hear_untouched w now m
  have hbooks : (m.hear w now).books.cancelled = m.books.cancelled := by
    unfold Machine.hear
    split <;> rfl
  refine h.of_eq hbooks (booked_hear w now m) (fun hc => hcancelled.trans hc) (fun _ id hid => ?_) fun id hid => ?_
  · rwa [turnedIds, htrace] at hid
  · rwa [released, hready, dispatched, htrace]

/-- The books after an end call a run cancelled if they did before, or if it is the end of a step that was refused its turn. -/
theorem cancelled_booksAfter (now : Nat) (p : Plan) (id : String) (outcome : Outcome StepError) (books : RunState) :
    (booksAfter now p id outcome books).cancelled = true ↔ books.cancelled = true ∨ outcome = .cancelled := by
  cases outcome <;> simp [booksAfter, RunState.addOutcome, RunState.markCancelled]

/-- To join an end leaves no gap. -/
theorem join (hw : w.Valid) (h : m.Gaps w) (hs : m.Scheduled w) {index : Nat} {id : String} {o : Outcome StepError}
    (hends : m.ends[index]? = some (id, o)) (hrefused : o = .cancelled → m.cancelled = true ∧ id ∉ m.turnedIds) (now : Nat) :
    (m.join w now index).Gaps w := by
  obtain ⟨p, hp⟩ := hs.plan_of_end hw hends
  have hbooks : (m.join w now index).books.cancelled = true ↔ m.books.cancelled = true ∨ o = .cancelled := by
    rw [join_eq hends hp]
    exact cancelled_booksAfter now p id o m.books
  obtain ⟨-, -, htrace, hcancelled, -⟩ := join_untouched w now index m
  have hturned : (m.join w now index).turnedIds = m.turnedIds := by rw [turnedIds, htrace, turnedIds]
  have hopen (hb : (m.join w now index).books.cancelled = false) : m.books.cancelled = false ∧ o ≠ .cancelled := by
    rw [← Bool.not_eq_true, hbooks, not_or] at hb
    exact ⟨by simpa using hb.1, hb.2⟩
  refine ⟨?_, ?_, ?_⟩
  · intro hb
    rw [hcancelled, hturned]
    rcases hbooks.mp hb with hb | hrefuse
    · exact h.left hb
    · obtain ⟨hc, hnot⟩ := hrefused hrefuse
      have hended : id ∈ m.endedIds := hs.mem_endedIds.mpr (.inr (List.mem_map_of_mem (f := (·.1)) (List.mem_of_getElem? hends)))
      exact ⟨hc, id, hs.step_of_dispatched (hs.dispatched_of_ended hended), hnot⟩
  · intro hb x hx hdeps
    rw [mem_released_join hw hs hends now]
    by_cases hdep : id ∈ w.graph.dependencies x
    · exact Or.inr ⟨hx, hdep, hdeps⟩
    · refine Or.inl (h.complete (hopen hb).1 x hx fun d hd => ?_)
      refine ((mem_bookedIds_join hw hs hends now).mp (hdeps d hd)).resolve_right ?_
      rintro rfl
      exact hdep hd
  · intro hb x hx
    rw [booked_join hw hs hends now] at hx
    rcases List.mem_append.mp hx with hx | hx
    · exact h.own (hopen hb).1 x hx
    · exact (hopen hb).2 (Prod.mk.inj (List.mem_singleton.mp hx)).2.symm

/-- What a cancelled run drops has no turn. -/
theorem drop (hs : m.Scheduled w) (hknown : ∀ id ∈ m.turnedIds, id ∈ m.dispatched) (hready : m.ready ≠ []) (hc : m.cancelled = true) :
    Gaps w { m with books := m.books.markCancelled, ready := [] } := by
  refine ⟨fun _ => ⟨hc, ?_⟩, nofun, nofun⟩
  obtain ⟨id, hmem⟩ := List.exists_mem_of_ne_nil _ hready
  refine ⟨id, (hs.freed id (List.mem_append_left _ hmem)).1, fun hturn => ?_⟩
  exact (List.nodup_append.mp hs.once).2.2 id hmem id (hknown id hturn) rfl

/-- A step that advances leaves no gap. -/
theorem advance (h : m.Gaps w) (token : CancelToken) (id : String) (p : Proc (Outcome StepError)) :
    (m.advance token id p).1.Gaps w := by
  obtain ⟨hbooks, hevents, -, hready, -⟩ := advance_untouched token id p m
  refine h.of_eq (by rw [hbooks]) (by rw [booked, hevents, booked]) (fun hc => ?_) (fun _ k hk => ?_) fun k hk => ?_
  · rw [cancelled_advance, hc, Bool.true_or]
  · rwa [turnedIds_advance] at hk
  · rwa [released, hready, dispatched_advance]

/-- Every move leaves gaps only where the books tell of them. -/
theorem move (hw : w.Valid) (h : m.Gaps w) (hsound : m.Sound w e inputs) (ht : m.Turns w e) (now : Nat) (move : Move) :
    (m.move w e now move).1.Gaps w := by
  have hs := hsound.scheduled
  have heffect := move_effect w e now move m
  generalize m.move w e now move = r at heffect
  cases heffect with
  | idle => exact h
  | @dispatched id ready plan first =>
    refine h.of_eq rfl rfl (fun hc => hc) (fun _ k hk => turnedIds_dispatching m id plan ready ▸ hk) fun k hk => ?_
    rw [released, first] at hk
    rw [released, dispatched_dispatching]
    rcases List.mem_append.mp hk with hk | hk
    · rcases List.mem_cons.mp hk with rfl | hk
      · exact List.mem_append_right _ (List.mem_append_right _ (List.mem_singleton_self _))
      · exact List.mem_append_left _ hk
    · exact List.mem_append_right _ (List.mem_append_left _ hk)
  | @passed id ready first missing =>
    have hid : id ∈ m.ready := by simp [first]
    obtain ⟨p, hp⟩ := hs.plan_of_ready hw hid
    rw [missing] at hp
    cases hp
  | dropped some stopped => exact drop hs ht.known some stopped
  | listened => exact h.of_eq rfl rfl (fun hc => hc) (fun _ _ => id) fun _ => id
  | heard => exact h.hear now
  | @joined index id o _ _ found =>
    refine h.join hw hs found ?_ now
    rintro rfl
    have hmem : (id, Outcome.cancelled) ∈ m.ended := hs.accounts.mem_iff.mpr (List.mem_append_right _ (List.mem_of_getElem? found))
    refine ⟨?_, (ht.ended id .cancelled hmem).mp rfl⟩
    cases hsound.conforms.outcomes id _ (mem_trace_of_mem_ended.mp hmem) with
    | ran hran => cases hran
    | cancelled hc => exact hc
  | @asked t =>
    refine h.of_eq rfl rfl (fun hc => hc) (fun _ k hk => turnedIds_asking m t.id e ▸ hk) fun k hk => ?_
    rwa [released, dispatched_asking]
  | cancelled => exact h.of_eq rfl rfl (fun _ => rfl) (fun _ _ => id) fun _ => id
  | @refused t =>
    have htaking : (m.taking t.id).Gaps w := h.of_eq rfl rfl (fun hc => hc) (fun _ _ => id) fun _ => id
    exact htaking.advance _ _ _
  | @began t cut _ _ _ going =>
    have hdecided : (m.decided t (t.plan.step.admits m.context.scope)).Gaps w := by
      refine h.of_eq rfl rfl id (fun hc => ?_) fun id hid => ?_
      · rw [token, hc] at going
        cases going
      · rw [released, dispatched_decided]
        exact hid
    exact hdecided.advance _ _ _
  | replied => exact h.advance _ _ _

end Gaps

/-- Every run gives turns in order and tells of its gaps. -/
theorem Run.turns_and_gaps {w : Workflow} (hw : w.Valid) {e : Engine} {may : Policy} {inputs : Fields} {now : Nat} {m : Machine}
    (hrun : Run w e may (start w inputs now) m) : m.Turns w e ∧ m.Gaps w := by
  induction hrun with
  | refl => exact ⟨.start w e inputs now, .start hw inputs now⟩
  | move hrun now' mv _ ih =>
    have hsound := hrun.sound hw (start_sound hw e inputs now)
    exact ⟨ih.1.move hw hsound.scheduled now' mv, ih.2.move hw hsound ih.1 now' mv⟩

end Machine

/-- A step that goes through an input. -/
def Definition.sampleEach : Definition :=
  { Definition.empty with
    name := "sample", steps := [{ Step.empty with id := "each", tool := "http", forEach := some "inputs.xs" }] }

namespace Workflow

open Machine

/-- However a run of a valid workflow is driven and whenever it is cancelled, with settings that a semaphore has permits for: when it is
over, its result says that it was cancelled, and therefore not without errors, if and only if a step had no turn. If it does not say so,
every step has come to an outcome of its own, and shows it, unless its start was heard of after its end. And the summaries of the loops
at all depths account for their sequences: one that does not say that it was cancelled has processed all of it, as far as the most
iterations reach. -/
theorem cancelled_iff_step_without_turn {d : Definition} {w : Workflow} (hd : ofDefinition d = .ok w) (e : Engine) (inputs : Fields)
    (now : Nat) (hpermitted : e.settings.Permitted) {m : Machine} (hrun : Run w e .any (start w inputs now) m) (hf : m.finished = true)
    (later : Nat) :
    ((m.result later).cancelled = true ↔ ∃ id ∈ w.graph.steps, ∀ decision, Trace.turn id decision ∉ m.trace) ∧
      ((m.result later).cancelled = true → (m.result later).noErrors = false) ∧
      ((m.result later).cancelled = false → ∀ id ∈ w.graph.steps, ∃ o r, Trace.ended id o ∈ m.trace ∧ o ≠ .cancelled ∧
        Keyed.get? (m.result later).steps id = some r ∧ (¬m.Late id → r.Shows o) ∧ (m.Late id → r.Mistaken false o)) ∧
      ∀ path summary, Trace.noted (.iterated path summary) ∈ m.trace →
        ∃ p, d.PlanAt path p ∧ ∃ scope all, p.step.sequence scope = .ok all ∧ summary.Accounts e p.step all := by
  obtain ⟨rfl, hw⟩ := valid_of_definition hd
  have hs := hrun.sound hw (start_sound hw e inputs now)
  have hdied := hrun.died_eq_nil hw hpermitted.loops
  obtain ⟨hturns, hgaps⟩ := hrun.turns_and_gaps hw
  have hturn {id : String} : (∀ decision, Trace.turn id decision ∉ m.trace) ↔ id ∉ m.turnedIds := by
    rw [mem_turnedIds, not_exists]
  have hresult : (m.result later).cancelled = m.books.cancelled := rfl
  have hall (hb : m.books.cancelled = false) := hs.scheduled.all_booked_of_complete hw hf hdied (hgaps.complete hb)
  have hbooked (hb : m.books.cancelled = false) {id : String} (hid : id ∈ w.graph.steps) :
      ∃ o, (id, o) ∈ m.booked ∧ (id, o) ∈ m.ended ∧ o ≠ .cancelled := by
    obtain ⟨⟨k, o⟩, hmem, rfl⟩ := List.mem_map.mp (hall hb id hid)
    refine ⟨o, hmem, hs.scheduled.accounts.mem_iff.mpr (List.mem_append_left _ hmem), ?_⟩
    rintro rfl
    exact hgaps.own hb k hmem
  refine ⟨⟨?_, ?_⟩, ?_, ?_, ?_⟩
  · intro hb
    obtain ⟨-, id, hid, hnot⟩ := hgaps.left (hresult ▸ hb)
    exact ⟨id, hid, hturn.mpr hnot⟩
  · rintro ⟨id, hid, hnot⟩
    by_contra hb
    obtain ⟨o, -, hended, hown⟩ := hbooked (by simpa [hresult] using hb) hid
    exact hown ((hturns.ended id o hended).mpr (hturn.mp hnot))
  · intro hb
    simp [RunResult.noErrors, hb]
  · intro hb id hid
    obtain ⟨o, hmem, hended, hown⟩ := hbooked hb hid
    obtain ⟨r, hr, -, hshows, -⟩ := hs.booked.books.shown hall later hid
    exact ⟨o, r, mem_trace_of_mem_ended.mp hended, hown, hr, (hshows o hmem).1, fun hlate => hb ▸ (hshows o hmem).2 hlate⟩
  · intro path summary hnoted
    exact hturns.notes _ hnoted path summary rfl

/-- The run of a small workflow that is cancelled while its first steps run: the loop that waits for them is dropped, and the result
says so. -/
theorem cancelled_iff_step_without_turn_of_sample : ∃ (w : Workflow) (m : Machine), ofDefinition .sample = .ok w ∧
    Run w ⟨.default, fun _ => true⟩ .any (start w [] 0) m ∧ m.finished = true ∧ (m.result 0).cancelled = true ∧
    ∃ id ∈ w.graph.steps, ∀ decision, Trace.turn id decision ∉ m.trace := by
  obtain ⟨w, hw⟩ := ofDefinition_sample
  let e : Engine := ⟨.default, fun _ => true⟩
  let moves : List Move := [.dispatch, .dispatch, .ask "list", .begin "list" none, .ask "apart", .begin "apart" none, .hear, .hear,
    .cancel, .reply ⟨"list", none⟩ (.answer (.value (.arr []))) none, .reply ⟨"apart", none⟩ (.answer (.value .null)) none,
    .hear, .join 0, .dispatch, .hear, .join 0]
  have hend : ((ofDefinition .sample).toOption.map fun w =>
      let m := moves.foldl (fun m mv => (m.move w e 0 mv).1) (Machine.start w [] 0)
      (m.finished, (m.result 0).cancelled)) = some (true, true) := by decide +kernel
  rw [hw] at hend
  obtain ⟨hf, hc⟩ := Prod.mk.inj (Option.some.inj hend)
  have hrun := Machine.run_foldl w e 0 moves (Machine.start w [] 0)
  exact ⟨w, _, hw, hrun, hf, hc, (cancelled_iff_step_without_turn hw e [] 0 (by decide) hrun hf 0).1.mp hc⟩

/-- A loop that is cut short is told by its own summary only: nothing is left to be dispatched, and the result says that all went
well. -/
theorem cut_loop_untold : ∃ (w : Workflow) (m : Machine) (summary : Summary), ofDefinition .sampleEach = .ok w ∧
    Run w ⟨.default, fun _ => true⟩ .any (start w [("xs", .arr [.null, .null])] 0) m ∧ m.finished = true ∧
    Trace.noted (.iterated ["each"] summary) ∈ m.trace ∧ summary.cancelled = true ∧
    summary.results.length + summary.errors.length < summary.total ∧
    (m.result 0).cancelled = false ∧ (m.result 0).noErrors = true := by
  let e : Engine := ⟨.default, fun _ => true⟩
  let moves : List Move := [.dispatch, .ask "each", .begin "each" none, .hear,
    .reply ⟨"each", some 0⟩ (.answer (.value .null)) (some 0), .hear, .join 0]
  let last (w : Workflow) : Machine := moves.foldl (fun m mv => (m.move w e 0 mv).1) (start w [("xs", .arr [.null, .null])] 0)
  let told : Trace → Option (List String × Bool × Nat × Nat)
    | .noted (.iterated path s) => some (path, s.cancelled, s.results.length + s.errors.length, s.total)
    | _ => none
  have hend : ((ofDefinition .sampleEach).toOption.map fun w =>
      ((last w).finished, ((last w).result 0).cancelled, ((last w).result 0).noErrors)) = some (true, false, true) := by
    decide +kernel
  have htold : ((ofDefinition .sampleEach).toOption.map fun w => (last w).trace.filterMap told) = some [(["each"], true, 1, 2)] := by
    decide +kernel
  obtain ⟨w, hw, hend⟩ := Option.map_eq_some_iff.mp hend
  simp only [Prod.mk.injEq] at hend
  obtain ⟨hf, hc, hn⟩ := hend
  rw [hw] at htold
  have htold := Option.some.inj htold
  obtain ⟨x, hmem, hx⟩ := List.mem_filterMap.mp (htold ▸ List.mem_singleton_self (["each"], true, 1, 2))
  cases x with
  | noted n =>
    cases n with
    | iterated path summary =>
      obtain ⟨rfl, hcancelled, hlength, htotal⟩ : path = ["each"] ∧ summary.cancelled = true ∧
          summary.results.length + summary.errors.length = 1 ∧ summary.total = 2 := by simpa [told] using hx
      exact ⟨w, last w, summary, ofDefinition_of_toOption hw, Machine.run_foldl w e 0 moves _, hf, hmem, hcancelled, by omega, hc, hn⟩
    | failed path err => cases hx
  | dispatched id => cases hx
  | asked id => cases hx
  | turn id decision => cases hx
  | called c => cases hx
  | ended id o => cases hx
  | died id => cases hx

end Workflow

end Runbook
