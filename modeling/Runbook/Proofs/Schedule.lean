import Runbook.Proofs.Moves
import Runbook.Proofs.Workflow

/-!
# What the runner keeps in order

At every moment of a run, what has ended is what the runner has booked and what it has not joined yet; what has been dispatched has
ended or died or is a task; each step counts the dependencies that have not been booked, and it is released, once, when there are none.
Every move keeps this.
-/

namespace Runbook.Machine

/-- The steps that have ended. -/
def endedIds (m : Machine) : List String := m.ended.map (·.1)

/-- The steps whose ends are booked. -/
def bookedIds (m : Machine) : List String := m.booked.map (·.1)

/-- The steps that have been released, dispatched or not. -/
def released (m : Machine) : List String := m.ready ++ m.dispatched

/-- What the runner keeps in order. -/
structure Scheduled (w : Workflow) (m : Machine) : Prop where
  accounts : m.ended.Perm (m.booked ++ m.ends)
  placed : m.dispatched.Perm (m.tasks.map (·.id) ++ (m.endedIds ++ m.died))
  once : m.released.Nodup
  freed : ∀ id ∈ m.released, id ∈ w.graph.steps ∧ ∀ d ∈ w.graph.dependencies id, d ∈ m.bookedIds
  complete : m.cancelled = false →
    ∀ id ∈ w.graph.steps, (∀ d ∈ w.graph.dependencies id, d ∈ m.bookedIds) → id ∈ m.released
  waiting : ∀ id ∈ w.graph.steps,
    Keyed.get? m.waiting id = some ((w.graph.dependencies id).countP fun d => d ∉ m.bookedIds)
  plans : ∀ t ∈ m.tasks, w.plan? t.id = some t.plan
  heard : ∀ id ∈ m.starts, id ∈ m.dispatched

namespace Scheduled

variable {w : Workflow} {m : Machine}

/-- No step is dispatched twice. -/
theorem nodup_dispatched (h : m.Scheduled w) : m.dispatched.Nodup := (List.nodup_append.mp h.once).2.1

/-- A step is under way, has ended or has died, and only one of these. -/
theorem nodup_placed (h : m.Scheduled w) : (m.tasks.map (·.id) ++ (m.endedIds ++ m.died)).Nodup :=
  h.placed.nodup_iff.mp h.nodup_dispatched

theorem nodup_tasks (h : m.Scheduled w) : (m.tasks.map (·.id)).Nodup := (List.nodup_append.mp h.nodup_placed).1

theorem nodup_over (h : m.Scheduled w) : (m.endedIds ++ m.died).Nodup := (List.nodup_append.mp h.nodup_placed).2.1

theorem nodup_ended (h : m.Scheduled w) : m.endedIds.Nodup := (List.nodup_append.mp h.nodup_over).1

/-- What has ended is booked, or is to be. -/
theorem perm_endedIds (h : m.Scheduled w) : m.endedIds.Perm (m.bookedIds ++ m.ends.map (·.1)) := by
  rw [bookedIds, ← List.map_append]
  exact h.accounts.map _

/-- A step has ended exactly if its end is booked, or is to be. -/
theorem mem_endedIds (h : m.Scheduled w) {id : String} : id ∈ m.endedIds ↔ id ∈ m.bookedIds ∨ id ∈ m.ends.map (·.1) := by
  rw [h.perm_endedIds.mem_iff, List.mem_append]

/-- A step that is under way was dispatched. -/
theorem dispatched_of_task (h : m.Scheduled w) {t : Task} (ht : t ∈ m.tasks) : t.id ∈ m.dispatched :=
  h.placed.mem_iff.mpr (List.mem_append_left _ (List.mem_map_of_mem ht))

/-- A step that has ended was dispatched. -/
theorem dispatched_of_ended (h : m.Scheduled w) {id : String} (hid : id ∈ m.endedIds) : id ∈ m.dispatched :=
  h.placed.mem_iff.mpr (List.mem_append_right _ (List.mem_append_left _ hid))

/-- A step that is under way has not ended. -/
theorem not_ended_of_task (h : m.Scheduled w) {t : Task} (ht : t ∈ m.tasks) : t.id ∉ m.endedIds := fun hid =>
  (List.nodup_append.mp h.nodup_placed).2.2 _ (List.mem_map_of_mem ht) _ (List.mem_append_left _ hid) rfl

/-- A step whose end is booked has ended. -/
theorem booked_ended (h : m.Scheduled w) {id : String} (hid : id ∈ m.bookedIds) : id ∈ m.endedIds := h.mem_endedIds.mpr (.inl hid)

/-- Only steps of the workflow are dispatched. -/
theorem step_of_dispatched (h : m.Scheduled w) {id : String} (hid : id ∈ m.dispatched) : id ∈ w.graph.steps :=
  (h.freed id (List.mem_append_right _ hid)).1

/-- What a dispatched step depends on has ended. -/
theorem ended_of_dependency (h : m.Scheduled w) {id d : String} (hid : id ∈ m.dispatched) (hd : d ∈ w.graph.dependencies id) :
    d ∈ m.endedIds := h.booked_ended ((h.freed id (List.mem_append_right _ hid)).2 d hd)

/-- A released step has a plan. -/
theorem plan_of_ready (hw : w.Valid) (h : m.Scheduled w) {id : String} (hid : id ∈ m.ready) : ∃ p, w.plan? id = some p :=
  hw.plan?_of_mem (h.freed id (List.mem_append_left _ hid)).1

end Scheduled

/-! ## Before the first step -/

/-- A run starts by counting what each step depends on. -/
theorem get?_dependencyCounts {w : Workflow} (hw : w.Valid) {id : String} (hid : id ∈ w.graph.steps) :
    Keyed.get? (Keyed.ofList (w.graph.nodes.map fun (id, dependencies) => (id, dependencies.length))) id =
      some (w.graph.dependencies id).length := by
  have hentries : ∀ e ∈ w.graph.nodes.map fun (id, dependencies) => (id, dependencies.length),
      e.2 = (w.graph.dependencies e.1).length := by
    intro e he
    obtain ⟨n, hn, rfl⟩ := List.mem_map.mp he
    rw [hw.dependencies_of_node hn]
  have hkeys : (w.graph.nodes.map fun (id, dependencies) => (id, dependencies.length)).map (·.1) = w.graph.steps := by
    simp [Graph.steps, Function.comp_def]
  have hget := Keyed.get?_ofList (f := fun id => (w.graph.dependencies id).length) hentries id
  rwa [hkeys, if_pos hid] at hget

/-- A run follows the schedule at the start. -/
theorem start_scheduled {w : Workflow} (hw : w.Valid) (inputs : Fields) (now : Nat) : (start w inputs now).Scheduled w := by
  have hready {id : String} : id ∈ (start w inputs now).released ↔ id ∈ w.graph.steps ∧ w.graph.dependencies id = [] := by
    have hmem : id ∈ (start w inputs now).released ↔ id ∈ w.graph.order ∧ id ∈ w.graph.roots := by
      simp [released, dispatched, start]
    rw [hmem, hw.mem_order, hw.mem_roots]
    exact ⟨fun h => h.2, fun h => ⟨h.1, h⟩⟩
  refine ⟨.refl _, by simp [dispatched, start, endedIds, ended, died], ?_, ?_, ?_, ?_, by simp [start], by simp [start]⟩
  · simpa [released, dispatched, start] using hw.nodup_order.filter _
  · intro id hid
    obtain ⟨hstep, hdeps⟩ := hready.mp hid
    exact ⟨hstep, by simp [hdeps]⟩
  · intro _ id hid hdeps
    exact hready.mpr ⟨hid, List.eq_nil_iff_forall_not_mem.mpr fun d hd => List.not_mem_nil (hdeps d hd)⟩
  · intro id hid
    have hcount : (w.graph.dependencies id).countP (fun d => d ∉ (start w inputs now).bookedIds)
        = (w.graph.dependencies id).length := by
      rw [List.countP_eq_length]
      intro d _
      simp [bookedIds, booked, start, Event.finished?]
    rw [hcount]
    exact get?_dependencyCounts hw hid

/-! ## The runner -/

section Runner

variable {w : Workflow} {m : Machine}

/-- A machine in which nothing has changed that the runner keeps in order. -/
theorem Scheduled.of_eq {m' : Machine} (h : m.Scheduled w) (htrace : m'.trace = m.trace) (hevents : m'.events = m.events)
    (hwaiting : m'.waiting = m.waiting) (hready : m'.ready = m.ready) (htasks : m'.tasks = m.tasks) (hstarts : m'.starts = m.starts)
    (hends : m'.ends = m.ends) (hcancelled : m'.cancelled = false → m.cancelled = false) : m'.Scheduled w := by
  obtain ⟨h1, h2, h3, h4, h5, h6, h7, h8⟩ := h
  have hbooked : m'.booked = m.booked := by rw [booked, hevents, booked]
  have hids : m'.bookedIds = m.bookedIds := by rw [bookedIds, hbooked, bookedIds]
  have hended : m'.ended = m.ended := by rw [ended, htrace, ended]
  have hdied : m'.died = m.died := by rw [died, htrace, died]
  have hdispatched : m'.dispatched = m.dispatched := by rw [dispatched, htrace, dispatched]
  have hreleased : m'.released = m.released := by rw [released, hready, hdispatched, released]
  refine ⟨?_, ?_, hreleased ▸ h3, ?_, ?_, ?_, htasks ▸ h7, ?_⟩
  · rw [hended, hbooked, hends]
    exact h1
  · rw [hdispatched, htasks, endedIds, hended, hdied]
    exact h2
  · rw [hreleased, hids]
    exact h4
  · rw [hreleased, hids]
    exact fun hc => h5 (hcancelled hc)
  · rw [hwaiting, hids]
    exact h6
  · rw [hstarts, hdispatched]
    exact h8

/-- To hear of a start books no end. -/
theorem booked_hear (w : Workflow) (now : Nat) (m : Machine) : (m.hear w now).booked = m.booked := by
  unfold hear
  split
  · rfl
  · rename_i id starts _
    have hnone : ((w.plan? id).map fun p => Event.stepStarted p.step).toList.filterMap Event.finished? = [] := by
      cases w.plan? id <;> rfl
    rw [booked, List.filterMap_append, hnone, List.append_nil, booked]

/-- What the runner leaves as it is when it looks for a start. -/
theorem hear_untouched (w : Workflow) (now : Nat) (m : Machine) : (m.hear w now).context = m.context ∧
    (m.hear w now).tasks = m.tasks ∧ (m.hear w now).trace = m.trace ∧ (m.hear w now).cancelled = m.cancelled ∧
    (m.hear w now).ready = m.ready ∧ (m.hear w now).waiting = m.waiting ∧ (m.hear w now).ends = m.ends ∧
    (m.hear w now).places = m.places ∧ (m.hear w now).starts = m.starts.tail := by
  unfold hear
  split
  · rename_i hstarts
    exact ⟨rfl, rfl, rfl, rfl, rfl, rfl, rfl, rfl, by rw [hstarts]; rfl⟩
  · rename_i hstarts
    exact ⟨rfl, rfl, rfl, rfl, rfl, rfl, rfl, rfl, by rw [hstarts]; rfl⟩

/-- A run follows the schedule when a start is heard. -/
theorem hear_scheduled (h : m.Scheduled w) (now : Nat) : (m.hear w now).Scheduled w := by
  obtain ⟨-, htasks, htrace, hcancelled, hready, hwaiting, hends, -, hstarts⟩ := hear_untouched w now m
  have hbooked := booked_hear w now m
  have hids : (m.hear w now).bookedIds = m.bookedIds := by rw [bookedIds, hbooked, bookedIds]
  have hended : (m.hear w now).ended = m.ended := by rw [ended, htrace, ended]
  have hdied : (m.hear w now).died = m.died := by rw [died, htrace, died]
  have hdispatched : (m.hear w now).dispatched = m.dispatched := by rw [dispatched, htrace, dispatched]
  have hreleased : (m.hear w now).released = m.released := by rw [released, hready, hdispatched, released]
  obtain ⟨h1, h2, h3, h4, h5, h6, h7, h8⟩ := h
  refine ⟨?_, ?_, hreleased ▸ h3, ?_, ?_, ?_, htasks ▸ h7, ?_⟩
  · rw [hended, hbooked, hends]
    exact h1
  · rw [hdispatched, htasks, endedIds, hended, hdied]
    exact h2
  · rw [hreleased, hids]
    exact h4
  · rw [hreleased, hids, hcancelled]
    exact h5
  · rw [hwaiting, hids]
    exact h6
  · rw [hstarts, hdispatched]
    exact fun id hid => h8 id (List.mem_of_mem_tail hid)

/-- The books after an end is booked. -/
def booksAfter (now : Nat) (p : Plan) (id : String) (outcome : Outcome StepError) (books : RunState) : RunState :=
  RunState.addOutcome now id (outcome.mapError StepError.message) p.step.continueOnError
    (match outcome with
      | .cancelled => books.markCancelled
      | _ => books)

/-- To join an end is to book it and to release what waited for nothing else. -/
theorem join_eq {index : Nat} {id : String} {outcome : Outcome StepError} {p : Plan} (hends : m.ends[index]? = some (id, outcome))
    (hp : w.plan? id = some p) (now : Nat) :
    m.join w now index = release w id { m with
      ends := m.ends.eraseIdx index
      listened := false
      books := booksAfter now p id outcome m.books
      events := m.events ++ [.stepFinished p.step outcome] } := by
  unfold join
  rw [hends]
  simp only [hp]
  rfl

/-- One more booked step is one less to wait for. -/
theorem countP_not_mem_concat {ids : List String} {id : String} (hid : id ∉ ids) {ds : List String} (hnd : ds.Nodup) :
    (ds.countP fun d => d ∉ ids ++ [id]) = (ds.countP fun d => d ∉ ids) - if id ∈ ds then 1 else 0 := by
  induction ds with
  | nil => simp
  | cons d ds ih =>
    obtain ⟨hd, hds⟩ := List.nodup_cons.mp hnd
    rw [List.countP_cons, List.countP_cons, ih hds]
    by_cases hdid : d = id
    · subst hdid
      simp [hd, hid]
    · have hmem : d ∈ ids ++ [id] ↔ d ∈ ids := by simp [hdid]
      by_cases hin : id ∈ ds
      · have hpos : 0 < ds.countP fun d => d ∉ ids := List.countP_pos_iff.mpr ⟨id, hin, by simpa using hid⟩
        simp only [hmem, hin, List.mem_cons, or_true, if_true]
        split <;> omega
      · simp [hin, Ne.symm hdid, hdid]

/-- A step that is released lets each of its dependents wait for one less. -/
theorem get?_waiting_release (hw : w.Valid) (id : String) {x : String} (hx : x ∈ w.graph.steps) (m : Machine) :
    Keyed.get? (release w id m).waiting x =
      (Keyed.get? m.waiting x).map (· - if id ∈ w.graph.dependencies x then 1 else 0) := by
  have hnd : (w.graph.dependents id).Nodup := (Workflow.Valid.sorted_dependents id).nodup
  have hget := Keyed.get?_foldl_modify hnd m.waiting x (· - 1)
  refine hget.trans ?_
  simp only [hw.mem_dependents]
  by_cases hdep : id ∈ w.graph.dependencies x
  · simp [hx, hdep]
  · simp [hdep]

/-- The end of a step releases those that depend on it and wait for nothing any more. -/
theorem mem_ready_release (hw : w.Valid) (id : String) {x : String} (m : Machine) :
    x ∈ (release w id m).ready ↔ x ∈ m.ready ∨
      (x ∈ w.graph.steps ∧ id ∈ w.graph.dependencies x ∧ Keyed.get? (release w id m).waiting x = some 0) := by
  simp only [release, List.mem_append, Workflow.mem_inOrder, List.mem_filter, decide_eq_true_eq, hw.mem_dependents, hw.mem_order]
  exact or_congr_right ⟨fun h => ⟨h.1, h.2.1.2, h.2.2⟩, fun h => ⟨h.1, ⟨h.1, h.2.1⟩, h.2.2⟩⟩

/-- What the runner leaves as it is when it joins an end. -/
theorem join_untouched (w : Workflow) (now : Nat) (index : Nat) (m : Machine) : (m.join w now index).context = m.context ∧
    (m.join w now index).tasks = m.tasks ∧ (m.join w now index).trace = m.trace ∧ (m.join w now index).cancelled = m.cancelled ∧
    (m.join w now index).starts = m.starts ∧ (m.join w now index).places = m.places ∧
    (m.join w now index).ends = m.ends.eraseIdx index := by
  unfold join
  split
  · rename_i hends
    have herase : m.ends.eraseIdx index = m.ends := List.eraseIdx_of_length_le (List.getElem?_eq_none_iff.mp hends)
    exact ⟨rfl, rfl, rfl, rfl, rfl, rfl, herase.symm⟩
  · dsimp only
    split <;> exact ⟨rfl, rfl, rfl, rfl, rfl, rfl, rfl⟩

section Join

variable {index : Nat} {id : String} {outcome : Outcome StepError}

/-- The ends are the one at a place and the others. -/
theorem perm_ends (hends : m.ends[index]? = some (id, outcome)) : m.ends.Perm ((id, outcome) :: m.ends.eraseIdx index) := by
  obtain ⟨hlt, hget⟩ := List.getElem?_eq_some_iff.mp hends
  rw [← hget]
  exact (List.getElem_cons_eraseIdx_perm hlt).symm

/-- An end that has not been joined is that of a step. -/
theorem Scheduled.plan_of_end (hw : w.Valid) (h : m.Scheduled w) (hends : m.ends[index]? = some (id, outcome)) :
    ∃ p, w.plan? id = some p := by
  have hended : id ∈ m.endedIds := h.mem_endedIds.mpr (.inr (List.mem_map_of_mem (f := (·.1)) (List.mem_of_getElem? hends)))
  exact hw.plan?_of_mem (h.step_of_dispatched (h.dispatched_of_ended hended))

/-- An end that is joined was not booked before. -/
theorem Scheduled.not_booked_of_end (h : m.Scheduled w) (hends : m.ends[index]? = some (id, outcome)) : id ∉ m.bookedIds := by
  intro hb
  have hnd := h.perm_endedIds.nodup_iff.mp h.nodup_ended
  exact (List.nodup_append.mp hnd).2.2 id hb id (List.mem_map_of_mem (f := (·.1)) (List.mem_of_getElem? hends)) rfl

section Released

variable (hw : w.Valid) (h : m.Scheduled w) (hends : m.ends[index]? = some (id, outcome)) (now : Nat)

include hw h hends

/-- To join an end books it last. -/
theorem booked_join : (m.join w now index).booked = m.booked ++ [(id, outcome)] := by
  obtain ⟨p, hp⟩ := h.plan_of_end hw hends
  have hpid : p.step.id = id := (Workflow.plan?_some hp).2
  rw [join_eq hends hp]
  simp [booked, release, Event.finished?, hpid]

/-- To join an end books this one more. -/
theorem mem_bookedIds_join {d : String} : d ∈ (m.join w now index).bookedIds ↔ d ∈ m.bookedIds ∨ d = id := by
  simp [bookedIds, booked_join hw h hends now]

/-- The counters count what has still to be booked. -/
theorem waiting_join : ∀ x ∈ w.graph.steps, Keyed.get? (m.join w now index).waiting x =
    some ((w.graph.dependencies x).countP fun d => d ∉ (m.join w now index).bookedIds) := by
  intro x hx
  have hids : (m.join w now index).bookedIds = m.bookedIds ++ [id] := by simp [bookedIds, booked_join hw h hends now]
  rw [hids, countP_not_mem_concat (h.not_booked_of_end hends) (hw.sorted_dependencies x).nodup]
  obtain ⟨p, hp⟩ := h.plan_of_end hw hends
  rw [join_eq hends hp, get?_waiting_release hw id hx]
  exact congrArg (Option.map _) (h.waiting x hx)

/-- What is released now waits for nothing, and it waited for the step that is booked. -/
theorem mem_released_join {x : String} : x ∈ (m.join w now index).released ↔ x ∈ m.released ∨
    (x ∈ w.graph.steps ∧ id ∈ w.graph.dependencies x ∧ ∀ d ∈ w.graph.dependencies x, d ∈ (m.join w now index).bookedIds) := by
  have hready : x ∈ (m.join w now index).ready ↔ x ∈ m.ready ∨
      (x ∈ w.graph.steps ∧ id ∈ w.graph.dependencies x ∧ Keyed.get? (m.join w now index).waiting x = some 0) := by
    obtain ⟨p, hp⟩ := h.plan_of_end hw hends
    rw [join_eq hends hp]
    exact mem_ready_release hw id _
  have hzero (hx : x ∈ w.graph.steps) : Keyed.get? (m.join w now index).waiting x = some 0 ↔
      ∀ d ∈ w.graph.dependencies x, d ∈ (m.join w now index).bookedIds := by
    rw [waiting_join hw h hends now x hx, Option.some.injEq, List.countP_eq_zero]
    simp
  have hdispatched : (m.join w now index).dispatched = m.dispatched := by
    rw [dispatched, (join_untouched w now index m).2.2.1, dispatched]
  rw [released, List.mem_append, hready, hdispatched, released, List.mem_append]
  constructor
  · rintro ((hx | ⟨hx, hdep, hcount⟩) | hx)
    · exact Or.inl (Or.inl hx)
    · exact Or.inr ⟨hx, hdep, (hzero hx).mp hcount⟩
    · exact Or.inl (Or.inr hx)
  · rintro ((hx | hx) | ⟨hx, hdep, hdeps⟩)
    · exact Or.inl (Or.inl hx)
    · exact Or.inr hx
    · exact Or.inl (Or.inr ⟨hx, hdep, (hzero hx).mpr hdeps⟩)

/-- What is released now was not released before, for it waited for the step that is booked. -/
theorem nodup_released_join : (m.join w now index).released.Nodup := by
  obtain ⟨p, hp⟩ := h.plan_of_end hw hends
  rw [join_eq hends hp]
  set m₁ : Machine := { m with
    ends := m.ends.eraseIdx index
    listened := false
    books := booksAfter now p id outcome m.books
    events := m.events ++ [.stepFinished p.step outcome] }
  set free := w.inOrder ((w.graph.dependents id).filter fun d => Keyed.get? (release w id m₁).waiting d = some 0)
  have hfree : (release w id m₁).released.Perm (free ++ m.released) := by
    show (m.ready ++ free ++ m.dispatched).Perm (free ++ (m.ready ++ m.dispatched))
    rw [← List.append_assoc]
    exact List.perm_append_comm.append_right _
  rw [hfree.nodup_iff, List.nodup_append]
  refine ⟨hw.nodup_order.filter _, h.once, ?_⟩
  intro x hx y hy hxy
  subst hxy
  have hdep : x ∈ w.graph.dependents id := (List.mem_filter.mp (Workflow.mem_inOrder.mp hx).2).1
  exact h.not_booked_of_end hends ((h.freed x hy).2 id (hw.mem_dependents.mp hdep).2)

/-- A run follows the schedule when an end is joined. -/
theorem join_scheduled : (m.join w now index).Scheduled w := by
  obtain ⟨-, htasks, htrace, hcancelled, hstarts, -, hends'⟩ := join_untouched w now index m
  have hended : (m.join w now index).ended = m.ended := by rw [ended, htrace, ended]
  have hdied : (m.join w now index).died = m.died := by rw [died, htrace, died]
  have hdispatched : (m.join w now index).dispatched = m.dispatched := by rw [dispatched, htrace, dispatched]
  have hmem {d : String} := mem_bookedIds_join hw h hends now (d := d)
  have hreleased {x : String} := mem_released_join hw h hends now (x := x)
  refine ⟨?_, ?_, nodup_released_join hw h hends now, ?_, ?_, waiting_join hw h hends now, htasks ▸ h.plans, ?_⟩
  · rw [hended, booked_join hw h hends now, hends', List.append_assoc]
    exact h.accounts.trans ((perm_ends hends).append_left _)
  · rw [hdispatched, htasks, endedIds, hended, hdied]
    exact h.placed
  · intro x hx
    rcases hreleased.mp hx with hx | ⟨hx, -, hdeps⟩
    · exact ⟨(h.freed x hx).1, fun d hd => hmem.mpr (Or.inl ((h.freed x hx).2 d hd))⟩
    · exact ⟨hx, hdeps⟩
  · intro hc x hx hdeps
    rw [hreleased]
    by_cases hdep : id ∈ w.graph.dependencies x
    · exact Or.inr ⟨hx, hdep, hdeps⟩
    · refine Or.inl (h.complete (hcancelled ▸ hc) x hx fun d hd => (hmem.mp (hdeps d hd)).resolve_right ?_)
      rintro rfl
      exact hdep hd
  · rw [hstarts, hdispatched]
    exact h.heard

end Released

end Join

section Dispatch

variable {id : String} {ready : List String} {plan : Plan}

@[simp] theorem dispatched_dispatching : (m.dispatching id plan ready).dispatched = m.dispatched ++ [id] := by
  simp [dispatched, dispatching, Trace.dispatched?]

@[simp] theorem ended_dispatching : (m.dispatching id plan ready).ended = m.ended := by simp [ended, dispatching, Trace.ended?]

@[simp] theorem died_dispatching : (m.dispatching id plan ready).died = m.died := by simp [died, dispatching, Trace.died?]

@[simp] theorem asked_dispatching : (m.dispatching id plan ready).asked = m.asked := by simp [asked, dispatching, Trace.asked?]

@[simp] theorem calls_dispatching : (m.dispatching id plan ready).calls = m.calls := by simp [calls, dispatching, Trace.call?]

/-- What is released is dispatched. -/
theorem dispatching_scheduled (h : m.Scheduled w) (hready : m.ready = id :: ready) (hplan : w.plan? id = some plan) :
    (m.dispatching id plan ready).Scheduled w := by
  have hreleased : (m.dispatching id plan ready).released.Perm m.released := by
    rw [released, dispatched_dispatching, released, hready]
    show (ready ++ (m.dispatched ++ [id])).Perm (id :: ready ++ m.dispatched)
    rw [← List.append_assoc]
    exact List.perm_append_singleton _ _
  obtain ⟨h1, h2, h3, h4, h5, h6, h7, h8⟩ := h
  refine ⟨?_, ?_, hreleased.nodup_iff.mpr h3, fun x hx => h4 x (hreleased.mem_iff.mp hx),
    fun hc x hx hdeps => hreleased.mem_iff.mpr (h5 hc x hx hdeps), h6, ?_, ?_⟩
  · rw [ended_dispatching]
    exact h1
  · rw [dispatched_dispatching, endedIds, ended_dispatching, died_dispatching]
    show (m.dispatched ++ [id]).Perm ((m.tasks ++ [(⟨id, plan, .queued⟩ : Task)]).map (·.id) ++ (m.endedIds ++ m.died))
    rw [List.map_append, List.append_assoc]
    refine (h2.append_right [id]).trans ?_
    rw [List.append_assoc]
    exact List.perm_append_comm.append_left _
  · intro t ht
    rcases List.mem_append.mp ht with ht | ht
    · exact h7 t ht
    · obtain rfl := List.mem_singleton.mp ht
      exact hplan
  · intro x hx
    rw [dispatched_dispatching]
    exact List.mem_append_left _ (h8 x hx)

/-- A cancelled run drops what is released. -/
theorem dropped_scheduled (h : m.Scheduled w) (hc : m.cancelled = true) :
    Scheduled w { m with books := m.books.markCancelled, ready := [] } := by
  obtain ⟨h1, h2, h3, h4, h5, h6, h7, h8⟩ := h
  refine ⟨h1, h2, h3.sublist (List.sublist_append_right _ _), fun id hid => h4 id (List.mem_append_right _ hid), ?_, h6, h7, h8⟩
  intro hc'
  simp [hc] at hc'

end Dispatch

@[simp] theorem dispatched_asking (e : Engine) (id : String) (m : Machine) : (m.asking e id).dispatched = m.dispatched := by
  simp [dispatched, asking, Trace.dispatched?]

@[simp] theorem ended_asking (e : Engine) (id : String) (m : Machine) : (m.asking e id).ended = m.ended := by
  simp [ended, asking, Trace.ended?]

@[simp] theorem died_asking (e : Engine) (id : String) (m : Machine) : (m.asking e id).died = m.died := by
  simp [died, asking, Trace.died?]

@[simp] theorem calls_asking (e : Engine) (id : String) (m : Machine) : (m.asking e id).calls = m.calls := by
  simp [calls, asking, Trace.call?]

@[simp] theorem asked_asking (e : Engine) (id : String) (m : Machine) : (m.asking e id).asked = m.asked ++ [id] := by
  simp [asked, asking, Trace.asked?]

/-- A run follows the schedule when a task asks for a place. -/
theorem asking_scheduled (h : m.Scheduled w) (e : Engine) (id : String) : (m.asking e id).Scheduled w := by
  have hreleased : (m.asking e id).released = m.released := by rw [released, dispatched_asking]; rfl
  obtain ⟨h1, h2, h3, h4, h5, h6, h7, h8⟩ := h
  refine ⟨ended_asking e id m ▸ h1, ?_, hreleased ▸ h3, hreleased ▸ h4, hreleased ▸ h5, h6, h7, dispatched_asking e id m ▸ h8⟩
  rw [dispatched_asking, endedIds, ended_asking, died_asking]
  exact h2

end Runner

/-! ## Steps that advance -/

section Advances

variable {w : Workflow} {m : Machine} {t : Task}

/-- A run follows the schedule when a task takes its place. -/
theorem taking_scheduled (h : m.Scheduled w) (id : String) : (m.taking id).Scheduled w :=
  h.of_eq rfl rfl rfl rfl rfl rfl rfl fun hc => hc

/-- A run follows the schedule when a task is decided. -/
theorem decided_scheduled (h : m.Scheduled w) (ht : t ∈ m.tasks) (decision : Except StepError Bool) :
    (m.decided t decision).Scheduled w := by
  have hended := ended_decided m t decision
  have hdied := died_decided m t decision
  have hdispatched := dispatched_decided m t decision
  have hreleased : (m.decided t decision).released = m.released := by rw [released, hdispatched]; rfl
  have htask := h.dispatched_of_task ht
  obtain ⟨h1, h2, h3, h4, h5, h6, h7, h8⟩ := h
  refine ⟨hended ▸ h1, ?_, hreleased ▸ h3, hreleased ▸ h4, hreleased ▸ h5, h6, h7, ?_⟩
  · rw [hdispatched, endedIds, hended, hdied]
    exact h2
  · intro id hid
    rw [hdispatched]
    rcases mem_starts_decided m t decision hid with hid | rfl
    · exact h8 id hid
    · exact htask

/-- A run follows the schedule whatever a procedure does on its way. -/
theorem log_scheduled {α : Type} (h : m.Scheduled w) (token : CancelToken) (s : Settled α) : (m.log token s).Scheduled w := by
  have hended := ended_log m token s
  have hdied := died_log m token s
  have hdispatched := dispatched_log m token s
  have hreleased : (m.log token s).released = m.released := by rw [released, hdispatched]; rfl
  have hcancelled : (m.log token s).cancelled = false → m.cancelled = false := fun hc => (Bool.or_eq_false_iff.mp hc).1
  obtain ⟨h1, h2, h3, h4, h5, h6, h7, h8⟩ := h
  refine ⟨hended ▸ h1, ?_, hreleased ▸ h3, hreleased ▸ h4, fun hc => hreleased ▸ h5 (hcancelled hc), h6, h7, hdispatched ▸ h8⟩
  rw [hdispatched, endedIds, hended, hdied]
  exact h2

/-- A task stands alone among the tasks. -/
theorem tasks_split (hnd : (m.tasks.map (·.id)).Nodup) (ht : t ∈ m.tasks) :
    ∃ before after, m.tasks = before ++ t :: after ∧ (m.tasks.filter (·.id ≠ t.id)) = before ++ after ∧
      ∀ phase, (m.tasks.map fun u => if u.id = t.id then { u with phase } else u) = before ++ { t with phase } :: after := by
  obtain ⟨before, after, hsplit, hfilter, hmap⟩ := split_of_nodup (fun t : Task => t.id) hnd ht
  exact ⟨before, after, hsplit, hfilter, fun phase => hmap fun u => { u with phase }⟩

/-- The step whose task is taken away is no task any more. -/
theorem perm_tasks (hnd : (m.tasks.map (·.id)).Nodup) (ht : t ∈ m.tasks) :
    (m.tasks.map (·.id)).Perm (t.id :: (m.tasks.filter (·.id ≠ t.id)).map (·.id)) := by
  obtain ⟨before, after, hsplit, hfilter, -⟩ := tasks_split hnd ht
  rw [hfilter, hsplit, List.map_append, List.map_append, List.map_cons]
  exact List.perm_middle

/-- A run follows the schedule when a task ends. -/
theorem finish_scheduled (h : m.Scheduled w) (ht : t ∈ m.tasks) (outcome : Outcome StepError) :
    (m.finish t.id outcome).Scheduled w := by
  have hended := ended_finish m t.id outcome
  have hdispatched := dispatched_finish m t.id outcome
  have hreleased : (m.finish t.id outcome).released = m.released := by rw [released, hdispatched]; rfl
  have htasks := perm_tasks h.nodup_tasks ht
  obtain ⟨h1, h2, h3, h4, h5, h6, h7, h8⟩ := h
  refine ⟨?_, ?_, hreleased ▸ h3, hreleased ▸ h4, hreleased ▸ h5, h6, fun u hu => h7 u (List.mem_of_mem_filter hu), hdispatched ▸ h8⟩
  · rw [hended]
    show (m.ended ++ [(t.id, outcome)]).Perm (m.booked ++ (m.ends ++ [(t.id, outcome)]))
    rw [← List.append_assoc]
    exact h1.append_right _
  · rw [hdispatched, endedIds, hended, died_finish, List.map_append]
    refine h2.trans ((htasks.append_right _).trans ?_)
    show (t.id :: ((m.tasks.filter (·.id ≠ t.id)).map (·.id) ++ (m.endedIds ++ m.died))).Perm
      ((m.tasks.filter (·.id ≠ t.id)).map (·.id) ++ (m.endedIds ++ [t.id] ++ m.died))
    refine List.perm_middle.symm.trans (List.Perm.append_left _ ?_)
    rw [List.append_assoc]
    exact List.perm_middle.symm

/-- A run follows the schedule when a task dies. -/
theorem die_scheduled (h : m.Scheduled w) (ht : t ∈ m.tasks) : (m.die t.id).Scheduled w := by
  have hended := ended_die m t.id
  have hdispatched := dispatched_die m t.id
  have hreleased : (m.die t.id).released = m.released := by rw [released, hdispatched]; rfl
  have htasks := perm_tasks h.nodup_tasks ht
  obtain ⟨h1, h2, h3, h4, h5, h6, h7, h8⟩ := h
  refine ⟨hended ▸ h1, ?_, hreleased ▸ h3, hreleased ▸ h4, hreleased ▸ h5, h6, fun u hu => h7 u (List.mem_of_mem_filter hu),
    hdispatched ▸ h8⟩
  rw [hdispatched, endedIds, hended, died_die]
  refine h2.trans ((htasks.append_right _).trans ?_)
  show (t.id :: ((m.tasks.filter (·.id ≠ t.id)).map (·.id) ++ (m.endedIds ++ m.died))).Perm
    ((m.tasks.filter (·.id ≠ t.id)).map (·.id) ++ (m.endedIds ++ (m.died ++ [t.id])))
  refine List.perm_middle.symm.trans (List.Perm.append_left _ ?_)
  rw [← List.append_assoc]
  exact (List.perm_append_singleton _ _).symm

/-- A run follows the schedule when a task waits for calls. -/
theorem suspend_scheduled (h : m.Scheduled w) (id : String) (p : Proc (Outcome StepError)) : (m.suspend id p).Scheduled w := by
  have hids : (m.suspend id p).tasks.map (·.id) = m.tasks.map (·.id) := by
    simp only [suspend, List.map_map]
    refine List.map_congr_left ?_
    intro t _
    simp only [Function.comp_apply]
    split <;> rfl
  obtain ⟨h1, h2, h3, h4, h5, h6, h7, h8⟩ := h
  refine ⟨h1, ?_, h3, h4, h5, h6, ?_, h8⟩
  · rw [hids]
    exact h2
  · intro t ht
    obtain ⟨u, hu, rfl⟩ := List.mem_map.mp ht
    have hplan := h7 u hu
    split <;> exact hplan

/-- A run follows the schedule when a task advances. -/
theorem advance_scheduled (h : m.Scheduled w) (ht : t ∈ m.tasks) (token : CancelToken) (p : Proc (Outcome StepError)) :
    (m.advance token t.id p).1.Scheduled w := by
  rcases advance_cases token t.id p m with ⟨outcome, -, heq⟩ | ⟨-, heq⟩ | ⟨-, -, heq⟩ <;> rw [heq]
  · exact finish_scheduled (log_scheduled h token _) ht outcome
  · exact die_scheduled (log_scheduled h token _) ht
  · exact suspend_scheduled (log_scheduled h token _) _ _

/-- Every move keeps the runner's order. -/
theorem move_scheduled (hw : w.Valid) (h : m.Scheduled w) (e : Engine) (now : Nat) (move : Move) :
    (m.move w e now move).1.Scheduled w := by
  have heffect := move_effect w e now move m
  generalize m.move w e now move = r at heffect
  cases heffect with
  | idle => exact h
  | dispatched first _ found => exact dispatching_scheduled h first found
  | @passed id ready first missing =>
    have hid : id ∈ m.ready := by simp [first]
    obtain ⟨p, hp⟩ := h.plan_of_ready hw hid
    rw [missing] at hp
    cases hp
  | dropped _ stopped => exact dropped_scheduled h stopped
  | listened => exact h.of_eq rfl rfl rfl rfl rfl rfl rfl id
  | heard => exact hear_scheduled h now
  | joined _ _ found => exact join_scheduled hw h found now
  | asked => exact asking_scheduled h e _
  | cancelled => exact h.of_eq rfl rfl rfl rfl rfl rfl rfl nofun
  | @refused t cut mem => exact advance_scheduled (taking_scheduled h t.id) mem _ _
  | began mem => exact advance_scheduled (decided_scheduled h mem _) mem _ _
  | replied r mem => exact advance_scheduled h mem _ _

end Advances

end Runbook.Machine
