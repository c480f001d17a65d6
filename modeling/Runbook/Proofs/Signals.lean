import Runbook.Proofs.Flights
import Runbook.Proofs.Scheduling

/-!
# What moves ask for

A move asks for the calls that steps begin to wait for, each of them a call that a plan makes, and for those steps to be woken that can
go on. The calls in flight are those that were asked for and have not come back. The steps that are to be woken are those that were
dispatched and have not asked for a place, in the order in which they were, and those that have been handed one.
-/

namespace Runbook

/-! ## Calls in flight -/

/-- The calls of a step that are in flight. -/
def Task.inFlight (t : Task) : List (Ticket × Call) :=
  match t.phase with
  | .queued => []
  | .active p => p.waitingFor.map fun (index, c) => (⟨t.id, index⟩, c)

/-- The calls of a task are those that its procedure waits for. -/
theorem Task.mem_inFlight {t : Task} {ticket : Ticket} {c : Call} :
    (ticket, c) ∈ t.inFlight ↔ t.id = ticket.step ∧ ∃ p, t.phase = .active p ∧ (ticket.index, c) ∈ p.waitingFor := by
  obtain ⟨step, index⟩ := ticket
  unfold inFlight
  cases hp : t.phase with
  | queued => simp
  | active p =>
    simp only [List.mem_map, Prod.mk.injEq, Ticket.mk.injEq, Phase.active.injEq, exists_eq_left']
    constructor
    · rintro ⟨⟨i, c'⟩, hmem, ⟨hid, rfl⟩, rfl⟩
      exact ⟨hid, hmem⟩
    · rintro ⟨hid, hmem⟩
      exact ⟨(index, c), hmem, ⟨hid, rfl⟩, rfl⟩

namespace Machine

/-- The calls in flight, with their tickets. -/
def inFlight (m : Machine) : List (Ticket × Call) := m.tasks.flatMap Task.inFlight

/-- The calls of a run are those of its tasks. -/
theorem mem_inFlight {m : Machine} {ticket : Ticket} {c : Call} :
    (ticket, c) ∈ m.inFlight ↔
      ∃ t ∈ m.tasks, t.id = ticket.step ∧ ∃ p, t.phase = .active p ∧ (ticket.index, c) ∈ p.waitingFor := by
  simp only [inFlight, List.mem_flatMap, Task.mem_inFlight]

/-- What a move that replies to some calls in flight asks for. -/
structure Asks (w : Workflow) (e : Engine) (m : Machine) (replied : List (Ticket × Call)) (next : Machine × List Signal) : Prop where
  flights : (m.inFlight ++ next.2.filterMap Signal.call?).Perm (replied ++ next.1.inFlight)
  made : ∀ ticket c, Signal.called ticket c ∈ next.2 → ∃ id p, w.plan? id = some p ∧ p.Makes e [id] c

/-- The steps that are to be woken: in order, all that have not asked for a place, and all that have been handed one. -/
structure Wakes (waking : List String) (m : Machine) : Prop where
  asks : m.dispatched = m.asked ++ waking.filter (· ∉ m.asked)
  begins : ∀ id ∈ m.places.handed, id ∈ waking

variable {w : Workflow} {e : Engine} {m : Machine}

/-! ## Steps that advance -/

section Advance

variable {t : Task} {p : Proc (Outcome StepError)}

/-- Calls with the tickets of a step. -/
def ticketed (id : String) (calls : List (CallIndex × Call)) : List (Ticket × Call) :=
  calls.map fun (index, c) => (⟨id, index⟩, c)

theorem ticketed_append (id : String) (calls calls' : List (CallIndex × Call)) :
    ticketed id (calls ++ calls') = ticketed id calls ++ ticketed id calls' := List.map_append ..

/-- The signals of calls signal these calls. -/
theorem filterMap_call?_called (id : String) (calls : List (CallIndex × Call)) :
    (calls.map fun (index, c) => Signal.called ⟨id, index⟩ c).filterMap Signal.call? = ticketed id calls := by
  rw [List.filterMap_map, ticketed, ← List.filterMap_eq_map]
  rfl

/-- The signals of calls wake no step. -/
theorem filterMap_step?_called (id : String) (calls : List (CallIndex × Call)) :
    (calls.map fun (index, c) => Signal.called ⟨id, index⟩ c).filterMap Signal.step? = [] := by
  rw [List.filterMap_map, List.filterMap_eq_nil_iff]
  exact fun _ _ => rfl

/-- To hand over a place signals no call. -/
theorem handOver_calls (m : Machine) : m.handOver.filterMap Signal.call? = [] := by
  unfold handOver
  cases m.places.queue.head? <;> rfl

/-- To hand over a place wakes who waits longest for one. -/
theorem handOver_steps (m : Machine) : m.handOver.filterMap Signal.step? = m.places.queue.head?.toList := by
  unfold handOver
  cases m.places.queue.head? <;> rfl

/-- A step that advances asks for its calls. -/
theorem signals_advance (token : CancelToken) (id : String) (p : Proc (Outcome StepError)) (m : Machine) :
    (m.advance token id p).2.filterMap Signal.call? = ticketed id (p.settle m.context.scope token).calls ∧
      ∀ ticket c, Signal.called ticket c ∈ (m.advance token id p).2 → ∃ index, (index, c) ∈ (p.settle m.context.scope token).calls := by
  have hmem {ticket : Ticket} {c : Call} (h : Signal.called ticket c ∈ signalsOf id (p.settle m.context.scope token)) :
      ∃ index, (index, c) ∈ (p.settle m.context.scope token).calls := by
    obtain ⟨⟨index, c'⟩, hc, heq⟩ := List.mem_map.mp h
    obtain ⟨-, rfl⟩ := Signal.called.inj heq
    exact ⟨index, hc⟩
  have hplace {ticket : Ticket} {c : Call} : Signal.called ticket c ∉ m.handOver := by
    intro h
    obtain ⟨_, -, heq⟩ := List.mem_map.mp h
    cases heq
  have hover : (signalsOf id (p.settle m.context.scope token) ++ m.handOver).filterMap Signal.call? =
      ticketed id (p.settle m.context.scope token).calls := by
    rw [List.filterMap_append, handOver_calls, List.append_nil]
    exact filterMap_call?_called _ _
  rcases advance_cases token id p m with ⟨o, -, heq⟩ | ⟨-, heq⟩ | ⟨-, -, heq⟩ <;> rw [heq]
  · exact ⟨hover, fun ticket c hc => hmem ((List.mem_append.mp hc).resolve_right hplace)⟩
  · exact ⟨hover, fun ticket c hc => hmem ((List.mem_append.mp hc).resolve_right hplace)⟩
  · exact ⟨filterMap_call?_called _ _, fun ticket c hc => hmem hc⟩

/-- A step that advances keeps its place, or it gives it back: then the first that waits for one is to be woken. -/
theorem places_advance (token : CancelToken) (id : String) (p : Proc (Outcome StepError)) (m : Machine) :
    ((m.advance token id p).1.places = m.places.release ∧
        (m.advance token id p).2.filterMap Signal.step? = m.places.queue.head?.toList) ∨
      ((m.advance token id p).1.places = m.places ∧ (m.advance token id p).2.filterMap Signal.step? = []) := by
  have hover : (signalsOf id (p.settle m.context.scope token) ++ m.handOver).filterMap Signal.step? = m.places.queue.head?.toList := by
    rw [List.filterMap_append, handOver_steps, signalsOf, filterMap_step?_called, List.nil_append]
  rcases advance_cases token id p m with ⟨o, -, heq⟩ | ⟨-, heq⟩ | ⟨-, -, heq⟩ <;> rw [heq]
  · exact .inl ⟨rfl, hover⟩
  · exact .inl ⟨rfl, hover⟩
  · exact .inr ⟨rfl, filterMap_step?_called _ _⟩

/-- Whoever is handed the place of a step that advances is to be woken. -/
theorem Wakes.advance {waking : List String} (h : m.Wakes waking) (hasked : ∀ k ∈ m.places.queue, k ∈ m.asked) (token : CancelToken)
    (id : String) (p : Proc (Outcome StepError)) :
    (m.advance token id p).1.Wakes (waking ++ (m.advance token id p).2.filterMap Signal.step?) := by
  have hnew : ((m.advance token id p).2.filterMap Signal.step?).filter (· ∉ m.asked) = [] ∧
      ∀ k ∈ (m.advance token id p).1.places.handed, k ∈ m.places.handed ∨ k ∈ (m.advance token id p).2.filterMap Signal.step? := by
    rcases places_advance token id p m with ⟨hplaces, hsteps⟩ | ⟨hplaces, hsteps⟩ <;> rw [hplaces, hsteps]
    · unfold Semaphore.release
      split
      · rename_i hqueue
        rw [hqueue]
        exact ⟨rfl, fun k hk => .inl hk⟩
      · rename_i first queue hqueue
        have hfirst : first ∈ m.asked := hasked first (hqueue ▸ List.mem_cons_self)
        rw [hqueue]
        refine ⟨by simp [hfirst], fun k hk => ?_⟩
        exact (List.mem_append.mp hk).imp_right fun hk => by simpa using hk
    · exact ⟨rfl, fun k hk => .inl hk⟩
  refine ⟨?_, ?_⟩
  · rw [dispatched_advance, asked_advance, List.filter_append, hnew.1, List.append_nil]
    exact h.asks
  · intro k hk
    rcases hnew.2 k hk with hk | hk
    · exact List.mem_append_left _ (h.begins k hk)
    · exact List.mem_append_right _ hk

/-- A step that advances waits for the calls that were in flight and for those that it asks for, which are none if it ends or dies. -/
theorem advance_asks {P : Outcome StepError → Prop} (hnd : (m.tasks.map (·.id)).Nodup) (ht : t ∈ m.tasks) (hplan : w.plan? t.id = some t.plan)
    (token : CancelToken) (hway : p.UnderWay (t.plan.conduct e [t.id]) P) {replied : List (Ticket × Call)}
    (hreplied : t.inFlight.Perm (replied ++ ticketed t.id p.underway)) : m.Asks w e replied (m.advance token t.id p) := by
  have hkeeps := hway.settle m.context.scope token
  obtain ⟨hcalls, hmade⟩ := signals_advance token t.id p m
  obtain ⟨before, after, hsplit, hfilter, hmap⟩ := tasks_split hnd ht
  have hafter : (m.advance token t.id p).1.inFlight = before.flatMap Task.inFlight ++
      (ticketed t.id (p.settle m.context.scope token).proc.waitingFor ++ after.flatMap Task.inFlight) := by
    have hgone {m' : Machine} (htasks : m'.tasks = m.tasks.filter (·.id ≠ t.id)) (hidle : (p.settle m.context.scope token).proc.waitingFor = []) :
        m'.inFlight = before.flatMap Task.inFlight ++
          (ticketed t.id (p.settle m.context.scope token).proc.waitingFor ++ after.flatMap Task.inFlight) := by
      rw [inFlight, htasks, hfilter, hidle, List.flatMap_append]
      rfl
    rcases advance_cases token t.id p m with ⟨o, hdone, heq⟩ | ⟨hpanics, heq⟩ | ⟨-, -, heq⟩ <;> rw [heq]
    · exact hgone rfl (by rw [hdone]; rfl)
    · exact hgone rfl (hkeeps.rests.way.idle_of_panics hpanics)
    · have htasks : ((m.log token (p.settle m.context.scope token)).suspend t.id (p.settle m.context.scope token).proc).tasks =
          before ++ { t with phase := .active (p.settle m.context.scope token).proc } :: after := hmap _
      rw [inFlight, htasks, List.flatMap_append, List.flatMap_cons]
      rfl
  refine ⟨?_, ?_⟩
  · have hreplied := Multiset.coe_eq_coe.mpr hreplied
    rw [hcalls, hafter, hkeeps.waiting, inFlight, hsplit, List.flatMap_append, List.flatMap_cons, ticketed_append]
    refine Multiset.coe_eq_coe.mp ?_
    simp only [← Multiset.coe_add, hreplied]
    abel
  · intro ticket c hc
    obtain ⟨index, hmem⟩ := hmade ticket c hc
    exact ⟨t.id, t.plan, hplan, hkeeps.calls _ hmem⟩

end Advance

/-! ## Moves -/

/-- A move that changes nothing about the calls in flight asks for none. -/
theorem Asks.of_eq {m' : Machine} {signals : List Signal} (htasks : m'.tasks = m.tasks) (hcalls : ∀ ticket c, Signal.called ticket c ∉ signals) :
    m.Asks w e [] (m', signals) := by
  have hnone : signals.filterMap Signal.call? = [] := by
    rw [List.filterMap_eq_nil_iff]
    intro s hs
    cases s with
    | called ticket c => exact absurd hs (hcalls ticket c)
    | wake _ => rfl
  refine ⟨?_, fun ticket c hc => absurd hc (hcalls ticket c)⟩
  rw [hnone, inFlight, inFlight, htasks, List.append_nil, List.nil_append]

section Sound

variable {inputs : Fields} (hw : w.Valid) (hs : m.Sound w e inputs)

include hs

/-- A reply takes its call out of flight. -/
theorem reply_asks {ticket : Ticket} {c : Call} (hc : (ticket, c) ∈ m.inFlight) (r : Reply) (cut : Option Nat) :
    m.Asks w e [(ticket, c)] (m.reply ticket r cut) := by
  obtain ⟨t, ht, hid, p, hp, hwaits⟩ := mem_inFlight.mp hc
  obtain ⟨step, index⟩ := ticket
  obtain rfl : t.id = step := hid
  have hway := (hs.conforms.procs t ht p hp).1
  rw [reply_eq hs.scheduled ht hp hwaits]
  refine advance_asks hs.scheduled.nodup_tasks ht (hs.scheduled.plans t ht) _ (hway.reply index r) ?_
  obtain ⟨before, after, hbefore, hafter⟩ := hway.underway_reply hwaits r
  have hflight : t.inFlight = ticketed t.id p.waitingFor := by simp only [Task.inFlight, hp, ticketed]
  rw [hflight, hbefore, hafter, ticketed_append, ticketed_append]
  exact List.perm_middle

include hw

/-- Every move but a reply leaves the calls in flight and may ask for others. -/
theorem move_asks (now : Nat) {mv : Move} (hmv : ∀ ticket r cut, mv ≠ .reply ticket r cut) : m.Asks w e [] (m.move w e now mv) := by
  have hfresh {t : Task} (hqueued : t.phase = .queued) {p : Proc (Outcome StepError)} (hp : p.underway = []) :
      t.inFlight.Perm ([] ++ ticketed t.id p.underway) := by
    rw [hp]
    simp only [Task.inFlight, hqueued]
    exact List.Perm.refl _
  have heffect := move_effect w e now mv m
  generalize m.move w e now mv = r at heffect
  cases heffect with
  | idle => exact .of_eq rfl nofun
  | @dispatched id ready plan =>
    have hnone : (m.dispatching id plan ready).inFlight = m.inFlight := by
      simp [inFlight, Machine.dispatching, Task.inFlight]
    refine ⟨?_, ?_⟩
    · rw [hnone, List.nil_append]
      exact (List.append_nil _).symm ▸ List.Perm.refl _
    · intro ticket c hc
      cases List.mem_singleton.mp hc
  | passed => exact .of_eq rfl nofun
  | dropped => exact .of_eq rfl nofun
  | listened => exact .of_eq rfl nofun
  | heard => exact .of_eq (hear_untouched w now m).2.1 nofun
  | @joined index => exact .of_eq (join_untouched w now index m).2.1 nofun
  | asked => exact .of_eq rfl nofun
  | cancelled => exact .of_eq rfl nofun
  | @refused t cut mem queued =>
    obtain ⟨hflights, hmade⟩ := advance_asks (e := e) (m := m.taking t.id) (P := fun _ => True) hs.scheduled.nodup_tasks mem
      (hs.scheduled.plans t mem) (m.token cut) (.fresh (.done trivial)) (hfresh queued rfl)
    exact ⟨hflights, hmade⟩
  | @began t cut mem queued =>
    have hobeys := Conforms.begun_obeys hw hs.scheduled e mem m.context.scope false
    obtain ⟨hflights, hmade⟩ := advance_asks (m := m.decided t (t.plan.step.admits m.context.scope)) hs.scheduled.nodup_tasks mem
      (hs.scheduled.plans t mem) (m.token cut).checked (.fresh hobeys) (hfresh queued hobeys.underway_eq_nil)
    exact ⟨hflights, hmade⟩
  | replied r => exact absurd rfl (hmv _ r _)

/-! ## Steps that are to be woken -/

omit hw in
/-- Who waits for a place has asked for it. -/
theorem asked_of_waiting : ∀ k ∈ m.places.queue, k ∈ m.asked := fun _ hk => hs.seated.waiting.subset hk

omit hs hw in
/-- What has changed nothing of the places has changed nothing of who is to be woken. -/
theorem Wakes.of_eq {m' : Machine} {waking : List String} (h : m.Wakes waking) (htrace : m'.trace = m.trace)
    (hhanded : m'.places.handed ⊆ m.places.handed) : m'.Wakes waking := by
  refine ⟨?_, fun id hid => h.begins id (hhanded hid)⟩
  rw [dispatched, asked, htrace]
  exact h.asks

omit hw in
/-- Whatever move is made but that a step asks for a place, those are to be woken that were, and those that the move asks for. -/
theorem Wakes.move {waking : List String} (h : m.Wakes waking) (now : Nat) {mv : Move} (hmv : ∀ id, mv ≠ .ask id) :
    (m.move w e now mv).1.Wakes (waking ++ (m.move w e now mv).2.filterMap Signal.step?) := by
  have heffect := move_effect w e now mv m
  generalize m.move w e now mv = r at heffect
  have hasked := asked_of_waiting hs
  have same {m' : Machine} (htrace : m'.trace = m.trace) (hplaces : m'.places = m.places) : m'.Wakes (waking ++ []) := by
    rw [List.append_nil]
    exact h.of_eq htrace (by rw [hplaces]; exact List.Subset.refl _)
  cases heffect with
  | idle => exact same rfl rfl
  | @dispatched id ready plan first =>
    have hnew : id ∉ m.asked := fun hid =>
      (List.nodup_append.mp hs.scheduled.once).2.2 id (by simp [first]) id (hs.seated.dispatched id hid) rfl
    refine ⟨?_, fun k hk => List.mem_append_left _ (h.begins k hk)⟩
    rw [dispatched_dispatching, asked_dispatching, List.filter_append, ← List.append_assoc, ← h.asks]
    simp [Signal.step?, hnew]
  | passed => exact same rfl rfl
  | dropped => exact same rfl rfl
  | listened => exact same rfl rfl
  | heard =>
    obtain ⟨-, -, htrace, -, -, -, -, hplaces, -⟩ := hear_untouched w now m
    exact same htrace hplaces
  | @joined index =>
    obtain ⟨-, -, htrace, -, -, hplaces, -⟩ := join_untouched w now index m
    exact same htrace hplaces
  | asked => exact absurd rfl (hmv _)
  | cancelled => exact same rfl rfl
  | @refused t cut =>
    have htaking : (m.taking t.id).Wakes waking := h.of_eq rfl List.erase_subset
    exact htaking.advance hasked _ _ _
  | @began t cut =>
    have hdecided : (m.decided t (t.plan.step.admits m.context.scope)).Wakes waking := by
      refine ⟨?_, fun k hk => h.begins k (List.erase_subset hk)⟩
      rw [dispatched_decided, asked_decided]
      exact h.asks
    refine hdecided.advance ?_ _ _ _
    rw [asked_decided]
    exact hasked
  | replied r => exact h.advance hasked _ _ _

omit hw in
/-- The first that is to be woken asks for a place, if it has not. -/
theorem Wakes.ask {id : String} {waking : List String} (h : m.Wakes (id :: waking)) :
    (m.ask e id).Wakes (id :: waking) ∧ id ∈ (m.ask e id).asked := by
  have hknown {t : Task} (ht : t ∈ m.tasks) (hqueued : t.phase = .queued) : m.places.knows t.id = true ↔ t.id ∈ m.asked :=
    Semaphore.knows_iff.trans (hs.seated.asked t ht hqueued).symm
  by_cases hasked : id ∈ m.asked
  · have heffect := ask_effect w e 0 id m
    generalize hm : m.ask e id = m' at heffect
    cases heffect with
    | idle => exact ⟨h, hasked⟩
    | asked mem queued new =>
      rw [(hknown mem queued).mpr hasked] at new
      cases new
  · have hasks := h.asks
    rw [List.filter_cons_of_pos (by simpa using hasked)] at hasks
    have hnd := hs.scheduled.nodup_dispatched
    rw [hasks] at hnd
    obtain ⟨t, ht, rfl, hqueued⟩ := hs.seated.unasked id (by rw [hasks]; simp) hasked
    have hnew : m.places.knows t.id = false := by
      rw [Bool.eq_false_iff, Ne, hknown ht hqueued]
      exact hasked
    have hlast : t.id ∈ (m.asking e t.id).asked := by simp
    rw [ask_eq_asking e ht hqueued hnew]
    refine ⟨⟨?_, ?_⟩, hlast⟩
    · have hothers : waking.filter (· ∉ (m.asking e t.id).asked) = waking.filter (· ∉ m.asked) := by
        refine List.filter_congr fun k hk => ?_
        rw [asked_asking, decide_eq_decide]
        refine not_congr ⟨fun hmem => ?_, List.mem_append_left _⟩
        refine (List.mem_append.mp hmem).resolve_right fun hlast => ?_
        obtain rfl := List.mem_singleton.mp hlast
        have hmem : t.id ∈ waking.filter (· ∉ m.asked) := List.mem_filter.mpr ⟨hk, by simpa using hasked⟩
        exact (List.nodup_cons.mp (List.nodup_append.mp hnd).2.1).1 hmem
      rw [List.filter_cons_of_neg (by simp), hothers, asked_asking, dispatched_asking, hasks, List.append_assoc,
        List.singleton_append]
    · intro k hk
      rcases hs.seated.keeps.acquire_cases t.id with ⟨-, -, heq⟩ | ⟨-, heq⟩
      · have hk : k ∈ (m.places.acquire e.settings.stepSlots t.id).handed := hk
        rw [heq] at hk
        rcases List.mem_append.mp hk with hk | hk
        · exact h.begins k hk
        · exact List.mem_singleton.mp hk ▸ List.mem_cons_self
      · have hk : k ∈ (m.places.acquire e.settings.stepSlots t.id).handed := hk
        rw [heq] at hk
        exact h.begins k hk

omit hw in
/-- A step that was to begin is one to which no place is handed. -/
theorem not_handed_begin (now : Nat) (id : String) (cut : Option Nat) : id ∉ (m.begin e id cut).1.places.handed := by
  intro hid
  have hafter : (m.begin e id cut).1.Seated e := hs.seated.move hs.scheduled now (.begin id cut)
  obtain ⟨u, hu, rfl, hqueued⟩ := hafter.queued id (List.mem_append_left _ hid)
  have hgone {m' : Machine} {token : CancelToken} {p : Proc (Outcome StepError)} (hu : u ∈ (m'.advance token u.id p).1.tasks) : False := by
    rcases mem_tasks_advance hu with ⟨-, hne⟩ | ⟨-, hactive⟩
    · exact hne rfl
    · rw [hqueued] at hactive
      cases hactive
  cases hfind : m.tasks.find? fun t => t.id == u.id && t.phase.isQueued && m.places.handed.contains u.id with
  | none =>
    have hidle : m.begin e u.id cut = (m, []) := by
      unfold begin
      rw [hfind]
    rw [hidle] at hu hid
    have hnone := List.find?_eq_none.mp hfind u hu
    simp [hqueued, Phase.isQueued_iff, hid] at hnone
  | some t =>
    obtain ⟨-, -, -, -, heq⟩ := begin_of_find? e cut hfind
    rw [heq] at hu
    split at hu
    · exact hgone hu
    · exact hgone hu

omit hs hw in
/-- A step that begins asks for nothing more. -/
theorem asked_begin (w : Workflow) (e : Engine) (id : String) (cut : Option Nat) (m : Machine) : (m.begin e id cut).1.asked = m.asked := by
  have heffect := begin_effect w e 0 id cut m
  generalize m.begin e id cut = r at heffect
  cases heffect with
  | idle => rfl
  | refused => rw [asked_advance]; rfl
  | began => rw [asked_advance, asked_decided]

omit hw in
/-- The first that is to be woken begins, if it has been handed a place, and is to be woken no more. -/
theorem Wakes.begin {id : String} {waking : List String} (h : m.Wakes (id :: waking)) (hasked : id ∈ m.asked) :
    (m.begin e id none).1.Wakes (waking ++ (m.begin e id none).2.filterMap Signal.step?) := by
  have hmv (k : String) : Move.begin id none ≠ .ask k := nofun
  obtain ⟨hasks, hbegins⟩ := Wakes.move hs h 0 hmv
  have hkept : id ∈ (m.begin e id none).1.asked := (asked_begin w e id none m).symm ▸ hasked
  refine ⟨?_, ?_⟩
  · have hasks : (m.begin e id none).1.dispatched = (m.begin e id none).1.asked ++
        (id :: (waking ++ (m.begin e id none).2.filterMap Signal.step?)).filter (· ∉ (m.begin e id none).1.asked) := hasks
    rwa [List.filter_cons_of_neg (by simpa using hkept)] at hasks
  · intro k hk
    have hmem : k ∈ id :: (waking ++ (m.begin e id none).2.filterMap Signal.step?) := hbegins k hk
    refine (List.mem_cons.mp hmem).resolve_left ?_
    rintro rfl
    exact not_handed_begin hs 0 k none hk

omit hw in
/-- When no step is to be woken, every step that has not begun waits for a place, and all places are taken by steps that run. -/
theorem places_full (h : m.Wakes []) {t : Task} (ht : t ∈ m.tasks) (hqueued : t.phase = .queued) : m.running = e.settings.stepSlots := by
  have hhanded : m.places.handed = [] := List.eq_nil_iff_forall_not_mem.mpr fun id hid => nomatch h.begins id hid
  have hasked : t.id ∈ m.asked := by
    have hasks := h.asks
    rw [List.filter_nil, List.append_nil] at hasks
    exact hasks ▸ hs.scheduled.dispatched_of_task ht
  have hwaits := (hs.seated.asked t ht hqueued).mp hasked
  rw [hhanded, List.nil_append] at hwaits
  have htaken := hs.seated.keeps.taken
  have hfull := hs.seated.keeps.full (List.ne_nil_of_mem hwaits)
  rw [hhanded, List.length_nil] at htaken
  omega

omit hw in
/-- A run in which the runner has nothing to do, no call is in flight and no step is to be woken is over. -/
theorem finished_of_idle (hquiet : m.ready = [] ∧ m.starts = [] ∧ m.ends = []) (hflights : m.inFlight = []) (hwakes : m.Wakes []) :
    m.finished = true := by
  have hqueued : ∀ t ∈ m.tasks, t.phase = .queued := by
    intro t ht
    cases hp : t.phase with
    | queued => rfl
    | active p =>
      obtain ⟨⟨index, c⟩, hwaits⟩ := List.exists_mem_of_ne_nil _ (hs.conforms.procs t ht p hp).2
      have hmem : (⟨t.id, index⟩, c) ∈ m.inFlight := mem_inFlight.mpr ⟨t, ht, rfl, p, hp, hwaits⟩
      rw [hflights] at hmem
      cases hmem
  have hrunning : m.running = 0 := List.countP_eq_zero.mpr fun t ht => by simp [hqueued t ht, Phase.isActive]
  have hslots : 1 ≤ e.settings.stepSlots := Nat.le_max_left ..
  have htasks : m.tasks = [] := by
    refine List.eq_nil_iff_forall_not_mem.mpr fun t ht => ?_
    have hfull := places_full hs hwakes ht (hqueued t ht)
    omega
  simp [finished, hquiet, htasks]

end Sound

end Machine

end Runbook
