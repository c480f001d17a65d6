import Runbook.Proofs.Termination

/-!
# Every step has its turn

No step is dispatched twice, and none acts before everything that it depends on has ended and left its record. A run that is not
cancelled cannot but end, with every step having come to an outcome of its own. The result shows it, unless the start of the step was
heard of after its end: then the end of the run makes up a failure.
-/

namespace Runbook

namespace Machine

variable {w : Workflow} {e : Engine} {inputs : Fields} {m : Machine}

/-- What a step does on its way to the next rest is done in its name. -/
theorem acting_of_keeps {id k : String} {p : Plan} {P : Outcome StepError → Prop} {s : Settled (Outcome StepError)}
    {before : List (CallIndex × Call)} (hs : s.Keeps (p.conduct e [id]) P before) {x : Trace} (hx : x ∈ traceOf s)
    (hk : x.acting? = some k) : k = id := by
  rcases (mem_traceOf s).mp hx with ⟨c, hc, rfl⟩ | ⟨n, -, rfl⟩
  · have hmakes : p.Makes e [id] c.2 := hs.calls c hc
    exact Option.some.inj (hk.symm.trans hmakes.head?_path)
  · cases hk

/-- A step that advances adds to the trace what it does, and its end. -/
theorem trace_advance (m : Machine) (token : CancelToken) {t : Task} {p : Proc (Outcome StepError)} {P : Outcome StepError → Prop}
    (hp : p.UnderWay (t.plan.conduct e [t.id]) P) :
    ∃ new, (m.advance token t.id p).1.trace = m.trace ++ new ∧ ∀ x ∈ new, ∀ k, x.acting? = some k → k = t.id := by
  have hkeeps := hp.settle m.context.scope token
  have hlast {x : Trace} (hx : x.acting? = none) : ∀ y ∈ traceOf (p.settle m.context.scope token) ++ [x], ∀ k, y.acting? = some k → k = t.id := by
    intro y hy k hk
    rcases List.mem_append.mp hy with hy | hy
    · exact acting_of_keeps hkeeps hy hk
    · rw [List.mem_singleton.mp hy, hx] at hk
      cases hk
  rcases advance_cases token t.id p m with ⟨o, -, heq⟩ | ⟨-, heq⟩ | ⟨-, -, heq⟩ <;> rw [heq]
  · refine ⟨traceOf (p.settle m.context.scope token) ++ [.ended t.id o], ?_, hlast rfl⟩
    rw [← List.append_assoc, ← trace_log]
    rfl
  · refine ⟨traceOf (p.settle m.context.scope token) ++ [.died t.id], ?_, hlast rfl⟩
    rw [← List.append_assoc, ← trace_log]
    rfl
  · exact ⟨traceOf (p.settle m.context.scope token), trace_log m token _, fun x hx k hk => acting_of_keeps hkeeps hx hk⟩

/-- A move adds to the trace, and whatever step acts in it was dispatched before. -/
theorem trace_move (hw : w.Valid) (h : m.Sound w e inputs) (now : Nat) (mv : Move) :
    ∃ new, (m.move w e now mv).1.trace = m.trace ++ new ∧ ∀ x ∈ new, ∀ k, x.acting? = some k → k ∈ m.dispatched := by
  have heffect := move_effect w e now mv m
  generalize m.move w e now mv = r at heffect
  have same {m' : Machine} (htrace : m'.trace = m.trace) :
      ∃ new, m'.trace = m.trace ++ new ∧ ∀ x ∈ new, ∀ k, x.acting? = some k → k ∈ m.dispatched := ⟨[], by rw [htrace, List.append_nil], nofun⟩
  have one {m' : Machine} {x : Trace} (htrace : m'.trace = m.trace ++ [x]) (hx : x.acting? = none) :
      ∃ new, m'.trace = m.trace ++ new ∧ ∀ x ∈ new, ∀ k, x.acting? = some k → k ∈ m.dispatched := by
    refine ⟨[x], htrace, fun y hy k hk => ?_⟩
    rw [List.mem_singleton.mp hy, hx] at hk
    cases hk
  cases heffect with
  | idle => exact same rfl
  | dispatched => exact one rfl rfl
  | passed => exact same rfl
  | dropped => exact same rfl
  | listened => exact same rfl
  | heard => exact same (hear_untouched w now m).2.2.1
  | @joined index => exact same (join_untouched w now index m).2.2.1
  | asked => exact one rfl rfl
  | cancelled => exact same rfl
  | @refused t cut mem =>
    have hcancelled : (Proc.done (.cancelled : Outcome StepError)).UnderWay (t.plan.conduct e [t.id]) fun _ => True :=
      .fresh (.done trivial)
    obtain ⟨new, hnew, hacting⟩ := trace_advance (m.taking t.id) (m.token cut) hcancelled
    exact ⟨new, hnew, fun x hx k hk => hacting x hx k hk ▸ h.scheduled.dispatched_of_task mem⟩
  | @began t cut mem =>
    have hobeys := Conforms.begun_obeys hw h.scheduled e mem m.context.scope false
    obtain ⟨new, hnew, hacting⟩ :=
      trace_advance (m.decided t (t.plan.step.admits m.context.scope)) (m.token cut).checked (.fresh hobeys)
    refine ⟨.turn t.id (t.plan.step.admits m.context.scope) :: new, ?_, ?_⟩
    · rw [hnew, List.append_cons]
      rfl
    · intro x hx k hk
      have htask := h.scheduled.dispatched_of_task mem
      rcases List.mem_cons.mp hx with rfl | hx
      · exact Option.some.inj hk ▸ htask
      · exact hacting x hx k hk ▸ htask
  | @replied t p index c cut r mem active =>
    obtain ⟨new, hnew, hacting⟩ := trace_advance m (m.token cut) ((h.conforms.procs t mem p active).1.reply index r)
    exact ⟨new, hnew, fun x hx k hk => hacting x hx k hk ▸ h.scheduled.dispatched_of_task mem⟩

/-- What has happened in a run has happened. -/
theorem Run.trace_prefix {may : Policy} {m' : Machine} (hw : w.Valid) (h : m.Sound w e inputs) (hrun : Run w e may m m') :
    m.trace <+: m'.trace := by
  induction hrun with
  | refl => exact List.prefix_refl _
  | move hrun now mv _ ih =>
    obtain ⟨new, hnew, -⟩ := trace_move hw (hrun.sound hw h) now mv
    exact hnew ▸ ih.trans (List.prefix_append _ new)

/-- What has ended is not forgotten. -/
theorem Run.ended_prefix {may : Policy} {m' : Machine} (hw : w.Valid) (h : m.Sound w e inputs) (hrun : Run w e may m m') :
    m.ended <+: m'.ended := (hrun.trace_prefix hw h).filterMap Trace.ended?

/-- What a dispatched step depends on has ended, and its record is written. -/
theorem Sound.recorded_of_dependency (hw : w.Valid) (h : m.Sound w e inputs) {id d : String} (hid : id ∈ m.dispatched)
    (hd : d ∈ w.graph.dependencies id) : ∃ o, Trace.ended d o ∈ m.trace ∧ m.context.entry? d = some o.entry := by
  have hended := h.scheduled.ended_of_dependency hid hd
  cases ho : m.outcome? d with
  | none => exact absurd hended (outcome?_eq_none.mp ho)
  | some o =>
    refine ⟨o, mem_trace_of_mem_ended.mp (mem_ended_of_outcome? ho), ?_⟩
    rw [Context.Holds.entry_eq h.recorded (hw.mem_steps_of_dependency hd), ho]
    rfl

/-! ## The end -/

/-- When nothing is left to be done and no step died, the steps that have ended are those that were dispatched, and the ends of all are
booked. -/
theorem Scheduled.over (h : m.Scheduled w) (hf : m.finished = true) (hdied : m.died = []) :
    m.ended.Perm m.booked ∧ m.dispatched.Perm m.endedIds := by
  simp only [finished, Bool.and_eq_true, List.isEmpty_iff] at hf
  obtain ⟨⟨⟨-, htasks⟩, -⟩, hends⟩ := hf
  have haccounts := h.accounts
  have hplaced := h.placed
  rw [hends, List.append_nil] at haccounts
  rw [htasks, hdied, List.map_nil, List.nil_append, List.append_nil] at hplaced
  exact ⟨haccounts, hplaced⟩

/-- When nothing is left to be done, no step died and every step was released once it waited for nothing, the ends of all are booked. -/
theorem Scheduled.all_booked_of_complete (hw : w.Valid) (h : m.Scheduled w) (hf : m.finished = true) (hdied : m.died = [])
    (hcomplete : ∀ id ∈ w.graph.steps, (∀ d ∈ w.graph.dependencies id, d ∈ m.bookedIds) → id ∈ m.released) :
    ∀ id ∈ w.graph.steps, id ∈ m.bookedIds := by
  obtain ⟨hended, hdispatched⟩ := h.over hf hdied
  have hready : m.ready = [] := by
    simp only [finished, Bool.and_eq_true, List.isEmpty_iff] at hf
    exact hf.1.1.1
  have hbooked {id : String} (hid : id ∈ m.released) : id ∈ m.bookedIds := by
    rw [released, hready, List.nil_append] at hid
    exact (hended.map _).mem_iff.mp (hdispatched.mem_iff.mp hid)
  intro id hid
  refine hw.depsFirst.induction ?_ id (hw.mem_order.mpr hid)
  intro x hx hdeps
  exact hbooked (hcomplete x (hw.mem_order.mp hx) hdeps)

/-- A run that is over, with an outcome of its own for every step. The result shows it, and lists the failures, but for the steps whose
starts were late: these it takes for steps that never finished. -/
structure Closed (w : Workflow) (m : Machine) : Prop where
  finished : m.finished = true
  dispatched : m.dispatched.Perm w.graph.steps
  ended : m.endedIds.Perm w.graph.steps
  shown : ∀ id ∈ w.graph.steps, ∃ o, Trace.ended id o ∈ m.trace ∧ o ≠ .cancelled ∧
    ∀ now, ∃ r, Keyed.get? (m.result now).steps id = some r ∧ (¬m.Late id → r.Shows o) ∧ (m.Late id → r.Mistaken false o)
  errors : ∀ now, ∃ mistaken, (m.result now).errors = w.failures m.booked ++ mistaken ∧ (mistaken.map (·.id)).Nodup ∧
    ∀ f, f ∈ mistaken ↔ m.Late f.id ∧ f.message = StepRun.unfinished
  cancelled : ∀ now, (m.result now).cancelled = false

/-- A start that was late is that of a step. -/
theorem Sound.step_of_late (h : m.Sound w e inputs) {id : String} (hlate : m.Late id) : id ∈ w.graph.steps :=
  h.scheduled.step_of_dispatched (h.scheduled.dispatched_of_ended (h.scheduled.booked_ended hlate.finished))

/-- A run that was not cancelled is closed when nothing is left to be done, unless a step died. -/
theorem Sound.closed (hw : w.Valid) (h : m.Sound w e inputs) (hf : m.finished = true) (hc : m.cancelled = false) (hdied : m.died = []) :
    m.Closed w := by
  have hall := h.scheduled.all_booked_of_complete hw hf hdied (h.scheduled.complete hc)
  obtain ⟨hended, hdispatched⟩ := h.scheduled.over hf hdied
  have hbooks : m.books.cancelled = false := by
    cases hb : m.books.cancelled with
    | false => rfl
    | true => simp [h.booked.cancelled hb] at hc
  have hsteps : m.endedIds.Perm w.graph.steps := by
    refine (List.perm_ext_iff_of_nodup h.scheduled.nodup_ended hw.nodup_steps).mpr fun id => ⟨fun hid => ?_, fun hid => ?_⟩
    · exact h.scheduled.step_of_dispatched (h.scheduled.dispatched_of_ended hid)
    · exact h.scheduled.booked_ended (hall id hid)
  refine ⟨hf, hdispatched.trans hsteps, hsteps, ?_, ?_, fun now => hbooks⟩
  · intro id hid
    obtain ⟨⟨k, o⟩, hmem, rfl⟩ := List.mem_map.mp (hall id hid)
    have htrace : Trace.ended k o ∈ m.trace := mem_trace_of_mem_ended.mp (hended.mem_iff.mpr hmem)
    refine ⟨o, htrace, ?_, ?_⟩
    · rintro rfl
      cases h.conforms.outcomes k _ htrace with
      | ran hran => cases hran
      | cancelled hcancelled => simp [hc] at hcancelled
    · intro now
      obtain ⟨r, hr, -, hshows, -⟩ := h.booked.books.shown (fun _ => hall) now hid
      exact ⟨r, hr, (hshows o hmem).1, fun hlate => hbooks ▸ (hshows o hmem).2 hlate⟩
  · intro now
    obtain ⟨mistaken, herrors, hnodup, hmem⟩ := h.booked.books.failures_result (fun _ => hall) now
    refine ⟨mistaken, herrors, hnodup, fun f => (hmem f).trans ⟨fun hf => hf.2.2, fun hf => ⟨h.step_of_late hf.1, hbooks, hf⟩⟩⟩

/-! ## Runs that are not cancelled, and starts that are heard of in time -/

/-- A driver that may do anything but cancel. -/
def Policy.uncancelled : Policy := fun _ mv => mv.cancels = false

/-- A driver that lets the runner join an end only when it has heard of the start. -/
def Policy.inTime (may : Policy) : Policy := fun m mv =>
  may m mv ∧ ∀ index id outcome, mv = .join index → m.ends[index]? = some (id, outcome) → id ∉ m.starts

/-- A driver that does not cancel lets everything go on. -/
theorem Policy.live_uncancelled : Policy.uncancelled.Live :=
  ⟨fun _ => rfl, fun _ => rfl, fun _ _ => rfl, fun _ _ => rfl, fun _ _ => rfl, fun _ _ _ _ _ _ _ _ => ⟨.timedOut, rfl⟩⟩

/-- A driver that keeps to the order of starts and ends does not get stuck. -/
theorem Policy.Live.inTime {may : Policy} (live : may.Live) : may.inTime.Live := by
  refine ⟨fun m => ⟨live.dispatch m, nofun⟩, fun m => ⟨live.hear m, nofun⟩, fun m hstarts => ⟨live.join m hstarts, ?_⟩,
    fun m id => ⟨live.ask m id, nofun⟩, fun m id => ⟨live.begin m id, nofun⟩, ?_⟩
  · intro _ id _ _ _
    rw [hstarts]
    exact List.not_mem_nil
  · intro m t p index c ht hp hc
    obtain ⟨r, hr⟩ := live.reply m t p index c ht hp hc
    exact ⟨r, hr, nofun⟩

/-- A move that does not cancel the run leaves it as it is in this. -/
theorem cancelled_move (now : Nat) {mv : Move} (hmv : mv.cancels = false) : (m.move w e now mv).1.cancelled = m.cancelled := by
  have hadvance (m' : Machine) {token : CancelToken} (hm : m'.cancelled = m.cancelled) (htoken : token.isSome = true → m.cancelled = true)
      (id : String) (p : Proc (Outcome StepError)) : (m'.advance token id p).1.cancelled = m.cancelled := by
    rw [cancelled_advance, hm]
    cases htoken' : token.isSome with
    | false => exact Bool.or_false _
    | true => rw [htoken htoken', Bool.or_true]
  have htoken {cut : Option Nat} (hcut : cut.isSome = false) : (m.token cut).isSome = true → m.cancelled = true := by
    rw [isSome_token, hcut, Bool.or_false]
    exact id
  have heffect := move_effect w e now mv m
  generalize m.move w e now mv = r at heffect
  cases heffect with
  | idle => rfl
  | dispatched => rfl
  | passed => rfl
  | dropped => rfl
  | listened => rfl
  | heard => exact (hear_untouched w now m).2.2.2.1
  | @joined index => exact (join_untouched w now index m).2.2.2.1
  | asked => rfl
  | cancelled => cases hmv
  | @refused t => exact hadvance (m.taking t.id) rfl (htoken hmv) _ _
  | @began t => exact hadvance (m.decided t _) rfl (fun hc => htoken hmv (CancelToken.isSome_checked.symm.trans hc)) _ _
  | replied => exact hadvance m rfl (htoken hmv) _ _

/-- A run is cancelled by moves only. -/
theorem Run.cancelled_eq {may : Policy} {m' : Machine} (hmay : ∀ m mv, may m mv → mv.cancels = false) (hrun : Run w e may m m') :
    m'.cancelled = m.cancelled := by
  induction hrun with
  | refl => rfl
  | move _ now mv allowed ih => exact (cancelled_move now (hmay _ mv allowed)).trans ih

/-- Runs in which no start comes after the end of its step: what is booked has no start that has still to be heard of. -/
structure Punctual (m : Machine) : Prop where
  heard : ∀ id ∈ m.bookedIds, id ∉ m.starts
  inTime : ∀ id, ¬m.Late id

/-- Whether a run is punctual shows in its events and its starts only. -/
theorem Punctual.of_eq {m' : Machine} (h : m.Punctual) (hevents : m'.events = m.events) (hstarts : m'.starts = m.starts) : m'.Punctual := by
  obtain ⟨h1, h2⟩ := h
  refine ⟨?_, ?_⟩
  · rw [bookedIds, booked, hevents, hstarts]
    exact h1
  · intro id
    rw [Late, hevents]
    exact h2 id

/-- A run stays punctual when a task advances. -/
theorem Punctual.advance (h : m.Punctual) (token : CancelToken) (id : String) (p : Proc (Outcome StepError)) :
    (m.advance token id p).1.Punctual := by
  obtain ⟨-, hevents, -, -, hstarts, -⟩ := advance_untouched token id p m
  exact h.of_eq hevents hstarts

/-- A run stays punctual as long as starts are heard in time. -/
theorem Punctual.move {may : Policy} (hw : w.Valid) (h : m.Punctual) (hs : m.Scheduled w) (now : Nat) {mv : Move}
    (hmay : may.inTime m mv) : (m.move w e now mv).1.Punctual := by
  have heffect := move_effect w e now mv m
  generalize m.move w e now mv = r at heffect
  cases heffect with
  | idle => exact h
  | dispatched => exact h.of_eq rfl rfl
  | passed => exact h.of_eq rfl rfl
  | dropped => exact h.of_eq rfl rfl
  | listened => exact h.of_eq rfl rfl
  | @heard id starts _ first =>
    have hnew : id ∉ m.bookedIds := fun hid => h.heard id hid (first ▸ List.mem_cons_self)
    obtain ⟨p, hp⟩ := hw.plan?_of_mem (hs.step_of_dispatched (hs.heard id (first ▸ List.mem_cons_self)))
    refine ⟨?_, ?_⟩
    · intro k hk hstart
      rw [bookedIds, booked_hear] at hk
      rw [(hear_untouched w now m).2.2.2.2.2.2.2.2] at hstart
      exact h.heard k hk (List.mem_of_mem_tail hstart)
    · intro k hlate
      rcases (Booked.late_hear first hp now k).mp hlate with hlate | ⟨rfl, hk⟩
      · exact h.inTime k hlate
      · exact hnew hk
  | @joined index id outcome _ _ found =>
    obtain ⟨p, hp⟩ := hs.plan_of_end hw found
    refine ⟨?_, ?_⟩
    · intro k hk
      rw [(join_untouched w now index m).2.2.2.2.1]
      rcases (mem_bookedIds_join hw hs found now).mp hk with hk | rfl
      · exact h.heard k hk
      · exact hmay.2 index k outcome rfl found
    · intro k hlate
      exact h.inTime k ((Booked.late_join found hp now k).mp hlate)
  | asked => exact h.of_eq rfl rfl
  | cancelled => exact h.of_eq rfl rfl
  | @refused t =>
    have htaking : (m.taking t.id).Punctual := h.of_eq rfl rfl
    exact htaking.advance _ _ _
  | @began t cut mem =>
    have hdecided : (m.decided t (t.plan.step.admits m.context.scope)).Punctual := by
      refine ⟨?_, h.inTime⟩
      intro k hk hstart
      rcases mem_starts_decided m t _ hstart with hstart | rfl
      · exact h.heard k hk hstart
      · exact hs.not_ended_of_task mem (hs.booked_ended hk)
    exact hdecided.advance _ _ _
  | replied => exact h.advance _ _ _

/-- Where the runner joins an end only when it has heard of the start, no start is late. -/
theorem Run.not_late {may : Policy} (hw : w.Valid) {now : Nat} (hrun : Run w e may.inTime (start w inputs now) m) (id : String) :
    ¬m.Late id := by
  have hpunctual : m.Punctual := by
    induction hrun with
    | refl => exact ⟨nofun, Booked.not_late_start w inputs now⟩
    | move hrun now' mv allowed ih => exact ih.move hw (hrun.sound hw (start_sound hw e inputs now)).scheduled now' allowed
  exact hpunctual.inTime id

end Machine

namespace Workflow

open Machine

/-- Every step has its turn, once and in time. However a run of a valid workflow is driven, whatever its calls come back with and
whenever it is cancelled, no step is dispatched twice, and whenever a step acts, what it depends on has ended and left its record.
A run that is not cancelled, with settings that a semaphore has permits for, cannot but end, with every step dispatched once and an
outcome of its own for every step. The result shows these outcomes, and makes up a failure for the steps whose starts were heard of
after their ends, and for no others; where the runner joins ends only when it has heard of their starts, there are none of these. -/
theorem every_step_has_its_turn {d : Definition} {w : Workflow} (hd : ofDefinition d = .ok w) (e : Engine) (inputs : Fields)
    (now : Nat) :
    (∀ m, Run w e .any (start w inputs now) m → m.dispatched.Nodup ∧
      ∀ now mv, ∃ new, (m.move w e now mv).1.trace = m.trace ++ new ∧ ∀ x ∈ new, ∀ id, x.acting? = some id →
        ∀ d ∈ w.graph.dependencies id, ∃ o, Trace.ended d o ∈ m.trace ∧ m.context.entry? d = some o.entry) ∧
      (e.settings.Permitted → Inevitable w e .uncancelled (Machine.Closed w) (start w inputs now)) ∧
      (e.settings.Permitted → Inevitable w e (.inTime .uncancelled) (fun m => m.Closed w ∧ ∀ id, ¬m.Late id) (start w inputs now)) := by
  obtain ⟨rfl, hw⟩ := valid_of_definition hd
  have hstart := start_sound hw e inputs now
  refine ⟨?_, ?_, ?_⟩
  · intro m hrun
    have hs := hrun.sound hw hstart
    refine ⟨hs.scheduled.nodup_dispatched, ?_⟩
    intro now mv
    obtain ⟨new, hnew, hacting⟩ := trace_move hw hs now mv
    exact ⟨new, hnew, fun x hx id hid d hdep => hs.recorded_of_dependency hw (hacting x hx id hid) hdep⟩
  · intro hpermitted
    have hend := finished_inevitable (e := e) hw Policy.live_uncancelled (I := fun m => Run w e .uncancelled (start w inputs now) m)
      (fun m hrun => hrun.sound hw hstart) (fun m now mv hrun hmv => hrun.move now mv hmv) .refl
    refine hend.mono fun m hm => ?_
    exact (hm.2.sound hw hstart).closed hw hm.1 (hm.2.cancelled_eq fun _ _ h => h) (hm.2.died_eq_nil hw hpermitted.loops)
  · intro hpermitted
    have hend := finished_inevitable (e := e) hw Policy.live_uncancelled.inTime
      (I := fun m => Run w e (.inTime .uncancelled) (start w inputs now) m)
      (fun m hrun => hrun.sound hw hstart) (fun m now mv hrun hmv => hrun.move now mv hmv) .refl
    refine hend.mono fun m hm => ⟨?_, hm.2.not_late hw⟩
    exact (hm.2.sound hw hstart).closed hw hm.1 (hm.2.cancelled_eq fun _ _ h => h.1) (hm.2.died_eq_nil hw hpermitted.loops)

/-- The run of a small workflow, driven in any way without cancelling it, ends with all of its steps closed. -/
theorem every_step_has_its_turn_of_sample : ∃ w : Workflow, ofDefinition .sample = .ok w ∧ w.graph.steps = ["list", "each", "apart"] ∧
    Inevitable w ⟨.default, fun _ => true⟩ .uncancelled (Machine.Closed w) (start w [] 0) := by
  obtain ⟨w, hw⟩ := ofDefinition_sample
  have hsteps : (ofDefinition .sample).toOption.map (·.graph.steps) = some ["list", "each", "apart"] := by decide +kernel
  rw [hw] at hsteps
  exact ⟨w, hw, Option.some.inj hsteps, (every_step_has_its_turn hw ⟨.default, fun _ => true⟩ [] 0).2.1 (by decide)⟩

/-- Moves of a run of the sample that goes well: but the runner has just looked for a start when the first step starts and ends, and
joins its end before it hears of its start. -/
def lateMoves : List Move := [.dispatch, .dispatch, .ask "list", .ask "apart", .hear, .begin "list" none,
  .reply ⟨"list", none⟩ (.answer (.value (.arr []))) none, .join 0, .dispatch, .hear, .begin "apart" none, .hear,
  .reply ⟨"apart", none⟩ (.answer (.value .null)) none, .hear, .join 0, .ask "each", .begin "each" none, .hear, .hear, .join 0]

/-- The run that they make. -/
def lateRun (w : Workflow) : Machine :=
  lateMoves.foldl (fun m mv => (m.move w ⟨.default, fun _ => true⟩ 0 mv).1) (start w [] 0)

/-- The late run is one without cancellation. -/
theorem run_lateRun (w : Workflow) : Run w ⟨.default, fun _ => true⟩ .uncancelled (start w [] 0) w.lateRun := by
  have hcalm : ∀ mv ∈ lateMoves, mv.cancels = false := by decide
  exact .foldl w _ 0 (fun mv hmv _ => hcalm mv hmv) _

/-- The run that hears of a start after the end makes up a failure: all steps have completed, but the first one is listed as one that
never finished. -/
theorem late_start_made_up_for : ∃ w : Workflow, ofDefinition .sample = .ok w ∧
    Run w ⟨.default, fun _ => true⟩ .uncancelled (start w [] 0) w.lateRun ∧ w.lateRun.finished = true ∧
    (w.lateRun.ended.map fun (id, o) => (id, o.status)) = [("list", .completed), ("apart", .completed), ("each", .completed)] ∧
    (w.lateRun.result 0).errors = [⟨"list", StepRun.unfinished⟩] := by
  have hend : ((ofDefinition .sample).toOption.map fun w =>
      (w.lateRun.finished, w.lateRun.ended.map fun (id, o) => (id, o.status), (w.lateRun.result 0).errors)) =
      some (true, [("list", .completed), ("apart", .completed), ("each", .completed)], [⟨"list", StepRun.unfinished⟩]) := by
    decide +kernel
  obtain ⟨w, hw⟩ := ofDefinition_sample
  rw [hw] at hend
  simp only [Option.some.injEq, Prod.mk.injEq, Except.toOption, Option.map_some] at hend
  exact ⟨w, hw, w.run_lateRun, hend.1, hend.2.1, hend.2.2⟩

end Workflow

end Runbook
