import Mathlib.Data.List.Chain
import Runbook.Proofs.Cancellation
import Runbook.Proofs.Independence
import Runbook.Proofs.Moments

/-!
# No needless waiting

When there is a place for every step, and no step dies, no step waits for anything but what it depends on: it has its turn at the time
at which the last of its dependencies ends. So a run takes as long as the steps of the longest chain of dependencies do, one after the
other.
-/

namespace Runbook

/-! ## Chains of dependencies -/

namespace Graph

/-- Steps of which each depends on the one before it. -/
structure Chain (g : Graph) (ids : List String) : Prop where
  steps : ∀ id ∈ ids, id ∈ g.steps
  linked : ids.IsChain fun a b => a ∈ g.dependencies b

/-- The time that steps take one after the other. -/
def span (duration : String → Nat) (ids : List String) : Nat := (ids.map duration).sum

/-- Times at which the steps of a graph have their turns without needless waiting, when they take a while each: a step that depends on
nothing has it at once, and every other when the last of its dependencies has ended. -/
structure Prompt (g : Graph) (now : Nat) (admitted duration : String → Nat) : Prop where
  atOnce : ∀ id ∈ g.steps, g.dependencies id = [] → admitted id = now
  afterLast : ∀ id ∈ g.steps, g.dependencies id ≠ [] →
    IsGreatest {t | ∃ d ∈ g.dependencies id, admitted d + duration d = t} (admitted id)

namespace Prompt

variable {w : Workflow} {now : Nat} {admitted duration : String → Nat}

/-- There is a chain up to each step whose steps take all the time until its end. -/
theorem exists_chain (h : w.graph.Prompt now admitted duration) (hw : w.Valid) {id : String} (hid : id ∈ w.graph.steps) :
    ∃ ids, w.graph.Chain (ids ++ [id]) ∧ now + span duration (ids ++ [id]) = admitted id + duration id := by
  refine hw.depsFirst.induction (P := fun id => ∃ ids, w.graph.Chain (ids ++ [id]) ∧
    now + span duration (ids ++ [id]) = admitted id + duration id) ?_ id (hw.mem_order.mpr hid)
  intro x hx ih
  have hstep := hw.mem_order.mp hx
  by_cases hdeps : w.graph.dependencies x = []
  · refine ⟨[], ⟨by simpa using hstep, List.isChain_singleton x⟩, ?_⟩
    simp [span, h.atOnce x hstep hdeps]
  · obtain ⟨⟨d, hd, hlast⟩, -⟩ := h.afterLast x hstep hdeps
    obtain ⟨ids, hchain, hspan⟩ := ih d hd
    refine ⟨ids ++ [d], ⟨?_, ?_⟩, ?_⟩
    · intro y hy
      rcases List.mem_append.mp hy with hy | hy
      · exact hchain.steps y hy
      · exact List.mem_singleton.mp hy ▸ hstep
    · refine List.isChain_append.mpr ⟨hchain.linked, List.isChain_singleton x, ?_⟩
      simp [hd]
    · simp only [span, List.map_append, List.sum_append, List.map_singleton, List.sum_singleton] at hspan ⊢
      omega

/-- No step has its turn before the run begins. -/
theorem now_le (h : w.graph.Prompt now admitted duration) (hw : w.Valid) {id : String} (hid : id ∈ w.graph.steps) :
    now ≤ admitted id := by
  obtain ⟨ids, -, hspan⟩ := h.exists_chain hw hid
  simp only [span, List.map_append, List.sum_append, List.map_singleton, List.sum_singleton] at hspan
  omega

/-- The steps of a chain have all ended after the time that they take one after the other. -/
theorem span_le {g : Graph} (h : g.Prompt now admitted duration) {last : Nat}
    (hlast : ∀ id ∈ g.steps, admitted id + duration id ≤ last) {id : String} {ids : List String}
    (hchain : g.Chain (id :: ids)) : admitted id + span duration (id :: ids) ≤ last := by
  induction ids generalizing id with
  | nil => simpa [span] using hlast id (hchain.steps id List.mem_cons_self)
  | cons next ids ih =>
    obtain ⟨hdep, hlinked⟩ := List.isChain_cons_cons.mp hchain.linked
    have hrest := ih ⟨fun x hx => hchain.steps x (List.mem_cons_of_mem id hx), hlinked⟩
    have hnext : next ∈ g.steps := hchain.steps next (by simp)
    have hwaits := (h.afterLast next hnext (List.ne_nil_of_mem hdep)).2 ⟨id, hdep, rfl⟩
    simp only [span, List.map_cons, List.sum_cons] at hrest ⊢
    omega

/-- From the beginning to the last end it takes as long as the longest chain does. -/
theorem elapsed (h : w.graph.Prompt now admitted duration) (hw : w.Valid) {last : Nat}
    (hlast : ∀ id ∈ w.graph.steps, admitted id + duration id ≤ last)
    (hends : last = now ∨ ∃ id ∈ w.graph.steps, last = admitted id + duration id) :
    IsGreatest {t | ∃ ids, w.graph.Chain ids ∧ span duration ids = t} (last - now) := by
  refine ⟨?_, ?_⟩
  · rcases hends with rfl | ⟨id, hid, rfl⟩
    · exact ⟨[], ⟨nofun, List.isChain_nil⟩, (Nat.sub_self _).symm⟩
    · obtain ⟨ids, hchain, hspan⟩ := h.exists_chain hw hid
      exact ⟨_, hchain, by omega⟩
  · rintro t ⟨ids, hchain, rfl⟩
    cases ids with
    | nil => exact Nat.zero_le _
    | cons id ids =>
      have hspan := h.span_le hlast hchain
      have hnow := h.now_le hw (hchain.steps id List.mem_cons_self)
      omega

end Prompt

end Graph

/-- A step that calls a tool for every item of an input, and a step after it. -/
def Definition.sampleWide : Definition :=
  { Definition.empty with
    name := "sample"
    steps := [{ Step.empty with id := "each", tool := "http", forEach := some "inputs.xs" },
      { Step.empty with id := "after", tool := "http", dependsOn := ["each"] }] }

/-! ## Turns and ends -/

namespace Machine

variable {w : Workflow} {e : Engine} {may : Policy} {inputs : Fields} {m m' : Machine}

/-- No move takes a cancellation back. -/
theorem going_of_move (now : Nat) (mv : Move) (h : (m.move w e now mv).1.cancelled = false) : m.cancelled = false := by
  have heffect := move_effect w e now mv m
  generalize m.move w e now mv = r at heffect h
  have hadvance (m' : Machine) {token : CancelToken} {id : String} {p : Proc (Outcome StepError)}
      (h : (m'.advance token id p).1.cancelled = false) : m'.cancelled = false := by
    rw [cancelled_advance, Bool.or_eq_false_iff] at h
    exact h.1
  cases heffect with
  | idle => exact h
  | dispatched => exact h
  | passed => exact h
  | dropped => exact h
  | listened => exact h
  | heard => rwa [(hear_untouched w now m).2.2.2.1] at h
  | @joined index => rwa [(join_untouched w now index m).2.2.2.1] at h
  | asked => exact h
  | cancelled => cases h
  | @refused t => exact hadvance (m.taking t.id) h
  | @began t => exact hadvance (m.decided t (t.plan.step.admits m.context.scope)) h
  | replied => exact hadvance m h

/-- A run that was not cancelled by its end was not cancelled before. -/
theorem Run.going (hrun : Run w e may m m') (h : m'.cancelled = false) : m.cancelled = false := by
  induction hrun with
  | refl => exact h
  | move _ now mv _ ih => exact ih (going_of_move now mv h)

/-- What ended in a run that is not cancelled had its turn. -/
theorem Sound.turned_of_ended (hs : m.Sound w e inputs) (ht : m.Turns w e) (hc : m.cancelled = false) {id : String}
    (h : id ∈ m.endedIds) : id ∈ m.turnedIds := by
  obtain ⟨⟨id, o⟩, hmem, rfl⟩ := List.mem_map.mp h
  have hown : o ≠ .cancelled := by
    rintro rfl
    cases hs.conforms.outcomes id _ (mem_trace_of_mem_ended.mp hmem) with
    | ran hran => cases hran
    | cancelled hcancelled => simp [hc] at hcancelled
  by_contra hnot
  exact hown ((ht.ended id o hmem).mpr hnot)

/-- When there is a place for every step and no step is to be woken, every dispatched step runs. -/
theorem Sound.active_of_idle (hs : m.Sound w e inputs) (hslots : w.graph.steps.length ≤ e.settings.stepSlots) (hwakes : m.Wakes [])
    {t : Task} (ht : t ∈ m.tasks) : ∃ p, t.phase = .active p := by
  cases hphase : t.phase with
  | active p => exact ⟨p, rfl⟩
  | queued =>
    have hfull := places_full hs hwakes ht hphase
    have hfewer : m.running < m.tasks.length := by
      rw [running]
      exact List.countP_lt_length_iff.mpr ⟨t, ht, by simp [hphase, Phase.isActive]⟩
    have hsteps : m.tasks.length ≤ w.graph.steps.length := by
      have hsub : ∀ id ∈ m.tasks.map (·.id), id ∈ w.graph.steps := by
        intro id hid
        obtain ⟨u, hu, rfl⟩ := List.mem_map.mp hid
        exact hs.scheduled.step_of_dispatched (hs.scheduled.dispatched_of_task hu)
      simpa using (hs.scheduled.nodup_tasks.subperm hsub).length_le
    omega

/-- When the runner has nothing to do and no step is to be woken, every step whose dependencies have ended had its turn, if there is a
place for every step and none died. -/
theorem Sound.turned_of_idle (hs : m.Sound w e inputs) (ht : m.Turns w e) (hc : m.cancelled = false) (hdied : m.died = [])
    (hslots : w.graph.steps.length ≤ e.settings.stepSlots) (hnext : m.next = none) (hwakes : m.Wakes []) {id : String}
    (hid : id ∈ w.graph.steps) (hdeps : ∀ d ∈ w.graph.dependencies id, d ∈ m.endedIds) : id ∈ m.turnedIds := by
  obtain ⟨hready, -, hends⟩ := next_eq_none.mp hnext
  have hbooked {d : String} (hd : d ∈ m.endedIds) : d ∈ m.bookedIds :=
    (hs.scheduled.mem_endedIds.mp hd).resolve_right (by simp [hends])
  have hreleased := hs.scheduled.complete hc id hid fun d hd => hbooked (hdeps d hd)
  rw [released, hready, List.nil_append, hs.scheduled.placed.mem_iff, hdied, List.append_nil] at hreleased
  rcases List.mem_append.mp hreleased with htask | hended
  · obtain ⟨t, hmem, rfl⟩ := List.mem_map.mp htask
    obtain ⟨p, hp⟩ := hs.active_of_idle hslots hwakes hmem
    exact (ht.running t hmem p hp).1
  · exact hs.turned_of_ended ht hc hended

/-- To hear of a start does not change when the run started. -/
theorem startedAt_hear (w : Workflow) (now : Nat) (m : Machine) : (m.hear w now).books.startedAt = m.books.startedAt := by
  unfold hear
  split <;> rfl

/-- To join an end does not change when the run started. -/
theorem startedAt_join (w : Workflow) (now index : Nat) (m : Machine) : (m.join w now index).books.startedAt = m.books.startedAt := by
  unfold Machine.join
  split
  · rfl
  · rename_i id outcome _
    dsimp only
    split
    · rfl
    · cases outcome <;> rfl

/-- The books of a run always say that it began when it did. -/
theorem Run.startedAt {now : Nat} (hrun : Run w e may (start w inputs now) m) : m.books.startedAt = now := by
  have hadvance (token : CancelToken) (id : String) (p : Proc (Outcome StepError)) (m : Machine) :
      (m.advance token id p).1.books = m.books := (advance_untouched token id p m).1
  induction hrun with
  | refl => rfl
  | @move m _ now' mv _ ih =>
    refine Eq.trans ?_ ih
    have heffect := move_effect w e now' mv m
    generalize m.move w e now' mv = r at heffect
    cases heffect with
    | idle => rfl
    | dispatched => rfl
    | passed => rfl
    | dropped => rfl
    | listened => rfl
    | heard => exact startedAt_hear w now' m
    | joined => exact startedAt_join w now' _ m
    | asked => rfl
    | cancelled => rfl
    | refused => rw [hadvance]; rfl
    | began => rw [hadvance]; rfl
    | replied => rw [hadvance]

end Machine

/-! ## On the clock -/

namespace Clock

open Machine

variable {W : Type} {w : Workflow} {e : Engine} {inputs : Fields} {box : Toolbox W} {now : Nat} {first c c' : Clock Machine W}

/-- The clock of a run in which there is a place for every step, no step dies and nothing cancels. -/
structure Unhindered (w : Workflow) (e : Engine) (inputs : Fields) (box : Toolbox W) (first : Clock Machine W) : Prop where
  keeps : first.Keeps w e inputs .any (Machine.start w inputs first.now)
  armed : first.Armed
  places : w.graph.steps.length ≤ e.settings.stepSlots
  loops : e.settings.loopSlots ≤ Semaphore.maxPermits
  going : (first.run (w.system e) box).system.cancelled = false

namespace Unhindered

variable (hw : w.Valid) (h : first.Unhindered w e inputs box)

include hw h

/-- The clock of a run keeps to the run at all of its moments. -/
theorem kept (hc : Reaches (w.system e) box first c) : c.Keeps w e inputs .any (Machine.start w inputs first.now) :=
  h.keeps.reaches hw (w.served_any e box) hc

/-- No task dies at any moment, as no loop is too wide. -/
theorem no_deaths (hc : Reaches (w.system e) box first c) : c.system.died = [] := (h.kept hw hc).reached.died_eq_nil hw h.loops

/-- At every moment the steps had their turns as they should. -/
theorem turns (hc : Reaches (w.system e) box first c) : c.system.Turns w e := ((h.kept hw hc).reached.turns_and_gaps hw).1

/-- What the clock comes to goes on as a run. -/
theorem run_of_reaches (hc : Reaches (w.system e) box first c) (hc' : Reaches (w.system e) box c c') :
    Run w e (.on .any) c.system c'.system := by
  have hkept := h.kept hw hc
  have hfrom : c.Keeps w e inputs .any c.system := ⟨⟨hkept.sound, .refl, hkept.minds⟩, hkept.wakes⟩
  exact (hfrom.reaches hw (w.served_any e box) hc').reached

/-- What has ended at a moment has ended at all later ones. -/
theorem ended_subset (hc : Reaches (w.system e) box first c) (hc' : Reaches (w.system e) box c c') :
    c.system.endedIds ⊆ c'.system.endedIds := by
  have hended : c.system.ended <+: c'.system.ended := Run.ended_prefix hw (h.kept hw hc).sound (h.run_of_reaches hw hc hc')
  exact (hended.map Prod.fst).subset

/-- The clock comes to its end from everywhere. -/
theorem reaches_end (hc : Reaches (w.system e) box first c) : Reaches (w.system e) box c (first.run (w.system e) box) := by
  have hend : (first.run (w.system e) box).step (w.system e) box = none :=
    (run_stops (P := fun _ => True) (hw.ends e inputs) ⟨h.keeps.sound, h.keeps.minds.numbered⟩ trivial fun _ _ _ _ => trivial).2
  rcases hc.total (h.keeps.reaches_run hw (w.served_any e box)) with hreaches | hreaches
  · exact hreaches
  · rcases hreaches.cases_head with heq | ⟨c', hstep, -⟩
    · exact heq ▸ .refl
    · rw [hend] at hstep
      cases hstep

/-- The run is cancelled at no moment. -/
theorem not_cancelled (hc : Reaches (w.system e) box first c) : c.system.cancelled = false :=
  (h.run_of_reaches hw hc (h.reaches_end hw hc)).going h.going

omit hw in
/-- A clock does not go back. -/
theorem le_now (hc : Reaches (w.system e) box first c) (hc' : Reaches (w.system e) box c c') : c.now ≤ c'.now :=
  ((h.armed.reaches (fun _ _ => rfl) hc).1.reaches (fun _ _ => rfl) hc').2

/-- No step has its turn before what it depends on has ended. -/
theorem ended_of_turned (hc : Reaches (w.system e) box first c) {id d : String} (hid : id ∈ c.system.turnedIds)
    (hd : d ∈ w.graph.dependencies id) : d ∈ c.system.endedIds :=
  (h.kept hw hc).sound.scheduled.ended_of_dependency ((h.turns hw hc).known id hid) hd

/-- A step has its turn before time passes once everything that it depends on has ended. -/
theorem turn_le (hc : Reaches (w.system e) box first c) {id : String} (hid : id ∈ w.graph.steps)
    (hdeps : ∀ d ∈ w.graph.dependencies id, d ∈ c.system.endedIds) {time : Nat}
    (hturn : Begins (w.system e) box first (fun m => id ∈ m.turnedIds) time) : time ≤ c.now := by
  obtain ⟨c', hc', hnow, hstill⟩ := (h.kept hw hc).settles hw (w.served_any e box)
  have hreaches := hc.trans hc'
  have hkept := h.kept hw hreaches
  have hturned := hkept.sound.turned_of_idle (h.turns hw hreaches) (h.not_cancelled hw hreaches) (h.no_deaths hw hreaches) h.places
    hstill.next (hkept.wakes_of_still hstill) hid fun d hd => h.ended_subset hw hc hc' (hdeps d hd)
  exact hnow ▸ hturn.le hreaches hturned

/-- Steps that have each ended by a time have all ended by that time: at the last of these clocks. -/
theorem all_ended {ids : List String} {time : Nat} (hfirst : first.now ≤ time)
    (hids : ∀ id ∈ ids, ∃ c, Reaches (w.system e) box first c ∧ c.now ≤ time ∧ id ∈ c.system.endedIds) :
    ∃ c, Reaches (w.system e) box first c ∧ c.now ≤ time ∧ ∀ id ∈ ids, id ∈ c.system.endedIds := by
  induction ids with
  | nil => exact ⟨first, .refl, hfirst, nofun⟩
  | cons id ids ih =>
    obtain ⟨c, hc, hnow, hended⟩ := ih fun x hx => hids x (List.mem_cons_of_mem id hx)
    obtain ⟨c', hc', hnow', hended'⟩ := hids id List.mem_cons_self
    rcases hc.total hc' with hreaches | hreaches
    · refine ⟨c', hc', hnow', ?_⟩
      intro x hx
      rcases List.mem_cons.mp hx with rfl | hx
      · exact hended'
      · exact h.ended_subset hw hc hreaches (hended x hx)
    · refine ⟨c, hc, hnow, ?_⟩
      intro x hx
      rcases List.mem_cons.mp hx with rfl | hx
      · exact h.ended_subset hw hc' hreaches hended'
      · exact hended x hx

/-- At the end all steps have ended. -/
theorem ended_at_end {id : String} (hid : id ∈ w.graph.steps) : id ∈ (first.run (w.system e) box).system.endedIds := by
  obtain ⟨hkept, hfinished⟩ := h.keeps.run hw (w.served_any e box)
  have hdied := hkept.reached.died_eq_nil hw h.loops
  have hall := hkept.sound.scheduled.all_booked_of_complete hw hfinished hdied (hkept.sound.scheduled.complete h.going)
  exact hkept.sound.scheduled.booked_ended (hall id hid)

/-- While a timer is set, a step has still to end. -/
theorem exists_running (hc : Reaches (w.system e) box first c) {t : Timer} (ht : t ∈ c.timers) :
    ∃ id ∈ w.graph.steps, id ∉ c.system.endedIds := by
  have hkept := h.kept hw hc
  have hs := hkept.sound.scheduled
  obtain ⟨f, hf, -⟩ := List.mem_map.mp ((h.armed.reaches (fun _ _ => rfl) hc).1.flying t ht)
  have hflight : (f.ticket, f.call) ∈ c.system.inFlight := by
    obtain ⟨coming, hcalls, -⟩ := hkept.minds.expects
    rw [← Multiset.mem_coe, ← hcalls]
    exact Multiset.mem_add.mpr (Or.inl (List.mem_map_of_mem (f := fun f : Flight W => (f.ticket, f.call)) hf))
  obtain ⟨task, hmem, -⟩ := mem_inFlight.mp hflight
  exact ⟨task.id, hs.step_of_dispatched (hs.dispatched_of_task hmem), hs.not_ended_of_task hmem⟩

/-- Unless no time has passed, some step does not end before. -/
theorem exists_not_before (hc : Reaches (w.system e) box first c) :
    c.now = first.now ∨ ∃ id ∈ w.graph.steps, ∀ c', Reaches (w.system e) box first c' → id ∈ c'.system.endedIds → c.now ≤ c'.now := by
  induction hc with
  | refl => exact Or.inl rfl
  | @tail c next hc hstep ih =>
    rcases (moment_of_step hstep).now_eq_or_ring with hnow | ⟨-, t, ht, -⟩
    · exact hnow ▸ ih
    · obtain ⟨id, hid, hrunning⟩ := h.exists_running hw hc ht
      refine Or.inr ⟨id, hid, fun c' hc' hended => ?_⟩
      rcases Reaches.total hc hc' with hreaches | hreaches
      · rcases hreaches.cases_head with rfl | ⟨next', hstep', hreaches⟩
        · exact absurd hended hrunning
        · obtain rfl := Option.some.inj (hstep.symm.trans hstep')
          exact h.le_now (hc.tail hstep) hreaches
      · exact absurd (h.ended_subset hw hc' hreaches hended) hrunning

/-- Every step has its turn and ends. -/
theorem exists_times : ∃ turn ended : String → Nat,
    (∀ id ∈ w.graph.steps, Begins (w.system e) box first (fun m => id ∈ m.turnedIds) (turn id)) ∧
    ∀ id ∈ w.graph.steps, Begins (w.system e) box first (fun m => id ∈ m.endedIds) (ended id) := by
  have hend := h.reaches_end hw .refl
  have htimes (id : String) (hid : id ∈ w.graph.steps) : ∃ turn ended, Begins (w.system e) box first (fun m => id ∈ m.turnedIds) turn ∧
      Begins (w.system e) box first (fun m => id ∈ m.endedIds) ended := by
    have hended := h.ended_at_end hw hid
    have hturned := (h.kept hw hend).sound.turned_of_ended (h.turns hw hend) h.going hended
    obtain ⟨turn, hturn⟩ := Begins.exists_of_reaches (P := fun m => id ∈ m.turnedIds) hend hturned
    obtain ⟨ended, hended⟩ := Begins.exists_of_reaches (P := fun m => id ∈ m.endedIds) hend hended
    exact ⟨turn, ended, hturn, hended⟩
  choose! turn ended htimes using htimes
  exact ⟨turn, ended, fun id hid => (htimes id hid).1, fun id hid => (htimes id hid).2⟩

section Times

variable {turn ended : String → Nat}
  (hturn : ∀ id ∈ w.graph.steps, Begins (w.system e) box first (fun m => id ∈ m.turnedIds) (turn id))
  (hended : ∀ id ∈ w.graph.steps, Begins (w.system e) box first (fun m => id ∈ m.endedIds) (ended id))

include hturn hended

/-- A step ends no sooner than it has its turn. -/
theorem turn_le_ended {id : String} (hid : id ∈ w.graph.steps) : turn id ≤ ended id := by
  obtain ⟨c, hc, hnow, hmem⟩ := (hended id hid).1
  rw [← hnow]
  exact (hturn id hid).le hc ((h.kept hw hc).sound.turned_of_ended (h.turns hw hc) (h.not_cancelled hw hc) hmem)

/-- No step waits needlessly: if all that it depends on had ended before, it would have had its turn before. -/
theorem prompt : w.graph.Prompt first.now turn fun id => ended id - turn id := by
  have hwhole (id : String) (hid : id ∈ w.graph.steps) : turn id + (ended id - turn id) = ended id :=
    Nat.add_sub_cancel' (h.turn_le_ended hw hturn hended hid)
  have hstep {id d : String} (hd : d ∈ w.graph.dependencies id) : d ∈ w.graph.steps := hw.mem_steps_of_dependency hd
  have hfirst {id : String} (hid : id ∈ w.graph.steps) : first.now ≤ turn id := by
    obtain ⟨c, hc, hnow, -⟩ := (hturn id hid).1
    exact hnow ▸ h.le_now .refl hc
  refine ⟨fun id hid hnone => ?_, fun id hid hsome => ⟨?_, ?_⟩⟩
  · exact Nat.le_antisymm (h.turn_le hw .refl hid (by simp [hnone]) (hturn id hid)) (hfirst hid)
  · by_contra hnot
    have hbefore {d : String} (hd : d ∈ w.graph.dependencies id) : ended d < turn id := by
      obtain ⟨c, hc, hnow, hmem⟩ := (hturn id hid).1
      have hle := (hended d (hstep hd)).le hc (h.ended_of_turned hw hc hmem hd)
      refine Nat.lt_of_le_of_ne (hnow ▸ hle) fun heq => hnot ⟨d, hd, ?_⟩
      rw [hwhole d (hstep hd), heq]
    obtain ⟨d, hd⟩ := List.exists_mem_of_ne_nil _ hsome
    have hd' := hbefore hd
    have hdfirst := (hfirst (hstep hd)).trans (h.turn_le_ended hw hturn hended (hstep hd))
    have hsooner : ∀ d ∈ w.graph.dependencies id,
        ∃ c, Reaches (w.system e) box first c ∧ c.now ≤ turn id - 1 ∧ d ∈ c.system.endedIds := by
      intro d hd
      obtain ⟨c, hc, hnow, hmem⟩ := (hended d (hstep hd)).1
      have hlt := hbefore hd
      exact ⟨c, hc, by omega, hmem⟩
    obtain ⟨c, hc, hnow, hall⟩ := h.all_ended hw (by omega) hsooner
    have hle := h.turn_le hw hc hid hall (hturn id hid)
    omega
  · rintro t ⟨d, hd, rfl⟩
    rw [hwhole d (hstep hd)]
    obtain ⟨c, hc, hnow, hmem⟩ := (hturn id hid).1
    exact hnow ▸ (hended d (hstep hd)).le hc (h.ended_of_turned hw hc hmem hd)

omit hturn in
/-- The run is over when the last step ends, and at once if it takes no time. -/
theorem last_end : (∀ id ∈ w.graph.steps, ended id ≤ (first.run (w.system e) box).now) ∧
    ((first.run (w.system e) box).now = first.now ∨ ∃ id ∈ w.graph.steps, (first.run (w.system e) box).now = ended id) := by
  have hend := h.reaches_end hw .refl
  have hle (id : String) (hid : id ∈ w.graph.steps) : ended id ≤ (first.run (w.system e) box).now :=
    (hended id hid).le hend (h.ended_at_end hw hid)
  refine ⟨hle, (h.exists_not_before hw hend).imp_right ?_⟩
  rintro ⟨id, hid, hnot⟩
  obtain ⟨c, hc, hnow, hmem⟩ := (hended id hid).1
  exact ⟨id, hid, Nat.le_antisymm (hnow ▸ hnot c hc hmem) (hle id hid)⟩

end Times

end Unhindered

end Clock

namespace Workflow

open Machine Clock

/-- No needless waiting. Take a run of a valid workflow on the clock, whatever its tools do and however long they sleep, with a place for
every step and settings that a semaphore has permits for, and let nothing cancel it. Every step has its turn, and it ends. A step that
depends on nothing has its turn when the run begins, and every other has it at the time at which the last of its dependencies ends. So
the run takes as long as the longest chain of dependencies does, whose steps take their time one after the other. -/
theorem no_needless_waiting {d : Definition} {w : Workflow} (hd : ofDefinition d = .ok w) {settings : EngineSettings}
    (hpermitted : settings.Permitted) (hplaces : d.steps.length ≤ settings.maxConcurrency) {W : Type} (box : Toolbox W) (world : W)
    (inputs : Fields) (now : Nat)
    (hgoing : ((w.clock world inputs false now).run (w.system ⟨settings, box.has⟩) box).system.cancelled = false) :
    ∃ admitted duration : String → Nat,
      (∀ id ∈ w.graph.steps,
        Begins (w.system ⟨settings, box.has⟩) box (w.clock world inputs false now) (fun m => id ∈ m.turnedIds) (admitted id) ∧
        Begins (w.system ⟨settings, box.has⟩) box (w.clock world inputs false now) (fun m => id ∈ m.endedIds)
          (admitted id + duration id)) ∧
      w.graph.Prompt now admitted duration ∧
      IsGreatest {t | ∃ ids, w.graph.Chain ids ∧ Graph.span duration ids = t}
        (w.run settings box world inputs false now).result.durationMs := by
  obtain ⟨rfl, hw⟩ := valid_of_definition hd
  let e : Engine := ⟨settings, box.has⟩
  let first := w.clock world inputs false now
  have hlength : w.graph.steps.length ≤ e.settings.stepSlots := by
    rw [hw.steps_eq, Definition.ids, List.length_map]
    exact hplaces.trans (Nat.le_max_right 1 _)
  have h : first.Unhindered w e inputs box :=
    ⟨hw.clock_keeps e world inputs false (fun _ => trivial) now, .start now _ world, hlength, hpermitted.loops, hgoing⟩
  obtain ⟨turn, ended, hturn, hended⟩ := h.exists_times hw
  have hprompt := h.prompt hw hturn hended
  have hwhole (id : String) (hid : id ∈ w.graph.steps) : turn id + (ended id - turn id) = ended id :=
    Nat.add_sub_cancel' (h.turn_le_ended hw hturn hended hid)
  refine ⟨turn, fun id => ended id - turn id, fun id hid => ⟨hturn id hid, ?_⟩, hprompt, ?_⟩
  · exact (hwhole id hid).symm ▸ hended id hid
  · obtain ⟨hlast, hends⟩ := h.last_end hw hended
    have hstarted := (h.kept hw (h.reaches_end hw .refl)).reached.startedAt
    have helapsed : (w.run settings box world inputs false now).result.durationMs = (first.run (w.system e) box).now - now :=
      congrArg ((first.run (w.system e) box).now - ·) hstarted
    rw [helapsed]
    refine hprompt.elapsed hw (fun id hid => (hwhole id hid).trans_le (hlast id hid)) (hends.imp_right ?_)
    rintro ⟨id, hid, heq⟩
    exact ⟨id, hid, heq.trans (hwhole id hid).symm⟩

/-- In a small workflow the loop has its turn when the step that it goes through the output of has ended, and the run takes as long as
these two do, whereas the step apart from them is done before. -/
theorem no_needless_waiting_of_sample : ∃ (w : Workflow) (admitted duration : String → Nat), ofDefinition .sample = .ok w ∧
    w.graph.Prompt 0 admitted duration ∧ admitted "each" = duration "list" ∧
    (w.run ⟨3, 1, 1000, none⟩ .sample 0 [] false 0).result.durationMs = 25 ∧
    IsGreatest {t | ∃ ids, w.graph.Chain ids ∧ Graph.span duration ids = t} 25 := by
  let settings : EngineSettings := ⟨3, 1, 1000, none⟩
  let last (w : Workflow) : Clock Machine Nat :=
    (Clock.next (w.system ⟨settings, Toolbox.sample.has⟩) .sample)^[50] (w.clock 0 [] false 0)
  have hend : ((ofDefinition .sample).toOption.map fun w =>
      ((((last w).step (w.system ⟨settings, Toolbox.sample.has⟩) .sample).isNone, (last w).system.cancelled,
        ((last w).system.result (last w).now).durationMs), w.graph.steps, w.graph.dependencies "list", w.graph.dependencies "each")) =
      some ((true, false, 25), ["list", "each", "apart"], [], ["list"]) := by decide +kernel
  obtain ⟨w, hd, hend⟩ := exists_of_map_toOption hend
  simp only [Prod.mk.injEq] at hend
  obtain ⟨⟨hstill, hgoing, htime⟩, hsteps, hlist, heach⟩ := hend
  have hlast : (w.clock 0 [] false 0).run (w.system ⟨settings, Toolbox.sample.has⟩) .sample = last w :=
    Clock.run_eq_iterate (Option.isNone_iff_eq_none.mp hstill)
  have hduration : (w.run settings .sample 0 [] false 0).result.durationMs = 25 :=
    (congrArg (fun c : Clock Machine Nat => (c.system.result c.now).durationMs) hlast).trans htime
  have hpermitted : settings.Permitted := by decide
  obtain ⟨admitted, duration, -, hprompt, hgreatest⟩ :=
    no_needless_waiting hd hpermitted (by decide) .sample 0 [] 0 (by rw [hlast]; exact hgoing)
  rw [hduration] at hgreatest
  refine ⟨w, admitted, duration, hd, hprompt, ?_, hduration, hgreatest⟩
  obtain ⟨⟨d, hmem, hends⟩, -⟩ := hprompt.afterLast "each" (by simp [hsteps]) (by simp [heach])
  obtain rfl : d = "list" := by simpa [heach] using hmem
  have hatOnce := hprompt.atOnce "list" (by simp [hsteps]) hlist
  omega

/-- With room for 2^61 calls at a time, which no semaphore has permits for, a step that calls a tool for every item of an input has its
turn and never ends, and the step after it never has its turn, though there is a place for both and nothing cancels the run. -/
theorem wide_step_waited_for : ∃ (w : Workflow) (settings : EngineSettings), ofDefinition .sampleWide = .ok w ∧
    w.definition.steps.length ≤ settings.maxConcurrency ∧ w.graph.steps = ["each", "after"] ∧
    let last := (w.clock 0 [("xs", .arr [.null])] false 0).run (w.system ⟨settings, Toolbox.sample.has⟩) .sample
    last.system.cancelled = false ∧ last.system.turnedIds = ["each"] ∧ last.system.endedIds = [] := by
  let settings : EngineSettings := { EngineSettings.default with loopConcurrency := 2 ^ 61 }
  let last (w : Workflow) : Clock Machine Nat :=
    (Clock.next (w.system ⟨settings, Toolbox.sample.has⟩) .sample)^[10] (w.clock 0 [("xs", .arr [.null])] false 0)
  have hend : ((ofDefinition .sampleWide).toOption.map fun w =>
      ((((last w).step (w.system ⟨settings, Toolbox.sample.has⟩) .sample).isNone, (last w).system.cancelled),
        (last w).system.turnedIds, (last w).system.endedIds, w.graph.steps)) =
      some ((true, false), ["each"], [], ["each", "after"]) := by decide +kernel
  obtain ⟨w, hd, hend⟩ := exists_of_map_toOption hend
  simp only [Prod.mk.injEq] at hend
  obtain ⟨⟨hstill, hgoing⟩, hturned, hended, hsteps⟩ := hend
  have hlast : (w.clock 0 [("xs", .arr [.null])] false 0).run (w.system ⟨settings, Toolbox.sample.has⟩) .sample = last w :=
    Clock.run_eq_iterate (Option.isNone_iff_eq_none.mp hstill)
  have hplaces : w.definition.steps.length ≤ settings.maxConcurrency := by
    rw [(valid_of_definition hd).1]
    decide
  refine ⟨w, settings, hd, hplaces, hsteps, ?_⟩
  rw [hlast]
  exact ⟨hgoing, hturned, hended⟩

end Workflow

end Runbook
