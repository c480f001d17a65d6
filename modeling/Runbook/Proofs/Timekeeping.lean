import Runbook.Engine.Run
import Runbook.Proofs.Clockwork
import Runbook.Proofs.Signals

/-!
# Workflows on the clock

A clock that drives a workflow does what a driver may do: it lets every call come back once, with a reply that it may have, and it wakes
the steps that can go on. It stops when nothing is left to be done. So whatever holds of all runs holds of the runs on the clock.
-/

namespace Runbook

open Relation (ReflTransGen)

namespace Machine

/-- A driver that keeps to terms: what is in flight comes back as it may. It joins an end only when all starts are heard of, and cancels the
run only by a move of its own. -/
def Policy.on (terms : Terms) : Policy := fun m mv =>
  match mv with
  | .cancel => terms.cancels
  | .begin _ cut => cut = none
  | .reply ticket r cut => cut = none ∧ ∃ c, (ticket, c) ∈ m.inFlight ∧ terms.May c r
  | .join _ => m.starts = []
  | .dispatch | .hear | .ask _ => True

/-- What the runner does next it may do on any terms. -/
theorem Policy.on_next (terms : Terms) {m : Machine} {mv : Move} (hnext : m.next = some mv) : Policy.on terms m mv := by
  rcases next_cases hnext with ⟨rfl, -⟩ | ⟨rfl, -⟩ | ⟨rfl, -⟩ | ⟨rfl, -, hstarts, -⟩
  · trivial
  · trivial
  · trivial
  · exact hstarts

variable {w : Workflow} {e : Engine} {inputs : Fields} {terms : Terms} {m m' : Machine}

/-- A run under a policy is one under every wider policy. -/
theorem Run.mono {may may' : Policy} (h : Run w e may m m') (hmay : ∀ m mv, may m mv → may' m mv) : Run w e may' m m' := by
  induction h with
  | refl => exact .refl
  | move _ now mv allowed ih => exact ih.move now mv (hmay _ mv allowed)

/-- A driver that keeps to terms joins no end whose start is not heard of. -/
theorem Run.inTime {first : Machine} (h : Run w e (.on terms) first m) : Run w e (.inTime .any) first m := by
  refine h.mono fun m mv hmay => ⟨trivial, ?_⟩
  rintro index id outcome rfl -
  have hstarts : m.starts = [] := hmay
  simp [hstarts]

/-- A tool that cancels the run changes nothing of the calls in flight, of the places and of what has happened. -/
theorem of_stops (hw : w.Valid) {first : Machine} (hs : m.Sound w e inputs) (hrun : Run w e (.on terms) first m)
    (h : ReflTransGen ((w.system e).Stops terms) m' m) :
    m'.Sound w e inputs ∧ Run w e (.on terms) first m' ∧ m'.inFlight = m.inFlight ∧ m'.trace = m.trace ∧ m'.places = m.places := by
  induction h using ReflTransGen.head_induction_on with
  | refl => exact ⟨hs, hrun, rfl, rfl, rfl⟩
  | head hstep _ ih =>
    obtain ⟨allowed, now, rfl⟩ := hstep
    exact ⟨ih.1.move hw now .cancel, ih.2.1.move now .cancel allowed, ih.2.2⟩

end Machine

namespace Workflow

variable {w : Workflow}

/-- A valid workflow as a system comes to an end. -/
theorem Valid.ends (hw : w.Valid) (e : Engine) (inputs : Fields) :
    (w.system e).Ends (fun m => m.Sound w e inputs) (Machine.Nearer w) where
  wellFounded := Machine.nearer_wellFounded w
  keeps now mv _ hs := hs.move hw now mv
  less now mv _ hs := Machine.move_nearer hw hs now mv
  runner now _ _ hs hnext := Machine.next_nearer hw hs now hnext
  quiet _ _ := rfl

/-- The calls that steps may make are served on terms. -/
def Served {W : Type} (w : Workflow) (e : Engine) (box : Toolbox W) (terms : Terms) : Prop :=
  ∀ id p call, w.plan? id = some p → p.Makes e [id] call → box.Serves terms call

/-- Every toolbox serves a workflow on terms that ask for nothing. -/
theorem served_any {W : Type} (w : Workflow) (e : Engine) (box : Toolbox W) : w.Served e box .any := fun _ _ call _ _ => box.serves_any call

end Workflow

namespace Clock

variable {W : Type}

/-- A clock that drives a machine on terms, and keeps in mind what the machine waits for. -/
structure Drives (w : Workflow) (e : Engine) (inputs : Fields) (terms : Terms) (first : Machine) (c : Clock Machine W) : Prop where
  sound : c.system.Sound w e inputs
  reached : Machine.Run w e (.on terms) first c.system
  minds : c.Minds terms ↑c.system.inFlight

/-- So that it will wake the steps that can go on. -/
structure Keeps (w : Workflow) (e : Engine) (inputs : Fields) (terms : Terms) (first : Machine) (c : Clock Machine W) : Prop
    extends Drives w e inputs terms first c where
  wakes : c.system.Wakes c.waking

variable {w : Workflow} {e : Engine} {inputs : Fields} {terms : Terms} {first : Machine} {box : Toolbox W} {c c' : Clock Machine W}

/-- What the clock has to keep in mind is in its queue, its timers and its flights, and in the machine. -/
theorem Drives.of_eq (h : c.Drives w e inputs terms first) (hsystem : c'.system = c.system) (hqueue : c'.queue = c.queue)
    (htimers : c'.timers = c.timers) (hflights : c'.flights = c.flights) (hcalls : c'.calls = c.calls) :
    c'.Drives w e inputs terms first :=
  ⟨hsystem ▸ h.sound, hsystem ▸ h.reached, hsystem ▸ h.minds.of_eq hqueue htimers hflights hcalls⟩

/-- To make a move that the terms allow keeps everything in order. -/
theorem Drives.makeMove (hw : w.Valid) (hserved : w.Served e box terms) (hs : c.system.Sound w e inputs)
    (hrun : Machine.Run w e (.on terms) first c.system) {mv : Move} (hmay : Machine.Policy.on terms c.system mv)
    (replied : List (Ticket × Call)) {others : Multiset (Ticket × Call)} (hm : c.Minds terms others)
    (hflights : ↑c.system.inFlight = ↑replied + others) (hasks : c.system.Asks w e replied (c.system.move w e c.now mv)) :
    (c.makeMove (w.system e) box mv).Drives w e inputs terms first := by
  have hsystem : (c.makeMove (w.system e) box mv).system = (c.system.move w e c.now mv).1 := system_makeMove ..
  refine ⟨?_, ?_, ?_⟩
  · rw [hsystem]
    exact hs.move hw c.now mv
  · rw [hsystem]
    exact hrun.move c.now mv hmay
  · have hserves : ∀ ticket call, Signal.called ticket call ∈ (c.system.move w e c.now mv).2 → box.Serves terms call := by
      intro ticket call hcall
      obtain ⟨id, p, hp, hmakes⟩ := hasks.made ticket call hcall
      exact hserved id p call hp hmakes
    have hmoved : Minds terms others { c with system := (c.system.move w e c.now mv).1 } := hm.of_eq rfl rfl rfl rfl
    have hobeyed := hmoved.obey hserves
    have hnext : (↑((c.system.move w e c.now mv).2.filterMap Signal.call?) + others : Multiset (Ticket × Call)) =
        ↑(c.system.move w e c.now mv).1.inFlight := by
      have hperm := Multiset.coe_eq_coe.mpr hasks.flights
      rw [← Multiset.coe_add, ← Multiset.coe_add, hflights, add_assoc] at hperm
      rw [add_comm]
      exact add_left_cancel hperm
    rw [hsystem, ← hnext]
    exact hobeyed

/-- A move that is no reply leaves the calls in flight. -/
theorem Drives.plainMove (hw : w.Valid) (hserved : w.Served e box terms) (h : c.Drives w e inputs terms first) {mv : Move}
    (hmay : Machine.Policy.on terms c.system mv) (hmv : ∀ ticket r cut, mv ≠ .reply ticket r cut) :
    (c.makeMove (w.system e) box mv).Drives w e inputs terms first :=
  Drives.makeMove hw hserved h.sound h.reached hmay [] h.minds (zero_add _).symm (Machine.move_asks hw h.sound c.now hmv)

/-- A move may be made after which those are to be woken that will be. -/
theorem keeps_makeMove {mv : Move} (h : (c.makeMove (w.system e) box mv).Drives w e inputs terms first)
    (hwakes : (c.system.move w e c.now mv).1.Wakes (c.waking ++ (c.system.move w e c.now mv).2.filterMap Signal.step?)) :
    (c.makeMove (w.system e) box mv).Keeps w e inputs terms first := by
  refine ⟨h, ?_⟩
  rw [system_makeMove, waking_makeMove]
  exact hwakes

/-! ## One moment -/

/-- The tool of a call in flight goes on. -/
theorem Keeps.actOn (hw : w.Valid) (h : c.Keeps w e inputs terms first) {d : Due} {due : List Due} (hdue : c.due = d :: due)
    {f : Flight W} (hf : f ∈ c.flights) (hrouses : d.core.wakes? = some f.number) :
    (Clock.actOn (w.system e) box f f.rest { c with due }).Keeps w e inputs terms first := by
  obtain ⟨world, m, hstops, hacts⟩ :=
    actOn_cases (hw.ends e inputs).quiet box f (h.minds.within f hf) { c with due }
  obtain ⟨hsound, hreached, hflights, htrace, hplaces⟩ := Machine.of_stops hw h.sound h.reached hstops
  have hminds := h.minds
  rw [← hflights] at hminds
  have hwakes : m.Wakes (waking { c with due }) := by
    have hwakes := h.wakes
    rw [waking_pop hdue, Due.step?_of_wakes? hrouses, Option.toList_none, List.nil_append] at hwakes
    exact hwakes.of_eq htrace (by rw [hplaces]; exact List.Subset.refl _)
  rcases hacts with ⟨a, ha, heq⟩ | ⟨rest, time, hrest, -, heq⟩
  · obtain ⟨others, hcalls, hlanded⟩ := hminds.land hf
    have hpopped := hlanded.popWaking hdue hrouses fun g hg hn => absurd hn (by simpa using (List.mem_filter.mp hg).2)
    have hacted : Minds terms others (Clock.land f.number { c with due, world, system := m }) := hpopped.of_eq rfl rfl rfl rfl
    have hanswer := hacted.enqueueReply (r := .answer a) f.call ha (core_handed f.ticket (.deliver f.ticket (.answer a)))
    rw [← hcalls] at hanswer
    rw [heq]
    refine ⟨⟨hsound, hreached, hanswer⟩, ?_⟩
    rw [waking_enqueue, step?_handed, Option.toList_none, List.append_nil]
    exact hwakes
  · have hset := ((hminds.goOn hf hrest).setTimer (t := ⟨time, f.number, .resume f.number⟩) (Or.inl rfl)).popWaking hdue hrouses
      fun g _ hn => ⟨_, mem_insertTimer.mpr (Or.inl rfl), hn.symm⟩
    rw [heq]
    exact ⟨⟨hsound, hreached, hset.of_eq rfl rfl rfl rfl⟩, hwakes⟩

/-- What was due to wake a call that is in flight no more is done. -/
theorem Keeps.skip (h : c.Keeps w e inputs terms first) {d : Due} {due : List Due} (hdue : c.due = d :: due) {n : Nat}
    (hrouses : d.core.wakes? = some n) (hflight : c.flight? n = none) : Keeps w e inputs terms first { c with due } := by
  refine ⟨⟨h.sound, h.reached, h.minds.popWaking hdue hrouses fun f hf hn => absurd hn (flight?_none hflight f hf)⟩, ?_⟩
  have hwakes := h.wakes
  rwa [waking_pop hdue, Due.step?_of_wakes? hrouses, Option.toList_none, List.nil_append] at hwakes

/-- The tool of a call goes on, if the call is in flight. -/
theorem Keeps.wake (hw : w.Valid) (h : c.Keeps w e inputs terms first) {d : Due} {due : List Due} (hdue : c.due = d :: due) {n : Nat}
    (hd : d = .invoke n ∨ d = .resume n) : (Clock.perform (w.system e) box { c with due } d).Keeps w e inputs terms first := by
  have hrouses : d.core.wakes? = some n := by rcases hd with rfl | rfl <;> rfl
  rw [perform_wake hd]
  cases hflight : c.flight? n with
  | none => exact h.skip hdue hrouses hflight
  | some f =>
    obtain ⟨hf, rfl⟩ := flight?_some hflight
    exact h.actOn hw hdue hf hrouses

/-- A call that is too late comes back for that. -/
theorem Keeps.expire (hw : w.Valid) (hserved : w.Served e box terms) (h : c.Keeps w e inputs terms first) {n : Nat} {due : List Due}
    (hdue : c.due = .expire n :: due) :
    (Clock.perform (w.system e) box { c with due } (.expire n)).Keeps w e inputs terms first := by
  have hlate : terms.late := h.minds.late (.expire n) (by rw [queue_pop hdue]; exact Multiset.mem_cons_self _ _) rfl
  rw [perform_expire]
  cases hflight : c.flight? n with
  | none => exact h.skip hdue rfl hflight
  | some f =>
    obtain ⟨hf, rfl⟩ := flight?_some hflight
    obtain ⟨others, hcalls, hlanded⟩ := h.minds.land hf
    have hpopped := hlanded.popWaking hdue rfl fun g hg hn => absurd hn (by simpa using (List.mem_filter.mp hg).2)
    have hwakes := h.wakes
    rw [waking_pop hdue, show (Due.expire f.number).step? = none from rfl, Option.toList_none, List.nil_append] at hwakes
    dsimp only
    split
    · have hreply := hpopped.enqueueReply (r := .timedOut) f.call hlate (d := .deliver f.ticket .timedOut) rfl
      rw [← hcalls] at hreply
      refine ⟨⟨h.sound, h.reached, hreply.of_eq rfl rfl rfl rfl⟩, ?_⟩
      rw [waking_enqueue, show (Due.deliver f.ticket .timedOut).step? = none from rfl, Option.toList_none, List.append_nil]
      exact hwakes
    · have hflight : (f.ticket, f.call) ∈ c.system.inFlight := by
        rw [← Multiset.mem_coe, hcalls]
        exact Multiset.mem_cons_self _ _
      have hasks := Machine.reply_asks h.sound hflight .timedOut none
      have hmay : Machine.Policy.on terms c.system (.reply f.ticket .timedOut none) := ⟨rfl, f.call, hflight, hlate⟩
      have hdrives : ((Clock.land f.number { c with due }).makeMove (w.system e) box (.reply f.ticket .timedOut none)).Drives
          w e inputs terms first :=
        .makeMove (c := Clock.land f.number { c with due }) hw hserved h.sound h.reached hmay [(f.ticket, f.call)]
          (hpopped.of_eq rfl rfl rfl rfl) hcalls hasks
      exact keeps_makeMove hdrives (Machine.Wakes.move h.sound hwakes c.now nofun)

/-- A reply that was on its way comes to the step that waits for it. -/
theorem Keeps.deliver (hw : w.Valid) (hserved : w.Served e box terms) (h : c.Keeps w e inputs terms first) {ticket : Ticket}
    {reply : Reply} {due : List Due} (hdue : c.due = .deliver ticket reply :: due) :
    (Clock.makeMove (w.system e) box (.reply ticket reply none) { c with due }).Keeps w e inputs terms first := by
  obtain ⟨replied, others, hcalls, hfits, hpopped⟩ := h.minds.pop hdue nofun
  have hfits : Multiset.Rel terms.Fits ((ticket, reply) ::ₘ 0) replied := hfits
  obtain ⟨⟨ticket', call⟩, none, ⟨hticket, hmay⟩, hnone, rfl⟩ := Multiset.rel_cons_left.mp hfits
  obtain rfl : ticket = ticket' := hticket
  obtain rfl := Multiset.rel_zero_left.mp hnone
  have hflight : (ticket, call) ∈ c.system.inFlight := by
    rw [← Multiset.mem_coe, hcalls]
    exact Multiset.mem_add.mpr (Or.inl (Multiset.mem_cons_self _ _))
  have hasks := Machine.reply_asks h.sound hflight reply none
  have hwakes := h.wakes
  rw [waking_pop hdue, show (Due.deliver ticket reply).step? = none from rfl, Option.toList_none, List.nil_append] at hwakes
  have hallowed : Machine.Policy.on terms c.system (.reply ticket reply none) := ⟨rfl, call, hflight, hmay⟩
  have hdrives : (Clock.makeMove (w.system e) box (.reply ticket reply none) { c with due }).Drives w e inputs terms first :=
    .makeMove (c := { c with due }) hw hserved h.sound h.reached hallowed [(ticket, call)] hpopped hcalls hasks
  exact keeps_makeMove hdrives (Machine.Wakes.move h.sound hwakes c.now nofun)

/-- A step that is woken asks for a place, if it has not, and begins, if it has been handed one. -/
theorem Keeps.rouse (hw : w.Valid) (hserved : w.Served e box terms) (h : c.Keeps w e inputs terms first) {id : String} {due : List Due}
    (hdue : c.due = .wake id :: due) : (Clock.perform (w.system e) box { c with due } (.wake id)).Keeps w e inputs terms first := by
  obtain ⟨replied, others, hcalls, hfits, hpopped⟩ := h.minds.pop hdue nofun
  obtain rfl := Multiset.rel_zero_left.mp hfits
  rw [zero_add] at hcalls
  have hwakes : c.system.Wakes (id :: waking { c with due }) := by
    have hwakes := h.wakes
    rwa [waking_pop hdue] at hwakes
  have hfirst : Drives w e inputs terms first { c with due } := ⟨h.sound, h.reached, hcalls ▸ hpopped⟩
  have hasking : (Clock.makeMove (w.system e) box (.ask id) { c with due }).Drives w e inputs terms first :=
    hfirst.plainMove hw hserved trivial nofun
  obtain ⟨hasks, hasked⟩ := Machine.Wakes.ask (w := w) h.sound hwakes
  have hquiet : Clock.makeMove (w.system e) box (.ask id) { c with due } = { c with due, system := c.system.ask e id } :=
    makeMove_of_quiet rfl
  rw [hquiet] at hasking
  have hbegins := Machine.Wakes.begin (w := w) hasking.sound hasks hasked
  show (Clock.makeMove (w.system e) box (.begin id none) (Clock.makeMove (w.system e) box (.ask id) { c with due })).Keeps w e inputs terms first
  rw [hquiet]
  exact keeps_makeMove (hasking.plainMove hw hserved rfl nofun) hbegins

/-- What is due is done. -/
theorem Keeps.perform (hw : w.Valid) (hserved : w.Served e box terms) (h : c.Keeps w e inputs terms first) {d : Due} {due : List Due}
    (hdue : c.due = d :: due) : (Clock.perform (w.system e) box { c with due } d).Keeps w e inputs terms first := by
  cases d with
  | invoke n => exact h.wake hw hdue (Or.inl rfl)
  | resume n => exact h.wake hw hdue (Or.inr rfl)
  | expire n => exact h.expire hw hserved hdue
  | deliver ticket reply => exact h.deliver hw hserved hdue
  | wake id => exact h.rouse hw hserved hdue
  | handOver x =>
    have hqueue : (Clock.enqueue x.due { c with due }).queue = c.queue := by
      rw [queue_enqueue, queue_pop hdue, Errand.core_due]
      rfl
    refine ⟨h.toDrives.of_eq rfl hqueue rfl rfl rfl, ?_⟩
    have hwakes := h.wakes
    rw [waking_pop hdue] at hwakes
    show c.system.Wakes (Clock.enqueue x.due { c with due }).waking
    rw [waking_enqueue, Errand.step?_due, Option.toList_none, List.append_nil]
    exact hwakes

/-- The runner makes its next move, or goes to sleep. -/
theorem Keeps.attend (hw : w.Valid) (hserved : w.Served e box terms) (h : c.Keeps w e inputs terms first) :
    (Clock.attend (w.system e) box c).Keeps w e inputs terms first := by
  unfold Clock.attend
  split
  · rename_i mv hnext
    have hnext : c.system.next = some mv := hnext
    have hown : (∀ ticket r cut, mv ≠ .reply ticket r cut) ∧ ∀ id, mv ≠ .ask id := by
      rcases Machine.next_cases hnext with ⟨rfl, -⟩ | ⟨rfl, -⟩ | ⟨rfl, -⟩ | ⟨rfl, -⟩ <;> exact ⟨nofun, nofun⟩
    have hmoved : (c.makeMove (w.system e) box mv).Keeps w e inputs terms first :=
      keeps_makeMove (h.toDrives.plainMove hw hserved (Machine.Policy.on_next terms hnext) hown.1)
        (Machine.Wakes.move h.sound h.wakes c.now hown.2)
    exact ⟨hmoved.toDrives.of_eq rfl rfl rfl rfl rfl, hmoved.wakes⟩
  · exact ⟨h.toDrives.of_eq rfl rfl rfl rfl rfl, h.wakes⟩

/-- Every moment keeps everything in order. -/
theorem Keeps.moment (hw : w.Valid) (hserved : w.Served e box terms) (h : c.Keeps w e inputs terms first)
    (hmoment : Moment (w.system e) box c c') : c'.Keeps w e inputs terms first := by
  cases hmoment with
  | perform hdue => exact h.perform hw hserved hdue
  | shift hdue hlater =>
    have hqueue : queue { c with due := c.later.reverse, later := [] } = c.queue := by
      simp only [queue, hdue, Multiset.coe_reverse, Multiset.coe_nil, zero_add, add_zero]
    refine ⟨h.toDrives.of_eq rfl hqueue rfl rfl rfl, ?_⟩
    have hwaking : waking { c with due := c.later.reverse, later := [] } = c.waking := by
      simp only [waking, hdue, List.reverse_nil, List.append_nil, List.nil_append]
    rw [hwaking]
    exact h.wakes
  | attend => exact h.attend hw hserved
  | @ring t _ _ =>
    refine ⟨⟨h.sound, h.reached, h.minds.ring t⟩, ?_⟩
    rw [h.minds.waking_ring t]
    exact h.wakes

/-! ## The end -/

/-- A clock that has come to its end has left nothing to be done. -/
theorem Keeps.finished (h : c.Keeps w e inputs terms first) (hstep : c.step (w.system e) box = none) : c.system.finished = true := by
  unfold Clock.step at hstep
  split at hstep
  · cases hstep
  split at hstep
  · cases hstep
  · cases hstep
  · rename_i hdue hlater
    split at hstep
    · cases hstep
    · rename_i hnext
      have hnext : (w.system e).next c.system = none := by simpa using hnext
      have htimers : c.timers = [] := List.head?_eq_none_iff.mp (Option.map_eq_none_iff.mp hstep)
      have hcalls := h.minds.idle hdue hlater htimers
      have hwaking : c.waking = [] := by simp [waking, hdue, hlater]
      exact Machine.finished_of_idle h.sound (Machine.next_eq_none.mp hnext) ((Multiset.coe_eq_zero _).mp hcalls) (hwaking ▸ h.wakes)

/-- The clock stops, with nothing left to be done. -/
theorem Keeps.run (hw : w.Valid) (hserved : w.Served e box terms) (h : c.Keeps w e inputs terms first) :
    (c.run (w.system e) box).Keeps w e inputs terms first ∧ (c.run (w.system e) box).system.finished = true := by
  obtain ⟨hkeeps, hstep⟩ := run_stops (hw.ends e inputs) ⟨h.sound, h.minds.numbered⟩ h fun c c' hc hmoment =>
    hc.moment hw hserved hmoment
  exact ⟨hkeeps, hkeeps.finished hstep⟩

end Clock

namespace Workflow

open Machine

variable {w : Workflow} {W : Type}

/-- The clock of a run before anything is done. -/
def clock (w : Workflow) (world : W) (inputs : Fields) (cancelled : Bool) (now : Nat) : Clock Machine W :=
  .start now (if cancelled then { start w inputs now with cancelled := true } else start w inputs now) world

/-- The clock of a run keeps in mind what it has to from the start. -/
theorem Valid.clock_keeps (hw : w.Valid) (e : Engine) {terms : Terms} (world : W) (inputs : Fields) (cancelled : Bool)
    (hcancelled : cancelled = true → terms.cancels) (now : Nat) :
    (w.clock world inputs cancelled now).Keeps w e inputs terms (start w inputs now) := by
  have hbegin : ∀ m, Run w e (.on terms) (start w inputs now) m → m.tasks = [] → m.trace = [] → m.places = .idle →
      (Clock.start now m world).Keeps w e inputs terms (start w inputs now) := by
    intro m hrun htasks htrace hplaces
    have hwakes : m.Wakes [] := ⟨by simp [dispatched, asked, htrace], by simp [hplaces, Semaphore.idle]⟩
    refine ⟨⟨hrun.sound hw (start_sound hw _ inputs now), hrun, ?_⟩, hwakes⟩
    have hinFlight : m.inFlight = [] := by rw [inFlight, htasks, List.flatMap_nil]
    show Clock.Minds terms ↑m.inFlight (Clock.start now m world)
    rw [hinFlight]
    exact Clock.start_minds terms now m world
  unfold clock
  split
  · rename_i h
    exact hbegin _ (Run.refl.move now .cancel (hcancelled h)) rfl rfl rfl
  · exact hbegin _ .refl rfl rfl rfl

/-- A run on the clock is a run that keeps to the terms of its tools, until nothing is left to be done. -/
theorem Valid.run_ends (hw : w.Valid) {settings : EngineSettings} {box : Toolbox W} {terms : Terms}
    (hserved : w.Served ⟨settings, box.has⟩ box terms) (world : W) (inputs : Fields) (cancelled : Bool)
    (hcancelled : cancelled = true → terms.cancels) (now : Nat) :
    ∃ m later, Run w ⟨settings, box.has⟩ (.on terms) (start w inputs now) m ∧ m.finished = true ∧
      (w.run settings box world inputs cancelled now).result = m.result later ∧
      (w.run settings box world inputs cancelled now).events = m.events ++ [.runFinished (m.result later)] ∧
      (w.run settings box world inputs cancelled now).calls = m.calls := by
  obtain ⟨hkeeps, hfinished⟩ := (hw.clock_keeps _ world inputs cancelled hcancelled now).run hw hserved
  exact ⟨_, _, hkeeps.reached, hfinished, rfl, rfl, rfl⟩

/-- Every run on the clock is a run in which starts are heard of in time, whatever the tools do and however long they take, and it comes
to its end. -/
theorem run_on_clock {d : Definition} (hd : ofDefinition d = .ok w) (settings : EngineSettings) (box : Toolbox W) (world : W)
    {supplied inputs : Fields} (hbound : d.bindInputs supplied = .ok inputs) (cancelled : Bool) (now : Nat) :
    ∃ report m later, d.run settings box world supplied cancelled now = .ok report ∧
      Run w ⟨settings, box.has⟩ (.inTime .any) (start w inputs now) m ∧ m.finished = true ∧ report.result = m.result later ∧
        report.events = m.events ++ [.runFinished report.result] ∧ report.calls = m.calls := by
  obtain ⟨-, hw⟩ := valid_of_definition hd
  have hserved : w.Served ⟨settings, box.has⟩ box .any := fun _ _ call _ _ => box.serves_any call
  obtain ⟨m, later, hrun, hfinished, hresult, hevents, hcalls⟩ := hw.run_ends hserved world inputs cancelled (fun _ => trivial) now
  refine ⟨w.run settings box world inputs cancelled now, m, later, ?_, hrun.inTime, hfinished, hresult, ?_, hcalls⟩
  · simp only [Definition.run, hd, hbound, Except.mapError, bind, Except.bind]
    rfl
  · rw [hevents, hresult]

end Workflow

end Runbook
