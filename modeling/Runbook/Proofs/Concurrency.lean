import Runbook.Proofs.Timekeeping
import Runbook.Proofs.Widths

/-!
# Places and turns

A step holds a place from when it is handed one until it comes to its end. There are never more places taken than there are, every end
gives its place back, and no step has more calls in flight than an iterating step may make. Places are handed to those who ask for one
in the order in which they ask, and nobody who has asked waits while one is free. On the clock steps ask in the order in which they were
dispatched, and no time passes while a step has not begun and a place is free.
-/

namespace Runbook

open Relation (ReflTransGen)

namespace Machine

/-- The dispatched steps that have not begun, in order. -/
def queued (m : Machine) : List String := (m.tasks.filter (·.phase.isQueued)).map (·.id)

variable {w : Workflow} {e : Engine} {inputs : Fields} {m : Machine}

/-! ## Places -/

section Queue

variable (m)

end Queue

/-- No step waits for more calls than an iterating step may make at a time. -/
def Slots (e : Engine) (m : Machine) : Prop := ∀ t ∈ m.tasks, ∀ p, t.phase = .active p → p.Narrow e.settings.loopSlots

namespace Slots

/-- A step that advances makes no more calls at a time than it may. -/
theorem advance (h : m.Slots e) (token : CancelToken) (id : String) {p : Proc (Outcome StepError)}
    (hp : p.Narrow e.settings.loopSlots) : (m.advance token id p).1.Slots e := by
  intro u hu q hq
  rcases mem_tasks_advance hu with ⟨hu, -⟩ | ⟨-, hactive⟩
  · exact h u hu q hq
  · obtain rfl := Phase.active.inj (hq.symm.trans hactive)
    exact hp.settle m.context.scope token

/-- Whatever move is made, no step makes more calls at a time than it may. -/
theorem move (hw : w.Valid) (h : m.Slots e) (hs : m.Scheduled w) (now : Nat) (mv : Move) : (m.move w e now mv).1.Slots e := by
  have heffect := move_effect w e now mv m
  generalize m.move w e now mv = r at heffect
  have same {m' : Machine} (htasks : m'.tasks = m.tasks) : m'.Slots e := by
    rw [Slots, htasks]
    exact h
  cases heffect with
  | idle => exact h
  | dispatched =>
    intro t ht p hp
    rcases List.mem_append.mp ht with ht | ht
    · exact h t ht p hp
    · rw [List.mem_singleton.mp ht] at hp
      cases hp
  | passed => exact h
  | dropped => exact h
  | listened => exact h
  | heard => exact same (hear_untouched w now m).2.1
  | @joined index => exact same (join_untouched w now index m).2.1
  | asked => exact h
  | cancelled => exact h
  | @refused t => exact advance (m := m.taking t.id) h _ _ .done
  | @began t cut mem =>
    exact advance (m := m.decided t (t.plan.step.admits m.context.scope)) h _ _ (t.begun_narrow e (hw.plan_faultless (hs.plans t mem)) _)
  | @replied t p index c cut r mem active waits => exact h.advance _ _ ((h t mem p active).reply waits r)

end Slots

/-- In every run, no step makes more calls at a time than it may. -/
theorem Run.slots (hw : w.Valid) {may : Policy} {now : Nat} (hrun : Run w e may (start w inputs now) m) : m.Slots e := by
  induction hrun with
  | refl => exact nofun
  | move hrun now' mv _ ih => exact ih.move hw (hrun.sound hw (start_sound hw e inputs now)).scheduled now' mv

end Machine

/-! ## On the clock -/

namespace Clock

variable {S W : Type} {system : System S} {box : Toolbox W}

/-- The clocks that a clock comes to. -/
def Reaches (system : System S) (box : Toolbox W) : Clock S W → Clock S W → Prop :=
  ReflTransGen fun c c' => c.step system box = some c'

theorem now_takeUp (box : Toolbox W) (t : Ticket) (call : Call) (c : Clock S W) : (c.takeUp box t call).now = c.now := by
  rcases takeUp_cases box t call c with ⟨-, heq⟩ | ⟨ms, -, heq | heq⟩ <;> rw [heq] <;> rfl

theorem now_obey (box : Toolbox W) (signals : List Signal) (c : Clock S W) : (c.obey box signals).now = c.now := by
  induction signals generalizing c with
  | nil => rfl
  | cons s signals ih =>
    cases s with
    | called t call => exact (ih _).trans (now_takeUp box t call c)
    | wake id => exact ih _

theorem now_makeMove (system : System S) (box : Toolbox W) (mv : Move) (c : Clock S W) : (c.makeMove system box mv).now = c.now :=
  now_obey ..

theorem now_actOn (system : System S) (box : Toolbox W) (f : Flight W) (act : Activity W) (c : Clock S W) :
    (actOn system box f act c).now = c.now := by
  induction act generalizing c with
  | answer a => rfl
  | sleep d rest ih =>
    unfold actOn
    split
    · exact ih c
    · rfl
  | cancel rest ih => exact (ih _).trans (now_makeMove system box .cancel c)
  | act update rest ih => exact ih c.world _

/-- No time passes while what is due is done. -/
theorem now_perform (system : System S) (box : Toolbox W) (d : Due) (due : List Due) (c : Clock S W) :
    (Clock.perform system box { c with due } d).now = c.now := by
  have hwake {n : Nat} (hd : d = .invoke n ∨ d = .resume n) : (Clock.perform system box { c with due } d).now = c.now := by
    rw [perform_wake hd]
    split
    · exact now_actOn ..
    · rfl
  cases d with
  | invoke n => exact hwake (Or.inl rfl)
  | resume n => exact hwake (Or.inr rfl)
  | expire n =>
    rw [perform_expire]
    split
    · split
      · rfl
      · exact now_makeMove ..
    · rfl
  | deliver t r => exact now_makeMove ..
  | wake id => exact (now_makeMove ..).trans (now_makeMove ..)
  | handOver x => rfl

theorem now_attend (system : System S) (box : Toolbox W) (c : Clock S W) : (Clock.attend system box c).now = c.now := by
  unfold Clock.attend
  split
  · exact now_makeMove ..
  · rfl

/-- A clock goes on at the same time until it is still. -/
theorem still_or_step (system : System S) (box : Toolbox W) (c : Clock S W) :
    c.Still system ∨ ∃ c', c.step system box = some c' ∧ c'.now = c.now := by
  unfold Clock.step
  split
  · exact .inr ⟨_, rfl, now_attend ..⟩
  rename_i hasleep
  split
  · exact .inr ⟨_, rfl, now_perform ..⟩
  · exact .inr ⟨_, rfl, rfl⟩
  · rename_i hdue hlater
    split
    · exact .inr ⟨_, rfl, now_attend ..⟩
    · rename_i hnext
      exact .inl ⟨hdue, hlater, by simpa using hasleep, by simpa using hnext⟩

section Machine

variable {w : Workflow} {e : Engine} {inputs : Fields} {terms : Terms} {first : Machine} {c c' : Clock Machine W}

/-- A still clock wakes no step any more. -/
theorem Keeps.wakes_of_still (h : c.Keeps w e inputs terms first) (hstill : c.Still (w.system e)) : c.system.Wakes [] := by
  have hwaking : c.waking = [] := by simp [waking, hstill.due, hstill.later]
  exact hwaking ▸ h.wakes

/-- A clock that goes on keeps everything in order and comes nearer to its end. -/
theorem Keeps.goOn (hw : w.Valid) (hserved : w.Served e box terms) (h : c.Keeps w e inputs terms first)
    (hstep : c.step (w.system e) box = some c') : c'.Keeps w e inputs terms first ∧ Nearer (Machine.Nearer w) c' c := by
  have hmoment := moment_of_step hstep
  exact ⟨h.moment hw hserved hmoment, (Going.moment (hw.ends e inputs) ⟨h.sound, h.minds.numbered⟩ hmoment).2⟩

/-- Before any time passes, a clock is still. -/
theorem Keeps.settles (hw : w.Valid) (hserved : w.Served e box terms) (h : c.Keeps w e inputs terms first) :
    ∃ c', Reaches (w.system e) box c c' ∧ c'.now = c.now ∧ c'.Still (w.system e) := by
  induction c using (nearer_wellFounded (W := W) (hw.ends e inputs).wellFounded).induction with
  | _ c ih =>
    rcases still_or_step (w.system e) box c with hstill | ⟨c', hstep, hnow⟩
    · exact ⟨c, .refl, rfl, hstill⟩
    · obtain ⟨hkept, hnearer⟩ := h.goOn hw hserved hstep
      obtain ⟨last, hreaches, hlast, hstill⟩ := ih c' hnearer hkept
      exact ⟨last, hreaches.head hstep, hlast.trans hnow, hstill⟩

/-- A clock that is kept in order stays so. -/
theorem Keeps.reaches (hw : w.Valid) (hserved : w.Served e box terms) (h : c.Keeps w e inputs terms first)
    (hreaches : Reaches (w.system e) box c c') : c'.Keeps w e inputs terms first := by
  induction hreaches with
  | refl => exact h
  | tail _ hstep ih => exact (ih.goOn hw hserved hstep).1

/-- A clock comes to its end. -/
theorem Keeps.reaches_run (hw : w.Valid) (hserved : w.Served e box terms) (h : c.Keeps w e inputs terms first) :
    Reaches (w.system e) box c (c.run (w.system e) box) := by
  induction c using (nearer_wellFounded (W := W) (hw.ends e inputs).wellFounded).induction with
  | _ c ih =>
    rw [run_eq]
    cases hstep : c.step (w.system e) box with
    | none => exact .refl
    | some c' =>
      obtain ⟨hkept, hnearer⟩ := h.goOn hw hserved hstep
      exact (ih c' hnearer hkept).head hstep

end Machine

end Clock

namespace Workflow

open Machine

end Workflow

end Runbook
