import Mathlib.Order.Bounds.Basic
import Runbook.Proofs.Concurrency

/-!
# When things happen

A clock never goes back in time. It goes on to another time only when it is still, and then because a call is in flight: every timer is
set for one. All clocks that a clock comes to are on one way, so what comes to hold and then holds has a moment at which it begins.
-/

namespace Runbook

open Relation (ReflTransGen)

namespace Clock

variable {S W : Type} {system : System S} {box : Toolbox W} {first c c' : Clock S W}

/-! ## Timers -/

/-- The timers of a clock are those of calls in flight. None is set for a time that is over, and they are in the order in which they
ring. -/
structure Armed (c : Clock S W) : Prop where
  flying : ∀ t ∈ c.timers, t.call ∈ c.flights.map (·.number)
  ahead : ∀ t ∈ c.timers, c.now ≤ t.time
  sorted : c.timers.Pairwise (·.time ≤ ·.time)

/-- Timers are kept in the order of their times. -/
theorem pairwise_insertTimer {timers : List Timer} (h : timers.Pairwise (·.time ≤ ·.time)) (t : Timer) :
    (insertTimer t timers).Pairwise (·.time ≤ ·.time) := by
  induction timers with
  | nil => exact List.pairwise_singleton _ t
  | cons u rest ih =>
    obtain ⟨hu, hrest⟩ := List.pairwise_cons.mp h
    unfold insertTimer
    split
    · rename_i hle
      refine List.pairwise_cons.mpr ⟨fun v hv => ?_, ih hrest⟩
      rcases mem_insertTimer.mp hv with rfl | hv
      · exact hle
      · exact hu v hv
    · rename_i hlt
      refine List.pairwise_cons.mpr ⟨fun v hv => ?_, h⟩
      rcases List.mem_cons.mp hv with rfl | hv
      · omega
      · exact Nat.le_trans (by omega) (hu v hv)

namespace Armed

theorem start (now : Nat) (s : S) (world : W) : (Clock.start now s world).Armed := ⟨nofun, nofun, List.Pairwise.nil⟩

/-- Other calls may fly, too. -/
theorem of_eq (h : c.Armed) (hnow : c'.now = c.now) (htimers : c'.timers = c.timers)
    (hflights : c.flights.map (·.number) ⊆ c'.flights.map (·.number)) : c'.Armed :=
  ⟨htimers ▸ fun t ht => hflights (h.flying t ht), htimers ▸ hnow ▸ h.ahead, htimers ▸ h.sorted⟩

/-- A timer may be set for a call in flight. -/
theorem set (h : c.Armed) {t : Timer} (hnow : c'.now = c.now) (htimers : c'.timers = insertTimer t c.timers)
    (hflights : c.flights.map (·.number) ⊆ c'.flights.map (·.number)) (hcall : t.call ∈ c'.flights.map (·.number))
    (htime : c.now ≤ t.time) : c'.Armed := by
  refine ⟨?_, ?_, htimers ▸ pairwise_insertTimer h.sorted t⟩
  · intro u hu
    rw [htimers] at hu
    rcases mem_insertTimer.mp hu with rfl | hu
    · exact hcall
    · exact hflights (h.flying u hu)
  · intro u hu
    rw [htimers] at hu
    rw [hnow]
    rcases mem_insertTimer.mp hu with rfl | hu
    · exact htime
    · exact h.ahead u hu

/-- A clock stays armed when a call is taken up. -/
theorem takeUp (h : c.Armed) (box : Toolbox W) (t : Ticket) (call : Call) : (c.takeUp box t call).Armed := by
  have hflights {c : Clock S W} : c.flights.map (·.number) ⊆ (c.launch box t call).flights.map (·.number) := by
    simp [launch, enqueue]
  rcases takeUp_cases box t call c with ⟨-, heq⟩ | ⟨ms, -, heq | heq⟩
  · exact heq ▸ h.of_eq rfl rfl hflights
  · exact heq ▸ h.of_eq rfl rfl (List.Subset.refl _)
  · refine heq ▸ h.set (t := ⟨c.now + ms, c.calls, .expire c.calls⟩) rfl rfl hflights ?_ (Nat.le_add_right _ _)
    simp [launch, enqueue, setTimer]

/-- A clock stays armed whatever the system signals. -/
theorem obey (h : c.Armed) (box : Toolbox W) (signals : List Signal) : (c.obey box signals).Armed := by
  induction signals generalizing c with
  | nil => exact h
  | cons s signals ih =>
    cases s with
    | called t call => exact ih (h.takeUp box t call)
    | wake id => exact ih (h.of_eq rfl rfl (List.Subset.refl _))

/-- A clock stays armed whatever the system does. -/
theorem makeMove (h : c.Armed) (system : System S) (box : Toolbox W) (mv : Move) : (c.makeMove system box mv).Armed := by
  have hmoved : Armed { c with system := (system.move c.now mv c.system).1 } := h.of_eq rfl rfl (List.Subset.refl _)
  exact hmoved.obey box _

/-- A call takes its timers with it when it lands. -/
theorem land (h : c.Armed) (n : Nat) : (c.land n).Armed := by
  refine ⟨?_, fun t ht => h.ahead t (List.mem_of_mem_filter ht), h.sorted.filter _⟩
  intro t ht
  obtain ⟨ht, hother⟩ := List.mem_filter.mp ht
  obtain ⟨f, hf, hcall⟩ := List.mem_map.mp (h.flying t ht)
  exact List.mem_map.mpr ⟨f, List.mem_filter.mpr ⟨hf, by simpa [hcall] using hother⟩, hcall⟩

/-- A clock stays armed when a tool goes on. -/
theorem actOn (hquiet : ∀ now s, (system.move now .cancel s).2 = []) (h : c.Armed) (box : Toolbox W) {f : Flight W}
    (hf : f ∈ c.flights) (act : Activity W) : (Clock.actOn system box f act c).Armed := by
  induction act generalizing c with
  | answer a => exact (h.land f.number).of_eq rfl rfl (List.Subset.refl _)
  | sleep d rest ih =>
    unfold Clock.actOn
    split
    · exact ih h hf
    · have hnumbers : (c.flights.map fun g => if g.number = f.number then { g with rest } else g).map (·.number) =
          c.flights.map (·.number) := by
        rw [List.map_map]
        refine List.map_congr_left fun g _ => ?_
        simp only [Function.comp_apply]
        split <;> rfl
      refine h.set (t := ⟨c.now + d.ticks, f.number, .resume f.number⟩) rfl rfl (fun _ hn => hnumbers.symm ▸ hn) ?_
        (Nat.le_add_right _ _)
      exact hnumbers ▸ List.mem_map_of_mem hf
  | cancel rest ih =>
    unfold Clock.actOn
    refine ih (h.makeMove system box .cancel) ?_
    rw [makeMove_of_quiet (Prod.ext rfl (hquiet c.now c.system))]
    exact hf
  | act update rest ih => exact ih c.world (h.of_eq rfl rfl (List.Subset.refl _)) hf

/-- A clock stays armed when what is due is done. -/
theorem perform (hquiet : ∀ now s, (system.move now .cancel s).2 = []) (h : c.Armed) (box : Toolbox W) (d : Due) (due : List Due) :
    (Clock.perform system box { c with due } d).Armed := by
  have hpopped : Armed { c with due } := h.of_eq rfl rfl (List.Subset.refl _)
  have hwake {n : Nat} (hd : d = .invoke n ∨ d = .resume n) : (Clock.perform system box { c with due } d).Armed := by
    rw [perform_wake hd]
    cases hflight : c.flight? n with
    | none => exact hpopped
    | some f => exact hpopped.actOn hquiet box (flight?_some hflight).1 f.rest
  cases d with
  | invoke n => exact hwake (Or.inl rfl)
  | resume n => exact hwake (Or.inr rfl)
  | expire n =>
    rw [perform_expire]
    split
    · split
      · exact (hpopped.land n).of_eq rfl rfl (List.Subset.refl _)
      · exact (hpopped.land n).makeMove system box _
    · exact hpopped
  | deliver t r => exact hpopped.makeMove system box _
  | wake id => exact (hpopped.makeMove system box _).makeMove system box _
  | handOver x => exact hpopped.of_eq rfl rfl (List.Subset.refl _)

/-- A clock stays armed when all that is due is done. -/
theorem attend (h : c.Armed) (system : System S) (box : Toolbox W) : (Clock.attend system box c).Armed := by
  unfold Clock.attend
  split
  · rename_i mv _
    exact (h.makeMove system box mv).of_eq rfl rfl (List.Subset.refl _)
  · exact h.of_eq rfl rfl (List.Subset.refl _)

/-- No timer is set for a time before that of the first. -/
theorem first_le (h : c.Armed) {t : Timer} (ht : c.timers.head? = some t) : ∀ u ∈ c.timers, t.time ≤ u.time := by
  obtain ⟨rest, hrest⟩ := List.head?_eq_some_iff.mp ht
  obtain ⟨hfirst, -⟩ := List.pairwise_cons.mp (hrest ▸ h.sorted)
  intro u hu
  rw [hrest] at hu
  rcases List.mem_cons.mp hu with rfl | hu
  · exact Nat.le_refl _
  · exact hfirst u hu

/-- A clock stays armed when its first timer rings. -/
theorem ring (h : c.Armed) {t : Timer} (ht : c.timers.head? = some t) : (c.ring t).Armed := by
  rw [ring_eq]
  exact ⟨fun u hu => h.flying u (List.mem_of_mem_filter hu), fun u hu => h.first_le ht u (List.mem_of_mem_filter hu),
    h.sorted.filter _⟩

/-- Every moment leaves timers in order, and none goes back in time. -/
theorem moment (hquiet : ∀ now s, (system.move now .cancel s).2 = []) (h : c.Armed) (hmoment : Moment system box c c') :
    c'.Armed ∧ c.now ≤ c'.now := by
  cases hmoment with
  | perform hdue => exact ⟨h.perform hquiet box _ _, Nat.le_of_eq (now_perform ..).symm⟩
  | shift => exact ⟨h.of_eq rfl rfl (List.Subset.refl _), Nat.le_refl _⟩
  | attend => exact ⟨h.attend system box, Nat.le_of_eq (now_attend ..).symm⟩
  | ring _ ht =>
    refine ⟨h.ring ht, ?_⟩
    rw [ring_eq]
    exact h.ahead _ (List.mem_of_head? ht)

/-- A clock stays armed as long as it goes on, and does not go back in time. -/
theorem reaches (hquiet : ∀ now s, (system.move now .cancel s).2 = []) (h : c.Armed) (hreaches : Reaches system box c c') :
    c'.Armed ∧ c.now ≤ c'.now := by
  induction hreaches with
  | refl => exact ⟨h, Nat.le_refl _⟩
  | tail _ hstep ih =>
    obtain ⟨harmed, hle⟩ := ih.1.moment hquiet (moment_of_step hstep)
    exact ⟨harmed, ih.2.trans hle⟩

end Armed

/-! ## Moments -/

/-- Time passes only at a still clock, with a timer that rings. -/
theorem Moment.now_eq_or_ring (hmoment : Moment system box c c') :
    c'.now = c.now ∨ c.Still system ∧ ∃ t ∈ c.timers, c' = c.ring t := by
  cases hmoment with
  | perform => exact Or.inl (now_perform ..)
  | shift => exact Or.inl rfl
  | attend => exact Or.inl (now_attend ..)
  | ring still ht => exact Or.inr ⟨still, _, List.mem_of_head? ht, rfl⟩

/-- Of two clocks that a clock comes to, one comes to the other. -/
theorem Reaches.total (h : Reaches system box first c) (h' : Reaches system box first c') :
    Reaches system box c c' ∨ Reaches system box c' c :=
  ReflTransGen.total_of_right_unique (fun _ _ _ hab hac => Option.some.inj (hab.symm.trans hac)) h h'

/-- The clock a moment later; at its end it stays as it is. -/
def next (system : System S) (box : Toolbox W) (c : Clock S W) : Clock S W := (c.step system box).getD c

/-- A clock that is at its end after some moments has run to this end. -/
theorem run_eq_iterate {n : Nat} (h : ((next system box)^[n] c).step system box = none) :
    c.run system box = (next system box)^[n] c := by
  induction n generalizing c with
  | zero =>
    rw [run_eq]
    rw [Function.iterate_zero, id] at h ⊢
    rw [h]
  | succ n ih =>
    rw [Function.iterate_succ_apply] at h ⊢
    rw [run_eq]
    cases hstep : c.step system box with
    | none =>
      have hsame : next system box c = c := by rw [next, hstep, Option.getD_none]
      rw [hsame, Function.iterate_fixed hsame]
    | some c' =>
      have hnext : next system box c = c' := by rw [next, hstep, Option.getD_some]
      rw [hnext] at h ⊢
      exact ih h

/-- The time at which something comes to hold of the system that a clock drives. -/
def Begins (system : System S) (box : Toolbox W) (first : Clock S W) (P : S → Prop) (time : Nat) : Prop :=
  IsLeast {t | ∃ c, Reaches system box first c ∧ c.now = t ∧ P c.system} time

namespace Begins

variable {P : S → Prop} {time : Nat}

/-- What holds at some moment begins to hold at some time. -/
theorem exists_of_reaches (h : Reaches system box first c) (hc : P c.system) : ∃ time, Begins system box first P time :=
  ⟨_, Nat.sInf_mem ⟨c.now, c, h, rfl, hc⟩, fun _ ht => Nat.sInf_le ht⟩

/-- What begins to hold at a time does not hold before. -/
theorem le (h : Begins system box first P time) (hreaches : Reaches system box first c) (hc : P c.system) : time ≤ c.now :=
  h.2 ⟨c, hreaches, rfl, hc⟩

end Begins

end Clock

end Runbook
