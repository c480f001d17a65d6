import Runbook.Proofs.Flights
import Runbook.Proofs.Termination

/-!
# The clock stops

A clock that drives a system which comes to an end comes to an end itself. Every moment leaves less to be done: the system goes on, or
the tool of a call in flight does, or what is due comes closer to being done, or the runner goes to sleep. Whatever the tools do, and
however long they take, they act until they sleep or answer.
-/

namespace Runbook

open Relation (CutExpand ReflTransGen TransGen)

variable {S W : Type}

/-- What an activity does next. -/
inductive Activity.Next : Activity W → Activity W → Prop
  | sleep (d : Duration) (rest : Activity W) : Next rest (.sleep d rest)
  | cancel (rest : Activity W) : Next rest (.cancel rest)
  | act (update : W → W) (rest : W → Activity W) (w : W) : Next (rest w) (.act update rest)

/-- Every tool answers after finitely many of its steps. -/
theorem Activity.next_wellFounded : WellFounded (Next (W := W)) := by
  refine ⟨?_⟩
  intro a
  induction a with
  | answer a => exact ⟨_, nofun⟩
  | sleep d rest ih =>
    refine ⟨_, ?_⟩
    intro b hb
    cases hb
    exact ih
  | cancel rest ih =>
    refine ⟨_, ?_⟩
    intro b hb
    cases hb
    exact ih
  | act update rest ih =>
    refine ⟨_, ?_⟩
    intro b hb
    cases hb with
    | act _ _ w => exact ih w

/-- What is handed over has to be done once more. -/
def Due.weight : Due → Nat
  | handOver _ => 2
  | invoke _ | resume _ | expire _ | deliver _ _ | wake _ => 0

@[simp] theorem Errand.weight_due (x : Errand) : x.due.weight = 0 := by cases x <;> rfl

namespace System

/-- What a tool makes of a system on terms when it cancels the run. -/
def Stops (system : System S) (terms : Terms) (s' s : S) : Prop := terms.cancels ∧ ∃ now, s' = (system.move now .cancel s).1

/-- A system that comes to an end: every move that changes anything leaves less to be done, and so does every move of its runner. -/
structure Ends (system : System S) (I : S → Prop) (r : S → S → Prop) : Prop where
  wellFounded : WellFounded r
  keeps : ∀ now mv s, I s → I (system.move now mv s).1
  less : ∀ now mv s, I s → system.move now mv s = (s, []) ∨ r (system.move now mv s).1 s
  runner : ∀ now s mv, I s → system.next s = some mv → r (system.move now mv s).1 s
  quiet : ∀ now s, (system.move now .cancel s).2 = []

/-- Calls that are stopped leave what the system keeps as it is, and bring it closer to its end if they do anything to
it. -/
theorem Ends.stops {system : System S} {I : S → Prop} {r : S → S → Prop} (h : system.Ends I r) {terms : Terms} {s s' : S} (hs : I s)
    (hstops : ReflTransGen (system.Stops terms) s' s) : I s' ∧ ReflTransGen r s' s := by
  induction hstops using ReflTransGen.head_induction_on with
  | refl => exact ⟨hs, .refl⟩
  | head hstep _ ih =>
    obtain ⟨-, now, rfl⟩ := hstep
    refine ⟨h.keeps now .cancel _ ih.1, ?_⟩
    rcases h.less now .cancel _ ih.1 with heq | hless
    · rw [heq]
      exact ih.2
    · exact ih.2.head hless

end System

namespace Clock

/-- What the tools of the calls in flight do next. -/
def tools (c : Clock S W) : Multiset (Activity W) := ↑(c.flights.map (·.rest))

/-- How far all that is due and all timers are from being done, and the runner from going to sleep. -/
def load (c : Clock S W) : Nat :=
  (c.due.map (·.weight + 1)).sum + (c.later.map (·.weight + 2)).sum + (c.timers.map (·.due.weight + 3)).sum + c.awake.toNat

/-- Less is left to be done: by the system, by the tools, or of what is due. -/
def Nearer (r : S → S → Prop) (c' c : Clock S W) : Prop :=
  Prod.Lex (TransGen r) (Prod.Lex (CutExpand (TransGen Activity.Next)) (· < ·)) (c'.system, c'.tools, c'.load)
    (c.system, c.tools, c.load)

/-- A clock comes nearer to its end finitely often only, if its system does. -/
theorem nearer_wellFounded {r : S → S → Prop} (hr : WellFounded r) : WellFounded (Nearer (W := W) r) :=
  InvImage.wf (fun c : Clock S W => (c.system, c.tools, c.load))
    (hr.transGen.prod_lex (Activity.next_wellFounded.transGen.cutExpand.prod_lex wellFounded_lt))

section Nearer

variable {r : S → S → Prop} {c c' : Clock S W}

theorem nearer_of_system (h : TransGen r c'.system c.system) : Nearer r c' c := .left _ _ h

/-- A clock comes nearer to its end when a tool goes on and the system does not go back. -/
theorem nearer_of_tools (hsystem : ReflTransGen r c'.system c.system)
    (h : CutExpand (TransGen Activity.Next) c'.tools c.tools) : Nearer r c' c := by
  rcases Relation.reflTransGen_iff_eq_or_transGen.mp hsystem with heq | hless
  · unfold Nearer
    rw [← heq]
    exact .right _ (.left _ _ h)
  · exact nearer_of_system hless

/-- A clock comes nearer to its end when its load becomes less and all else stays. -/
theorem nearer_of_load (hsystem : c'.system = c.system) (htools : c'.tools = c.tools) (h : c'.load < c.load) : Nearer r c' c := by
  unfold Nearer
  rw [hsystem, htools]
  exact .right _ (.right _ h)

end Nearer

variable {c : Clock S W}

/-- What is due first takes its weight off the load, and one more. -/
theorem load_pop {d : Due} {due : List Due} (hdue : c.due = d :: due) : load { c with due } + (d.weight + 1) = c.load := by
  simp only [load, hdue, List.map_cons, List.sum_cons]
  omega

/-- What becomes due adds its weight to the load, and two more. -/
theorem load_enqueue (d : Due) : (c.enqueue d).load = c.load + (d.weight + 2) := by
  simp only [load, enqueue, List.map_cons, List.sum_cons]
  omega

/-- A call that lands takes its tool with it. -/
theorem tools_land (h : c.Numbered) {f : Flight W} (hf : f ∈ c.flights) :
    CutExpand (TransGen Activity.Next) (c.land f.number).tools c.tools := by
  obtain ⟨before, after, hsplit, hfilter, -⟩ := split_of_nodup (·.number) h.nodup hf
  have hflights : (c.land f.number).flights = before ++ after := hfilter
  rw [tools, tools, hflights, hsplit, List.map_append, List.map_append, List.map_cons]
  exact cutExpand_append [] nofun _ _

/-- The tools that are under way become fewer in their order when one of them goes on. -/
theorem tools_goOn (h : c.Numbered) {f : Flight W} (hf : f ∈ c.flights) {rest : Activity W} (hrest : TransGen Activity.Next rest f.rest) :
    CutExpand (TransGen Activity.Next)
      (tools { c with flights := c.flights.map fun g => if g.number = f.number then { g with rest } else g }) c.tools := by
  obtain ⟨before, after, hsplit, -, hmap⟩ := split_of_nodup (·.number) h.nodup hf
  rw [tools, tools, hmap fun g => { g with rest }, hsplit, List.map_append, List.map_append, List.map_cons, List.map_cons]
  exact cutExpand_append [rest] (by simpa using hrest) _ _

/-! ## Moves -/

/-- A call that is taken up gets a number of its own. -/
theorem takeUp_numbered (h : c.Numbered) (box : Toolbox W) (t : Ticket) (call : Call) : (c.takeUp box t call).Numbered := by
  have hlaunch {c : Clock S W} (h : c.Numbered) : (c.launch box t call).Numbered :=
    Numbered.fly (c := c.enqueue (handed t (.invoke c.calls))) ⟨h.below, h.nodup⟩ rfl
  rcases takeUp_cases box t call c with ⟨-, heq⟩ | ⟨ms, -, heq | heq⟩
  · exact heq ▸ hlaunch h
  · exact heq ▸ ⟨h.below, h.nodup⟩
  · exact heq ▸ hlaunch ⟨h.below, h.nodup⟩

theorem system_takeUp (box : Toolbox W) (t : Ticket) (call : Call) (c : Clock S W) : (c.takeUp box t call).system = c.system := by
  rcases takeUp_cases box t call c with ⟨-, heq⟩ | ⟨ms, -, heq | heq⟩ <;> rw [heq] <;> rfl

/-- Calls keep numbers of their own whatever the system signals. -/
theorem obey_numbered (h : c.Numbered) (box : Toolbox W) (signals : List Signal) : (c.obey box signals).Numbered := by
  induction signals generalizing c with
  | nil => exact h
  | cons s signals ih =>
    cases s with
    | called t call => exact ih (takeUp_numbered h box t call)
    | wake id => exact ih ⟨h.below, h.nodup⟩

theorem system_obey (box : Toolbox W) (signals : List Signal) (c : Clock S W) : (c.obey box signals).system = c.system := by
  induction signals generalizing c with
  | nil => rfl
  | cons s signals ih =>
    cases s with
    | called t call => exact (ih _).trans (system_takeUp box t call c)
    | wake id => exact ih _

theorem system_makeMove (system : System S) (box : Toolbox W) (mv : Move) (c : Clock S W) :
    (c.makeMove system box mv).system = (system.move c.now mv c.system).1 := system_obey ..

/-- A move wakes the steps that the system signals to wake, after those that are woken already. -/
theorem waking_makeMove (system : System S) (box : Toolbox W) (mv : Move) (c : Clock S W) :
    (c.makeMove system box mv).waking = c.waking ++ (system.move c.now mv c.system).2.filterMap Signal.step? := waking_obey ..

/-- Calls keep numbers of their own whatever the system does. -/
theorem makeMove_numbered (h : c.Numbered) (system : System S) (box : Toolbox W) (mv : Move) :
    (c.makeMove system box mv).Numbered :=
  obey_numbered (c := { c with system := (system.move c.now mv c.system).1 }) ⟨h.below, h.nodup⟩ box _

/-- A move that asks for nothing changes the system alone. -/
theorem makeMove_of_quiet {system : System S} {box : Toolbox W} {mv : Move} {s : S} (h : system.move c.now mv c.system = (s, [])) :
    c.makeMove system box mv = { c with system := s } := by
  unfold makeMove
  rw [h]
  rfl

/-- Makes moves, one after the other. -/
def makeMoves (system : System S) (box : Toolbox W) (moves : List Move) (c : Clock S W) : Clock S W :=
  moves.foldl (fun c mv => c.makeMove system box mv) c

/-- A tool acts until it lets its call land, with the answer on its way, or sleeps. -/
theorem actOn_cases {system : System S} (hquiet : ∀ now s, (system.move now .cancel s).2 = []) (box : Toolbox W) (f : Flight W)
    {terms : Terms} {act : Activity W} (h : act.Within terms f.call) (c : Clock S W) :
    ∃ world s, ReflTransGen (system.Stops terms) s c.system ∧
      ((∃ a, terms.answers f.call a ∧ actOn system box f act c =
        (land f.number { c with world, system := s }).enqueue (handed f.ticket (.deliver f.ticket (.answer a)))) ∨
      ∃ rest time, rest.Within terms f.call ∧ TransGen Activity.Next rest act ∧ actOn system box f act c =
        setTimer ⟨time, f.number, .resume f.number⟩
          { c with world, system := s, flights := c.flights.map fun g => if g.number = f.number then { g with rest } else g }) := by
  induction h generalizing c with
  | answer h => exact ⟨c.world, c.system, .refl, Or.inl ⟨_, h, rfl⟩⟩
  | @sleep d rest hwithin ih =>
    unfold actOn
    split
    · obtain ⟨world, s, hs, hland | ⟨rest', time, hrest, hnext, heq⟩⟩ := ih c
      · exact ⟨world, s, hs, Or.inl hland⟩
      · exact ⟨world, s, hs, Or.inr ⟨rest', time, hrest, hnext.tail (.sleep d rest), heq⟩⟩
    · exact ⟨c.world, c.system, .refl, Or.inr ⟨rest, c.now + d.ticks, hwithin, .single (.sleep d rest), rfl⟩⟩
  | @cancel rest allowed hwithin ih =>
    have hmove : c.makeMove system box .cancel = { c with system := (system.move c.now .cancel c.system).1 } :=
      makeMove_of_quiet (Prod.ext rfl (hquiet c.now c.system))
    have hstop : system.Stops terms (system.move c.now .cancel c.system).1 c.system := ⟨allowed, c.now, rfl⟩
    unfold actOn
    rw [hmove]
    obtain ⟨world, s, hs, hland | ⟨rest', time, hrest, hnext, heq⟩⟩ := ih { c with system := (system.move c.now .cancel c.system).1 }
    · exact ⟨world, s, hs.tail hstop, Or.inl hland⟩
    · exact ⟨world, s, hs.tail hstop, Or.inr ⟨rest', time, hrest, hnext.tail (.cancel rest), heq⟩⟩
  | @act update rest hwithin ih =>
    unfold actOn
    obtain ⟨world, s, hs, hland | ⟨rest', time, hrest, hnext, heq⟩⟩ := ih c.world { c with world := update c.world }
    · exact ⟨world, s, hs, Or.inl hland⟩
    · exact ⟨world, s, hs, Or.inr ⟨rest', time, hrest, hnext.tail (.act update rest c.world), heq⟩⟩

/-- What is found under a number is in flight and has this number. -/
theorem flight?_some {n : Nat} {f : Flight W} (h : c.flight? n = some f) : f ∈ c.flights ∧ f.number = n :=
  ⟨List.mem_of_find?_eq_some h, by simpa using List.find?_some h⟩

/-- Nothing in flight has a number under which nothing is found. -/
theorem flight?_none {n : Nat} (h : c.flight? n = none) : ∀ f ∈ c.flights, f.number ≠ n := by
  intro f hf
  simpa using List.find?_eq_none.mp h f hf

/-! ## One moment -/

/-- A clock with a system that keeps what it keeps. -/
structure Going (I : S → Prop) (c : Clock S W) : Prop where
  system : I c.system
  numbered : c.Numbered

section Moments

variable {system : System S} {I : S → Prop} {r : S → S → Prop} {box : Toolbox W}

/-- A move keeps the clock going, and changes the system only to bring it closer to its end. -/
theorem Going.makeMove (box : Toolbox W) (hends : system.Ends I r) (h : c.Going I) (mv : Move) :
    (c.makeMove system box mv).Going I ∧
      (c.makeMove system box mv = c ∨ r (c.makeMove system box mv).system c.system) := by
  refine ⟨⟨?_, makeMove_numbered h.numbered system box mv⟩, ?_⟩
  · rw [system_makeMove]
    exact hends.keeps c.now mv c.system h.system
  · rcases hends.less c.now mv c.system h.system with heq | hless
    · exact Or.inl (makeMove_of_quiet heq)
    · rw [system_makeMove]
      exact Or.inr hless

/-- The tool of a call in flight goes on. -/
theorem Going.actOn (hends : system.Ends I r) (h : c.Going I) {f : Flight W} (hf : f ∈ c.flights) (due : List Due) :
    (Clock.actOn system box f f.rest { c with due }).Going I ∧ Nearer r (Clock.actOn system box f f.rest { c with due }) c := by
  obtain ⟨world, s, hs, ⟨a, -, heq⟩ | ⟨rest, time, -, hnext, heq⟩⟩ :=
    actOn_cases hends.quiet box f (Activity.within_any f.call f.rest) { c with due }
  · obtain ⟨hkept, hsystem⟩ := hends.stops h.system hs
    have hnumbered := h.numbered.land f.number
    rw [heq]
    exact ⟨⟨hkept, hnumbered.below, hnumbered.nodup⟩, nearer_of_tools hsystem (tools_land h.numbered hf)⟩
  · obtain ⟨hkept, hsystem⟩ := hends.stops h.system hs
    have hnumbered := h.numbered.goOn f.number rest
    rw [heq]
    exact ⟨⟨hkept, hnumbered.below, hnumbered.nodup⟩, nearer_of_tools hsystem (tools_goOn h.numbered hf hnext)⟩

/-- Moves are made one after the other. -/
theorem Going.makeMoves (box : Toolbox W) (hends : system.Ends I r) (h : c.Going I) (moves : List Move) :
    (c.makeMoves system box moves).Going I ∧
      (c.makeMoves system box moves = c ∨ TransGen r (c.makeMoves system box moves).system c.system) := by
  induction moves generalizing c with
  | nil => exact ⟨h, .inl rfl⟩
  | cons mv moves ih =>
    obtain ⟨hgoing, hmade⟩ := h.makeMove box hends mv
    obtain ⟨hlast, hrest⟩ := ih hgoing
    refine ⟨hlast, ?_⟩
    show (c.makeMove system box mv).makeMoves system box moves = c ∨
      TransGen r ((c.makeMove system box mv).makeMoves system box moves).system c.system
    rcases hmade with heq | hless
    · rwa [heq] at hrest ⊢
    · rcases hrest with hsame | hnearer
      · exact .inr (.single ((congrArg Clock.system hsame).symm ▸ hless))
      · exact .inr (hnearer.tail hless)

/-- Moves that are due are made. -/
theorem Going.moveDue (hends : system.Ends I r) (h : c.Going I) {d : Due} {due : List Due} (hdue : c.due = d :: due) (moves : List Move) :
    (Clock.makeMoves system box moves { c with due }).Going I ∧ Nearer r (Clock.makeMoves system box moves { c with due }) c := by
  have hpopped : Going I { c with due } := ⟨h.system, h.numbered.below, h.numbered.nodup⟩
  obtain ⟨hgoing, heq | hless⟩ := hpopped.makeMoves box hends moves
  · have hload := load_pop hdue
    refine ⟨hgoing, ?_⟩
    rw [heq]
    exact nearer_of_load rfl rfl (by omega)
  · exact ⟨hgoing, nearer_of_system hless⟩

/-- The time of a call is over. -/
theorem Going.expire (box : Toolbox W) (hends : system.Ends I r) (h : c.Going I) {f : Flight W} (hf : f ∈ c.flights) (due : List Due) :
    let c' := Clock.land f.number { c with due }
    (c'.enqueue (.deliver f.ticket .timedOut)).Going I ∧ Nearer r (c'.enqueue (.deliver f.ticket .timedOut)) c ∧
      (c'.makeMove system box (.reply f.ticket .timedOut none)).Going I ∧
        Nearer r (c'.makeMove system box (.reply f.ticket .timedOut none)) c := by
  intro c'
  have hlanded : c'.Going I := ⟨h.system, (h.numbered.land f.number).below, (h.numbered.land f.number).nodup⟩
  have htools : CutExpand (TransGen Activity.Next) c'.tools c.tools := tools_land h.numbered hf
  refine ⟨⟨hlanded.system, hlanded.numbered.below, hlanded.numbered.nodup⟩, nearer_of_tools .refl htools, ?_⟩
  obtain ⟨hgoing, heq | hless⟩ := hlanded.makeMove box hends (.reply f.ticket .timedOut none)
  · exact ⟨hgoing, heq.symm ▸ nearer_of_tools .refl htools⟩
  · exact ⟨hgoing, nearer_of_system (.single hless)⟩

/-- To take up or to resume a call is to go on with its tool, if it is still in flight. -/
theorem perform_wake {d : Due} {n : Nat} (hd : d = .invoke n ∨ d = .resume n) (due : List Due) :
    Clock.perform system box { c with due } d = match c.flight? n with
      | some f => Clock.actOn system box f f.rest { c with due }
      | none => { c with due } := by
  rcases hd with rfl | rfl <;> rfl

/-- The time limit of a call matters only while it is in flight. -/
theorem perform_expire (n : Nat) (due : List Due) :
    Clock.perform system box { c with due } (.expire n) = match c.flight? n with
      | some f =>
        if f.ticket.index.isSome then (Clock.land n { c with due }).enqueue (.deliver f.ticket .timedOut)
        else (Clock.land n { c with due }).makeMove system box (.reply f.ticket .timedOut none)
      | none => { c with due } := rfl

/-- What is due is done. -/
theorem Going.perform (hends : system.Ends I r) (h : c.Going I) {d : Due} {due : List Due} (hdue : c.due = d :: due) :
    (Clock.perform system box { c with due } d).Going I ∧ Nearer r (Clock.perform system box { c with due } d) c := by
  have hload := load_pop hdue
  have hpopped : Going I { c with due } ∧ Nearer r { c with due } c :=
    ⟨⟨h.system, h.numbered.below, h.numbered.nodup⟩, nearer_of_load rfl rfl (by omega)⟩
  have hwake {n : Nat} (hd : d = .invoke n ∨ d = .resume n) :
      (Clock.perform system box { c with due } d).Going I ∧ Nearer r (Clock.perform system box { c with due } d) c := by
    rw [perform_wake hd]
    cases hflight : c.flight? n with
    | none => exact hpopped
    | some f => exact h.actOn hends (flight?_some hflight).1 due
  cases d with
  | invoke n => exact hwake (Or.inl rfl)
  | resume n => exact hwake (Or.inr rfl)
  | expire n =>
    rw [perform_expire]
    cases hflight : c.flight? n with
    | none => exact hpopped
    | some f =>
      obtain ⟨hf, rfl⟩ := flight?_some hflight
      obtain ⟨hgoing, hnearer, hgoing', hnearer'⟩ := h.expire box hends hf due
      dsimp only
      split
      · exact ⟨hgoing, hnearer⟩
      · exact ⟨hgoing', hnearer'⟩
  | deliver t reply => exact h.moveDue hends hdue [.reply t reply none]
  | wake id => exact h.moveDue hends hdue [.ask id, .begin id none]
  | handOver x =>
    have hlater := load_enqueue x.due (c := { c with due })
    rw [Errand.weight_due] at hlater
    simp only [Due.weight] at hload
    exact ⟨⟨h.system, h.numbered.below, h.numbered.nodup⟩, nearer_of_load rfl rfl (by simp only [Clock.perform]; omega)⟩

/-- The runner makes its next move, or goes to sleep if there is none. -/
theorem Going.attend (hends : system.Ends I r) (h : c.Going I) (hbusy : c.awake = true ∨ (system.next c.system).isSome = true) :
    (Clock.attend system box c).Going I ∧ Nearer r (Clock.attend system box c) c := by
  unfold Clock.attend
  split
  · rename_i mv hmv
    obtain ⟨hgoing, -⟩ := h.makeMove box hends mv
    refine ⟨⟨hgoing.system, hgoing.numbered.below, hgoing.numbered.nodup⟩, nearer_of_system (.single ?_)⟩
    show r (c.makeMove system box mv).system c.system
    rw [system_makeMove]
    exact hends.runner c.now c.system mv h.system hmv
  · rename_i hnone
    have hawake : c.awake = true := hbusy.resolve_right (by simp [hnone])
    refine ⟨⟨h.system, h.numbered.below, h.numbered.nodup⟩, nearer_of_load rfl rfl ?_⟩
    simp only [load, hawake, Bool.toNat_true, Bool.toNat_false]
    omega

/-- One more for every item is as many more as there are items. -/
theorem sum_map_succ {α : Type} (f : α → Nat) (items : List α) :
    (items.map (f · + 1)).sum = (items.map f).sum + items.length := by
  induction items with
  | nil => rfl
  | cons x items ih =>
    simp only [List.map_cons, List.sum_cons, List.length_cons, ih]
    omega

/-- What was due a little later is due now. -/
theorem shift_nearer (hdue : c.due = []) (hlater : c.later ≠ []) : Nearer r { c with due := c.later.reverse, later := [] } c := by
  have hlength : 0 < c.later.length := List.length_pos_iff.mpr hlater
  have hsum : (c.later.map (·.weight + 2)).sum = (c.later.map (·.weight + 1)).sum + c.later.length := sum_map_succ _ _
  refine nearer_of_load rfl rfl ?_
  simp only [load, hdue, List.map_reverse, List.sum_reverse, List.map_nil, List.sum_nil, hsum]
  omega

/-- The timers that ring first leave less to be done. -/
theorem ring_nearer {t : Timer} (ht : t ∈ c.timers) : Nearer r (c.ring t) c := by
  have hperm : (c.timers.filter (·.time = t.time) ++ c.timers.filter (¬·.time = t.time)).Perm c.timers := by
    simpa using List.filter_append_perm (fun u : Timer => decide (u.time = t.time)) c.timers
  have hringing : 0 < (c.timers.filter (·.time = t.time)).length := List.length_pos_of_mem (List.mem_filter.mpr ⟨ht, by simp⟩)
  have hsum : (c.timers.map (·.due.weight + 3)).sum =
      ((c.timers.filter (·.time = t.time)).map (·.due.weight + 2)).sum + (c.timers.filter (·.time = t.time)).length +
        ((c.timers.filter (¬·.time = t.time)).map (·.due.weight + 3)).sum := by
    rw [← (hperm.map _).sum_eq, List.map_append, List.sum_append]
    exact congrArg (· + _) (sum_map_succ (fun u : Timer => u.due.weight + 2) _)
  refine nearer_of_load rfl rfl ?_
  simp only [load, ring_eq, hsum, List.map_append, List.map_reverse, List.map_map, List.sum_append, List.sum_reverse,
    Function.comp_def]
  omega

/-- A clock that has nothing left to be done at its time. -/
structure Still (system : System S) (c : Clock S W) : Prop where
  due : c.due = []
  later : c.later = []
  asleep : c.awake = false
  next : system.next c.system = none

/-- What a moment of a clock is: time passes only when the clock is still. -/
inductive Moment (system : System S) (box : Toolbox W) (c : Clock S W) : Clock S W → Prop
  | perform {d : Due} {due : List Due} (hdue : c.due = d :: due) : Moment system box c (Clock.perform system box { c with due } d)
  | shift (hdue : c.due = []) (hlater : c.later ≠ []) : Moment system box c { c with due := c.later.reverse, later := [] }
  | attend (hbusy : c.awake = true ∨ (system.next c.system).isSome = true) : Moment system box c (Clock.attend system box c)
  | ring {t : Timer} (still : c.Still system) (ht : c.timers.head? = some t) : Moment system box c (c.ring t)

/-- A step of the clock is one of its moments. -/
theorem moment_of_step {c' : Clock S W} (h : c.step system box = some c') : Moment system box c c' := by
  unfold step at h
  split at h
  · rename_i hawake
    obtain rfl := Option.some.inj h
    exact .attend (.inl hawake)
  rename_i hasleep
  split at h
  · rename_i d due _ hdue
    obtain rfl := Option.some.inj h
    exact .perform hdue
  · rename_i d later hdue hlater
    obtain rfl := Option.some.inj h
    rw [← hlater]
    exact .shift hdue (by simp [hlater])
  · rename_i hdue hlater
    split at h
    · rename_i hsome
      obtain rfl := Option.some.inj h
      exact .attend (.inr hsome)
    · rename_i hnone
      obtain ⟨t, hhead, rfl⟩ := Option.map_eq_some_iff.mp h
      exact .ring ⟨hdue, hlater, by simpa using hasleep, by simpa using hnone⟩ hhead

/-- Every moment leaves less to be done. -/
theorem Going.moment (hends : system.Ends I r) (h : c.Going I) {c' : Clock S W} (hmoment : Moment system box c c') :
    c'.Going I ∧ Nearer r c' c := by
  cases hmoment with
  | perform hdue => exact h.perform hends hdue
  | shift hdue hlater => exact ⟨⟨h.system, h.numbered.below, h.numbered.nodup⟩, shift_nearer hdue hlater⟩
  | attend hbusy => exact h.attend hends hbusy
  | ring _ ht => exact ⟨⟨h.system, h.numbered.below, h.numbered.nodup⟩, ring_nearer (List.mem_of_head? ht)⟩

/-- A clock stops, and what every moment keeps holds when it stops. -/
theorem run_stops (hends : system.Ends I r) (h : c.Going I) {P : Clock S W → Prop} (hP : P c)
    (hkeeps : ∀ c c', P c → Moment system box c c' → P c') :
    P (c.run system box) ∧ (c.run system box).step system box = none := by
  induction c using (nearer_wellFounded (W := W) hends.wellFounded).induction with
  | _ c ih =>
    rw [run_eq]
    cases hstep : c.step system box with
    | none => exact ⟨hP, hstep⟩
    | some c' =>
      have hmoment := moment_of_step hstep
      obtain ⟨hgoing, hnearer⟩ := h.moment hends hmoment
      exact ih c' hnearer hgoing (hkeeps c c' hP hmoment)

end Moments

end Clock

end Runbook
