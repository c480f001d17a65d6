import Mathlib.Algebra.Order.Group.Multiset
import Runbook.Engine.Clock
import Runbook.Proofs.Tables

/-!
# Calls in flight

What a clock keeps in mind while it drives a system: each call that was asked for is in flight, or its reply is on its way; the tool
of a call in flight will be woken; and the steps that can go on will be woken in the order in which this was asked for. The tools act on
terms, which say what may become of calls.
-/

namespace Runbook

variable {S W : Type}

/-- On what terms calls are made: which answers they may come back with, whether they may be late, and whether the run may be cancelled
meanwhile. -/
structure Terms where
  answers : Call → Answer → Prop
  late : Prop
  cancels : Prop

namespace Terms

/-- What a call may come back with. None is aborted. -/
def May (terms : Terms) (c : Call) : Reply → Prop
  | .answer a => terms.answers c a
  | .timedOut => terms.late
  | .aborted => False

/-- A reply that is on its way to a call. -/
def Fits (terms : Terms) (r : Ticket × Reply) (c : Ticket × Call) : Prop := r.1 = c.1 ∧ terms.May c.2 r.2

/-- Anything may happen. -/
def any : Terms := ⟨fun _ _ => True, True, True⟩

end Terms

/-- An activity that acts on terms: whatever it does, it comes to an answer that the call may have. -/
inductive Activity.Within (terms : Terms) (c : Call) : Activity W → Prop
  | answer {a : Answer} (h : terms.answers c a) : Within terms c (.answer a)
  | sleep {d : Duration} {rest : Activity W} (h : Within terms c rest) : Within terms c (.sleep d rest)
  | cancel {rest : Activity W} (allowed : terms.cancels) (h : Within terms c rest) : Within terms c (.cancel rest)
  | act {update : W → W} {rest : W → Activity W} (h : ∀ w, Within terms c (rest w)) : Within terms c (.act update rest)

/-- Every activity keeps to terms that ask for nothing. -/
theorem Activity.within_any (c : Call) (a : Activity W) : a.Within .any c := by
  induction a with
  | answer a => exact .answer trivial
  | sleep d rest ih => exact .sleep ih
  | cancel rest ih => exact .cancel trivial ih
  | act update rest ih => exact .act ih

/-! ## What is due -/

namespace Due

/-- What is done in the end. -/
def core : Due → Due
  | handOver x => x.due
  | d => d

/-- The call whose tool goes on, or whose time is over. -/
def wakes? : Due → Option Nat
  | invoke n | resume n | expire n => some n
  | deliver _ _ | wake _ | handOver _ => none

/-- The step that goes on. -/
def step? : Due → Option String
  | wake id => some id
  | invoke _ | resume _ | expire _ | deliver _ _ | handOver _ => none

/-- The reply that is on its way. -/
def brings? : Due → Option (Ticket × Reply)
  | deliver t r => some (t, r)
  | invoke _ | resume _ | expire _ | wake _ | handOver _ => none

/-- That the time of a call is over. -/
def expires : Due → Bool
  | expire _ => true
  | invoke _ | resume _ | deliver _ _ | wake _ | handOver _ => false

/-- What wakes a call brings no reply. -/
theorem brings?_of_wakes? {d : Due} {n : Nat} (h : d.wakes? = some n) : d.brings? = none := by
  cases d with
  | deliver _ _ => cases h
  | invoke _ | resume _ | expire _ | wake _ | handOver _ => rfl

/-- What wakes a call wakes no step. -/
theorem step?_of_wakes? {d : Due} {n : Nat} (h : d.core.wakes? = some n) : d.step? = none := by
  cases d with
  | wake _ => cases h
  | invoke _ | resume _ | expire _ | deliver _ _ | handOver _ => rfl

end Due

namespace Errand

theorem core_due (x : Errand) : x.due.core = x.due := by cases x <;> rfl

theorem step?_due (x : Errand) : x.due.step? = none := by cases x <;> rfl

end Errand

namespace Signal

/-- The call that is asked for. -/
def call? : Signal → Option (Ticket × Call)
  | called t c => some (t, c)
  | wake _ => none

/-- The step that can go on. -/
def step? : Signal → Option String
  | wake id => some id
  | called _ _ => none

end Signal

namespace Toolbox

/-- What is done for a call. -/
def activity (box : Toolbox W) (call : Call) : Activity W :=
  match box.find? call.tool with
  | some tool => tool call.inputs
  | none => .answer .panic

/-- A call that a toolbox serves on terms. -/
structure Serves (box : Toolbox W) (terms : Terms) (call : Call) : Prop where
  within : (box.activity call).Within terms call
  punctual : call.timeoutMs = none ∨ terms.late

/-- Every toolbox serves a call on terms that ask for nothing. -/
theorem serves_any (box : Toolbox W) (call : Call) : box.Serves .any call := ⟨Activity.within_any _ _, Or.inr trivial⟩

end Toolbox

namespace Clock

/-- What is due, now or a little later. -/
def queue (c : Clock S W) : Multiset Due := (↑c.due + ↑c.later : Multiset Due).map Due.core

/-- The steps that will be woken, in order. -/
def waking (c : Clock S W) : List String := (c.due ++ c.later.reverse).filterMap Due.step?

/-- Calls in flight are numbered in the order in which they were made. -/
structure Numbered (c : Clock S W) : Prop where
  below : ∀ f ∈ c.flights, f.number < c.calls
  nodup : (c.flights.map (·.number)).Nodup

/-- The calls that are in flight, and those whose replies are on their way. -/
def Expects (terms : Terms) (calls : Multiset (Ticket × Call)) (c : Clock S W) : Prop :=
  ∃ coming, ↑(c.flights.map fun f => (f.ticket, f.call)) + coming = calls ∧
    Multiset.Rel terms.Fits (c.queue.filterMap Due.brings?) coming

/-- What a clock keeps in mind of the calls that are expected of it. -/
structure Minds (terms : Terms) (calls : Multiset (Ticket × Call)) (c : Clock S W) : Prop where
  numbered : c.Numbered
  within : ∀ f ∈ c.flights, f.rest.Within terms f.call
  expects : c.Expects terms calls
  woken : ∀ f ∈ c.flights, (∃ d ∈ c.queue, d.wakes? = some f.number) ∨ ∃ t ∈ c.timers, t.call = f.number
  timers : ∀ t ∈ c.timers, t.due = .resume t.call ∨ terms.late ∧ t.due = .expire t.call
  late : ∀ d ∈ c.queue, d.expires = true → terms.late

variable {terms : Terms} {calls : Multiset (Ticket × Call)} {c : Clock S W}

section Queue

/-- What becomes due comes into the queue. -/
theorem queue_enqueue (d : Due) (c : Clock S W) : (c.enqueue d).queue = d.core ::ₘ c.queue := by
  simp only [queue, enqueue, ← Multiset.cons_coe, Multiset.add_cons, Multiset.map_cons]

/-- What is put in front is in the queue. -/
theorem queue_push (d : Due) (c : Clock S W) : queue { c with due := d :: c.due } = d.core ::ₘ c.queue := by
  simp only [queue, ← Multiset.cons_coe, Multiset.cons_add, Multiset.map_cons]

/-- What is due first is in the queue, with all that comes after it. -/
theorem queue_pop {d : Due} {due : List Due} (h : c.due = d :: due) : c.queue = d.core ::ₘ queue { c with due } := by
  simp only [queue, h, ← Multiset.cons_coe, Multiset.cons_add, Multiset.map_cons]

theorem core_handed (t : Ticket) (x : Errand) : (handed t x).core = x.due := by
  unfold handed
  split
  · rfl
  · exact x.core_due

theorem step?_handed (t : Ticket) (x : Errand) : (handed t x).step? = none := by
  unfold handed
  split
  · rfl
  · exact x.step?_due

/-- What becomes due wakes its step after those that are to wake already. -/
theorem waking_enqueue (d : Due) (c : Clock S W) : (c.enqueue d).waking = c.waking ++ d.step?.toList := by
  simp only [waking, enqueue, List.reverse_cons, ← List.append_assoc, List.filterMap_append]
  cases h : d.step? <;> simp [h]

/-- What is due first wakes its step before all others. -/
theorem waking_pop {d : Due} {due : List Due} (h : c.due = d :: due) : c.waking = d.step?.toList ++ waking { c with due } := by
  simp only [waking, h, List.cons_append]
  cases hd : d.step? with
  | none => rw [List.filterMap_cons_none hd, Option.toList_none, List.nil_append]
  | some id => rw [List.filterMap_cons_some hd, Option.toList_some, List.singleton_append]


/-- What a queue brings is what the first of it brings, and what the others do. -/
theorem filterMap_brings?_cons (d : Due) (queue : Multiset Due) :
    (d ::ₘ queue).filterMap Due.brings? = ↑d.brings?.toList + queue.filterMap Due.brings? := by
  cases h : d.brings? with
  | none => simp [Multiset.filterMap_cons_none _ _ h]
  | some r => simp [Multiset.filterMap_cons_some _ _ _ h]

/-- A timer that is set is there, and so are all others. -/
theorem mem_insertTimer {t u : Timer} {timers : List Timer} : u ∈ insertTimer t timers ↔ u = t ∨ u ∈ timers := by
  induction timers with
  | nil => simp [insertTimer]
  | cons v rest ih =>
    unfold insertTimer
    split
    · rw [List.mem_cons, ih, List.mem_cons, or_left_comm]
    · rw [List.mem_cons]

/-- A timer that rings sets the clock to its time. -/
theorem ring_eq (c : Clock S W) (t : Timer) :
    c.ring t = { c with
      now := t.time
      timers := c.timers.filter (¬·.time = t.time)
      later := ((c.timers.filter (·.time = t.time)).map (·.due)).reverse ++ c.later } := by
  simp [ring, List.partition_eq_filter_filter, Function.comp_def]

/-- What rings is due. -/
theorem queue_ring (hcore : ∀ u ∈ c.timers, u.due.core = u.due) (t : Timer) :
    (c.ring t).queue = ↑((c.timers.filter (·.time = t.time)).map (·.due)) + c.queue := by
  have hsame : ((c.timers.filter (·.time = t.time)).map (·.due)).map Due.core = (c.timers.filter (·.time = t.time)).map (·.due) := by
    rw [List.map_map]
    exact List.map_congr_left fun u hu => hcore u (List.mem_of_mem_filter hu)
  simp only [ring_eq, queue, ← Multiset.coe_add, Multiset.coe_reverse, Multiset.map_add, Multiset.map_coe]
  rw [add_left_comm, hsame]

/-- Lets a call fly whose tool is invoked next. -/
def launch (box : Toolbox W) (t : Ticket) (call : Call) (c : Clock S W) : Clock S W :=
  { c.enqueue (handed t (.invoke c.calls)) with
    calls := c.calls + 1
    flights := c.flights ++ [⟨c.calls, t, call, box.activity call⟩] }

/-- A call that is taken up flies, with a timer if its time is limited; without any time it is over. -/
theorem takeUp_cases (box : Toolbox W) (t : Ticket) (call : Call) (c : Clock S W) :
    (call.timeoutMs = none ∧ c.takeUp box t call = c.launch box t call) ∨
      ∃ ms, call.timeoutMs = some ms ∧ (c.takeUp box t call = { c with due := .deliver t .timedOut :: c.due } ∨
        c.takeUp box t call = (c.setTimer ⟨c.now + ms, c.calls, .expire c.calls⟩).launch box t call) := by
  unfold takeUp
  cases htimeout : call.timeoutMs with
  | none => exact Or.inl ⟨rfl, rfl⟩
  | some ms =>
    cases ms with
    | zero => exact Or.inr ⟨0, rfl, Or.inl rfl⟩
    | succ ms => exact Or.inr ⟨ms + 1, rfl, Or.inr rfl⟩

/-- A call that is taken up wakes no step. -/
theorem waking_takeUp (box : Toolbox W) (t : Ticket) (call : Call) (c : Clock S W) : (c.takeUp box t call).waking = c.waking := by
  have hlaunch (c : Clock S W) : (c.launch box t call).waking = c.waking := by
    show (c.enqueue (handed t (.invoke c.calls))).waking = _
    rw [waking_enqueue, step?_handed, Option.toList_none, List.append_nil]
  rcases takeUp_cases box t call c with ⟨-, heq⟩ | ⟨ms, -, heq | heq⟩
  · exact heq ▸ hlaunch c
  · rw [heq]
    rfl
  · rw [heq, hlaunch]
    rfl

/-- The steps that can go on are woken last. -/
theorem waking_obey (box : Toolbox W) (signals : List Signal) (c : Clock S W) :
    (c.obey box signals).waking = c.waking ++ signals.filterMap Signal.step? := by
  induction signals generalizing c with
  | nil => exact (List.append_nil _).symm
  | cons s signals ih =>
    cases s with
    | called t call => exact (ih (c.takeUp box t call)).trans (congrArg (· ++ _) (waking_takeUp box t call c))
    | wake id =>
      have hnext := ih (c.enqueue (.wake id))
      rwa [waking_enqueue, List.append_assoc] at hnext

end Queue

namespace Numbered

/-- The next call to fly has a number of its own. -/
theorem fly (h : c.Numbered) {f : Flight W} (hnumber : f.number = c.calls) :
    Numbered { c with calls := c.calls + 1, flights := c.flights ++ [f] } := by
  refine ⟨?_, ?_⟩
  · intro g hg
    rcases List.mem_append.mp hg with hg | hg
    · exact Nat.lt_succ_of_lt (h.below g hg)
    · obtain rfl := List.mem_singleton.mp hg
      exact hnumber ▸ Nat.lt_succ_self _
  · rw [List.map_append, List.nodup_append]
    refine ⟨h.nodup, List.nodup_singleton _, ?_⟩
    intro n hn n' hn'
    obtain ⟨g, hg, rfl⟩ := List.mem_map.mp hn
    obtain rfl := List.mem_singleton.mp hn'
    have hlt : g.number < f.number := hnumber ▸ h.below g hg
    exact Nat.ne_of_lt hlt

/-- Calls keep numbers of their own when one of them is answered. -/
theorem land (h : c.Numbered) (n : Nat) : (c.land n).Numbered :=
  ⟨fun f hf => h.below f (List.mem_of_mem_filter hf), h.nodup.sublist (List.filter_sublist.map _)⟩

/-- Calls keep numbers of their own when a tool goes on. -/
theorem goOn (h : c.Numbered) (n : Nat) (rest : Activity W) :
    Numbered { c with flights := c.flights.map fun g => if g.number = n then { g with rest } else g } := by
  have hnumber (g : Flight W) : (if g.number = n then { g with rest } else g).number = g.number := by
    split <;> rfl
  refine ⟨?_, ?_⟩
  · intro f hf
    obtain ⟨g, hg, rfl⟩ := List.mem_map.mp hf
    rw [hnumber]
    exact h.below g hg
  · rw [List.map_map]
    exact (List.map_congr_left fun g _ => hnumber g) ▸ h.nodup

end Numbered

/-- A clock minds its terms when nothing is called yet. -/
theorem start_minds (terms : Terms) (now : Nat) (system : S) (world : W) : (start now system world).Minds terms 0 :=
  ⟨⟨nofun, List.nodup_nil⟩, nofun, ⟨0, rfl, .zero⟩, nofun, nofun, nofun⟩

namespace Minds

/-- What a clock keeps in mind is in its queue, its timers and its flights. -/
theorem of_eq {T : Type} {c' : Clock T W} (h : c.Minds terms calls) (hqueue : c'.queue = c.queue)
    (htimers : c'.timers = c.timers) (hflights : c'.flights = c.flights) (hcalls : c'.calls = c.calls) :
    c'.Minds terms calls := by
  obtain ⟨⟨h1, h2⟩, h3, h4, h5, h6, h7⟩ := h
  refine ⟨⟨hcalls ▸ hflights ▸ h1, hflights ▸ h2⟩, hflights ▸ h3, ?_, ?_, htimers ▸ h6, hqueue ▸ h7⟩
  · rw [Expects, hqueue, hflights]
    exact h4
  · rw [hqueue, htimers, hflights]
    exact h5

/-- What else is due is kept in mind, with the call that it replies to, if it replies. -/
theorem more (h : c.Minds terms calls) {d : Due} {replied : Multiset (Ticket × Call)}
    (hfits : Multiset.Rel terms.Fits ↑d.brings?.toList replied) (hlate : d.expires = true → terms.late) {c' : Clock S W}
    (hqueue : c'.queue = d ::ₘ c.queue) (htimers : c'.timers = c.timers) (hflights : c'.flights = c.flights)
    (hcalls : c'.calls = c.calls) : c'.Minds terms (replied + calls) := by
  obtain ⟨⟨h1, h2⟩, h3, ⟨coming, rfl, hcoming⟩, h5, h6, h7⟩ := h
  refine ⟨⟨hcalls ▸ hflights ▸ h1, hflights ▸ h2⟩, hflights ▸ h3, ⟨replied + coming, ?_, ?_⟩, ?_, htimers ▸ h6, ?_⟩
  · rw [hflights, add_left_comm]
  · rw [hqueue, filterMap_brings?_cons]
    exact hfits.add hcoming
  · intro f hf
    rw [hqueue, htimers]
    rcases h5 f (hflights ▸ hf) with ⟨d', hd', hwakes⟩ | htimer
    · exact Or.inl ⟨d', Multiset.mem_cons_of_mem hd', hwakes⟩
    · exact Or.inr htimer
  · intro d' hd'
    rw [hqueue] at hd'
    rcases Multiset.mem_cons.mp hd' with rfl | hd'
    · exact hlate
    · exact h7 d' hd'

/-- A clock minds its terms when something becomes due that brings no other reply than they allow. -/
theorem enqueue (h : c.Minds terms calls) {d : Due} {replied : Multiset (Ticket × Call)}
    (hfits : Multiset.Rel terms.Fits ↑d.core.brings?.toList replied) (hlate : d.core.expires = true → terms.late) :
    (c.enqueue d).Minds terms (replied + calls) :=
  h.more hfits hlate (queue_enqueue d c) rfl rfl rfl

/-- A reply is on its way. -/
theorem enqueueReply (h : c.Minds terms calls) {t : Ticket} {r : Reply} (call : Call) (hmay : terms.May call r) {d : Due}
    (hd : d.core = .deliver t r) : (c.enqueue d).Minds terms ((t, call) ::ₘ calls) := by
  have hfits : Multiset.Rel terms.Fits ↑d.core.brings?.toList {(t, call)} := by
    rw [hd]
    exact .cons ⟨rfl, hmay⟩ .zero
  have hreply := h.enqueue hfits (by rw [hd]; nofun)
  rwa [Multiset.singleton_add] at hreply

/-- What is done is no longer due, nor is the call expected that it replies to, if it replies; the call that it wakes, if any, must be
woken otherwise. -/
theorem pop (h : c.Minds terms calls) {d : Due} {due : List Due} (hdue : c.due = d :: due)
    (hwoken : ∀ f ∈ c.flights, d.core.wakes? = some f.number → ∃ t ∈ c.timers, t.call = f.number) :
    ∃ replied others, calls = replied + others ∧ Multiset.Rel terms.Fits ↑d.core.brings?.toList replied ∧
      Minds terms others { c with due } := by
  have hqueue := queue_pop hdue
  obtain ⟨h1, h2, ⟨coming, rfl, hcoming⟩, h4, h5, h6⟩ := h
  rw [hqueue, filterMap_brings?_cons, Multiset.rel_add_left] at hcoming
  obtain ⟨replied, others, hfits, hothers, rfl⟩ := hcoming
  refine ⟨replied, _, add_left_comm .., hfits, ⟨h1.below, h1.nodup⟩, h2, ⟨others, rfl, hothers⟩, ?_, h5, ?_⟩
  · intro f hf
    rcases h4 f hf with ⟨d', hd', hwakes⟩ | htimer
    · rw [hqueue] at hd'
      rcases Multiset.mem_cons.mp hd' with rfl | hd'
      · exact Or.inr (hwoken f hf hwakes)
      · exact Or.inl ⟨d', hd', hwakes⟩
    · exact Or.inr htimer
  · intro d' hd'
    refine h6 d' ?_
    rw [hqueue]
    exact Multiset.mem_cons_of_mem hd'

/-- A call that was due to be woken needs no longer to be, if it is in flight no more or has a timer. -/
theorem popWaking (h : c.Minds terms calls) {d : Due} {due : List Due} (hdue : c.due = d :: due) {n : Nat}
    (hwakes : d.core.wakes? = some n) (hwoken : ∀ f ∈ c.flights, f.number = n → ∃ t ∈ c.timers, t.call = f.number) :
    Minds terms calls { c with due } := by
  obtain ⟨replied, others, rfl, hfits, hminds⟩ := h.pop hdue fun f hf hd => hwoken f hf (Option.some.inj (hd.symm.trans hwakes))
  rw [Due.brings?_of_wakes? hwakes] at hfits
  obtain rfl := Multiset.rel_zero_left.mp hfits
  rwa [zero_add]

/-- A call may fly when its tool is woken. -/
theorem fly (h : c.Minds terms calls) {f : Flight W} (hnumber : f.number = c.calls) (hwithin : f.rest.Within terms f.call)
    (hwoken : ∃ d ∈ c.queue, d.wakes? = some f.number) :
    Minds terms ((f.ticket, f.call) ::ₘ calls) { c with calls := c.calls + 1, flights := c.flights ++ [f] } := by
  have hmem {g : Flight W} (hg : g ∈ c.flights ++ [f]) : g ∈ c.flights ∨ g = f := by simpa using hg
  obtain ⟨h1, h2, ⟨coming, rfl, hcoming⟩, h4, h5, h6⟩ := h
  refine ⟨h1.fly hnumber, ?_, ⟨coming, ?_, hcoming⟩, ?_, h5, h6⟩
  · intro g hg
    rcases hmem hg with hg | rfl
    · exact h2 g hg
    · exact hwithin
  · rw [List.map_append, ← Multiset.coe_add, List.map_singleton, Multiset.coe_singleton, add_right_comm, add_comm,
      Multiset.singleton_add]
  · intro g hg
    rcases hmem hg with hg | rfl
    · exact h4 g hg
    · exact Or.inl hwoken

/-- A clock minds its terms when a timer is set that resumes a call, or ends it where calls may be late. -/
theorem setTimer (h : c.Minds terms calls) {t : Timer} (ht : t.due = .resume t.call ∨ terms.late ∧ t.due = .expire t.call) :
    (c.setTimer t).Minds terms calls := by
  refine ⟨⟨h.numbered.below, h.numbered.nodup⟩, h.within, h.expects, ?_, ?_, h.late⟩
  · intro f hf
    rcases h.woken f hf with hdue | ⟨u, hu, hcall⟩
    · exact Or.inl hdue
    · exact Or.inr ⟨u, mem_insertTimer.mpr (Or.inr hu), hcall⟩
  · intro u hu
    rcases mem_insertTimer.mp hu with rfl | hu
    · exact ht
    · exact h.timers u hu

/-- The tool of a call goes on. -/
theorem goOn (h : c.Minds terms calls) {f : Flight W} (hf : f ∈ c.flights) {rest : Activity W}
    (hrest : rest.Within terms f.call) :
    Minds terms calls { c with flights := c.flights.map fun g => if g.number = f.number then { g with rest } else g } := by
  have hnumbered := h.numbered.goOn f.number rest
  obtain ⟨before, after, hsplit, -, hmap⟩ := split_of_nodup (·.number) h.numbered.nodup hf
  have hflights : (c.flights.map fun g => if g.number = f.number then { g with rest } else g) =
      before ++ { f with rest } :: after := hmap fun g => { g with rest }
  have hmem {g : Flight W} (hg : g ∈ before ++ { f with rest } :: after) : g ∈ c.flights ∨ g = { f with rest } := by
    rw [hsplit]
    rcases List.mem_append.mp hg with hg | hg
    · exact Or.inl (List.mem_append_left _ hg)
    · rcases List.mem_cons.mp hg with rfl | hg
      · exact Or.inr rfl
      · exact Or.inl (List.mem_append_right _ (List.mem_cons_of_mem _ hg))
  obtain ⟨coming, hcalls, hcoming⟩ := h.expects
  rw [hflights] at hnumbered ⊢
  refine ⟨hnumbered, ?_, ⟨coming, ?_, hcoming⟩, ?_, h.timers, h.late⟩
  · intro g hg
    rcases hmem hg with hg | rfl
    · exact h.within g hg
    · exact hrest
  · rw [← hcalls, hsplit, List.map_append, List.map_append, List.map_cons, List.map_cons]
  · intro g hg
    rcases hmem hg with hg | rfl
    · exact h.woken g hg
    · exact h.woken f hf

/-- A call that lands is no longer kept in mind. -/
theorem land (h : c.Minds terms calls) {f : Flight W} (hf : f ∈ c.flights) :
    ∃ others, calls = (f.ticket, f.call) ::ₘ others ∧ (c.land f.number).Minds terms others := by
  obtain ⟨before, after, hsplit, hfilter, -⟩ := split_of_nodup (·.number) h.numbered.nodup hf
  have hmem {g : Flight W} (hg : g ∈ (c.land f.number).flights) : g ∈ c.flights ∧ g.number ≠ f.number := by
    simpa using List.mem_filter.mp hg
  obtain ⟨coming, rfl, hcoming⟩ := h.expects
  refine ⟨_, ?_, h.numbered.land f.number, fun g hg => h.within g (hmem hg).1, ⟨coming, rfl, hcoming⟩, ?_,
    fun t ht => h.timers t (List.mem_of_mem_filter ht), h.late⟩
  · have hflights : (c.land f.number).flights = before ++ after := hfilter
    rw [hflights, hsplit, List.map_append, List.map_append, List.map_cons, ← Multiset.coe_add, ← Multiset.coe_add,
      ← Multiset.cons_coe, Multiset.add_cons, Multiset.cons_add]
  · intro g hg
    obtain ⟨hg, hne⟩ := hmem hg
    rcases h.woken g hg with hdue | ⟨t, ht, hcall⟩
    · exact Or.inl hdue
    · exact Or.inr ⟨t, List.mem_filter.mpr ⟨ht, by simpa [hcall] using hne⟩, hcall⟩

/-- A timer wakes the call that it was set for, and does nothing else. -/
theorem timer (h : c.Minds terms calls) {t : Timer} (ht : t ∈ c.timers) :
    t.due.core = t.due ∧ t.due.wakes? = some t.call ∧ (t.due.expires = true → terms.late) := by
  rcases h.timers t ht with hresume | ⟨hlate, hexpire⟩
  · rw [hresume]
    exact ⟨rfl, rfl, nofun⟩
  · rw [hexpire]
    exact ⟨rfl, rfl, fun _ => hlate⟩

/-- Timers that ring wake the calls that they were set for. -/
theorem ring (h : c.Minds terms calls) (t : Timer) : (c.ring t).Minds terms calls := by
  set ringing := c.timers.filter (·.time = t.time)
  have hqueue : (c.ring t).queue = ↑(ringing.map (·.due)) + c.queue := queue_ring (fun u hu => (h.timer hu).1) t
  have hringing : ∀ d ∈ (↑(ringing.map (·.due)) : Multiset Due), d.brings? = none ∧ (d.expires = true → terms.late) := by
    intro d hd
    obtain ⟨u, hu, rfl⟩ := List.mem_map.mp hd
    obtain ⟨-, hwakes, hlate⟩ := h.timer (List.mem_of_mem_filter hu)
    exact ⟨Due.brings?_of_wakes? hwakes, hlate⟩
  refine ⟨⟨h.numbered.below, h.numbered.nodup⟩, h.within, ?_, ?_, ?_, ?_⟩
  · obtain ⟨coming, hcalls, hcoming⟩ := h.expects
    have hnone : (↑(ringing.map (·.due)) : Multiset Due).filterMap Due.brings? = 0 := by
      rw [Multiset.filterMap_coe, List.filterMap_eq_nil_iff.mpr fun d hd => (hringing d hd).1]
      rfl
    refine ⟨coming, hcalls, ?_⟩
    rw [hqueue, Multiset.filterMap_add, hnone, zero_add]
    exact hcoming
  · intro f hf
    rw [hqueue, ring_eq]
    rcases h.woken f hf with ⟨d, hd, hwakes⟩ | ⟨u, hu, hcall⟩
    · exact Or.inl ⟨d, Multiset.mem_add.mpr (Or.inr hd), hwakes⟩
    · by_cases htime : u.time = t.time
      · have hdue : u.due ∈ ringing.map (·.due) := List.mem_map_of_mem (List.mem_filter.mpr ⟨hu, by simpa using htime⟩)
        exact Or.inl ⟨u.due, Multiset.mem_add.mpr (Or.inl hdue), hcall ▸ (h.timer hu).2.1⟩
      · exact Or.inr ⟨u, List.mem_filter.mpr ⟨hu, by simpa using htime⟩, hcall⟩
  · intro u hu
    rw [ring_eq] at hu
    exact h.timers u (List.mem_of_mem_filter hu)
  · intro d hd
    rw [hqueue] at hd
    rcases Multiset.mem_add.mp hd with hd | hd
    · exact (hringing d hd).2
    · exact h.late d hd

/-- Timers that ring wake no step. -/
theorem waking_ring (h : c.Minds terms calls) (t : Timer) : (c.ring t).waking = c.waking := by
  have hnone : ((c.timers.filter (·.time = t.time)).map (·.due)).filterMap Due.step? = [] := by
    rw [List.filterMap_eq_nil_iff]
    intro d hd
    obtain ⟨u, hu, rfl⟩ := List.mem_map.mp hd
    rcases h.timers u (List.mem_of_mem_filter hu) with hdue | ⟨-, hdue⟩ <;> rw [hdue] <;> rfl
  rw [ring_eq]
  simp only [waking, List.reverse_append, List.reverse_reverse, ← List.append_assoc, List.filterMap_append, hnone, List.append_nil]

/-- When nothing is due and no timer is set, nothing is expected of a clock: a call in flight would be woken. -/
theorem idle (h : c.Minds terms calls) (hdue : c.due = []) (hlater : c.later = []) (htimers : c.timers = []) :
    calls = 0 := by
  have hqueue : c.queue = 0 := by
    simp only [queue, hdue, hlater, Multiset.coe_nil, add_zero, Multiset.map_zero]
  have hflights : c.flights = [] := by
    refine List.eq_nil_iff_forall_not_mem.mpr ?_
    intro f hf
    rcases h.woken f hf with ⟨d, hd, -⟩ | ⟨t, ht, -⟩
    · rw [hqueue] at hd
      cases hd
    · rw [htimers] at ht
      cases ht
  obtain ⟨coming, hcalls, hcoming⟩ := h.expects
  rw [hqueue] at hcoming
  rw [← hcalls, hflights, Multiset.rel_zero_left.mp hcoming]
  rfl

/-- A call that flies is kept in mind. -/
theorem launch {box : Toolbox W} (h : c.Minds terms calls) {call : Call} (hwithin : (box.activity call).Within terms call)
    (t : Ticket) : (c.launch box t call).Minds terms ((t, call) ::ₘ calls) := by
  have hcore : (handed t (.invoke c.calls)).core = .invoke c.calls := core_handed t _
  have hnone : Multiset.Rel terms.Fits ↑(handed t (.invoke c.calls)).core.brings?.toList 0 := by
    rw [hcore]
    exact .zero
  have hdue := h.enqueue hnone (by rw [hcore]; nofun)
  rw [zero_add] at hdue
  refine hdue.fly (f := ⟨c.calls, t, call, box.activity call⟩) rfl hwithin ⟨.invoke c.calls, ?_, rfl⟩
  rw [queue_enqueue, hcore]
  exact Multiset.mem_cons_self _ _

/-- A call that is taken up is kept in mind. -/
theorem takeUp {box : Toolbox W} (h : c.Minds terms calls) {call : Call} (hserves : box.Serves terms call) (t : Ticket) :
    (c.takeUp box t call).Minds terms ((t, call) ::ₘ calls) := by
  rcases takeUp_cases box t call c with ⟨-, heq⟩ | ⟨ms, htimeout, heq⟩
  · rw [heq]
    exact h.launch hserves.within t
  · have hlate : terms.late := hserves.punctual.resolve_left (by simp [htimeout])
    rcases heq with heq | heq
    · have hfits : Multiset.Rel terms.Fits ↑(Due.deliver t .timedOut).brings?.toList {(t, call)} := .cons ⟨rfl, hlate⟩ .zero
      rw [heq]
      exact h.more hfits nofun (queue_push _ c) rfl rfl rfl
    · rw [heq]
      exact (h.setTimer (t := ⟨c.now + ms, c.calls, .expire c.calls⟩) (Or.inr ⟨hlate, rfl⟩)).launch hserves.within t

/-- A clock keeps in mind the calls that it is asked for. -/
theorem obey {box : Toolbox W} {signals : List Signal} (h : c.Minds terms calls)
    (hserves : ∀ t call, Signal.called t call ∈ signals → box.Serves terms call) :
    (c.obey box signals).Minds terms (↑(signals.filterMap Signal.call?) + calls) := by
  induction signals generalizing c calls with
  | nil => simpa [Clock.obey] using h
  | cons s signals ih =>
    have hrest : ∀ t call, Signal.called t call ∈ signals → box.Serves terms call := fun t call hmem =>
      hserves t call (List.mem_cons_of_mem _ hmem)
    cases s with
    | called t call =>
      have hgoes := ih (h.takeUp (hserves t call (List.mem_cons_self ..)) t) hrest
      have hcalls : (Signal.called t call :: signals).filterMap Signal.call? = (t, call) :: signals.filterMap Signal.call? := rfl
      rw [hcalls, ← Multiset.cons_coe, Multiset.cons_add, ← Multiset.add_cons]
      exact hgoes
    | wake id =>
      have hnone : Multiset.Rel terms.Fits ↑(Due.wake id).core.brings?.toList 0 := .zero
      have hgoes := ih (h.enqueue hnone nofun) hrest
      rwa [zero_add] at hgoes

end Minds

end Clock

end Runbook
