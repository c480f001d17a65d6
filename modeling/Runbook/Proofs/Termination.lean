import Mathlib.Logic.Hydra
import Mathlib.Order.RelClasses
import Mathlib.Tactic.Abel
import Runbook.Proofs.Runs

/-!
# Runs come to an end

No run goes on for ever. Every move that changes anything cancels the run, or gives a step its turn, or books an end, or lets a running
step go on towards its end, or lets the runner dispatch a step or find out what it did not know, or lets a step ask for a place; and as
long as anything is left to be done, there is such a move. So whatever a driver does, in the end nothing is left to be done.
-/

namespace Runbook

open Relation (CutExpand)

/-- To put smaller ones in the place of one among many. -/
theorem cutExpand_append {α : Type} {r : α → α → Prop} {a : α} (more : List α) (h : ∀ b ∈ more, r b a) (before after : List α) :
    CutExpand r (↑(before ++ (more ++ after)) : Multiset α) ↑(before ++ a :: after) := by
  refine ⟨↑more, a, by simpa using h, ?_⟩
  simp only [← Multiset.coe_add, ← Multiset.cons_coe, ← Multiset.singleton_add]
  abel

/-- The procedure of a step that runs. -/
def Phase.proc? : Phase → Option (Proc (Outcome StepError))
  | active p => some p
  | queued => none

namespace Machine

/-- What a driver cannot help: it is so now, or the driver can go on, and however it does, it is inevitable then. -/
inductive Inevitable (w : Workflow) (e : Engine) (may : Policy) (Q : Machine → Prop) : Machine → Prop
  | now {m : Machine} (h : Q m) : Inevitable w e may Q m
  | next {m : Machine} (can : ∃ now mv, may m mv ∧ (m.move w e now mv).1 ≠ m)
      (all : ∀ now mv, may m mv → (m.move w e now mv).1 ≠ m → Inevitable w e may Q (m.move w e now mv).1) :
      Inevitable w e may Q m

/-- What is inevitable makes all inevitable that it implies. -/
theorem Inevitable.mono {w : Workflow} {e : Engine} {may : Policy} {P Q : Machine → Prop} {m : Machine}
    (h : Inevitable w e may P m) (hQ : ∀ m, P m → Q m) : Inevitable w e may Q m := by
  induction h with
  | now h => exact .now (hQ _ h)
  | next can _ ih => exact .next can ih

/-! ## What is left to be done -/

/-- The number of steps that have had their turn, and of ends that are booked. -/
def reached (m : Machine) : Nat := m.running + (m.ended.length + m.died.length) + m.booked.length

/-- The procedures of the steps that run. -/
def active (m : Machine) : Multiset (Proc (Outcome StepError)) := m.tasks.filterMap (·.phase.proc?)

/-- The number of things that the runner has to see to, and of steps that have to ask for a place. -/
def unheard (m : Machine) : Nat :=
  2 * (m.starts.length + m.ready.length) + (m.dispatched.length - m.asked.length) + if m.listened then 0 else 1

/-- What is left to be done: to cancel, to give steps their turns and to book their ends, to let them go on, to see to the rest. -/
def left (w : Workflow) (m : Machine) : Nat × Nat × Multiset (Proc (Outcome StepError)) × Nat :=
  (if m.cancelled then 0 else 1, 2 * w.graph.steps.length - m.reached, m.active, m.unheard)

/-- Less is left to be done. -/
def Nearer (w : Workflow) (m' m : Machine) : Prop :=
  Prod.Lex (· < ·) (Prod.Lex (· < ·) (Prod.Lex (CutExpand Proc.Goes) (· < ·))) (m'.left w) (m.left w)

/-- A run comes nearer to its end finitely often only. -/
theorem nearer_wellFounded (w : Workflow) : WellFounded (Nearer w) :=
  InvImage.wf (left w) (wellFounded_lt.prod_lex (wellFounded_lt.prod_lex (Proc.goes_wellFounded.cutExpand.prod_lex wellFounded_lt)))

section Nearer

variable {w : Workflow} {e : Engine} {inputs : Fields} {m m' : Machine}

/-- A run that is cancelled on the way is nearer to its end; one that is not is so if less is left otherwise. -/
theorem nearer_of_cancelled (hc : m.cancelled = true → m'.cancelled = true)
    (h : m'.cancelled = m.cancelled → Nearer w m' m) : Nearer w m' m := by
  by_cases hsame : m'.cancelled = m.cancelled
  · exact h hsame
  · have hbefore : m.cancelled = false := by
      by_contra hcancelled
      have hcancelled : m.cancelled = true := by simpa using hcancelled
      exact hsame ((hc hcancelled).trans hcancelled.symm)
    have hafter : m'.cancelled = true := by simpa [hbefore] using hsame
    unfold Nearer left
    rw [hbefore, hafter]
    exact .left _ _ Nat.zero_lt_one

/-- A run comes nearer to its end when its steps reach more. -/
theorem nearer_of_reached (hc : m.cancelled = true → m'.cancelled = true) (hlt : m.reached < m'.reached)
    (hle : m'.reached ≤ 2 * w.graph.steps.length) : Nearer w m' m := by
  refine nearer_of_cancelled hc fun hsame => ?_
  unfold Nearer left
  rw [hsame]
  exact .right _ (.left _ _ (by omega))

/-- A run comes nearer to its end when a procedure goes on and no step falls back. -/
theorem nearer_of_active (hc : m.cancelled = true → m'.cancelled = true) (hreached : m'.reached = m.reached)
    (hactive : CutExpand Proc.Goes m'.active m.active) : Nearer w m' m := by
  refine nearer_of_cancelled hc fun hsame => ?_
  unfold Nearer left
  rw [hsame, hreached]
  exact .right _ (.right _ (.left _ _ hactive))

/-- A run comes nearer to its end when less is to be seen to and all else stays. -/
theorem nearer_of_unheard (hc : m'.cancelled = m.cancelled) (hreached : m'.reached = m.reached)
    (hactive : m'.active = m.active) (hlt : m'.unheard < m.unheard) : Nearer w m' m := by
  unfold Nearer left
  rw [hc, hreached, hactive]
  exact .right _ (.right _ (.right _ hlt))

/-- No more steps have had their turn than there are, and no more ends are booked. -/
theorem Scheduled.reached_le (h : m.Scheduled w) : m.reached ≤ 2 * w.graph.steps.length := by
  have hrunning : m.running ≤ m.tasks.length := List.countP_le_length
  have hplaced := h.placed.length_eq
  have haccounts := h.accounts.length_eq
  have hsteps : m.dispatched.length ≤ w.graph.steps.length :=
    (h.nodup_dispatched.subperm fun id hid => h.step_of_dispatched hid).length_le
  simp only [List.length_append, List.length_map, endedIds] at hplaced haccounts
  unfold reached
  omega

/-- What is reached, but for the running steps. -/
theorem reached_of_eq (hrunning : m'.running = m.running) (hended : m'.ended = m.ended) (hdied : m'.died = m.died)
    (hbooked : m'.booked = m.booked) : m'.reached = m.reached := by
  rw [reached, hrunning, hended, hdied, hbooked, reached]

/-! ### The runner and those who ask for a place -/

/-- To dispatch a step brings the run nearer to its end. -/
theorem dispatching_nearer (h : m.Seated e) {id : String} {ready : List String} (hready : m.ready = id :: ready)
    (plan : Plan) : Nearer w (m.dispatching id plan ready) m := by
  have hasked : m.asked.length ≤ m.dispatched.length := (h.once.subperm fun id hid => h.dispatched id hid).length_le
  have hrunning : (m.dispatching id plan ready).running = m.running := by
    show (m.tasks ++ [(⟨id, plan, .queued⟩ : Task)]).countP (·.phase.isActive) = _
    rw [List.countP_append, List.countP_singleton]
    rfl
  refine nearer_of_unheard rfl (reached_of_eq hrunning ended_dispatching died_dispatching rfl) ?_ ?_
  · have hqueued : (m.dispatching id plan ready).tasks.filterMap (·.phase.proc?) = m.tasks.filterMap (·.phase.proc?) := by
      simp [dispatching, Phase.proc?]
    rw [active, hqueued, active]
  · rw [unheard, unheard, dispatched_dispatching, asked_dispatching, hready, List.length_append, List.length_singleton, List.length_cons]
    show 2 * (m.starts.length + ready.length) + (m.dispatched.length + 1 - m.asked.length) + (if m.listened then 0 else 1) < _
    omega

/-- To be done with some of what is released is to be nearer to the end. -/
theorem nearer_of_ready (hcancelled : m'.cancelled = m.cancelled) (htasks : m'.tasks = m.tasks) (htrace : m'.trace = m.trace)
    (hbooked : m'.booked = m.booked) (hstarts : m'.starts = m.starts) (hlistened : m'.listened = m.listened)
    (hready : m'.ready.length < m.ready.length) : Nearer w m' m := by
  refine nearer_of_unheard hcancelled
    (reached_of_eq (by rw [running, htasks, running]) (by rw [ended, htrace, ended]) (by rw [died, htrace, died]) hbooked)
    (by rw [active, htasks, active]) ?_
  rw [unheard, unheard, hstarts, hlistened, dispatched, asked, htrace, ← dispatched, ← asked]
  omega

/-- To find no start to hear of brings the run nearer to its end. -/
theorem listened_nearer (h : m.listened = false) : Nearer w { m with listened := true } m := by
  refine nearer_of_unheard rfl rfl rfl ?_
  show 2 * (m.starts.length + m.ready.length) + (m.dispatched.length - m.asked.length) + 0 < _
  rw [unheard, h]
  simp

/-- To hear of a start brings the run nearer to its end. -/
theorem hear_nearer {id : String} {starts : List String} (hstarts : m.starts = id :: starts) (now : Nat) :
    Nearer w (m.hear w now) m := by
  obtain ⟨-, htasks, htrace, hcancelled, hready, -, -, -, hstarts'⟩ := hear_untouched w now m
  refine nearer_of_unheard hcancelled
    (reached_of_eq (by rw [running, htasks, running]) (by rw [ended, htrace, ended]) (by rw [died, htrace, died]) (booked_hear w now m))
    (by rw [active, htasks, active]) ?_
  have hle : (if (m.hear w now).listened then 0 else 1) ≤ 1 := by split <;> simp
  rw [unheard, unheard, hstarts', hready, dispatched, asked, htrace, ← dispatched, ← asked, hstarts, List.tail_cons, List.length_cons]
  omega

/-- To join an end brings the run nearer to its end. -/
theorem join_nearer (hw : w.Valid) (hs : m.Scheduled w) {index : Nat} {id : String} {outcome : Outcome StepError}
    (hends : m.ends[index]? = some (id, outcome)) (now : Nat) : Nearer w (m.join w now index) m := by
  obtain ⟨-, htasks, htrace, hcancelled, -⟩ := join_untouched w now index m
  have hrunning : (m.join w now index).running = m.running := by rw [running, htasks, running]
  have hended : (m.join w now index).ended = m.ended := by rw [ended, htrace, ended]
  have hdied : (m.join w now index).died = m.died := by rw [died, htrace, died]
  refine nearer_of_reached (fun hc => hcancelled.trans hc) ?_ (join_scheduled hw hs hends now).reached_le
  rw [reached, reached, booked_join hw hs hends now, hrunning, hended, hdied, List.length_append, List.length_singleton]
  exact Nat.lt_succ_self _

/-- To ask for a place brings the run nearer to its end. -/
theorem asking_nearer (h : m.Seated e) (hs : m.Scheduled w) {t : Task} (ht : t ∈ m.tasks) (hqueued : t.phase = .queued)
    (hnew : m.places.knows t.id = false) : Nearer w (m.asking e t.id) m := by
  have hseated := h.asking hs ht hqueued hnew
  have hasked : (m.asking e t.id).asked.length ≤ (m.asking e t.id).dispatched.length :=
    (hseated.once.subperm fun id hid => hseated.dispatched id hid).length_le
  rw [asked_asking, dispatched_asking, List.length_append, List.length_singleton] at hasked
  refine nearer_of_unheard rfl (reached_of_eq rfl (ended_asking ..) (died_asking ..) rfl) rfl ?_
  rw [unheard, unheard, asked_asking, dispatched_asking, List.length_append, List.length_singleton]
  show 2 * (m.starts.length + m.ready.length) + (m.dispatched.length - (m.asked.length + 1)) + (if m.listened then 0 else 1) < _
  omega

/-! ### Steps -/

/-- What remains of the tasks when one of them advances. -/
theorem advance_tasks (hnd : (m.tasks.map (·.id)).Nodup) {t : Task} (ht : t ∈ m.tasks) (token : CancelToken)
    (p : Proc (Outcome StepError)) : ∃ before after, m.tasks = before ++ t :: after ∧
      (((m.advance token t.id p).1.tasks = before ++ after ∧
          (m.advance token t.id p).1.ended.length + (m.advance token t.id p).1.died.length = m.ended.length + m.died.length + 1) ∨
        ((m.advance token t.id p).1.tasks = before ++ { t with phase := .active (p.settle m.context.scope token).proc } :: after ∧
          (m.advance token t.id p).1.ended.length + (m.advance token t.id p).1.died.length = m.ended.length + m.died.length)) := by
  obtain ⟨before, after, hsplit, hfilter, hmap⟩ := tasks_split hnd ht
  refine ⟨before, after, hsplit, ?_⟩
  rcases advance_cases token t.id p m with ⟨o, -, heq⟩ | ⟨-, heq⟩ | ⟨-, -, heq⟩ <;> rw [heq]
  · refine .inl ⟨hfilter, ?_⟩
    rw [ended_finish, died_finish, ended_log, died_log, List.length_append, List.length_singleton]
    omega
  · refine .inl ⟨hfilter, ?_⟩
    rw [ended_die, died_die, ended_log, died_log, List.length_append, List.length_singleton]
    omega
  · refine .inr ⟨hmap _, ?_⟩
    show (m.log token _).ended.length + (m.log token _).died.length = _
    rw [ended_log, died_log]

/-- A task that advances books nothing. -/
theorem booked_advance (token : CancelToken) (id : String) (p : Proc (Outcome StepError)) (m : Machine) :
    (m.advance token id p).1.booked = m.booked := by
  rw [booked, (advance_untouched token id p m).2.1, booked]

/-- A step that begins has had its turn, whether it ends at once or not. -/
theorem reached_advance_queued (hnd : (m.tasks.map (·.id)).Nodup) {t : Task} (ht : t ∈ m.tasks) (hq : t.phase = .queued)
    (token : CancelToken) (p : Proc (Outcome StepError)) : (m.advance token t.id p).1.reached = m.reached + 1 := by
  have hbooked := booked_advance token t.id p m
  obtain ⟨before, after, hsplit, ⟨htasks, hover⟩ | ⟨htasks, hover⟩⟩ := advance_tasks hnd ht token p
  · simp only [reached, running, htasks, hover, hbooked, hsplit, List.countP_append, List.countP_cons, hq, Phase.isActive,
      Bool.false_eq_true, if_false]
    omega
  · simp only [reached, running, htasks, hover, hbooked, hsplit, List.countP_append, List.countP_cons, hq, Phase.isActive,
      Bool.false_eq_true, if_false, if_true]
    omega

/-- A task that goes on has reached as much as before. -/
theorem reached_advance_active (hnd : (m.tasks.map (·.id)).Nodup) {t : Task} (ht : t ∈ m.tasks) {q : Proc (Outcome StepError)}
    (hq : t.phase = .active q) (token : CancelToken) (p : Proc (Outcome StepError)) :
    (m.advance token t.id p).1.reached = m.reached := by
  have hbooked := booked_advance token t.id p m
  obtain ⟨before, after, hsplit, ⟨htasks, hover⟩ | ⟨htasks, hover⟩⟩ := advance_tasks hnd ht token p
  · simp only [reached, running, htasks, hover, hbooked, hsplit, List.countP_append, List.countP_cons, hq, Phase.isActive, if_true]
    omega
  · simp only [reached, running, htasks, hover, hbooked, hsplit, List.countP_append, List.countP_cons, hq, Phase.isActive, if_true]

/-- A step that is replied goes on towards its end. -/
theorem active_reply (hnd : (m.tasks.map (·.id)).Nodup) {t : Task} (ht : t ∈ m.tasks) {p : Proc (Outcome StepError)}
    (hp : t.phase = .active p) {index : CallIndex} {c : Call} (hc : (index, c) ∈ p.waitingFor) (r : Reply) (token : CancelToken) :
    CutExpand Proc.Goes (m.advance token t.id (p.reply index r)).1.active m.active := by
  have hgoes : Proc.Goes ((p.reply index r).settle m.context.scope token).proc p := ⟨index, c, r, _, _, hc, rfl⟩
  have hactive {u : Task} {q : Proc (Outcome StepError)} (hq : u.phase = .active q) (before after : List Task) :
      (before ++ u :: after).filterMap (·.phase.proc?) =
        before.filterMap (·.phase.proc?) ++ q :: after.filterMap (·.phase.proc?) := by
    rw [List.filterMap_append, List.filterMap_cons_some (by rw [hq]; rfl)]
  obtain ⟨before, after, hsplit, ⟨htasks, -⟩ | ⟨htasks, -⟩⟩ := advance_tasks hnd ht token (p.reply index r)
  · rw [active, active, htasks, hsplit, hactive hp, List.filterMap_append]
    exact cutExpand_append [] nofun _ _
  · rw [active, active, htasks, hsplit, hactive hp, hactive rfl]
    exact cutExpand_append [_] (by simpa using hgoes) _ _

/-- What is cancelled before a step advances is cancelled after that. -/
theorem cancelled_of_advance {token : CancelToken} {id : String} {p : Proc (Outcome StepError)} (hc : m.cancelled = true) :
    (m.advance token id p).1.cancelled = true := by
  rw [cancelled_advance, hc, Bool.true_or]

/-- To take a place brings the run nearer to its end. -/
theorem taking_nearer (hs : m.Scheduled w) {t : Task} (ht : t ∈ m.tasks) (hq : t.phase = .queued) (token : CancelToken)
    (p : Proc (Outcome StepError)) : Nearer w ((m.taking t.id).advance token t.id p).1 m := by
  have htaking := taking_scheduled hs t.id
  refine nearer_of_reached (fun hc => cancelled_of_advance hc) ?_ (advance_scheduled htaking ht token p).reached_le
  rw [reached_advance_queued htaking.nodup_tasks ht hq]
  exact Nat.lt_succ_self _

/-- To decide on a step brings the run nearer to its end. -/
theorem decided_nearer (hs : m.Scheduled w) {t : Task} (ht : t ∈ m.tasks) (hq : t.phase = .queued) (decision : Except StepError Bool)
    (token : CancelToken) (p : Proc (Outcome StepError)) : Nearer w ((m.decided t decision).advance token t.id p).1 m := by
  have hdecided := decided_scheduled hs ht decision
  have hreached : (m.decided t decision).reached = m.reached := reached_of_eq rfl (ended_decided ..) (died_decided ..) rfl
  refine nearer_of_reached (fun hc => cancelled_of_advance hc) ?_ (advance_scheduled hdecided ht token p).reached_le
  rw [reached_advance_queued hdecided.nodup_tasks ht hq, hreached]
  exact Nat.lt_succ_self _

/-- A reply leaves less to be done. -/
theorem reply_nearer (h : m.Scheduled w) {t : Task} (ht : t ∈ m.tasks) {p : Proc (Outcome StepError)} (hp : t.phase = .active p)
    {index : CallIndex} {c : Call} (hc : (index, c) ∈ p.waitingFor) (r : Reply) (token : CancelToken) :
    Nearer w (m.advance token t.id (p.reply index r)).1 m :=
  nearer_of_active (fun hc => cancelled_of_advance hc) (reached_advance_active h.nodup_tasks ht hp token _)
    (active_reply h.nodup_tasks ht hp hc r token)

/-- Every move that changes anything leaves less to be done. -/
theorem move_nearer (hw : w.Valid) (h : m.Sound w e inputs) (now : Nat) (mv : Move) :
    m.move w e now mv = (m, []) ∨ Nearer w (m.move w e now mv).1 m := by
  have hs := h.scheduled
  have heffect := move_effect w e now mv m
  generalize m.move w e now mv = r at heffect
  cases heffect with
  | idle => exact .inl rfl
  | dispatched first => exact .inr (dispatching_nearer h.seated first _)
  | passed first => exact .inr (nearer_of_ready rfl rfl rfl rfl rfl rfl (by simp [first]))
  | dropped some => exact .inr (nearer_of_ready rfl rfl rfl rfl rfl rfl (List.length_pos_iff.mpr some))
  | listened =>
    cases hlistened : m.listened with
    | true =>
      left
      rw [← hlistened]
    | false => exact .inr (listened_nearer hlistened)
  | heard _ first => exact .inr (hear_nearer first now)
  | joined _ _ found => exact .inr (join_nearer hw hs found now)
  | asked mem queued new => exact .inr (asking_nearer h.seated hs mem queued new)
  | cancelled =>
    cases hc : m.cancelled with
    | true =>
      left
      rw [← hc]
    | false =>
      right
      unfold Nearer left
      rw [hc]
      exact .left _ _ (by simp)
  | refused mem queued => exact .inr (taking_nearer hs mem queued _ _)
  | began mem queued => exact .inr (decided_nearer hs mem queued _ _ _)
  | replied r mem active waits => exact .inr (reply_nearer hs mem active waits r _)

/-- What the runner does next: it dispatches a step, hears of a start, finds that there is none, or joins an end. -/
theorem next_cases {mv : Move} (h : m.next = some mv) : (mv = .dispatch ∧ ∃ id ready, m.ready = id :: ready) ∨
    (mv = .hear ∧ m.ready = [] ∧ ∃ id starts, m.starts = id :: starts) ∨
    (mv = .hear ∧ m.ready = [] ∧ m.starts = [] ∧ m.listened = false) ∨
    (mv = .join 0 ∧ m.ready = [] ∧ m.starts = [] ∧ m.listened = true ∧ ∃ last ends, m.ends = last :: ends) := by
  unfold next at h
  cases hready : m.ready with
  | cons id ready => exact .inl ⟨by simpa [hready, eq_comm] using h, id, ready, rfl⟩
  | nil =>
    cases hstarts : m.starts with
    | cons id starts => exact .inr (.inl ⟨by simpa [hready, hstarts, eq_comm] using h, rfl, id, starts, rfl⟩)
    | nil =>
      cases hends : m.ends with
      | nil => simp [hready, hstarts, hends] at h
      | cons last ends =>
        cases hlistened : m.listened with
        | false => exact .inr (.inr (.inl ⟨by simpa [hready, hstarts, hends, hlistened, eq_comm] using h, rfl, rfl, rfl⟩))
        | true => exact .inr (.inr (.inr ⟨by simpa [hready, hstarts, hends, hlistened, eq_comm] using h, rfl, rfl, rfl, last, ends, rfl⟩))

/-- The runner has nothing to do when nothing is released, to be heard or to be joined. -/
theorem next_eq_none : m.next = none ↔ m.ready = [] ∧ m.starts = [] ∧ m.ends = [] := by
  unfold next
  cases m.ready <;> cases m.starts <;> cases m.ends <;> cases m.listened <;> simp

/-- What the runner does next leaves less to be done. -/
theorem next_nearer (hw : w.Valid) (h : m.Sound w e inputs) (now : Nat) {mv : Move} (hnext : m.next = some mv) :
    Nearer w (m.move w e now mv).1 m := by
  rcases next_cases hnext with ⟨rfl, id, ready, hready⟩ | ⟨rfl, hready, id, starts, hstarts⟩ | ⟨rfl, hready, hstarts, hlistened⟩ |
    ⟨rfl, hready, -, hlistened, last, ends, hends⟩
  · have hid : id ∈ m.ready := by simp [hready]
    obtain ⟨p, hp⟩ := h.scheduled.plan_of_ready hw hid
    show Nearer w (m.dispatch w).1 m
    simp only [dispatch, hready, hp]
    split
    · exact nearer_of_ready rfl rfl rfl rfl rfl rfl (by simp [hready])
    · exact dispatching_nearer h.seated hready p
  · have hhear : (m.move w e now .hear).1 = m.hear w now := by simp [Machine.move, hready]
    exact hhear ▸ hear_nearer hstarts now
  · have hhear : (m.move w e now .hear).1 = { m with listened := true } := by simp [Machine.move, hear, hready, hstarts]
    exact hhear ▸ listened_nearer hlistened
  · have hjoin : (m.move w e now (.join 0)).1 = m.join w now 0 := by simp [Machine.move, hready, hlistened]
    have hlast : m.ends[0]? = some (last.1, last.2) := by simp [hends]
    exact hjoin ▸ join_nearer hw h.scheduled hlast now

/-- A run that has come nearer to its end has changed. -/
theorem ne_of_nearer (h : Nearer w m' m) : m' ≠ m := by
  rintro rfl
  exact (nearer_wellFounded w).irrefl.irrefl _ h

end Nearer

/-! ## The end -/

/-- A driver that does not get stuck: it lets the runner and the steps go on, and gives every call a reply. -/
structure Policy.Live (may : Policy) : Prop where
  dispatch : ∀ m, may m .dispatch
  hear : ∀ m, may m .hear
  join : ∀ m : Machine, m.starts = [] → may m (.join 0)
  ask : ∀ m id, may m (.ask id)
  begin : ∀ m id, may m (.begin id none)
  reply : ∀ (m : Machine) (t : Task) (p : Proc (Outcome StepError)) (index : CallIndex) (c : Call), t ∈ m.tasks →
    t.phase = .active p → (index, c) ∈ p.waitingFor → ∃ r, may m (.reply ⟨t.id, index⟩ r none)

/-- A driver that does not get stuck may do what the runner does next. -/
theorem Policy.Live.next {may : Policy} (live : may.Live) {m : Machine} {mv : Move} (hnext : m.next = some mv) : may m mv := by
  rcases next_cases hnext with ⟨rfl, -⟩ | ⟨rfl, -⟩ | ⟨rfl, -⟩ | ⟨rfl, -, hstarts, -⟩
  · exact live.dispatch m
  · exact live.hear m
  · exact live.hear m
  · exact live.join m hstarts

section Progress

variable {w : Workflow} {e : Engine} {inputs : Fields} {m : Machine} {t : Task}

/-- A call that a step waits for may come back. -/
theorem reply_eq (h : m.Scheduled w) (ht : t ∈ m.tasks) {p : Proc (Outcome StepError)} (hp : t.phase = .active p)
    {index : CallIndex} {c : Call} (hc : (index, c) ∈ p.waitingFor) (r : Reply) (cut : Option Nat) :
    m.reply ⟨t.id, index⟩ r cut = m.advance (m.token cut) t.id (p.reply index r) := by
  have hfind : m.tasks.find? (·.id == t.id) = some ⟨t.id, t.plan, .active p⟩ := by
    rw [find?_of_nodup (fun t : Task => t.id) h.nodup_tasks ht, ← hp]
  have hany : p.waitingFor.any (·.1 = index) = true := List.any_eq_true.mpr ⟨_, hc, by simp⟩
  simp only [reply, hfind, hany, if_true]

/-- A step that has been handed a place may begin. -/
theorem begin_nearer (h : m.Scheduled w) (e : Engine) (ht : t ∈ m.tasks) (hq : t.phase = .queued) (hhanded : t.id ∈ m.places.handed) :
    Nearer w (m.begin e t.id none).1 m := by
  cases hfind : m.tasks.find? fun u => u.id == t.id && u.phase.isQueued && m.places.handed.contains t.id with
  | none =>
    have hnone := List.find?_eq_none.mp hfind t ht
    simp [hq, Phase.isQueued_iff, hhanded] at hnone
  | some u =>
    obtain ⟨hu, hid, huq, -, heq⟩ := begin_of_find? e none hfind
    rw [heq, ← hid]
    split
    · exact taking_nearer h hu huq _ _
    · exact decided_nearer h hu huq _ _ _

/-- A step that is dispatched and has not asked for a place may ask. -/
theorem ask_nearer (h : m.Seated e) (hs : m.Scheduled w) (ht : t ∈ m.tasks) (hq : t.phase = .queued)
    (hnew : m.places.knows t.id = false) : Nearer w (m.ask e t.id) m := by
  rw [ask_eq_asking e ht hq hnew]
  exact asking_nearer h hs ht hq hnew

/-- As long as there is a task and none runs, one of them may ask for a place, or go on with the one that it has been handed. -/
theorem exists_ask_or_begin (h : m.Seated e) (hs : m.Scheduled w) (htasks : m.tasks ≠ []) (hqueued : ∀ t ∈ m.tasks, t.phase = .queued) :
    ∃ t ∈ m.tasks, Nearer w (m.ask e t.id) m ∨ Nearer w (m.begin e t.id none).1 m := by
  obtain ⟨t, rest, hcons⟩ := List.exists_cons_of_ne_nil htasks
  have ht : t ∈ m.tasks := hcons ▸ List.mem_cons_self
  cases hknows : m.places.knows t.id with
  | false => exact ⟨t, ht, .inl (ask_nearer h hs ht (hqueued t ht) hknows)⟩
  | true =>
    have hhanded : m.places.handed ≠ [] := by
      intro hnil
      have hnone : m.running = 0 := List.countP_eq_zero.mpr fun u hu => by simp [hqueued u hu, Phase.isActive]
      have hslots : 1 ≤ e.settings.stepSlots := Nat.le_max_left ..
      have htaken := h.keeps.taken
      have hwaits := Semaphore.knows_iff.mp hknows
      rw [hnil, List.nil_append] at hwaits
      have hfull := h.keeps.full (List.ne_nil_of_mem hwaits)
      rw [hnil, hnone, hfull, List.length_nil] at htaken
      omega
    obtain ⟨id, hid⟩ := List.exists_mem_of_ne_nil _ hhanded
    obtain ⟨u, hu, rfl, huq⟩ := h.queued id (List.mem_append_left _ hid)
    exact ⟨u, hu, .inr (begin_nearer hs e hu huq hid)⟩

/-- As long as anything is left to be done, there is a move that changes something. -/
theorem exists_move (hw : w.Valid) {may : Policy} (live : may.Live) (h : m.Sound w e inputs) (hf : m.finished = false) :
    ∃ now mv, may m mv ∧ (m.move w e now mv).1 ≠ m := by
  have hs := h.scheduled
  have hmoved {mv : Move} (hmay : may m mv) (hnearer : Nearer w (m.move w e 0 mv).1 m) : ∃ now mv, may m mv ∧ (m.move w e now mv).1 ≠ m :=
    ⟨0, mv, hmay, ne_of_nearer hnearer⟩
  cases hnext : m.next with
  | some mv => exact hmoved (live.next hnext) (next_nearer hw h 0 hnext)
  | none =>
    obtain ⟨hready, hstarts, hends⟩ := next_eq_none.mp hnext
    have htasks : m.tasks ≠ [] := fun hnil => by simp [finished, hready, hstarts, hends, hnil] at hf
    by_cases hactive : ∃ t ∈ m.tasks, ∃ p, t.phase = .active p
    · obtain ⟨t, ht, p, hp⟩ := hactive
      obtain ⟨⟨index, c⟩, hwaits⟩ := List.exists_mem_of_ne_nil _ (h.conforms.procs t ht p hp).2
      obtain ⟨r, hr⟩ := live.reply m t p index c ht hp hwaits
      refine hmoved hr ?_
      show Nearer w (m.reply ⟨t.id, index⟩ r none).1 m
      rw [reply_eq hs ht hp hwaits]
      exact reply_nearer hs ht hp hwaits r _
    · have hqueued : ∀ t ∈ m.tasks, t.phase = .queued := by
        intro t ht
        cases hp : t.phase with
        | queued => rfl
        | active p => exact absurd ⟨t, ht, p, hp⟩ hactive
      obtain ⟨t, -, hask | hbegin⟩ := exists_ask_or_begin h.seated hs htasks hqueued
      · exact hmoved (live.ask m t.id) hask
      · exact hmoved (live.begin m t.id) hbegin

/-- Whatever a driver does that does not get stuck, in the end nothing is left to be done, and what every move keeps is kept. -/
theorem finished_inevitable (hw : w.Valid) {may : Policy} (live : may.Live) {I : Machine → Prop}
    (hsound : ∀ m, I m → m.Sound w e inputs) (hmove : ∀ m now mv, I m → may m mv → I (m.move w e now mv).1)
    (h : I m) : Inevitable w e may (fun m => m.finished = true ∧ I m) m := by
  induction m using (nearer_wellFounded w).induction with
  | _ m ih =>
    have hs := hsound m h
    cases hf : m.finished with
    | true => exact .now ⟨hf, h⟩
    | false =>
      refine .next (exists_move hw live hs hf) ?_
      intro now mv hmay hne
      exact ih _ ((move_nearer hw hs now mv).resolve_left fun heq => hne (congrArg Prod.fst heq)) (hmove m now mv h hmay)

end Progress

end Machine

end Runbook
