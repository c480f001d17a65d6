import Runbook.Proofs.Books
import Runbook.Proofs.Permits

/-!
# Runs

A run is what a driver makes of a machine, move by move, as its policy allows. Whatever it does, the machine stays sound: the runner
keeps its order, the context its records, the steps their plans, the books what is booked, and the places those who have asked for them.
-/

namespace Runbook

namespace Machine

/-- What a driver may do. -/
abbrev Policy := Machine → Move → Prop

/-- A driver that may do anything. -/
def Policy.any : Policy := fun _ _ => True

/-- The machines that a driver comes to from one. -/
inductive Run (w : Workflow) (e : Engine) (may : Policy) (m : Machine) : Machine → Prop
  | refl : Run w e may m m
  | move {m' : Machine} (h : Run w e may m m') (now : Nat) (mv : Move) (allowed : may m' mv) :
      Run w e may m (m'.move w e now mv).1

/-- A driver may make the moves that are allowed. -/
theorem Run.foldl (w : Workflow) (e : Engine) (now : Nat) {may : Policy} {moves : List Move} (hmay : ∀ mv ∈ moves, ∀ m, may m mv)
    (m : Machine) : Run w e may m (moves.foldl (fun m mv => (m.move w e now mv).1) m) := by
  induction moves using List.reverseRecOn with
  | nil => exact .refl
  | append_singleton moves mv ih =>
    rw [List.foldl_append]
    exact (ih fun x hx => hmay x (List.mem_append_left _ hx)).move now mv (hmay mv (by simp) _)

/-- A driver that may do anything may make any moves. -/
theorem run_foldl (w : Workflow) (e : Engine) (now : Nat) (moves : List Move) (m : Machine) :
    Run w e .any m (moves.foldl (fun m mv => (m.move w e now mv).1) m) := .foldl w e now (fun _ _ _ => trivial) m

/-- A machine in which everything is in order. -/
structure Sound (w : Workflow) (e : Engine) (inputs : Fields) (m : Machine) : Prop where
  scheduled : m.Scheduled w
  recorded : m.Recorded w inputs
  conforms : m.Conforms w e
  booked : m.Booked w
  seated : m.Seated e

variable {w : Workflow} {e : Engine} {may : Policy} {inputs : Fields} {m m' : Machine}

/-- A run is sound at the start. -/
theorem start_sound (hw : w.Valid) (e : Engine) (inputs : Fields) (now : Nat) : (start w inputs now).Sound w e inputs :=
  ⟨start_scheduled hw inputs now, .start w inputs now, .start w e inputs now, .start w inputs now, .start w e inputs now⟩

/-- A run stays sound with every move. -/
theorem Sound.move (hw : w.Valid) (h : m.Sound w e inputs) (now : Nat) (mv : Move) : (m.move w e now mv).1.Sound w e inputs :=
  ⟨move_scheduled hw h.scheduled e now mv, h.recorded.move h.scheduled e now mv, h.conforms.move hw h.scheduled now mv,
    h.booked.move hw h.scheduled h.conforms now mv, h.seated.move h.scheduled now mv⟩

/-- Every run keeps everything in order. -/
theorem Run.sound (hw : w.Valid) (h : m.Sound w e inputs) (hrun : Run w e may m m') : m'.Sound w e inputs := by
  induction hrun with
  | refl => exact h
  | move _ now mv _ ih => exact ih.move hw now mv

/-! ## Deaths -/

/-- No step dies that has as many calls in flight at a time as a semaphore has permits for. -/
theorem died_advance (hloops : e.settings.loopSlots ≤ Semaphore.maxPermits) {t : Task} {token : CancelToken} {p : Proc (Outcome StepError)}
    {P : Outcome StepError → Prop} (hp : p.UnderWay (t.plan.conduct e [t.id]) P) : (m.advance token t.id p).1.died = m.died := by
  have hway := (hp.settle m.context.scope token).rests.way
  rcases advance_cases token t.id p m with ⟨o, -, heq⟩ | ⟨hpanics, heq⟩ | ⟨-, -, heq⟩ <;> rw [heq]
  · rw [died_finish, died_log]
  · rw [hway.panics_eq_false fun n hn => hn ▸ hloops] at hpanics
    cases hpanics
  · exact died_log m token _

/-- No task dies if iterating steps have no more places than a semaphore may have. -/
theorem Sound.died_move (hw : w.Valid) (h : m.Sound w e inputs) (hloops : e.settings.loopSlots ≤ Semaphore.maxPermits) (now : Nat)
    (mv : Move) : (m.move w e now mv).1.died = m.died := by
  have heffect := move_effect w e now mv m
  generalize m.move w e now mv = r at heffect
  cases heffect with
  | idle => rfl
  | dispatched => exact died_dispatching
  | passed => rfl
  | dropped => rfl
  | listened => rfl
  | heard => exact congrArg (List.filterMap Trace.died?) (hear_untouched w now m).2.2.1
  | @joined index => exact congrArg (List.filterMap Trace.died?) (join_untouched w now index m).2.2.1
  | asked => exact died_asking ..
  | cancelled => rfl
  | @refused t cut mem _ _ stopped =>
    exact died_advance (t := t) (P := fun _ => True) hloops (.fresh (.done trivial))
  | @began t cut mem =>
    exact (died_advance hloops (.fresh (Conforms.begun_obeys hw h.scheduled e mem _ false))).trans (died_decided ..)
  | @replied t p index c cut r mem active => exact died_advance hloops ((h.conforms.way mem active none).reply index r)

/-- No step of a run dies whose settings a semaphore has permits for. -/
theorem Run.died_eq_nil (hw : w.Valid) {now : Nat} (hrun : Run w e may (start w inputs now) m)
    (hloops : e.settings.loopSlots ≤ Semaphore.maxPermits) : m.died = [] := by
  induction hrun with
  | refl => rfl
  | move hrun now' mv _ ih => exact ((hrun.sound hw (start_sound hw e inputs now)).died_move hw hloops now' mv).trans ih

end Machine

/-! ## No late errors -/

/-- The notes that a plan leaves tell of errors of a run. -/
theorem Plan.Leaves.atRunTime {e : Engine} {path : List String} {p : Plan} {n : Note} (h : p.Leaves e path n) :
    (∀ at' err, n = .failed at' err → err.AtRunTime) ∧
      ∀ at' summary, n = .iterated at' summary → ∀ f ∈ summary.errors, f.error.cause.AtRunTime := by
  induction h with
  | failed cause =>
    refine ⟨?_, nofun⟩
    intro _ _ h
    obtain ⟨-, rfl⟩ := Note.failed.inj h
    exact cause
  | iterated _ causes =>
    refine ⟨nofun, ?_⟩
    intro _ _ h
    obtain ⟨-, rfl⟩ := Note.iterated.inj h
    exact causes
  | body _ _ ih => exact ih

namespace Machine.Sound

variable {w : Workflow} {e : Engine} {inputs : Fields} {m : Machine}

/-- A step that fails ends with an error of a run. -/
theorem ended_atRunTime (hs : m.Sound w e inputs) {id : String} {err : StepError} (h : Trace.ended id (.failed err) ∈ m.trace) :
    err.AtRunTime := by
  cases hs.conforms.outcomes id _ h with
  | ran hran =>
    cases hran with
    | failed cause => exact cause

/-- A failure that is booked is an error of a run. -/
theorem booked_atRunTime (hs : m.Sound w e inputs) {id : String} {err : StepError} (h : (id, Outcome.failed err) ∈ m.booked) :
    err.AtRunTime := by
  refine hs.ended_atRunTime (mem_trace_of_mem_ended.mp (?_ : (id, .failed err) ∈ m.ended))
  exact hs.scheduled.accounts.mem_iff.mpr (List.mem_append_left _ h)

/-- The message of a step in the books is that of an error that is met at run time. -/
theorem message_atRunTime (hs : m.Sound w e inputs) {id : String} {r : StepRun} {message : String}
    (hr : Keyed.get? m.books.runs id = some r) (hmessage : r.error = some message) :
    ∃ err : StepError, err.AtRunTime ∧ err.message = message := by
  have hid : id ∈ w.graph.steps := hs.booked.books.mem_keys.mp (Keyed.get?_isSome.mp (by simp [hr]))
  obtain ⟨r', hr', -, hopen, hshows⟩ := hs.booked.books.runs id hid
  obtain rfl := Option.some.inj (hr.symm.trans hr')
  by_cases hb : id ∈ m.booked.map (·.1)
  · obtain ⟨⟨k, o⟩, hmem, rfl⟩ := List.mem_map.mp hb
    have herror : r.error = o.message? := by
      by_cases hlate : m.Late k
      · exact ((hshows o hmem).2 hlate).error
      · exact ((hshows o hmem).1 hlate).error
    rw [hmessage] at herror
    cases o with
    | failed err =>
      obtain rfl := Option.some.inj herror
      exact ⟨err, hs.booked_atRunTime hmem, rfl⟩
    | skipped => cases herror
    | completed output => cases herror
    | cancelled => cases herror
  · rw [(hopen hb).error] at hmessage
    cases hmessage

/-- So is the message of every failure that the books list. -/
theorem failure_atRunTime (hs : m.Sound w e inputs) {f : StepFailure} (hf : f ∈ m.books.errors) :
    ∃ err : StepError, err.AtRunTime ∧ err.message = f.message := by
  rw [hs.booked.books.errors] at hf
  obtain ⟨⟨id, o⟩, hmem, hf⟩ := List.mem_flatMap.mp hf
  cases o with
  | failed err =>
    simp only [Outcome.mapError, RunState.failureOf] at hf
    split at hf
    · cases hf
    · obtain rfl := List.mem_singleton.mp hf
      exact ⟨err, hs.booked_atRunTime hmem, rfl⟩
  | skipped => cases hf
  | completed output => cases hf
  | cancelled => cases hf

end Machine.Sound

namespace Workflow

/-- In a run of a valid workflow nothing fails for want of an expression or of a body: no step, no step of a body at any depth, no
iteration, and no message in the books. -/
theorem errors_atRunTime {d : Definition} {w : Workflow} (hd : ofDefinition d = .ok w) (e : Engine) (inputs : Fields) (now : Nat)
    {m : Machine} (hrun : Machine.Run w e .any (.start w inputs now) m) :
    (∀ id err, Trace.ended id (.failed err) ∈ m.trace → err.AtRunTime) ∧
      (∀ path err, Trace.noted (.failed path err) ∈ m.trace → err.AtRunTime) ∧
      (∀ path summary, Trace.noted (.iterated path summary) ∈ m.trace → ∀ f ∈ summary.errors, f.error.cause.AtRunTime) ∧
      (∀ id r message, Keyed.get? m.books.runs id = some r → r.error = some message →
        ∃ err : StepError, err.AtRunTime ∧ err.message = message) ∧
      ∀ f ∈ m.books.errors, ∃ err : StepError, err.AtRunTime ∧ err.message = f.message := by
  obtain ⟨rfl, hw⟩ := valid_of_definition hd
  have hs := hrun.sound hw (Machine.start_sound hw e inputs now)
  refine ⟨fun id err => hs.ended_atRunTime, ?_, ?_, fun id r message => hs.message_atRunTime, fun f => hs.failure_atRunTime⟩
  · intro path err h
    obtain ⟨id, p, -, hleaves⟩ := hs.conforms.notes _ h
    exact hleaves.atRunTime.1 path err rfl
  · intro path summary h
    obtain ⟨id, p, -, hleaves⟩ := hs.conforms.notes _ h
    exact hleaves.atRunTime.2 path summary rfl

/-- The tool of the first step breaks, and the step fails for that. -/
theorem errors_atRunTime_of_sample : ∃ (w : Workflow) (m : Machine), ofDefinition .sample = .ok w ∧
    m.ended.map (·.1) = ["list"] ∧ ∀ id err, Trace.ended id (.failed err) ∈ m.trace → err.AtRunTime := by
  obtain ⟨w, hw⟩ := ofDefinition_sample
  let e : Engine := ⟨.default, fun _ => true⟩
  let moves : List Move := [.dispatch, .ask "list", .begin "list" none, .reply ⟨"list", none⟩ (.answer .panic) none]
  have hended : ((ofDefinition .sample).toOption.map fun w =>
      (moves.foldl (fun m mv => (m.move w e 0 mv).1) (Machine.start w [] 0)).ended.map (·.1)) = some ["list"] := by decide +kernel
  rw [hw] at hended
  exact ⟨w, _, hw, Option.some.inj hended, (errors_atRunTime hw e [] 0 (Machine.run_foldl w e 0 moves _)).1⟩

end Workflow

end Runbook
