import Mathlib.Data.List.Flatten
import Runbook.Proofs.Records

/-!
# The books of a run

The books say of every step what is known of it: of a step whose end is booked, its own outcome, and of any other that it has not
ended. A start that is heard of after the end of its step is booked as any other: then the step runs again, as far as the books know.
Failures are collected in the order in which they are booked.
-/

namespace Runbook

namespace Outcome

/-- The output of a completed step. -/
def output? : Outcome StepError → Option Value
  | completed output => some output
  | skipped | failed _ | cancelled => none

/-- The message of a failed step. -/
def message? : Outcome StepError → Option String
  | failed err => some err.message
  | skipped | completed _ | cancelled => none

/-- The status of an outcome is one to end with. -/
theorem terminal_status (o : Outcome ε) : o.status.terminal = true := by cases o <;> rfl

end Outcome

namespace StepRun

/-- The message of a step that was running, as far as the books know, when its run ended. -/
def unfinished : String := "step never finished (was running)"

/-- The record of a step says what came of it. -/
structure Shows (r : StepRun) (o : Outcome StepError) : Prop where
  status : r.status = o.status
  output : r.output = o.output?
  error : r.error = o.message?

/-- The record of a step that has not ended. -/
structure Open (r : StepRun) : Prop where
  status : r.status.terminal = false
  output : r.output = none
  error : r.error = none

/-- The record of a step that has ended and whose start was booked after that. -/
structure Reopened (r : StepRun) (o : Outcome StepError) : Prop where
  status : r.status = .running
  output : r.output = o.output?
  error : r.error = o.message?

/-- A run that is open is still open when it is started. -/
theorem Open.start {r : StepRun} (h : r.Open) (now : Nat) : (r.start now).Open := ⟨rfl, h.output, h.error⟩

/-- A start that is booked after the end opens the record again. -/
theorem Shows.start {r : StepRun} {o : Outcome StepError} (h : r.Shows o) (now : Nat) : (r.start now).Reopened o :=
  ⟨rfl, h.output, h.error⟩

/-- A run that was reopened is still so when it is started again. -/
theorem Reopened.start {r : StepRun} {o : Outcome StepError} (h : r.Reopened o) (now : Nat) : (r.start now).Reopened o :=
  ⟨rfl, h.output, h.error⟩

/-- A run that is open shows the outcome that it is finished with. -/
theorem Open.finish {r : StepRun} (h : r.Open) (now : Nat) (o : Outcome StepError) :
    (r.finish now (o.mapError StepError.message)).Shows o := by
  cases o with
  | skipped => exact ⟨rfl, h.output, h.error⟩
  | completed output => exact ⟨rfl, rfl, h.error⟩
  | failed err => exact ⟨rfl, h.output, rfl⟩
  | cancelled => exact ⟨rfl, h.output, h.error⟩

/-- The record, at the end of a run, of a step that has ended and whose start was booked after that: it is taken for a step that never
finished, which a cancelled run skips and which is an error of any other. -/
structure Mistaken (cancelled : Bool) (r : StepRun) (o : Outcome StepError) : Prop where
  status : r.status = if cancelled then .skipped else .error
  output : r.output = o.output?
  error : r.error = if cancelled then o.message? else some unfinished

/-- A record that shows an outcome is not changed at the end of the run. -/
theorem Shows.closeRun {r : StepRun} {o : Outcome StepError} (h : r.Shows o) (now : Nat) (cancelled : Bool) :
    RunState.closeRun now cancelled r = r ∧ RunState.closing? cancelled r = none := by
  have hclosing : RunState.closing? cancelled r = none := by rw [RunState.closing?, h.status, Outcome.terminal_status, if_pos rfl]
  exact ⟨by rw [RunState.closeRun, hclosing], hclosing⟩

/-- A record that was opened again is closed as that of a step that never finished. -/
theorem Reopened.closeRun {r : StepRun} {o : Outcome StepError} (h : r.Reopened o) (now : Nat) (cancelled : Bool) :
    (RunState.closeRun now cancelled r).Mistaken cancelled o ∧
      RunState.closing? cancelled r = some (if cancelled then .cancelled else .failed unfinished) := by
  have hclosing : RunState.closing? cancelled r = some (if cancelled then .cancelled else .failed unfinished) := by
    rw [RunState.closing?, h.status, if_neg (by decide)]
    cases cancelled <;> rfl
  refine ⟨?_, hclosing⟩
  rw [RunState.closeRun, hclosing]
  cases cancelled with
  | true => exact ⟨rfl, h.output, h.error⟩
  | false => exact ⟨rfl, h.output, rfl⟩

/-- A cancelled run closes the record of a step that has not ended as that of one that was skipped. -/
theorem Open.closeRun {r : StepRun} (h : r.Open) (now : Nat) :
    (RunState.closeRun now true r).Shows .cancelled ∧ RunState.closing? true r = some .cancelled := by
  have hclosing : RunState.closing? true r = some .cancelled := by
    rw [RunState.closing?, h.status, if_neg Bool.false_ne_true, if_pos rfl]
  refine ⟨?_, hclosing⟩
  rw [RunState.closeRun, hclosing]
  exact h.finish now .cancelled

/-- The record of a step keeps its name to the end of the run. -/
theorem id_closeRun (now : Nat) (cancelled : Bool) (r : StepRun) : (RunState.closeRun now cancelled r).id = r.id := by
  unfold RunState.closeRun
  split
  · rfl
  · rename_i outcome _
    cases outcome <;> rfl

/-- The record of a step without its instants. -/
def untimed (r : StepRun) : StepRun := { r with startedAt := none, finishedAt := none, durationMs := none }

/-- Records of a step that show the same outcome differ in their instants only. -/
theorem Shows.untimed_eq {r r' : StepRun} {o : Outcome StepError} (h : r.Shows o) (h' : r'.Shows o) (hid : r.id = r'.id) :
    r.untimed = r'.untimed := by
  rw [untimed, untimed, hid, h.status, h'.status, h.output, h'.output, h.error, h'.error]

end StepRun

/-- Results that differ in their instants and in the order of their errors only. -/
structure RunResult.Same (r r' : RunResult) : Prop where
  workflow : r.workflow = r'.workflow
  steps : (r.steps.map fun (id, s) => (id, s.untimed)) = r'.steps.map fun (id, s) => (id, s.untimed)
  errors : r.errors.Perm r'.errors
  cancelled : r.cancelled = r'.cancelled

/-- Results that are the same agree on whether there were errors. -/
theorem RunResult.Same.noErrors {r r' : RunResult} (h : r.Same r') : r.noErrors = r'.noErrors := by
  have hempty : r.errors.isEmpty = r'.errors.isEmpty := by
    rw [Bool.eq_iff_iff, List.isEmpty_iff, List.isEmpty_iff]
    exact ⟨fun hnil => (hnil ▸ h.errors).nil_eq.symm, fun hnil => (hnil ▸ h.errors).eq_nil⟩
  rw [RunResult.noErrors, RunResult.noErrors, hempty, h.cancelled]

/-- A step that continues on error. -/
def Workflow.continues (w : Workflow) (id : String) : Bool := ((w.plan? id).map (·.step.continueOnError)).getD false

/-- The failures that outcomes add to a run. -/
def Workflow.failures (w : Workflow) (outcomes : List (String × Outcome StepError)) : List StepFailure :=
  outcomes.flatMap fun (id, o) => RunState.failureOf id (w.continues id) (o.mapError StepError.message)

namespace Event

/-- The start of a step is heard of after its end. -/
def Late (events : List Event) (id : String) : Prop :=
  ∃ before after, events = before ++ after ∧ id ∈ (before.filterMap finished?).map (·.1) ∧ id ∈ after.filterMap started?

/-- Without reports nothing is late. -/
theorem not_late_nil (id : String) : ¬Late [] id := by
  rintro ⟨before, after, h, -, hstart⟩
  rw [(List.append_eq_nil_iff.mp h.symm).2] at hstart
  cases hstart

/-- A step whose start is late has been heard to end. -/
theorem Late.finished {events : List Event} {id : String} (h : Late events id) : id ∈ (events.filterMap finished?).map (·.1) := by
  obtain ⟨before, after, rfl, hend, -⟩ := h
  rw [List.filterMap_append, List.map_append]
  exact List.mem_append_left _ hend

/-- A start is late if the end of its step was heard of before. -/
theorem late_concat {events : List Event} {e : Event} {id : String} :
    Late (events ++ [e]) id ↔ Late events id ∨ (e.started? = some id ∧ id ∈ (events.filterMap finished?).map (·.1)) := by
  constructor
  · rintro ⟨before, after, h, hend, hstart⟩
    rcases List.eq_nil_or_concat after with rfl | ⟨after, last, rfl⟩
    · cases hstart
    · rw [List.concat_eq_append, ← List.append_assoc] at h
      obtain ⟨rfl, heq⟩ := List.append_inj' h rfl
      obtain rfl := List.singleton_inj.mp heq
      rw [List.concat_eq_append, List.filterMap_append, List.mem_append] at hstart
      rcases hstart with hstart | hstart
      · exact .inl ⟨before, after, rfl, hend, hstart⟩
      · refine .inr ⟨by simpa using hstart, ?_⟩
        rw [List.filterMap_append, List.map_append]
        exact List.mem_append_left _ hend
  · rintro (⟨before, after, rfl, hend, hstart⟩ | ⟨hstart, hend⟩)
    · exact ⟨before, after ++ [e], (List.append_assoc ..), hend, by simp [hstart]⟩
    · exact ⟨events, [e], rfl, hend, by simp [hstart]⟩

/-- Whether a start is late can be found out by looking at the events up to some moment and at those after it. -/
theorem late_iff_exists_take {events : List Event} {id : String} : Late events id ↔ ∃ n < events.length + 1,
    id ∈ ((events.take n).filterMap finished?).map (·.1) ∧ id ∈ (events.drop n).filterMap started? := by
  constructor
  · rintro ⟨before, after, rfl, hend, hstart⟩
    refine ⟨before.length, by rw [List.length_append]; omega, ?_, ?_⟩
    · rwa [List.take_left]
    · rwa [List.drop_left]
  · rintro ⟨n, -, hend, hstart⟩
    exact ⟨events.take n, events.drop n, (List.take_append_drop n events).symm, hend, hstart⟩

instance (events : List Event) (id : String) : Decidable (Late events id) := decidable_of_iff _ late_iff_exists_take.symm

end Event

namespace RunState

/-- Books in which the ends of steps are booked, and some starts after the ends. -/
structure Books (w : Workflow) (booked : List (String × Outcome StepError)) (late : String → Prop) (s : RunState) : Prop where
  workflow : s.workflow = w.definition.name
  keys : Keyed.keys s.runs = Keyed.keys (Keyed.ofList (w.graph.steps.map fun id => (id, StepRun.pending id)))
  runs : ∀ id ∈ w.graph.steps, ∃ r, Keyed.get? s.runs id = some r ∧ r.id = id ∧
    (id ∉ booked.map (·.1) → r.Open) ∧ ∀ o, (id, o) ∈ booked → (¬late id → r.Shows o) ∧ (late id → r.Reopened o)
  errors : s.errors = w.failures booked
  late : ∀ id, late id → id ∈ booked.map (·.1)

namespace Books

variable {w : Workflow} {booked : List (String × Outcome StepError)} {late : String → Prop} {s : RunState}

/-- The books that a run starts with are those of no end. -/
theorem start (w : Workflow) (now : Nat) {late : String → Prop} (hlate : ∀ id, ¬late id) :
    (RunState.start w.definition.name w.graph.steps now).Books w [] late := by
  have hentries : ∀ e ∈ w.graph.steps.map fun id => (id, StepRun.pending id), e.2 = StepRun.pending e.1 := by
    intro e he
    obtain ⟨id, -, rfl⟩ := List.mem_map.mp he
    rfl
  have hkeys : (w.graph.steps.map fun id => (id, StepRun.pending id)).map (·.1) = w.graph.steps := by simp [Function.comp_def]
  refine ⟨rfl, rfl, ?_, rfl, fun id hid => absurd hid (hlate id)⟩
  intro id hid
  have hget := Keyed.get?_ofList (f := StepRun.pending) hentries id
  rw [hkeys, if_pos hid] at hget
  exact ⟨_, hget, rfl, fun _ => ⟨rfl, rfl, rfl⟩, nofun⟩

/-- A start that the runner hears of opens the record of its step again if the end is booked. -/
theorem markRunning (h : s.Books w booked late) (id : String) (now : Nat) :
    (s.markRunning now id).Books w booked fun k => late k ∨ (k = id ∧ k ∈ booked.map (·.1)) := by
  refine ⟨h.workflow, (Keyed.keys_modify ..).trans h.keys, ?_, h.errors, fun k hk => hk.elim (h.late k) (·.2)⟩
  intro k hk
  obtain ⟨r, hr, hrid, hopen, hshows⟩ := h.runs k hk
  simp only [RunState.markRunning, Keyed.get?_modify, hr]
  by_cases hki : k = id
  · subst hki
    refine ⟨r.start now, by simp, hrid, fun hno => (hopen hno).start now, ?_⟩
    intro o ho
    refine ⟨fun hno => absurd (.inr ⟨rfl, List.mem_map_of_mem (f := (·.1)) ho⟩) hno, fun _ => ?_⟩
    by_cases hlate : late k
    · exact ((hshows o ho).2 hlate).start now
    · exact ((hshows o ho).1 hlate).start now
  · refine ⟨r, by simp [hki], hrid, hopen, fun o ho => ?_⟩
    simpa [hki] using hshows o ho

/-- To mark the run as cancelled changes nothing of what is booked. -/
theorem markCancelled (h : s.Books w booked late) : s.markCancelled.Books w booked late :=
  ⟨h.workflow, h.keys, h.runs, h.errors, h.late⟩

/-- The end of a step that has not been booked is booked. -/
theorem addOutcome (h : s.Books w booked late) {id : String} (hid : id ∉ booked.map (·.1)) (now : Nat) (o : Outcome StepError) :
    (s.addOutcome now id (o.mapError StepError.message) (w.continues id)).Books w (booked ++ [(id, o)]) late := by
  refine ⟨h.workflow, (Keyed.keys_modify ..).trans h.keys, ?_, by simp [RunState.addOutcome, h.errors, Workflow.failures], ?_⟩
  · intro k hk
    obtain ⟨r, hr, hrid, hopen, hshows⟩ := h.runs k hk
    simp only [RunState.addOutcome, Keyed.get?_modify, hr]
    by_cases hki : k = id
    · subst hki
      have hfinish := (hopen hid).finish now o
      refine ⟨r.finish now (o.mapError StepError.message), by simp, ?_, fun hno => absurd (by simp) hno, ?_⟩
      · cases o <;> exact hrid
      · intro o' ho'
        rcases List.mem_append.mp ho' with ho' | ho'
        · exact absurd (List.mem_map_of_mem (f := (·.1)) ho') hid
        · obtain ⟨-, rfl⟩ := Prod.mk.inj (List.mem_singleton.mp ho')
          exact ⟨fun _ => hfinish, fun hlate => absurd (h.late k hlate) hid⟩
    · refine ⟨r, by simp [hki], hrid, fun hno => hopen fun hb => hno ?_, fun o' ho' => hshows o' ?_⟩
      · rw [List.map_append]
        exact List.mem_append_left _ hb
      · simpa [hki] using ho'
  · intro k hk
    rw [List.map_append]
    exact List.mem_append_left _ (h.late k hk)

/-- It does not matter how it is said which starts were late. -/
theorem congr {late' : String → Prop} (h : s.Books w booked late) (hlate : ∀ id, late' id ↔ late id) : s.Books w booked late' := by
  obtain rfl : late' = late := funext fun id => propext (hlate id)
  exact h

/-- Books are kept in the order of ids. -/
theorem sorted (h : s.Books w booked late) : Keyed.Sorted s.runs := by
  have hsorted := Keyed.sorted_ofList (w.graph.steps.map fun id => (id, StepRun.pending id))
  rwa [Keyed.Sorted, ← h.keys] at hsorted

/-- There is an entry for every step, and for nothing else. -/
theorem mem_keys (h : s.Books w booked late) {id : String} : id ∈ Keyed.keys s.runs ↔ id ∈ w.graph.steps := by
  rw [h.keys, Keyed.mem_keys_ofList]
  simp

/-- The result has an entry for every step, in the order of the ids. -/
theorem keys_result (h : s.Books w booked late) (now : Nat) : Keyed.Sorted (s.result now).steps ∧
    Keyed.keys (s.result now).steps = Keyed.keys (Keyed.ofList (w.graph.steps.map fun id => (id, StepRun.pending id))) := by
  have hkeys : Keyed.keys (s.result now).steps = Keyed.keys s.runs := by simp [RunState.result, Keyed.keys, Function.comp_def]
  rw [Keyed.Sorted, hkeys]
  exact ⟨h.sorted, h.keys⟩

section Closing

variable (h : s.Books w booked late) (hwhole : s.cancelled = false → ∀ id ∈ w.graph.steps, id ∈ booked.map (·.1)) (now : Nat)

include h hwhole

/-- Books in which every end is booked, unless they call the run cancelled: what is booked is shown, but for a step whose start was
late, and any other step is shown as skipped. -/
theorem shown {id : String} (hid : id ∈ w.graph.steps) : ∃ r, Keyed.get? (s.result now).steps id = some r ∧ r.id = id ∧
    (∀ o, (id, o) ∈ booked → (¬late id → r.Shows o) ∧ (late id → r.Mistaken s.cancelled o)) ∧
    (id ∉ booked.map (·.1) → r.Shows .cancelled) := by
  obtain ⟨r, hr, hrid, hopen, hshows⟩ := h.runs id hid
  refine ⟨closeRun now s.cancelled r, ?_, (StepRun.id_closeRun ..).trans hrid, ?_, ?_⟩
  · exact (Keyed.get?_map s.runs id (closeRun now s.cancelled)).trans (by rw [hr, Option.map_some])
  · intro o ho
    refine ⟨fun hno => ?_, fun hlate => (((hshows o ho).2 hlate).closeRun now s.cancelled).1⟩
    rw [(((hshows o ho).1 hno).closeRun now s.cancelled).1]
    exact (hshows o ho).1 hno
  · intro hb
    have hcancelled : s.cancelled = true := by
      by_contra hc
      exact hb (hwhole (by simpa using hc) id hid)
    rw [hcancelled]
    exact ((hopen hb).closeRun now).1

open Classical in
/-- Such books add a failure when they close the record of a step whose start was late, unless they call the run cancelled, and none
when they close any other. -/
theorem failureOf_closing {id : String} (hid : id ∈ w.graph.steps) {r : StepRun} (hr : Keyed.get? s.runs id = some r) :
    ((closing? s.cancelled r).map (failureOf id false)).getD [] =
      if s.cancelled = false ∧ late id then [⟨id, StepRun.unfinished⟩] else [] := by
  obtain ⟨r', hr', -, hopen, hshows⟩ := h.runs id hid
  obtain rfl := Option.some.inj (hr.symm.trans hr')
  by_cases hb : id ∈ booked.map (·.1)
  · obtain ⟨⟨k, o⟩, hmem, rfl⟩ := List.mem_map.mp hb
    by_cases hlate : late k
    · rw [(((hshows o hmem).2 hlate).closeRun 0 s.cancelled).2]
      cases s.cancelled <;> simp [failureOf, hlate]
    · rw [(((hshows o hmem).1 hlate).closeRun 0 s.cancelled).2, if_neg fun hno => hlate hno.2]
      rfl
  · have hcancelled : s.cancelled = true := by
      by_contra hc
      exact hb (hwhole (by simpa using hc) id hid)
    rw [hcancelled, ((hopen hb).closeRun 0).2, if_neg nofun]
    rfl

/-- To close such books adds these failures to those that are booked. -/
theorem failures_result : ∃ mistaken : List StepFailure, (s.result now).errors = w.failures booked ++ mistaken ∧
    (mistaken.map (·.id)).Nodup ∧ ∀ f, f ∈ mistaken ↔
      f.id ∈ w.graph.steps ∧ s.cancelled = false ∧ late f.id ∧ f.message = StepRun.unfinished := by
  classical
  have hmistaken : (s.result now).errors = w.failures booked ++ s.runs.flatMap fun e =>
      if s.cancelled = false ∧ late e.1 then [⟨e.1, StepRun.unfinished⟩] else [] := by
    show s.errors ++ _ = _
    rw [h.errors]
    refine congrArg (w.failures booked ++ ·) (List.flatMap_congr ?_)
    rintro ⟨id, r⟩ hmem
    have hget := h.sorted.get?_of_mem hmem
    have hid : id ∈ w.graph.steps := h.mem_keys.mp (Keyed.get?_isSome.mp (by simp [hget]))
    rw [← h.failureOf_closing hwhole hid hget]
    cases hclosing : closing? s.cancelled r with
    | none => simp only [hclosing, Option.map_none, Option.getD_none]
    | some outcome => simp only [hclosing, Option.map_some, Option.getD_some]
  refine ⟨_, hmistaken, ?_, ?_⟩
  · refine h.sorted.nodup.sublist ?_
    rw [List.map_flatMap, Keyed.keys, List.map_eq_flatMap]
    refine List.Sublist.flatMap_right _ fun e _ => ?_
    split
    · exact .refl _
    · exact List.nil_sublist _
  · intro f
    rw [List.mem_flatMap]
    constructor
    · rintro ⟨e, hmem, hf⟩
      split at hf
      · rename_i hlate
        obtain rfl := List.mem_singleton.mp hf
        exact ⟨h.mem_keys.mp (List.mem_map_of_mem (f := (·.1)) hmem), hlate.1, hlate.2, rfl⟩
      · cases hf
    · rintro ⟨hid, hcancelled, hlate, hmessage⟩
      obtain ⟨e, hmem, heq⟩ := List.mem_map.mp (h.mem_keys.mpr hid)
      refine ⟨e, hmem, ?_⟩
      rw [heq, if_pos ⟨hcancelled, hlate⟩, List.mem_singleton, ← hmessage]

end Closing

/-- Once the ends of all steps are booked, and no start was late, it does not matter in which order they were booked, or when. -/
theorem same {s' : RunState} {booked' : List (String × Outcome StepError)} {late' : String → Prop} (h : s.Books w booked late)
    (h' : s'.Books w booked' late') (hall : ∀ id ∈ w.graph.steps, id ∈ booked.map (·.1)) (hperm : booked.Perm booked')
    (hcancelled : s.cancelled = s'.cancelled) (hlate : ∀ id, ¬late id) (hlate' : ∀ id, ¬late' id) (now now' : Nat) :
    (s.result now).Same (s'.result now') := by
  have hall' : ∀ id ∈ w.graph.steps, id ∈ booked'.map (·.1) := fun id hid => (hperm.map _).mem_iff.mp (hall id hid)
  obtain ⟨hsorted, hkeys⟩ := h.keys_result now
  obtain ⟨-, hkeys'⟩ := h'.keys_result now'
  have hnone {s : RunState} {booked : List (String × Outcome StepError)} {late : String → Prop} (h : s.Books w booked late)
      (hall : ∀ id ∈ w.graph.steps, id ∈ booked.map (·.1)) (hlate : ∀ id, ¬late id) (now : Nat) :
      (s.result now).errors = w.failures booked := by
    obtain ⟨mistaken, herrors, -, hmem⟩ := h.failures_result (fun _ => hall) now
    rw [herrors, List.eq_nil_iff_forall_not_mem.mpr fun f hf => hlate f.id ((hmem f).mp hf).2.2.1, List.append_nil]
  refine ⟨h.workflow.trans h'.workflow.symm, ?_, ?_, hcancelled⟩
  · have huntimed (entries : Keyed StepRun) :
        Keyed.keys (entries.map fun (id, s) => (id, s.untimed)) = Keyed.keys entries := by
      simp [Keyed.keys, Function.comp_def]
    refine Keyed.ext_of_sorted ?_ ?_ ?_
    · rw [Keyed.Sorted, huntimed]
      exact hsorted
    · rw [huntimed, huntimed, hkeys, hkeys']
    · intro id hid
      rw [huntimed, hkeys, Keyed.mem_keys_ofList] at hid
      have hid : id ∈ w.graph.steps := by simpa using hid
      obtain ⟨⟨k, o⟩, hmem, rfl⟩ := List.mem_map.mp (hall id hid)
      obtain ⟨r, hr, hrid, hshows, -⟩ := h.shown (fun _ => hall) now hid
      obtain ⟨r', hr', hrid', hshows', -⟩ := h'.shown (fun _ => hall') now' hid
      rw [Keyed.get?_map, Keyed.get?_map, hr, hr', Option.map_some, Option.map_some,
        ((hshows o hmem).1 (hlate k)).untimed_eq ((hshows' o (hperm.mem_iff.mp hmem)).1 (hlate' k)) (hrid.trans hrid'.symm)]
  · rw [hnone h hall hlate, hnone h' hall' hlate']
    exact hperm.flatMap_right _

end Books

end RunState

namespace Machine

/-- The start of a step was heard of after its end. -/
def Late (m : Machine) (id : String) : Prop := Event.Late m.events id

instance (m : Machine) (id : String) : Decidable (m.Late id) := inferInstanceAs (Decidable (Event.Late m.events id))

/-- The runner's books are those of what it has booked, and they call the run cancelled only if it was. -/
structure Booked (w : Workflow) (m : Machine) : Prop where
  books : m.books.Books w m.booked m.Late
  cancelled : m.books.cancelled = true → m.cancelled = true

namespace Booked

variable {w : Workflow} {m : Machine}

/-- At the start nothing is late. -/
theorem not_late_start (w : Workflow) (inputs : Fields) (now : Nat) (id : String) : ¬(Machine.start w inputs now).Late id := by
  show ¬Event.Late ([] ++ [.runStarted w.definition.name w.graph.order]) id
  rw [Event.late_concat]
  exact fun h => h.elim (Event.not_late_nil id) fun h => nomatch h.1

/-- At the start the books are in order. -/
theorem start (w : Workflow) (inputs : Fields) (now : Nat) : (start w inputs now).Booked w :=
  ⟨.start w now (not_late_start w inputs now), nofun⟩

/-- Whether the books are in order shows in the books and in what was reported only. -/
theorem of_eq {m' : Machine} (h : m.Booked w) (hbooks : m'.books = m.books) (hevents : m'.events = m.events)
    (hcancelled : m.cancelled = true → m'.cancelled = true) : m'.Booked w := by
  refine ⟨?_, fun hc => hcancelled (h.cancelled (hbooks ▸ hc))⟩
  have hlate : m'.Late = m.Late := funext fun id => by rw [Late, hevents, Late]
  rw [hbooks, booked, hevents, hlate]
  exact h.books

/-- The runner that hears of a start writes it down, with its event. -/
theorem hear_eq {id : String} {starts : List String} (hstarts : m.starts = id :: starts) {p : Plan} (hp : w.plan? id = some p) (now : Nat) :
    m.hear w now = { m with
      books := m.books.markRunning now id
      events := m.events ++ [.stepStarted p.step]
      starts
      listened := false } := by
  simp [Machine.hear, hstarts, hp]

/-- Which starts are late once one more was heard of. -/
theorem late_hear {id : String} {starts : List String} (hstarts : m.starts = id :: starts) {p : Plan} (hp : w.plan? id = some p)
    (now : Nat) (k : String) : (m.hear w now).Late k ↔ m.Late k ∨ (k = id ∧ k ∈ m.bookedIds) := by
  have hpid : p.step.id = id := (Workflow.plan?_some hp).2
  have hstarted : Event.started? (.stepStarted p.step) = some k ↔ k = id := by
    rw [Event.started?, hpid, Option.some.injEq, eq_comm]
  rw [hear_eq hstarts hp]
  show Event.Late (m.events ++ [.stepStarted p.step]) k ↔ _
  rw [Event.late_concat, hstarted]
  rfl

/-- The books stay in order when a start is heard. -/
theorem hear (hw : w.Valid) (h : m.Booked w) (hs : m.Scheduled w) {id : String} {starts : List String}
    (hstarts : m.starts = id :: starts) (now : Nat) : (m.hear w now).Booked w := by
  have hdispatched := hs.heard id (hstarts ▸ List.mem_cons_self)
  obtain ⟨p, hp⟩ := hw.plan?_of_mem (hs.step_of_dispatched hdispatched)
  have hlate := late_hear hstarts hp now
  have hbooked := booked_hear w now m
  refine ⟨?_, ?_⟩
  · rw [hbooked]
    refine RunState.Books.congr ?_ hlate
    rw [hear_eq hstarts hp]
    exact h.books.markRunning id now
  · rw [hear_eq hstarts hp]
    exact h.cancelled

/-- To book an end makes no start late. -/
theorem late_join {index : Nat} {id : String} {outcome : Outcome StepError} {p : Plan} (hends : m.ends[index]? = some (id, outcome))
    (hp : w.plan? id = some p) (now : Nat) (k : String) : (m.join w now index).Late k ↔ m.Late k := by
  rw [join_eq hends hp]
  show Event.Late (m.events ++ [.stepFinished p.step outcome]) k ↔ _
  rw [Event.late_concat]
  exact or_iff_left fun h => nomatch h.1

/-- The books stay in order when an end is joined. -/
theorem join (hw : w.Valid) (h : m.Booked w) (hs : m.Scheduled w) {index : Nat} {id : String} {o : Outcome StepError}
    (hends : m.ends[index]? = some (id, o)) (hcancelled : o = .cancelled → m.cancelled = true) (now : Nat) :
    (m.join w now index).Booked w := by
  have hnew : id ∉ m.bookedIds := hs.not_booked_of_end hends
  obtain ⟨p, hp⟩ := hs.plan_of_end hw hends
  have hcontinues : p.step.continueOnError = w.continues id := by simp [Workflow.continues, hp]
  have hlate := late_join hends hp now
  have hbooked := booked_join hw hs hends now
  refine ⟨?_, ?_⟩
  · rw [hbooked]
    refine RunState.Books.congr ?_ hlate
    rw [join_eq hends hp]
    show (booksAfter now p id o m.books).Books w (m.booked ++ [(id, o)]) m.Late
    unfold booksAfter
    rw [hcontinues]
    cases o with
    | cancelled => exact h.books.markCancelled.addOutcome hnew now _
    | skipped => exact h.books.addOutcome hnew now _
    | completed output => exact h.books.addOutcome hnew now _
    | failed err => exact h.books.addOutcome hnew now _
  · obtain ⟨-, -, -, hkept, -⟩ := join_untouched w now index m
    rw [hkept, join_eq hends hp]
    show (booksAfter now p id o m.books).cancelled = true → m.cancelled = true
    cases o with
    | cancelled => exact fun _ => hcancelled rfl
    | skipped => exact h.cancelled
    | completed output => exact h.cancelled
    | failed err => exact h.cancelled

/-- A step that advances changes nothing of the books. -/
theorem advance (h : m.Booked w) (token : CancelToken) (id : String) (p : Proc (Outcome StepError)) :
    (m.advance token id p).1.Booked w := by
  obtain ⟨hbooks, hevents, -⟩ := advance_untouched token id p m
  refine h.of_eq hbooks hevents fun hc => ?_
  rw [cancelled_advance, hc, Bool.true_or]

/-- Every move keeps the books. -/
theorem move (hw : w.Valid) {e : Engine} (h : m.Booked w) (hs : m.Scheduled w) (hc : m.Conforms w e) (now : Nat) (move : Move) :
    (m.move w e now move).1.Booked w := by
  have heffect := move_effect w e now move m
  generalize m.move w e now move = r at heffect
  cases heffect with
  | idle => exact h
  | dispatched => exact h.of_eq rfl rfl fun hc => hc
  | passed => exact h.of_eq rfl rfl fun hc => hc
  | dropped _ stopped => exact ⟨h.books.markCancelled, fun _ => stopped⟩
  | listened => exact h.of_eq rfl rfl fun hc => hc
  | heard _ first => exact h.hear hw hs first now
  | @joined index id o _ _ found =>
    refine h.join hw hs found ?_ now
    rintro rfl
    have hmem : (id, Outcome.cancelled) ∈ m.ended :=
      hs.accounts.mem_iff.mpr (List.mem_append_right _ (List.mem_of_getElem? found))
    cases hc.outcomes id _ (mem_trace_of_mem_ended.mp hmem) with
    | ran hran => cases hran
    | cancelled h => exact h
  | asked => exact h.of_eq rfl rfl fun hc => hc
  | cancelled => exact h.of_eq rfl rfl fun _ => rfl
  | refused =>
    have htaking : ∀ id, (m.taking id).Booked w := fun id => h.of_eq rfl rfl fun hc => hc
    exact (htaking _).advance _ _ _
  | @began t =>
    have hdecided : (m.decided t (t.plan.step.admits m.context.scope)).Booked w := h.of_eq rfl rfl fun hc => hc
    exact hdecided.advance _ _ _
  | replied => exact h.advance _ _ _

end Booked

end Machine

end Runbook
