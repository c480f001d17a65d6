import Runbook.Proofs.Cancellation

/-!
# How a run is closed

When nothing is left to be done, every step that was dispatched has ended, and the result shows its own outcome, unless its start was
heard of after its end. A step that was not dispatched is one that a cancelled run dropped, or that waited for such a step: the result
shows it as skipped. To close the books adds a failure for the steps whose starts were late, and for no others.
-/

namespace Runbook

/-- A workflow goes on after the failure of a step exactly if the step says so. -/
theorem Workflow.Valid.continues_eq {w : Workflow} (hw : w.Valid) {s : Step} (hs : s ∈ w.definition.steps) :
    w.continues s.id = s.continueOnError := by
  simp [continues, plan?, find?_of_nodup _ hw.faultless.nodup hs]

/-- A step that does not continue on error fails the run, and no other does. -/
theorem Workflow.mem_failures {w : Workflow} {outcomes : List (String × Outcome StepError)} {f : StepFailure} :
    f ∈ w.failures outcomes ↔
      w.continues f.id = false ∧ ∃ err : StepError, (f.id, .failed err) ∈ outcomes ∧ f.message = err.message := by
  rw [failures, List.mem_flatMap]
  constructor
  · rintro ⟨⟨id, o⟩, hmem, hf⟩
    cases o with
    | failed err =>
      simp only [Outcome.mapError, RunState.failureOf] at hf
      split at hf
      · cases hf
      · rename_i hcontinues
        obtain rfl := List.mem_singleton.mp hf
        exact ⟨by simpa using hcontinues, err, hmem, rfl⟩
    | skipped => cases hf
    | completed output => cases hf
    | cancelled => cases hf
  · rintro ⟨hcontinues, err, hmem, hmessage⟩
    refine ⟨_, hmem, ?_⟩
    simp [Outcome.mapError, RunState.failureOf, hcontinues, ← hmessage]

/-- No step fails a run twice. -/
theorem Workflow.nodup_failures {w : Workflow} {outcomes : List (String × Outcome StepError)} (h : (outcomes.map (·.1)).Nodup) :
    ((w.failures outcomes).map (·.id)).Nodup := by
  refine h.sublist ?_
  rw [failures, List.map_flatMap, List.map_eq_flatMap]
  refine List.Sublist.flatMap_right _ fun e _ => ?_
  obtain ⟨id, o⟩ := e
  cases o with
  | failed err =>
    simp only [Outcome.mapError, RunState.failureOf]
    split
    · exact List.nil_sublist _
    · exact .refl _
  | skipped => exact List.nil_sublist _
  | completed output => exact List.nil_sublist _
  | cancelled => exact List.nil_sublist _

/-- What the result of a run that is over tells of it: a step that was dispatched has ended, and its outcome is shown, but for a step
whose start was late, which is shown as one that never finished; any other step is shown as skipped by a cancelled run. -/
structure RunResult.Tells (r : RunResult) (w : Workflow) (m : Machine) : Prop where
  sorted : Keyed.Sorted r.steps
  keys : ∀ id, id ∈ Keyed.keys r.steps ↔ id ∈ w.graph.steps
  booked : m.ended.Perm m.booked
  ended : ∀ id ∈ m.dispatched, ∃ o, Trace.ended id o ∈ m.trace
  shown : ∀ id o, Trace.ended id o ∈ m.trace → ∃ run, Keyed.get? r.steps id = some run ∧
    (¬m.Late id → run.Shows o) ∧ (m.Late id → run.Mistaken r.cancelled o)
  left : ∀ id ∈ w.graph.steps, id ∉ m.dispatched →
    r.cancelled = true ∧ ∃ run, Keyed.get? r.steps id = some run ∧ run.Shows .cancelled
  errors : ∃ mistaken, r.errors = w.failures m.booked ++ mistaken ∧ (mistaken.map (·.id)).Nodup ∧
    ∀ f, f ∈ mistaken ↔ r.cancelled = false ∧ m.Late f.id ∧ f.message = StepRun.unfinished

namespace Machine

variable {w : Workflow} {e : Engine} {may : Policy} {inputs : Fields} {m : Machine}

/-- The result of every run that is over tells of it, unless a step died. -/
theorem Run.tells (hw : w.Valid) {now : Nat} (hrun : Run w e may (start w inputs now) m) (hf : m.finished = true) (hdied : m.died = [])
    (later : Nat) : (m.result later).Tells w m := by
  have hs := hrun.sound hw (start_sound hw e inputs now)
  have hbooks := hs.booked.books
  obtain ⟨-, hgaps⟩ := hrun.turns_and_gaps hw
  obtain ⟨hended, hdispatched⟩ := hs.scheduled.over hf hdied
  have hwhole (hb : m.books.cancelled = false) := hs.scheduled.all_booked_of_complete hw hf hdied (hgaps.complete hb)
  obtain ⟨hsorted, hkeys⟩ := hbooks.keys_result later
  obtain ⟨mistaken, herrors, hnodup, hmem⟩ := hbooks.failures_result hwhole later
  refine ⟨hsorted, ?_, hended, ?_, ?_, ?_, mistaken, herrors, hnodup, fun f => (hmem f).trans ?_⟩
  · intro id
    show id ∈ Keyed.keys (m.books.result later).steps ↔ _
    rw [hkeys, Keyed.mem_keys_ofList]
    simp
  · intro id hid
    obtain ⟨⟨k, o⟩, hmem, rfl⟩ := List.mem_map.mp (hdispatched.mem_iff.mp hid)
    exact ⟨o, mem_trace_of_mem_ended.mp hmem⟩
  · intro id o ho
    have hmem := mem_trace_of_mem_ended.mpr ho
    have hid : id ∈ w.graph.steps :=
      hs.scheduled.step_of_dispatched (hs.scheduled.dispatched_of_ended (List.mem_map_of_mem (f := (·.1)) hmem))
    obtain ⟨run, hrun, -, hshows, -⟩ := hbooks.shown hwhole later hid
    exact ⟨run, hrun, hshows o (hended.mem_iff.mp hmem)⟩
  · intro id hid hnot
    have hb : id ∉ m.bookedIds := fun hb => hnot (hs.scheduled.dispatched_of_ended (hs.scheduled.booked_ended hb))
    obtain ⟨run, hrun, -, -, hopen⟩ := hbooks.shown hwhole later hid
    refine ⟨?_, run, hrun, hopen hb⟩
    by_contra hc
    exact hb (hwhole (Bool.eq_false_iff.mpr hc) id hid)
  · exact ⟨fun hf => hf.2, fun hf => ⟨hs.step_of_late hf.2.1, hf⟩⟩

end Machine

end Runbook
