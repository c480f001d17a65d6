import Runbook.Proofs.Books

/-!
# Starts and ends in any order

The keeper of the books is told of starts, of ends and of a cancellation, and need not be told of the start of a step before its end.
A step that is told to have ended keeps the outcome that it ended with for as long as no start of it is told after its end. A late
start opens its record again: it is closed as that of a step which never finished, unless the run is cancelled, which closes it as
skipped.
-/

namespace Runbook

/-- What the keeper of the books is told. -/
inductive Notice where
  | started (id : String)
  | ended (id : String) (outcome : Outcome String) (continueOnError : Bool)
  | cancelled

namespace Notice

/-- A start of a step. -/
def starts (id : String) : Notice → Bool
  | started k => k = id
  | ended .. | cancelled => false

/-- An end of a step. -/
def ends (id : String) : Notice → Bool
  | ended k .. => k = id
  | started _ | cancelled => false

def cancels : Notice → Bool
  | cancelled => true
  | started _ | ended .. => false

/-- The failures that a notice adds to those of the run. -/
def failures : Notice → List StepFailure
  | ended id outcome continueOnError => RunState.failureOf id continueOnError outcome
  | started _ | cancelled => []

end Notice

/-- What becomes of the record of a step. -/
def StepRun.told (id : String) (r : StepRun) : Nat × Notice → StepRun
  | (now, .started k) => if k = id then r.start now else r
  | (now, .ended k outcome _) => if k = id then r.finish now outcome else r
  | (_, .cancelled) => r

/-- What becomes of the books. -/
def RunState.told (s : RunState) : Nat × Notice → RunState
  | (now, .started id) => s.markRunning now id
  | (now, .ended id outcome continueOnError) => s.addOutcome now id outcome continueOnError
  | (_, .cancelled) => s.markCancelled

/-- A result reports an outcome of a step: the record of the step has the status of the outcome, with an output if and only if it
completed and an error if and only if it failed, and the only failure noted for the step is that of the outcome, if it has one. -/
structure RunResult.Reports (result : RunResult) (id : String) (outcome : Outcome String) (continueOnError : Bool) : Prop where
  record : ∃ r, Keyed.get? result.steps id = some r ∧ r.status = outcome.status ∧
    (∀ output, r.output = some output ↔ outcome = .completed output) ∧ ∀ message, r.error = some message ↔ outcome = .failed message
  failures : result.errors.filter (·.id = id) = RunState.failureOf id continueOnError outcome

/-! ## The record of a step -/

namespace StepRun

variable {id : String} {r : StepRun} {outcome : Outcome String}

/-- The record of a step is left with what an outcome put into it. -/
structure Keeps (r : StepRun) (outcome : Outcome String) : Prop where
  output : ∀ output, r.output = some output ↔ outcome = .completed output
  error : ∀ message, r.error = some message ↔ outcome = .failed message

/-- A run that is open keeps the outcome that it is finished with. -/
theorem Open.keeps (h : r.Open) (now : Nat) (outcome : Outcome String) : (r.finish now outcome).Keeps outcome := by
  cases outcome with
  | skipped => exact ⟨by simp [StepRun.finish, h.output], by simp [StepRun.finish, h.error]⟩
  | completed output => exact ⟨by simp [StepRun.finish], by simp [StepRun.finish, h.error]⟩
  | failed message => exact ⟨by simp [StepRun.finish, h.output], by simp [StepRun.finish]⟩
  | cancelled => exact ⟨by simp [StepRun.finish, h.output], by simp [StepRun.finish, h.error]⟩

@[simp] theorem status_finish (now : Nat) (outcome : Outcome String) (r : StepRun) :
    (r.finish now outcome).status = outcome.status := by
  cases outcome <;> rfl

/-- Nothing but an end ends a step. -/
theorem Open.told (h : r.Open) {n : Nat × Notice} (hn : n.2.ends id = false) : (r.told id n).Open := by
  obtain ⟨now, notice⟩ := n
  cases notice with
  | started k =>
    show (if k = id then r.start now else r).Open
    split
    · exact h.start now
    · exact h
  | ended k outcome continueOnError =>
    have hk : k ≠ id := by simpa [Notice.ends] using hn
    simpa [StepRun.told, hk] using h
  | cancelled => exact h

/-- Nothing but an end changes what is left in the record of a step. -/
theorem Keeps.told (h : r.Keeps outcome) {n : Nat × Notice} (hn : n.2.ends id = false) : (r.told id n).Keeps outcome := by
  obtain ⟨now, notice⟩ := n
  cases notice with
  | started k =>
    show (if k = id then r.start now else r).Keeps outcome
    split
    · exact ⟨h.output, h.error⟩
    · exact h
  | ended k outcome continueOnError =>
    have hk : k ≠ id := by simpa [Notice.ends] using hn
    simpa [StepRun.told, hk] using h
  | cancelled => exact h

/-- The status of a step is changed by a start and by an end of it only. -/
theorem status_told {n : Nat × Notice} (hn : n.2.ends id = false) :
    (r.told id n).status = if n.2.starts id then .running else r.status := by
  obtain ⟨now, notice⟩ := n
  cases notice with
  | started k => by_cases hk : k = id <;> simp [StepRun.told, Notice.starts, start, hk]
  | ended k outcome continueOnError =>
    have hk : k ≠ id := by simpa [Notice.ends] using hn
    simp [StepRun.told, Notice.starts, hk]
  | cancelled => rfl

variable {notices : List (Nat × Notice)}

/-- A run stays open as long as no end of it is told. -/
theorem Open.foldl_told (h : r.Open) (hn : ∀ n ∈ notices, n.2.ends id = false) : (notices.foldl (StepRun.told id) r).Open := by
  induction notices generalizing r with
  | nil => exact h
  | cons n notices ih => exact ih (h.told (hn n (by simp))) fun n' hn' => hn n' (List.mem_cons_of_mem _ hn')

/-- A run keeps its outcome as long as no other end of it is told. -/
theorem Keeps.foldl_told (h : r.Keeps outcome) (hn : ∀ n ∈ notices, n.2.ends id = false) :
    (notices.foldl (StepRun.told id) r).Keeps outcome := by
  induction notices generalizing r with
  | nil => exact h
  | cons n notices ih => exact ih (h.told (hn n (by simp))) fun n' hn' => hn n' (List.mem_cons_of_mem _ hn')

/-- A step that is told to start is running for as long as its end is not told, whatever it was before. -/
theorem status_foldl_told (hn : ∀ n ∈ notices, n.2.ends id = false) :
    (notices.foldl (StepRun.told id) r).status = if notices.any (·.2.starts id) then .running else r.status := by
  induction notices generalizing r with
  | nil => rfl
  | cons n notices ih =>
    rw [List.foldl_cons, ih fun n' hn' => hn n' (List.mem_cons_of_mem _ hn'), status_told (hn n (by simp)), List.any_cons]
    grind

end StepRun

/-! ## The books -/

namespace RunState

variable {s : RunState}

/-- The record of a step depends on what was told of this step only. -/
theorem get?_told (s : RunState) (n : Nat × Notice) (id : String) :
    Keyed.get? (s.told n).runs id = (Keyed.get? s.runs id).map (·.told id n) := by
  obtain ⟨now, notice⟩ := n
  cases notice with
  | started k =>
    simp only [told, markRunning, Keyed.get?_modify, StepRun.told, eq_comm (a := id)]
    by_cases hk : k = id <;> simp [hk]
  | ended k outcome continueOnError =>
    simp only [told, addOutcome, Keyed.get?_modify, StepRun.told, eq_comm (a := id)]
    by_cases hk : k = id <;> simp [hk]
  | cancelled => simp [told, markCancelled, StepRun.told]

/-- What becomes of a run is told by the notices about it. -/
theorem get?_foldl_told (s : RunState) (notices : List (Nat × Notice)) (id : String) :
    Keyed.get? (notices.foldl told s).runs id = (Keyed.get? s.runs id).map (notices.foldl (StepRun.told id)) := by
  induction notices generalizing s with
  | nil => simp
  | cons n notices ih => rw [List.foldl_cons, ih, get?_told, Option.map_map]; rfl

/-- A notice adds no run. -/
theorem keys_told (s : RunState) (n : Nat × Notice) : Keyed.keys (s.told n).runs = Keyed.keys s.runs := by
  obtain ⟨now, _ | _ | _⟩ := n
  · exact Keyed.keys_modify ..
  · exact Keyed.keys_modify ..
  · rfl

/-- Notices add no run. -/
theorem keys_foldl_told (s : RunState) (notices : List (Nat × Notice)) :
    Keyed.keys (notices.foldl told s).runs = Keyed.keys s.runs := by
  induction notices generalizing s with
  | nil => rfl
  | cons n notices ih => exact (ih _).trans (keys_told s n)

/-- The errors of notices are added in their order. -/
theorem errors_foldl_told (s : RunState) (notices : List (Nat × Notice)) :
    (notices.foldl told s).errors = s.errors ++ notices.flatMap (·.2.failures) := by
  induction notices generalizing s with
  | nil => simp
  | cons n notices ih =>
    have hn : (s.told n).errors = s.errors ++ n.2.failures := by
      obtain ⟨now, _ | _ | _⟩ := n <;> simp [told, markRunning, addOutcome, markCancelled, Notice.failures]
    rw [List.foldl_cons, ih, hn, List.flatMap_cons, List.append_assoc]

/-- A run is cancelled once one of its notices tells so. -/
theorem cancelled_foldl_told (s : RunState) (notices : List (Nat × Notice)) :
    (notices.foldl told s).cancelled = (s.cancelled || notices.any (·.2.cancels)) := by
  induction notices generalizing s with
  | nil => simp
  | cons n notices ih =>
    have hn : (s.told n).cancelled = (s.cancelled || n.2.cancels) := by
      obtain ⟨now, _ | _ | _⟩ := n <;> simp [told, markRunning, addOutcome, markCancelled, Notice.cancels]
    rw [List.foldl_cons, ih, hn, List.any_cons, Bool.or_assoc]

/-- At the start every step is pending. -/
theorem start_get? {ids : List String} {id : String} (hid : id ∈ ids) (workflow : String) (now : Nat) :
    Keyed.get? (start workflow ids now).runs id = some (.pending id) := by
  have hentries : ∀ e ∈ ids.map fun id => (id, StepRun.pending id), e.2 = StepRun.pending e.1 := by
    intro e he
    obtain ⟨id, -, rfl⟩ := List.mem_map.mp he
    rfl
  refine (Keyed.get?_ofList hentries id).trans (if_pos ?_)
  simpa [Function.comp_def] using hid

/-- A pending run is open. -/
theorem pending_open (id : String) : (StepRun.pending id).Open := ⟨rfl, rfl, rfl⟩

/-- The failures of other steps are not those of a step. -/
theorem filter_failureOf (id k : String) (continueOnError : Bool) (outcome : Outcome String) :
    (failureOf k continueOnError outcome).filter (·.id = id) = if k = id then failureOf k continueOnError outcome else [] := by
  cases outcome with
  | failed message => by_cases hk : k = id <;> cases continueOnError <;> simp [failureOf, hk]
  | skipped => simp [failureOf]
  | completed output => simp [failureOf]
  | cancelled => simp [failureOf]

/-- What is not the end of a step adds no failure of it. -/
theorem filter_failures {id : String} {notices : List (Nat × Notice)} (hn : ∀ n ∈ notices, n.2.ends id = false) :
    (notices.flatMap (·.2.failures)).filter (·.id = id) = [] := by
  rw [List.filter_flatMap, List.flatMap_eq_nil_iff]
  intro n hmem
  have hn := hn n hmem
  cases hnotice : n.2 with
  | ended k outcome continueOnError =>
    have hk : k ≠ id := by simpa [hnotice, Notice.ends] using hn
    rw [Notice.failures, filter_failureOf, if_neg hk]
  | started k => rfl
  | cancelled => rfl

/-- The failure of closing a record. -/
def lateFailure (cancelled : Bool) (id : String) (r : StepRun) : List StepFailure :=
  match closing? cancelled r with
  | none => []
  | some outcome => failureOf id false outcome

/-- Of the failures of closing the records, that of a step is the one of its own record. -/
theorem filter_lateFailure {entries : Keyed StepRun} (hs : Keyed.Sorted entries) (cancelled : Bool) {id : String} {r : StepRun}
    (hr : Keyed.get? entries id = some r) :
    (entries.flatMap fun e => lateFailure cancelled e.1 e.2).filter (·.id = id) = lateFailure cancelled id r := by
  have hown (k : String) (r : StepRun) :
      (lateFailure cancelled k r).filter (·.id = id) = if k = id then lateFailure cancelled k r else [] := by
    unfold lateFailure
    split
    · simp
    · exact filter_failureOf ..
  have hmem : (id, r) ∈ entries := by
    obtain ⟨e, he, rfl⟩ := Option.map_eq_some_iff.mp hr
    obtain rfl : e.1 = id := by simpa using List.find?_some he
    exact List.mem_of_find?_eq_some he
  have hnd : (entries.map (·.1)).Nodup := Names.Sorted.nodup hs
  obtain ⟨before, after, rfl, hothers, -⟩ := split_of_nodup (·.1) hnd hmem
  have hnone : ∀ e ∈ before ++ after, (lateFailure cancelled e.1 e.2).filter (·.id = id) = [] := by
    intro e he
    rw [← hothers] at he
    rw [hown, if_neg (by simpa using (List.mem_filter.mp he).2)]
  rw [List.flatMap_append, List.flatMap_cons, List.filter_append, List.filter_append, List.filter_flatMap, List.filter_flatMap,
    List.flatMap_eq_nil_iff.mpr fun e he => hnone e (List.mem_append_left _ he),
    List.flatMap_eq_nil_iff.mpr fun e he => hnone e (List.mem_append_right _ he), hown, if_pos rfl, List.nil_append,
    List.append_nil]

/-! ## Ends -/

section Ended

variable {id : String} {before after : List (Nat × Notice)}

/-- What a run, in which one end of a step is told, says of the step when it is closed. -/
theorem result_of_ended {ids : List String} (hid : id ∈ ids) (hbefore : ∀ n ∈ before, n.2.ends id = false)
    (hafter : ∀ n ∈ after, n.2.ends id = false) (workflow : String) (start now later : Nat) (outcome : Outcome String)
    (continueOnError : Bool) :
    let s := (before ++ (now, .ended id outcome continueOnError) :: after).foldl told (RunState.start workflow ids start)
    ∃ r : StepRun, Keyed.get? (s.result later).steps id = some (closeRun later s.cancelled r) ∧ r.Keeps outcome ∧
      r.status = (if after.any (·.2.starts id) then .running else outcome.status) ∧
      (s.result later).errors.filter (·.id = id) =
        failureOf id continueOnError outcome ++ lateFailure s.cancelled id r := by
  intro s
  let opened := before.foldl (StepRun.told id) (.pending id)
  let r := after.foldl (StepRun.told id) (opened.finish now outcome)
  have hopen : opened.Open := (pending_open id).foldl_told hbefore
  have hget : Keyed.get? s.runs id = some r := by
    rw [get?_foldl_told, start_get? hid, Option.map_some, List.foldl_append, List.foldl_cons, StepRun.told, if_pos rfl]
  have hsorted : Keyed.Sorted s.runs := by
    rw [Keyed.Sorted, keys_foldl_told]
    exact Keyed.sorted_ofList _
  refine ⟨r, ?_, (hopen.keeps now outcome).foldl_told hafter, ?_, ?_⟩
  · exact (Keyed.get?_map s.runs id (closeRun later s.cancelled)).trans (by rw [hget, Option.map_some])
  · rw [StepRun.status_foldl_told hafter, StepRun.status_finish]
  · show (s.errors ++ s.runs.flatMap fun e => lateFailure s.cancelled e.1 e.2).filter _ = _
    rw [List.filter_append, filter_lateFailure hsorted _ hget, errors_foldl_told, List.flatMap_append, List.flatMap_cons,
      List.filter_append, List.filter_append, List.filter_append, filter_failures hbefore, filter_failures hafter, Notice.failures,
      filter_failureOf, if_pos rfl]
    simp [RunState.start]

/-- A step that ended is reported with its outcome, if and only if no start of it is told after its end, or the outcome is that it
was skipped and the run is cancelled. -/
theorem reports_iff_no_late_start {ids : List String} (hid : id ∈ ids) (hbefore : ∀ n ∈ before, n.2.ends id = false)
    (hafter : ∀ n ∈ after, n.2.ends id = false) (workflow : String) (start now later : Nat) (outcome : Outcome String)
    (continueOnError : Bool) :
    (((before ++ (now, .ended id outcome continueOnError) :: after).foldl told (RunState.start workflow ids start)).result
        later).Reports id outcome continueOnError ↔
      (∀ n ∈ after, n.2.starts id = false) ∨ outcome.status = .skipped ∧ ∃ n ∈ before ++ after, n.2.cancels = true := by
  obtain ⟨r, hrecord, hkeeps, hstatus, hfailures⟩ :=
    result_of_ended hid hbefore hafter workflow start now later outcome continueOnError
  have hcancelled := cancelled_foldl_told (RunState.start workflow ids start)
    (before ++ (now, .ended id outcome continueOnError) :: after)
  generalize (before ++ (now, .ended id outcome continueOnError) :: after).foldl told (RunState.start workflow ids start) = s at *
  have hcancels : s.cancelled = true ↔ ∃ n ∈ before ++ after, n.2.cancels = true := by
    rw [hcancelled]
    simp [RunState.start, Notice.cancels, or_and_right, exists_or]
  rw [← hcancels]
  by_cases hlate : after.any (·.2.starts id) = true
  · have hnot : ¬∀ n ∈ after, n.2.starts id = false := by simpa using hlate
    rw [if_pos hlate] at hstatus
    rw [or_iff_right hnot]
    cases hc : s.cancelled with
    | true =>
      have hclosing : closing? true r = some .cancelled := by simp [closing?, hstatus, StepStatus.terminal]
      simp only [hc, closeRun, lateFailure, hclosing, failureOf, List.append_nil] at hrecord hfailures
      refine ⟨fun h => ⟨?_, rfl⟩, fun h => ⟨⟨_, hrecord, h.1.symm, hkeeps.output, hkeeps.error⟩, hfailures⟩⟩
      obtain ⟨r', hr', hstatus', -⟩ := h.record
      rw [← hstatus', ← Option.some.inj (hrecord.symm.trans hr')]
      rfl
    | false =>
      refine ⟨fun h => ?_, fun h => absurd h.2 Bool.false_ne_true⟩
      have hlength := congrArg List.length (hfailures.symm.trans h.failures)
      simp [hc, lateFailure, closing?, hstatus, StepStatus.terminal, failureOf] at hlength
  · have hno : ∀ n ∈ after, n.2.starts id = false := by simpa using hlate
    rw [if_neg hlate] at hstatus
    have hclosing : closing? s.cancelled r = none := by simp [closing?, hstatus, Outcome.terminal_status]
    simp only [closeRun, lateFailure, hclosing, List.append_nil] at hrecord hfailures
    exact iff_of_true ⟨⟨r, hrecord, hstatus, hkeeps.output, hkeeps.error⟩, hfailures⟩ (.inl hno)

end Ended

/-- Of a cancelled run: a step that started before it ended, and one whose start is told after it was skipped. -/
theorem reports_iff_no_late_start_of_two :
    let notices : List (Nat × Notice) := [(1, .started "a"), (2, .ended "a" (.completed (.str "done")) false),
      (2, .ended "b" .skipped false), (3, .cancelled), (4, .started "b")]
    let result := (notices.foldl told (RunState.start "w" ["a", "b"] 0)).result 5
    ("a" ∈ ["a", "b"] ∧ (∀ n ∈ notices.take 1, n.2.ends "a" = false) ∧ (∀ n ∈ notices.drop 2, n.2.ends "a" = false) ∧
      result.Reports "a" (.completed (.str "done")) false) ∧
    "b" ∈ ["a", "b"] ∧ (∀ n ∈ notices.take 2, n.2.ends "b" = false) ∧ (∀ n ∈ notices.drop 3, n.2.ends "b" = false) ∧
      result.Reports "b" .skipped false := by
  intro notices result
  have hab : ∀ n ∈ notices.take 1, n.2.ends "a" = false := by decide
  have haa : ∀ n ∈ notices.drop 2, n.2.ends "a" = false := by decide
  have hbb : ∀ n ∈ notices.take 2, n.2.ends "b" = false := by decide
  have hba : ∀ n ∈ notices.drop 3, n.2.ends "b" = false := by decide
  have hcancels : ∃ n ∈ notices.take 2 ++ notices.drop 3, n.2.cancels = true := ⟨(3, .cancelled), by simp [notices], rfl⟩
  exact ⟨⟨by simp, hab, haa, (reports_iff_no_late_start (by simp) hab haa "w" 0 2 5 _ false).mpr (.inl (by decide))⟩,
    by simp, hbb, hba, (reports_iff_no_late_start (by simp) hbb hba "w" 0 2 5 .skipped false).mpr (.inr ⟨rfl, hcancels⟩)⟩

/-- A start told late turns a step that completed into an error of the run. -/
theorem late_start_reopens :
    let notices : List (Nat × Notice) := [(1, .ended "a" (.completed .null) false), (2, .started "a")]
    let result := (notices.foldl told (RunState.start "w" ["a"] 0)).result 3
    ¬result.Reports "a" (.completed .null) false ∧ result.errors = [⟨"a", "step never finished (was running)"⟩] := by
  intro notices result
  have herrors : result.errors = [⟨"a", "step never finished (was running)"⟩] := by decide
  refine ⟨fun h => ?_, herrors⟩
  have hfailures := h.failures
  rw [herrors] at hfailures
  revert hfailures
  decide

end RunState

end Runbook
