import Runbook.Proofs.Runs

/-!
# How many calls are in flight

A step waits for one call, or for as many of a gathering as its width allows. A reply makes room for as many calls as it took out of
flight, so however long a step goes on, it never waits for more calls than one iterating step may make at a time.
-/

namespace Runbook

/-! ## Gatherings -/

/-- There are as many calls as slots in flight. -/
theorem Slot.length_calls (place : Nat) (slots : List Slot) : (calls place slots).length = slots.countP isFlying := by
  induction slots generalizing place with
  | nil => rfl
  | cons slot slots ih => cases slot <;> simp [calls, isFlying, ih, List.countP_cons]

namespace Gathering

/-- Calls are begun only while there is room. -/
theorem fillFrom_flying_le (scope : Scope) (token : CancelToken) {width : Nat} {begun : List Slot} (h : begun.countP Slot.isFlying ≤ width)
    (jobs : List Job) : (fillFrom scope token width begun jobs).flying ≤ width := by
  induction jobs generalizing token begun with
  | nil => exact h
  | cons job jobs ih =>
    unfold fillFrom
    split
    · rename_i err _
      refine ih token ?_
      rw [List.countP_append]
      exact h
    · rename_i call _
      split
      · exact h
      · rename_i hroom
        split
        · exact h
        · refine ih token.checked ?_
          rw [List.countP_append, List.countP_singleton, Slot.isFlying, if_pos rfl]
          omega

/-- A gathering that is filled up has no more calls in flight than it is wide. -/
theorem fill_flying_le (scope : Scope) (token : CancelToken) {g : Gathering} (h : g.flying ≤ g.width) :
    (g.fill scope token).flying ≤ (g.fill scope token).width := by
  rw [fill_width]
  unfold fill
  split
  · exact h
  · exact fillFrom_flying_le scope token h g.jobs

end Gathering

/-! ## Procedures -/

namespace Proc

/-- A procedure that gathers no more than some number of replies at a time. -/
inductive Narrow (n : Nat) : Proc α → Prop
  | done {a : α} : Narrow n (.done a)
  | read {next : Scope → Proc α} (rest : ∀ s, Narrow n (next s)) : Narrow n (.read next)
  | poll {next : Bool → Proc α} (rest : ∀ b, Narrow n (next b)) : Narrow n (.poll next)
  | note {x : Note} {next : Proc α} (rest : Narrow n next) : Narrow n (.note x next)
  | call {c : Call} {next : Reply → Proc α} (rest : ∀ r, Narrow n (next r)) : Narrow n (.call c next)
  | gather {g : Gathering} {next : Gathered → Proc α} (room : g.width ≤ n) (flying : g.flying ≤ g.width)
      (rest : ∀ r, Narrow n (next r)) : Narrow n (.gather g next)

namespace Narrow

variable {n : Nat}

/-- A procedure is narrow if it is and all that follows it is. -/
theorem bind {p : Proc α} {f : α → Proc β} (h : p.Narrow n) (hf : ∀ a, (f a).Narrow n) : (p.bind f).Narrow n := by
  induction h with
  | done => exact hf _
  | read _ ih => exact .read ih
  | poll _ ih => exact .poll ih
  | note _ ih => exact .note ih
  | call _ ih => exact .call ih
  | gather room flying _ ih => exact .gather room flying ih

/-- A procedure is as narrow in an inner scope. -/
theorem within {p : Proc α} (h : p.Narrow n) (inner : Scope → Scope) : (p.within inner).Narrow n := by
  induction h with
  | done => exact .done
  | read _ ih => exact .read fun s => ih (inner s)
  | poll _ ih => exact .poll ih
  | note _ ih => exact .note ih
  | call _ ih => exact .call ih
  | gather room flying _ ih => exact .gather room flying ih

/-- A procedure that goes on to its next rest stays narrow. -/
theorem settle {p : Proc α} (h : p.Narrow n) (scope : Scope) (token : CancelToken) : (p.settle scope token).proc.Narrow n := by
  induction h generalizing token with
  | done => exact .done
  | read _ ih => exact ih scope token
  | poll _ ih => exact ih _ token.checked
  | note _ ih => exact ih token
  | call rest _ => exact .call rest
  | gather room flying rest ih =>
    unfold Proc.settle
    dsimp only
    split
    · exact .gather room flying rest
    split
    · exact .gather (by rwa [Gathering.fill_width]) (Gathering.fill_flying_le scope token flying) rest
    · exact ih _ token

/-- A reply to a call takes it out of flight. -/
theorem reply {p : Proc α} (h : p.Narrow n) {index : CallIndex} {c : Call} (hc : (index, c) ∈ p.waitingFor) (r : Reply) :
    (p.reply index r).Narrow n := by
  cases h with
  | done => cases hc
  | read _ => cases hc
  | poll _ => cases hc
  | note _ => cases hc
  | call rest =>
    cases index with
    | none => exact rest r
    | some i => exact .call rest
  | @gather g next room flying rest =>
    obtain ⟨⟨i, c'⟩, hmem, heq⟩ := List.mem_map.mp hc
    obtain ⟨rfl, rfl⟩ : some i = index ∧ c' = c := by simpa using heq
    have hreply := Gathering.flying_reply hmem r
    have hflying : (g.reply i r).flying ≤ g.width := by omega
    exact .gather room hflying rest

end Narrow

end Proc

/-! ## Steps -/

namespace Engine

variable {n : Nat} {path : List String} {s : Step}

/-- To note failures is narrow. -/
theorem noteFailures_narrow (path : List String) (results : List (Except StepError Value)) {next : Proc α} (h : next.Narrow n) :
    (noteFailures path results next).Narrow n := by
  induction results with
  | nil => exact h
  | cons r rest ih =>
    cases r with
    | error err => exact .note ih
    | ok v => exact ih

/-- To come to an outcome is narrow. -/
theorem conclude_narrow (path : List String) (r : Except StepError Value) : (conclude path r).Narrow n := by
  cases r with
  | ok v => exact .done
  | error err => exact .note .done

/-- A step under its condition is narrow if the step is. -/
theorem guard_narrow (path : List String) (s : Step) {run : Proc (Outcome StepError)} (h : run.Narrow n) :
    (guard path s run).Narrow n := by
  refine .read ?_
  intro scope
  split
  · exact h
  · exact .done
  · exact conclude_narrow path _

/-- To call a tool once is narrow. -/
theorem callOnce_narrow (e : Engine) (path : List String) (s : Step) : (e.callOnce path s).Narrow n := by
  refine .read ?_
  intro scope
  split
  · exact .done
  · split
    · exact .call fun _ => .done
    · exact .done

/-- To go through a sequence is narrow if what is done with its items is. -/
theorem iterate_narrow (e : Engine) (path : List String) (s : Step)
    {run : List Value → Proc (Except StepError (List (Except IterationError Value) × Bool))} (h : ∀ items, (run items).Narrow n) :
    (e.iterate path s run).Narrow n := by
  refine .read ?_
  intro scope
  split
  · exact .done
  · refine (h _).bind ?_
    intro r
    split
    · exact .done
    · exact .note .done

/-- The calls of an iterating step are gathered as its slots allow. -/
theorem callEach_narrow (e : Engine) (path : List String) (s : Step) (items : List Value) :
    (e.callEach path s items).Narrow e.settings.loopSlots := by
  unfold callEach
  split
  · exact .gather (Nat.le_refl _) (Nat.zero_le _) fun g => noteFailures_narrow path g.results .done
  · exact .done

/-- Iterations of a body follow one another. -/
theorem runEach_narrow {body : Value → Nat → Proc (Except IterationError Value)} (h : ∀ item index, (body item index).Narrow n)
    (results : List (Except IterationError Value)) (index : Nat) (items : List Value) :
    (runEach body results index items).Narrow n := by
  induction items generalizing results index with
  | nil => exact .done
  | cons item items ih =>
    refine .poll ?_
    intro cancelled
    split
    · exact .done
    · exact (h item index).bind fun r => ih (r :: results) (index + 1)

/-- To run a body is narrow if each of its plans is. -/
theorem runBody_narrow (e : Engine) {ps : List Plan} (h : ∀ p ∈ ps, (e.dispatch (path ++ [p.step.id]) p).Narrow n) (item : Value)
    (index : Nat) (locals outputs : Fields) : (runBody e path item index locals outputs ps).Narrow n := by
  induction ps generalizing locals outputs with
  | nil => exact .done
  | cons p ps ih =>
    have hrest := ih fun q hq => h q (List.mem_cons_of_mem _ hq)
    have hguard := guard_narrow (path ++ [p.step.id]) p.step (h p List.mem_cons_self)
    unfold runBody
    refine (hguard.within _).bind ?_
    intro outcome
    dsimp only
    split
    · split
      · exact hrest _ _
      · exact .done
    · exact hrest _ _
    · exact hrest _ _
    · exact hrest _ _

/-- No step waits for more calls at a time than an iterating step may make, nor does any step of its body. -/
theorem dispatch_narrow (e : Engine) {topIds : List String} {p : Plan} (hp : p.Faultless topIds) (path : List String) :
    (e.dispatch path p).Narrow e.settings.loopSlots := by
  induction hp generalizing path with
  | @single s _ _ =>
    unfold dispatch
    refine Proc.Narrow.bind ?_ fun r => conclude_narrow path r
    split
    · exact iterate_narrow e path s fun items => callEach_narrow e path s items
    · exact callOnce_narrow e path s
  | @loop s body _ _ _ _ _ _ ih =>
    unfold dispatch
    refine Proc.Narrow.bind ?_ fun r => conclude_narrow path r
    refine iterate_narrow e path s fun items => runEach_narrow ?_ [] 0 items
    exact fun item index => runBody_narrow e (fun q hq => ih q hq _) item index [] []

end Engine

/-- What a task does once it has begun is as narrow as the width of iterating steps. -/
theorem Task.begun_narrow (e : Engine) {topIds : List String} {t : Task} (hp : t.plan.Faultless topIds)
    (decision : Except StepError Bool) : (t.begun e decision).Narrow e.settings.loopSlots := by
  cases decision with
  | error err => exact Engine.conclude_narrow [t.id] (.error err)
  | ok b =>
    cases b with
    | true => exact Engine.dispatch_narrow e hp [t.id]
    | false => exact .done

end Runbook
