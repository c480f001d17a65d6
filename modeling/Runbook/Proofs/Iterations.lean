import Runbook.Proofs.Endings
import Runbook.Proofs.Execution

/-!
# Accounting for iterations

An iterating step whose items are known completes, whatever its iterations come to, if there are permits for the calls that it may make
at a time. Its output is the summary of the iterations that were begun, which are the first ones: every one of them is an output or an
error at its own index and with its own item. They are all of them, unless the run was cancelled on the way.
-/

namespace Runbook

/-- One iteration: what happened in it, and what it came to. -/
structure Iteration where
  acts : List Act
  result : Except IterationError Value

namespace Iteration

/-- What an iteration of a step over an item may be: its call could not be made, its call came back, or its body was run. -/
inductive Of (e : Engine) (path : List String) (scope : Scope) : Plan → Value → Nat → Iteration → Prop
  | refused {s : Step} {item : Value} {index : Nat} {err : StepError}
      (h : e.request path s (iterationScope item index [] scope) = .error err) :
      Of e path scope (.single s) item index ⟨[], .error (.call err)⟩
  | called {s : Step} {item : Value} {index : Nat} {c : Call} (h : e.request path s (iterationScope item index [] scope) = .ok c)
      (reply : Reply) :
      Of e path scope (.single s) item index
        ⟨[.made (some index) c, .back (some index) c reply], (c.result reply).mapError .call⟩
  | ran {s : Step} {body : List Plan} {item : Value} {index : Nat} {acts : List Act} {result : Except IterationError Value}
      (h : (e.runBody path item index [] [] body).Driven scope acts (.done result)) :
      Of e path scope (.loop s body) item index ⟨acts, result⟩

/-- The output of an iteration that has one. -/
def output? (it : Iteration) : Option Value := it.result.toOption

/-- The entry of an iteration that failed. -/
def failure? (index : Nat) (item : Value) (it : Iteration) : Option Value :=
  match it.result with
  | .ok _ => none
  | .error err => some (.obj [("index", .ofNat index), ("item", item), ("message", .str err.message)])

/-- The entries of the iterations that failed, by their indices. -/
def failures (items : List Value) (iterations : List Iteration) : List Value :=
  (items.zip iterations).zipIdx.filterMap fun ((item, it), index) => it.failure? index item

end Iteration

/-- An iterating step that can begin: it calls a tool that there is, or it has a body. -/
inductive Plan.Iterates (e : Engine) : Plan → Prop
  | tool {s : Step} (iterates : s.iterates = true) (has : e.hasTool s.tool = true) : Iterates e (.single s)
  | body {s : Step} {body : List Plan} : Iterates e (.loop s body)

/-- What going through items comes to: the first of them have their iterations, and all of them unless a check found the run cancelled,
which none does in a run that stays calm. What has happened is what happened in the iterations. -/
structure Plan.GoesThrough (e : Engine) (path : List String) (scope : Scope) (p : Plan) (items : List Value) (calm : Prop)
    (acts : List Act) (iterations : List Iteration) (cancelled : Bool) : Prop where
  within : iterations.length ≤ items.length
  whole : cancelled = false → iterations.length = items.length
  found : cancelled = true → ¬calm
  each : ∀ (index : Nat) (item : Value) (it : Iteration),
    items[index]? = some item → iterations[index]? = some it → it.Of e path scope p item index
  acts : acts.Perm (iterations.flatMap Iteration.acts)

namespace Engine

variable {e : Engine} {path : List String} {calm : Prop} {scope : Scope} {acts : List Act}

/-! ## Calling a tool for every item -/

/-- The job at a place is that of the item at it. -/
theorem getElem?_jobs (e : Engine) (path : List String) (s : Step) (items : List Value) (start index : Nat) :
    (e.jobs path s start items)[index]? = items[index]?.map fun item => e.job path s item (start + index) := by
  induction items generalizing start index with
  | nil => rfl
  | cons item items ih =>
    cases index with
    | zero => rfl
    | succ index => simpa [jobs, Nat.add_assoc, Nat.add_comm 1] using ih (start + 1) index

/-- What drives a procedure that notes failures drives what it goes on with. -/
theorem of_noteFailures {results : List (Except StepError Value)} {next q : Proc α}
    (h : (noteFailures path results next).DrivenIn calm scope acts q) : next.DrivenIn calm scope acts q := by
  induction results with
  | nil => exact h
  | cons r rest ih =>
    cases r with
    | error err => exact ih h.of_note
    | ok v => exact ih h

/-- An attempt at the job of an item, with its result, is an iteration. -/
theorem of_attempt {s : Step} {item : Value} {a : Attempt} {result : Except StepError Value} (hsound : a.Sound scope)
    (hjob : a.job = e.job path s item a.place) (hresult : a.slot.result? = some result) :
    Iteration.Of e path scope (.single s) item a.place ⟨a.acts, result.mapError .call⟩ := by
  cases hsound with
  | refused h =>
    obtain rfl := Option.some.inj hresult
    dsimp only at hjob
    subst hjob
    exact .refused h
  | flying h => cases hresult
  | finished h reply =>
    obtain rfl := Option.some.inj hresult
    dsimp only at hjob
    subst hjob
    exact .called h reply

/-- The attempts are at the jobs of the first items, each at its own index. -/
theorem attempt_at {s : Step} {items : List Value} {g : Gathering} {attempts : List Attempt}
    (h : g.Attempted calm scope (e.jobs path s 0 items) acts attempts) {index : Nat} {item : Value} {a : Attempt}
    (hitem : items[index]? = some item) (ha : attempts[index]? = some a) : a.place = index ∧ a.job = e.job path s item index := by
  have hindex : index < attempts.length := (List.getElem?_eq_some_iff.mp ha).1
  obtain ⟨dropped, hsplit, -⟩ := h.jobs
  constructor
  · have hget := congrArg (·[index]?) h.places
    rw [List.getElem?_map, ha, List.getElem?_range hindex] at hget
    exact Option.some.inj hget
  · have hget := getElem?_jobs e path s items 0 index
    rw [hsplit, List.getElem?_append_left (by simpa using hindex), List.getElem?_map, ha, hitem, Nat.zero_add] at hget
    exact Option.some.inj hget

/-- When there is a tool, what calling it for every item comes to is one iteration for every attempt. -/
theorem callEach_goesThrough {s : Step} {items : List Value} {r : Except StepError (List (Except IterationError Value) × Bool)}
    (has : e.hasTool s.tool = true) (h : (e.callEach path s items).DrivenIn calm scope acts (.done r)) :
    ∃ iterations cancelled, r = .ok (iterations.map Iteration.result, cancelled) ∧
      (Plan.single s).GoesThrough e path scope items calm acts iterations cancelled := by
  unfold callEach at h
  rw [if_pos has] at h
  obtain ⟨g, attempts, -, hdone⟩ | ⟨g, attempts, results, first, rest, hg, hr, hnext, rfl⟩ := h.of_gather
  · cases hdone
  obtain ⟨rfl, hdone⟩ := (of_noteFailures hnext).of_done
  obtain rfl := Proc.done.inj hdone
  obtain ⟨hjobs, hresults⟩ := hg.results hr
  obtain ⟨dropped, hsplit, hstop⟩ := hg.jobs
  rw [hjobs, List.nil_append] at hsplit
  have hlength := hresults.length_eq
  have hcount : attempts.length + dropped.length = items.length := by
    rw [← length_jobs e path s items 0, hsplit, List.length_append, List.length_map]
  have hfst : (attempts.zip results).map Prod.fst = attempts := List.map_fst_zip (Nat.le_of_eq hlength)
  have hsnd : (attempts.zip results).map Prod.snd = results := List.map_snd_zip (Nat.le_of_eq hlength.symm)
  have hzip : (attempts.zip results).length = attempts.length := by rw [List.length_zip, hlength, Nat.min_self]
  refine ⟨(attempts.zip results).map fun x => ⟨x.1.acts, x.2.mapError .call⟩, g.stopped, ?_, ?_, ?_, hg.stopped, ?_, ?_⟩
  · have hmap := congrArg (List.map (Except.mapError IterationError.call)) hsnd
    rw [List.map_map] at hmap
    rw [List.map_map]
    exact congrArg (fun results => Except.ok (results, g.stopped)) hmap.symm
  · rw [List.length_map]
    omega
  · intro hgoes
    rw [hstop hgoes, List.length_nil] at hcount
    rw [List.length_map]
    omega
  · intro index item it hitem hit
    rw [List.getElem?_map, Option.map_eq_some_iff] at hit
    obtain ⟨⟨a, result⟩, hat, rfl⟩ := hit
    obtain ⟨ha, -⟩ := List.getElem?_zip_eq_some.mp hat
    obtain ⟨rfl, hjob⟩ := attempt_at hg hitem ha
    have hresult := (List.forall₂_iff_zip.mp hresults).2 (List.mem_of_getElem? hat)
    exact of_attempt (hg.sound a (List.mem_of_getElem? ha)) hjob hresult
  · have hacts := hg.acts
    rw [← hfst, List.flatMap_map] at hacts
    rwa [List.append_nil, List.flatMap_map]

/-! ## Running a body for every item -/

/-- What running a body for every item comes to, after some results: one iteration after the other. -/
theorem runEach_goesThrough {body : Value → Nat → Proc (Except IterationError Value)} {items : List Value}
    {results : List (Except IterationError Value)} {start : Nat} {r : Except StepError (List (Except IterationError Value) × Bool)}
    (h : (runEach body results start items).DrivenIn calm scope acts (.done r)) :
    ∃ (iterations : List Iteration) (cancelled : Bool), r = .ok (results.reverse ++ iterations.map Iteration.result, cancelled) ∧
      iterations.length ≤ items.length ∧ (cancelled = false → iterations.length = items.length) ∧ (cancelled = true → ¬calm) ∧
      (∀ (index : Nat) (item : Value) (it : Iteration), items[index]? = some item → iterations[index]? = some it →
        (body item (start + index)).DrivenIn calm scope it.acts (.done it.result)) ∧
      acts = iterations.flatMap Iteration.acts := by
  induction items generalizing results start acts with
  | nil =>
    obtain ⟨rfl, hdone⟩ := h.of_done
    obtain rfl := Proc.done.inj hdone
    exact ⟨[], false, by simp, by simp, by simp, nofun, by simp, rfl⟩
  | cons item items ih =>
    obtain ⟨cancelled, hfound, h⟩ := h.of_poll
    split at h
    · rename_i hcancelled
      obtain ⟨rfl, hdone⟩ := h.of_done
      obtain rfl := Proc.done.inj hdone
      exact ⟨[], true, by simp, by simp, by simp, fun _ => hfound hcancelled, by simp, rfl⟩
    · obtain ⟨result, first, rest, hbody, hrest, rfl⟩ := h.of_bind_done
      obtain ⟨iterations, cancelled, rfl, hwithin, hwhole, hfound, heach, rfl⟩ := ih hrest
      refine ⟨⟨first, result⟩ :: iterations, cancelled, by simp, by simpa using hwithin, by simpa using hwhole, hfound, ?_, rfl⟩
      intro index item' it hitem hit
      cases index with
      | zero =>
        obtain rfl := Option.some.inj hitem
        obtain rfl := Option.some.inj hit
        exact hbody
      | succ index =>
        rw [show start + (index + 1) = start + 1 + index by omega]
        exact heach index item' it hitem hit

/-! ## Summing up -/

/-- The failures among results are those of the iterations, with their indices and items. -/
theorem map_value_failures (items : List Value) (iterations : List Iteration) (start : Nat) :
    (Summary.failures start items (iterations.map Iteration.result)).map FailedIteration.value =
      ((items.zip iterations).zipIdx start).filterMap fun ((item, it), index) => it.failure? index item := by
  induction iterations generalizing items start with
  | nil => cases items <;> rfl
  | cons it iterations ih =>
    cases items with
    | nil => rfl
    | cons item items =>
      have hrest := ih items (start + 1)
      obtain ⟨acts, result⟩ := it
      cases result with
      | ok v => simpa [Summary.failures, Iteration.failure?] using hrest
      | error err => simpa [Summary.failures, Iteration.failure?, FailedIteration.value] using hrest

/-- The summary of the iterations over the first items as a value. -/
theorem value_ofResults (all : List Value) (limit : Nat) (cancelled : Bool) (iterations : List Iteration) :
    (Summary.ofResults (all.take limit) ((all.take limit).length < all.length) cancelled (iterations.map Iteration.result)).value =
      .obj [("cancelled", .bool cancelled), ("errors", .arr (Iteration.failures (all.take limit) iterations)),
        ("failed", .ofNat (Iteration.failures (all.take limit) iterations).length),
        ("results", .arr (iterations.filterMap Iteration.output?)), ("succeeded", .ofNat (iterations.filterMap Iteration.output?).length),
        ("total", .ofNat (min all.length limit)), ("truncated", .bool (limit < all.length))] := by
  have houtputs : Summary.outputs (iterations.map Iteration.result) = iterations.filterMap Iteration.output? := by
    rw [Summary.outputs, List.filterMap_map]
    rfl
  have hfailures := map_value_failures (all.take limit) iterations 0
  have hcount := congrArg List.length hfailures
  rw [List.length_map] at hcount
  have htotal : (all.take limit).length = min all.length limit := by rw [List.length_take, Nat.min_comm]
  have htruncated : min all.length limit < all.length ↔ limit < all.length := by omega
  simp only [Summary.value, Summary.ofResults, houtputs, hfailures, hcount, htotal, htruncated, Iteration.failures]

/-- Going through items and summing up. -/
theorem of_iterate {p : Plan} {all : List Value}
    {run : List Value → Proc (Except StepError (List (Except IterationError Value) × Bool))} (hall : p.step.sequence scope = .ok all)
    (hrun : ∀ acts a, (run (all.take (e.maxIterations p.step))).DrivenIn calm scope acts (.done a) →
      ∃ iterations cancelled, a = .ok (iterations.map Iteration.result, cancelled) ∧
        p.GoesThrough e path scope (all.take (e.maxIterations p.step)) calm acts iterations cancelled)
    {outcome : Outcome StepError} (h : ((e.iterate path p.step run).bind (conclude path)).DrivenIn calm scope acts (.done outcome)) :
    ∃ iterations cancelled,
      outcome = .completed (Summary.ofResults (all.take (e.maxIterations p.step)) ((all.take (e.maxIterations p.step)).length < all.length)
        cancelled (iterations.map Iteration.result)).value ∧
      p.GoesThrough e path scope (all.take (e.maxIterations p.step)) calm acts iterations cancelled := by
  obtain ⟨r, first, rest, hiterate, hconclude, rfl⟩ := h.of_bind_done
  have hiterate := hiterate.of_read
  rw [hall] at hiterate
  obtain ⟨a, begun, more, hbegun, hsum, rfl⟩ := hiterate.of_bind_done
  obtain ⟨iterations, cancelled, rfl, hthrough⟩ := hrun begun a hbegun
  obtain ⟨rfl, hdone⟩ := hsum.of_note.of_done
  obtain rfl := Proc.done.inj hdone
  obtain ⟨rfl, hdone⟩ := hconclude.of_done
  obtain rfl := Proc.done.inj hdone
  rw [List.append_nil, List.append_nil]
  exact ⟨iterations, cancelled, rfl, hthrough⟩

/-- What a step that can begin comes to that goes through its items. -/
theorem dispatch_goesThrough {p : Plan} (hp : p.Iterates e) {all : List Value} (hall : p.step.sequence scope = .ok all)
    {outcome : Outcome StepError} (h : (e.dispatch path p).DrivenIn calm scope acts (.done outcome)) :
    ∃ iterations cancelled,
      outcome = .completed (Summary.ofResults (all.take (e.maxIterations p.step)) ((all.take (e.maxIterations p.step)).length < all.length)
        cancelled (iterations.map Iteration.result)).value ∧
      p.GoesThrough e path scope (all.take (e.maxIterations p.step)) calm acts iterations cancelled := by
  cases hp with
  | @tool s iterates has =>
    unfold dispatch at h
    rw [if_pos iterates] at h
    exact of_iterate (p := .single s) hall (fun _ _ hrun => callEach_goesThrough has hrun) h
  | @body s body =>
    unfold dispatch at h
    refine of_iterate (p := .loop s body) hall ?_ h
    intro acts a hrun
    obtain ⟨iterations, cancelled, rfl, hwithin, hwhole, hfound, heach, rfl⟩ := runEach_goesThrough hrun
    refine ⟨iterations, cancelled, rfl, hwithin, hwhole, hfound, ?_, .refl _⟩
    intro index item it hitem hit
    exact .ran (by simpa using (heach index item it hitem hit).driven)

/-- An admitted step that goes through the items of a sequence completes, whatever its iterations come to, if there are permits for the
calls that it may make at a time. Its output is the account of the iterations that were begun: they are the first ones of as many items
as the limit allows, and all of these unless a check found the run cancelled. Each is counted once, as an output or as an error at its
own index and with its own item, both in the order of the items; and all that happened is what happened in the iterations. -/
theorem iterations_accounted (e : Engine) (path : List String) {p : Plan} (hp : p.Iterates e) {scope : Scope} {all : List Value}
    (hadmits : p.step.admits scope = .ok true) (hall : p.step.sequence scope = .ok all) :
    (e.settings.loopSlots ≤ Semaphore.maxPermits → ∀ token, ((e.execute path p).settle scope token).proc.Ends scope) ∧
    ∀ calm acts outcome, (e.execute path p).DrivenIn calm scope acts (.done outcome) →
      ∃ (iterations : List Iteration) (cancelled : Bool),
        let limit := e.maxIterations p.step
        let outputs := iterations.filterMap Iteration.output?
        let errors := Iteration.failures (all.take limit) iterations
        outcome = .completed (.obj [("cancelled", .bool cancelled), ("errors", .arr errors), ("failed", .ofNat errors.length),
          ("results", .arr outputs), ("succeeded", .ofNat outputs.length), ("total", .ofNat (min all.length limit)),
          ("truncated", .bool (limit < all.length))]) ∧
        p.GoesThrough e path scope (all.take limit) calm acts iterations cancelled := by
  refine ⟨fun hloops => execute_ends e hloops path p scope, ?_⟩
  intro calm acts outcome h
  have hdispatch : (e.dispatch path p).DrivenIn calm scope acts (.done outcome) := by
    have hread := h.of_read
    rwa [hadmits] at hread
  obtain ⟨iterations, cancelled, rfl, hthrough⟩ := dispatch_goesThrough hp hall hdispatch
  exact ⟨iterations, cancelled, congrArg Outcome.completed (value_ofResults ..), hthrough⟩

/-- Of four items three are processed, two at a time: one call panics, one takes too long, and one returns. -/
theorem iterations_accounted_of_mixture : ∃ (acts : List Act) (outcome : Outcome StepError) (iterations : List Iteration),
    let e : Engine := ⟨{ EngineSettings.default with loopConcurrency := 2 }, fun _ => true⟩
    let p : Plan := .single { Step.empty with id := "each", tool := "http", forEach := some "xs", maxIterations := some 3 }
    let all : List Value := [.str "a", .str "b", .str "c", .str "d"]
    let scope := Scope.ofValue (.obj [("xs", .arr all)])
    p.Iterates e ∧ p.step.admits scope = .ok true ∧ p.step.sequence scope = .ok all ∧
    e.settings.loopSlots ≤ Semaphore.maxPermits ∧ (∀ token, ((e.execute ["each"] p).settle scope token).proc.Ends scope) ∧
    (e.execute ["each"] p).DrivenIn True scope acts (.done outcome) ∧
    (iterations.filterMap Iteration.output?).length = 1 ∧ (Iteration.failures (all.take 3) iterations).length = 2 ∧
    p.GoesThrough e ["each"] scope (all.take 3) True acts iterations false := by
  let e : Engine := ⟨{ EngineSettings.default with loopConcurrency := 2 }, fun _ => true⟩
  let p : Plan := .single { Step.empty with id := "each", tool := "http", forEach := some "xs", maxIterations := some 3 }
  let all : List Value := [.str "a", .str "b", .str "c", .str "d"]
  let scope := Scope.ofValue (.obj [("xs", .arr all)])
  let replies : List (CallIndex × Reply) := [(some 1, .answer .panic), (some 2, .timedOut), (some 0, .answer (.value .null))]
  let count (output : Value) (name : String) : Option Nat := (Step.items (output.get? name)).toOption.map List.length
  let told : Outcome StepError → Option (Bool × Option Nat × Option Nat)
    | .completed output => some (Value.truthy (output.get? "cancelled"), count output "errors", count output "results")
    | .skipped | .failed _ | .cancelled => none
  have htold : ((e.execute ["each"] p).drive scope replies).result?.bind told = some (false, some 2, some 1) := by decide +kernel
  obtain ⟨outcome, hlast, htold⟩ := Option.bind_eq_some_iff.mp htold
  obtain ⟨acts, hdriven⟩ := Proc.exists_drivenIn_drive True scope (e.execute ["each"] p) replies
  rw [Proc.result?_eq_some.mp hlast] at hdriven
  have hp : p.Iterates e := .tool rfl rfl
  have hall : p.step.sequence scope = .ok all := by with_unfolding_all rfl
  have hloops : e.settings.loopSlots ≤ Semaphore.maxPermits := by decide
  obtain ⟨hends, haccounts⟩ := iterations_accounted e ["each"] hp rfl hall
  obtain ⟨iterations, cancelled, rfl, hthrough⟩ := haccounts True acts outcome hdriven
  obtain ⟨rfl, herrors, houtputs⟩ : cancelled = false ∧
      (Iteration.failures (all.take (e.maxIterations p.step)) iterations).length = 2 ∧
      (iterations.filterMap Iteration.output?).length = 1 := by
    simpa [told, count, Value.get?, Value.fields?, Keyed.get?, Value.truthy, Step.items, Except.toOption] using htold
  exact ⟨acts, _, iterations, hp, rfl, hall, hloops, hends hloops, hdriven, houtputs, herrors, hthrough⟩

/-- When there are no permits for the calls that it may make at a time, an admitted step that calls a tool for every item panics before
it has made a call, and waits for nothing. -/
theorem execute_panics (path : List String) (scope : Scope) {s : Step} (iterates : s.iterates = true) (has : e.hasTool s.tool = true) {all : List Value}
    (hadmits : s.admits scope = .ok true) (hall : s.sequence scope = .ok all) (hwide : Semaphore.maxPermits < e.settings.loopSlots)
    (token : CancelToken) :
    let settled := (e.execute path (.single s)).settle scope token
    settled.proc.panics = true ∧ settled.proc.waitingFor = [] ∧ settled.calls = [] := by
  have hpanics : decide (Semaphore.maxPermits < e.settings.loopSlots) = true := decide_eq_true hwide
  unfold execute guard dispatch iterate callEach
  simp only [Proc.settle, Plan.step, hadmits, iterates, if_true, Proc.bind, hall, has, Gathering.tooWide, hpanics, Proc.panics, true_and, and_true]
  rfl

/-- With room for 2^61 calls at a time, which no semaphore has permits for, a step that calls a tool for every item does not come to an
outcome, though its items are known. -/
theorem wide_step_never_completes : ∃ (e : Engine) (p : Plan) (scope : Scope),
    p.Iterates e ∧ p.step.admits scope = .ok true ∧ p.step.sequence scope = .ok [.null] ∧
    (∀ token, ¬((e.execute ["each"] p).settle scope token).proc.Ends scope) ∧
    ∀ acts outcome, ¬(e.execute ["each"] p).Driven scope acts (.done outcome) := by
  let e : Engine := ⟨{ EngineSettings.default with loopConcurrency := 2 ^ 61 }, fun _ => true⟩
  let s : Step := { Step.empty with id := "each", tool := "http", forEach := some "xs" }
  let scope := Scope.ofValue (.obj [("xs", .arr [.null])])
  have hall : s.sequence scope = .ok [.null] := by with_unfolding_all rfl
  have hwide : Semaphore.maxPermits < e.settings.loopSlots := by decide
  have hpanics := execute_panics (e := e) ["each"] scope (s := s) rfl rfl rfl hall hwide
  refine ⟨e, .single s, scope, .tool rfl rfl, rfl, hall, ?_, ?_⟩
  · intro token hends
    obtain ⟨hpanics, hidle, -⟩ := hpanics token
    generalize ((Engine.execute e ["each"] (.single s)).settle scope token).proc = q at hends hpanics hidle
    cases hends with
    | done _ => cases hpanics
    | waits some _ => exact some hidle
  · intro acts outcome hdriven
    obtain ⟨token, hdone⟩ := hdriven.of_idle fun token => (hpanics token).2.1
    have hnever := (hpanics token).1
    rw [← hdone] at hnever
    cases hnever

end Engine

end Runbook
