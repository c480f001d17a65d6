import Runbook.Proofs.Conduct
import Runbook.Proofs.Places
import Runbook.Proofs.Resolving

/-!
# What executing a step may do

A step without faults calls its own tool with its own inputs, and so do the steps of its body, each at its own place. Whatever fails
on the way fails at run time: no text turns out to be no expression and no loop turns out to have no body.
-/

namespace Runbook

/-- The calls that a plan may make at a path: those of its own tool, with the inputs that some scope gives, and those of the steps
of its body. -/
inductive Plan.Makes (e : Engine) : List String → Plan → Call → Prop
  | own {path : List String} {s : Step} {scope : Scope} {inputs : Value} (resolved : s.inputs.resolve scope = .ok inputs)
      (available : e.hasTool s.tool = true) : Makes e path (.single s) ⟨path, s.tool, inputs, e.timeoutMs s⟩
  | body {path : List String} {s : Step} {body : List Plan} {p : Plan} {c : Call} (hp : p ∈ body)
      (h : Makes e (path ++ [p.step.id]) p c) : Makes e path (.loop s body) c

/-- What is behind the failure of an iteration. -/
def IterationError.cause : IterationError → StepError
  | call error => error
  | step _ error => error

/-- The notes that a plan may leave at a path. -/
inductive Plan.Leaves (e : Engine) : List String → Plan → Note → Prop
  | failed {path : List String} {p : Plan} {err : StepError} (cause : err.AtRunTime) : Leaves e path p (.failed path err)
  | iterated {path : List String} {p : Plan} {summary : Summary} (total : summary.total ≤ e.maxIterations p.step)
      (causes : ∀ f ∈ summary.errors, f.error.cause.AtRunTime) : Leaves e path p (.iterated path summary)
  | body {path : List String} {s : Step} {body : List Plan} {p : Plan} {n : Note} (hp : p ∈ body)
      (h : Leaves e (path ++ [p.step.id]) p n) : Leaves e path (.loop s body) n

/-- What the summary of a step says of the sequence that it goes through: of its items, as far as the most iterations reach, it counts
the output or failure of each, unless it says that the run was cancelled before. -/
structure Summary.Accounts (e : Engine) (s : Step) (all : List Value) (summary : Summary) : Prop where
  total : summary.total = min (e.maxIterations s) all.length
  truncated : summary.truncated = true ↔ e.maxIterations s < all.length
  processed : summary.cancelled = false → summary.results.length + summary.errors.length = summary.total
  causes : ∀ f ∈ summary.errors, f.error.cause.AtRunTime

/-- A conduct that allows a plan what it does at its own place, its body left aside. -/
structure Conduct.Allows (k : Conduct) (e : Engine) (path : List String) (p : Plan) : Prop where
  call : ∀ s, p = .single s → ∀ scope inputs, s.inputs.resolve scope = .ok inputs → e.hasTool s.tool = true →
    k.call ⟨path, s.tool, inputs, e.timeoutMs s⟩
  failed : ∀ err : StepError, err.AtRunTime → k.note (.failed path err)
  iterated : ∀ scope all summary, p.step.sequence scope = .ok all → summary.Accounts e p.step all → k.note (.iterated path summary)
  width : k.width e.settings.loopSlots

/-- The conduct of a plan. -/
def Plan.conduct (e : Engine) (path : List String) (p : Plan) : Conduct :=
  ⟨p.Makes e path, p.Leaves e path, (· = e.settings.loopSlots)⟩

/-- A result that is no failure but one at run time. -/
def Except.Sound (r : Except StepError α) : Prop := ∀ err, r = .error err → err.AtRunTime

/-- A result of an iteration that is no failure but one at run time. -/
def IterationError.Sound (r : Except IterationError Value) : Prop := ∀ err, r = .error err → err.cause.AtRunTime

/-- What the iterations of a step came to, without failures but those at run time. -/
def IterationError.AllSound (r : Except StepError (List (Except IterationError Value) × Bool)) : Prop :=
  Except.Sound r ∧ ∀ results, r = .ok results → ∀ result ∈ results.1, IterationError.Sound result

/-- What the iterations over items came to: each of them has its result, unless the run was cancelled before. -/
structure IterationError.Sums (items : List Value) (r : Except StepError (List (Except IterationError Value) × Bool)) : Prop where
  sound : IterationError.AllSound r
  within : ∀ results cancelled, r = .ok (results, cancelled) → results.length ≤ items.length
  whole : ∀ results, r = .ok (results, false) → results.length = items.length

/-- The outcome of a step that ran. -/
inductive Outcome.Ran : Outcome StepError → Prop
  | completed (output : Value) : Ran (.completed output)
  | failed {err : StepError} (cause : err.AtRunTime) : Ran (.failed err)

/-- The failures of a summary are those of the run if all results are. -/
theorem Summary.failures_sound {items : List Value} {results : List (Except IterationError Value)}
    (h : ∀ r ∈ results, IterationError.Sound r) (index : Nat) :
    ∀ f ∈ failures index items results, f.error.cause.AtRunTime := by
  induction items generalizing index results with
  | nil => simp [failures]
  | cons item items ih =>
    cases results with
    | nil => simp [failures]
    | cons r rest =>
      have hrest := ih (fun r hr => h r (List.mem_cons_of_mem _ hr)) (index + 1)
      cases r with
      | ok v => exact hrest
      | error err =>
        intro f hf
        rcases List.mem_cons.mp hf with rfl | hf
        · exact h _ (by simp) err rfl
        · exact hrest f hf

/-- Every result is counted, as an output or as a failure. -/
theorem Summary.length_outputs_add_failures {items : List Value} {results : List (Except IterationError Value)}
    (h : results.length ≤ items.length) (index : Nat) :
    (outputs results).length + (failures index items results).length = results.length := by
  induction results generalizing items index with
  | nil => cases items <;> rfl
  | cons r rest ih =>
    cases items with
    | nil => simp at h
    | cons item items =>
      have hrest := ih (show rest.length ≤ items.length by simpa using h) (index + 1)
      cases r with
      | ok v =>
        have houtputs : outputs (.ok v :: rest) = v :: outputs rest := rfl
        simp only [houtputs, failures, List.length_cons]
        omega
      | error err =>
        have houtputs : outputs (.error err :: rest) = outputs rest := rfl
        simp only [houtputs, failures, List.length_cons]
        omega

/-- Jobs that are never refused come to answers, and to errors that are met at run time. -/
theorem Gathered.MayBe.sound {jobs : List Job} {r : Gathered} (h : Gathered.MayBe jobs r)
    (hjobs : ∀ job ∈ jobs, ∀ scope, ∃ c, job scope = .ok c) : ∀ result ∈ r.results, Except.Sound result := by
  obtain ⟨taken, left, rfl, hgive, -⟩ := h
  have hresult {job : Job} (hjob : job ∈ taken) {result : Except StepError Value} (hmay : job.MayGive result) :
      Except.Sound result := by
    cases hmay with
    | @refused scope err h =>
      obtain ⟨c, hc⟩ := hjobs job (List.mem_append_left _ hjob) scope
      rw [h] at hc
      cases hc
    | replied reply h => exact fun err herr => Call.result_atRunTime herr
  intro result hmem
  obtain ⟨i, hi, rfl⟩ := List.getElem_of_mem hmem
  have hlength := hgive.length_eq
  exact hresult (List.getElem_mem (hlength ▸ hi)) (hgive.get (hlength ▸ hi) hi)

namespace Engine

variable {k : Conduct} {path : List String} {s : Step}

/-- A step makes its calls at its own place. -/
theorem request_path {e : Engine} {scope : Scope} {c : Call} (h : e.request path s scope = .ok c) : c.path = path := by
  unfold request at h
  cases hinputs : s.inputs.resolve scope with
  | error err => rw [hinputs] at h; cases h
  | ok inputs =>
    rw [hinputs] at h
    obtain rfl := Except.ok.inj h
    rfl

/-- The calls for items are made at the place of their step. -/
theorem path_of_mem_jobs {e : Engine} {items : List Value} {index : Nat} {job : Job} (hjob : job ∈ e.jobs path s index items)
    {scope : Scope} {c : Call} (h : job scope = .ok c) : c.path = path := by
  induction items generalizing index with
  | nil => simp [jobs] at hjob
  | cons item items ih =>
    rcases List.mem_cons.mp hjob with rfl | hjob
    · exact request_path h
    · exact ih hjob

/-- To note failures is allowed where the notes of failed steps are. -/
theorem noteFailures_obeys {P : α → Prop} {results : List (Except StepError Value)} {next : Proc α}
    (hnote : ∀ err : StepError, err.AtRunTime → k.note (.failed path err)) (hresults : ∀ r ∈ results, Except.Sound r)
    (hn : next.Obeys k P) : (noteFailures path results next).Obeys k P := by
  induction results with
  | nil => exact hn
  | cons r rest ih =>
    have hrest := ih fun r hr => hresults r (List.mem_cons_of_mem _ hr)
    cases r with
    | error err => exact .note (hnote err (hresults _ (by simp) err rfl)) hrest
    | ok v => exact hrest

/-- To come to an outcome is allowed where the notes of failed steps are. -/
theorem conclude_obeys (hnote : ∀ err : StepError, err.AtRunTime → k.note (.failed path err)) {r : Except StepError Value}
    (hr : Except.Sound r) : (conclude path r).Obeys k Outcome.Ran := by
  cases r with
  | ok v => exact .done (.completed v)
  | error err => exact .note (hnote err (hr err rfl)) (.done (.failed (hr err rfl)))

/-- A condition decides whether the step runs. -/
theorem guard_obeys {P : Outcome StepError → Prop} (own : s.Faultless) {run : Proc (Outcome StepError)} (hrun : run.Obeys k P)
    (hskip : P .skipped) : (guard path s run).Obeys k P := by
  refine .read ?_
  intro scope
  obtain ⟨b, hb⟩ := own.admits scope
  rw [hb]
  cases b with
  | true => exact hrun
  | false => exact .done hskip

/-- To call a tool once is allowed where its step is. -/
theorem callOnce_obeys (e : Engine) (own : s.Faultless) (hl : s.isLoop = false) (hk : k.Allows e path (.single s)) :
    (e.callOnce path s).Obeys k Except.Sound := by
  refine .read ?_
  intro scope
  obtain ⟨inputs, hinputs, hrequest⟩ := own.request e path hl scope
  simp only [hrequest]
  split
  · rename_i htool
    exact .call (hk.call s rfl scope inputs hinputs htool) fun r => .done fun err h => Call.result_atRunTime h
  · refine .done ?_
    intro err h
    obtain rfl := Except.error.inj h
    trivial

/-- What the items of a step come to is summed up. -/
theorem iterate_obeys (e : Engine) {p : Plan} (own : p.step.Faultless) (hsource : p.step.forEach.isSome = true)
    (hk : k.Allows e path p) {run : List Value → Proc (Except StepError (List (Except IterationError Value) × Bool))}
    (hrun : ∀ items, (run items).Obeys k (IterationError.Sums items)) :
    (e.iterate path p.step run).Obeys k Except.Sound := by
  refine .read ?_
  intro scope
  split
  · rename_i err herr
    refine .done ?_
    intro err' h
    obtain rfl := Except.error.inj h
    exact own.sequence_atRunTime hsource herr
  · rename_i all hall
    refine (hrun _).bind ?_
    intro r hr
    split
    · rename_i err
      refine .done ?_
      intro err' h
      obtain rfl := Except.error.inj h
      exact hr.sound.1 err rfl
    · rename_i results cancelled
      refine .note (hk.iterated scope all _ hall ⟨?_, ?_, ?_, ?_⟩) (.done nofun)
      · simp only [Summary.ofResults, List.length_take]
      · simp only [Summary.ofResults, List.length_take, decide_eq_true_eq]
        omega
      · rintro rfl
        exact (Summary.length_outputs_add_failures (hr.within results false rfl) 0).trans (hr.whole results rfl)
      · exact Summary.failures_sound (hr.sound.2 _ rfl) 0

/-- A job for an item calls the tool of the step with its inputs, resolved in some scope. -/
theorem jobs_made (path : List String) (e : Engine) (own : s.Faultless) (hl : s.isLoop = false) (items : List Value) (index : Nat) :
    ∀ job ∈ e.jobs path s index items, ∀ scope, ∃ scope' inputs,
      s.inputs.resolve scope' = .ok inputs ∧ job scope = .ok ⟨path, s.tool, inputs, e.timeoutMs s⟩ := by
  induction items generalizing index with
  | nil => simp [jobs]
  | cons item items ih =>
    intro j hj scope
    rcases List.mem_cons.mp hj with rfl | hj
    · exact ⟨_, own.request e path hl (iterationScope item index [] scope)⟩
    · exact ih (index + 1) j hj scope

/-- There is one job for every item. -/
theorem length_jobs (e : Engine) (path : List String) (s : Step) (items : List Value) (index : Nat) :
    (e.jobs path s index items).length = items.length := by
  induction items generalizing index with
  | nil => rfl
  | cons item items ih => exact congrArg (· + 1) (ih (index + 1))

/-- To call a tool for every item is allowed where its step is, and sums up what comes of them. -/
theorem callEach_obeys (e : Engine) (own : s.Faultless) (hl : s.isLoop = false) (hk : k.Allows e path (.single s))
    (items : List Value) : (e.callEach path s items).Obeys k (IterationError.Sums items) := by
  unfold callEach
  split
  · rename_i htool
    have hjobs := jobs_made path e own hl items 0
    have hlength := length_jobs e path s items 0
    refine .gather (Nat.le_max_left 1 _) hk.width ?_ ?_
    · intro job hjob scope c hc
      obtain ⟨scope', inputs, hinputs, hjob⟩ := hjobs job hjob scope
      obtain rfl := Except.ok.inj (hjob.symm.trans hc)
      exact hk.call s rfl scope' inputs hinputs htool
    · intro r hr
      have hresults := hr.sound fun job hjob scope => (hjobs job hjob scope).elim fun _ h => ⟨_, h.choose_spec.2⟩
      obtain ⟨taken, left, hsplit, hgive, hstop⟩ := hr
      rw [hsplit, List.length_append, hgive.length_eq] at hlength
      refine noteFailures_obeys hk.failed hresults (.done ⟨⟨nofun, ?_⟩, ?_, ?_⟩)
      · intro results h
        obtain rfl := Except.ok.inj h
        intro result hresult err herr
        obtain ⟨r', hr', rfl⟩ := List.mem_map.mp hresult
        cases r' with
        | ok v => cases herr
        | error cause =>
          obtain rfl := Except.error.inj herr
          exact hresults _ hr' cause rfl
      · intro results cancelled h
        obtain ⟨rfl, -⟩ := Prod.mk.inj (Except.ok.inj h)
        rw [List.length_map]
        omega
      · intro results h
        obtain ⟨rfl, hstopped⟩ := Prod.mk.inj (Except.ok.inj h)
        rw [List.length_map, ← hlength, hstop hstopped, List.length_nil, Nat.add_zero]
  · refine .done ⟨⟨?_, nofun⟩, nofun, nofun⟩
    intro err h
    obtain rfl := Except.error.inj h
    trivial

/-- The results that are there and the items to come are those of all items. -/
theorem runEach_obeys {body : Value → Nat → Proc (Except IterationError Value)}
    (hbody : ∀ item index, (body item index).Obeys k IterationError.Sound) {all items : List Value}
    {results : List (Except IterationError Value)} (hresults : ∀ r ∈ results, IterationError.Sound r)
    (hlength : results.length + items.length = all.length) (index : Nat) :
    (runEach body results index items).Obeys k (IterationError.Sums all) := by
  have hdone {results : List (Except IterationError Value)} (hresults : ∀ r ∈ results, IterationError.Sound r) (cancelled : Bool)
      (hwithin : results.length ≤ all.length) (hwhole : cancelled = false → results.length = all.length) :
      (Proc.done (.ok (results.reverse, cancelled))).Obeys k (IterationError.Sums all) := by
    refine .done ⟨⟨nofun, ?_⟩, ?_, ?_⟩
    · intro results' h
      obtain rfl := Except.ok.inj h
      intro result hresult
      exact hresults result (List.mem_reverse.mp hresult)
    · intro results' cancelled' h
      obtain ⟨rfl, -⟩ := Prod.mk.inj (Except.ok.inj h)
      rwa [List.length_reverse]
    · intro results' h
      obtain ⟨rfl, hcancelled⟩ := Prod.mk.inj (Except.ok.inj h)
      rw [List.length_reverse, hwhole hcancelled]
  induction items generalizing results index with
  | nil => exact hdone hresults false (Nat.le_of_eq hlength) fun _ => hlength
  | cons item items ih =>
    rw [List.length_cons] at hlength
    refine .poll ?_
    intro cancelled
    split
    · exact hdone hresults true (by omega) nofun
    · refine (hbody item index).bind fun r hr => ih ?_ ?_ (index + 1)
      · rw [List.forall_mem_cons]
        exact ⟨hr, hresults⟩
      · rw [List.length_cons]
        omega

/-- A body keeps to a conduct when its steps do. -/
theorem runBody_obeys (e : Engine) {item : Value} {index : Nat} {ps : List Plan} (hown : ∀ p ∈ ps, p.step.Faultless)
    (hps : ∀ p ∈ ps, (e.dispatch (path ++ [p.step.id]) p).Obeys k Outcome.Ran) (locals outputs : Fields) :
    (runBody e path item index locals outputs ps).Obeys k IterationError.Sound := by
  induction ps generalizing locals outputs with
  | nil => exact .done nofun
  | cons p ps ih =>
    have hrest := ih (fun q hq => hown q (List.mem_cons_of_mem _ hq)) fun q hq => hps q (List.mem_cons_of_mem _ hq)
    have hguard : (guard (path ++ [p.step.id]) p.step (e.dispatch (path ++ [p.step.id]) p)).Obeys k
        fun o => ∀ err, o = .failed err → err.AtRunTime := by
      refine guard_obeys (hown p (by simp)) ((hps p (by simp)).mono (fun _ h => h) (fun _ h => h) (fun _ h => h) ?_) nofun
      intro o ho err h
      subst h
      cases ho
      assumption
    unfold runBody
    refine (hguard.within _).bind ?_
    intro outcome houtcome
    dsimp only
    split
    · rename_i err
      split
      · exact hrest _ _
      · refine .done ?_
        intro err' h
        obtain rfl := Except.error.inj h
        exact houtcome err rfl
    · exact hrest _ _
    · exact hrest _ _
    · exact hrest _ _

/-- What a step without faults does keeps to every conduct that allows the plans at all places in it what they do there. -/
theorem dispatch_obeys_allowed (e : Engine) {topIds : List String} {p : Plan} (hp : p.Faultless topIds) {path : List String}
    (hk : ∀ path' q, p.At path path' q → k.Allows e path' q) : (e.dispatch path p).Obeys k Outcome.Ran := by
  induction hp generalizing path with
  | @single s own tool =>
    have hown := hk path _ .here
    unfold dispatch
    refine Proc.Obeys.bind ?_ fun r hr => conclude_obeys hown.failed hr
    split
    · rename_i hiterates
      have hsource : s.forEach.isSome = true := by simpa [Step.iterates, tool] using hiterates
      exact iterate_obeys e (p := .single s) own hsource hown (callEach_obeys e own tool hown)
    · exact callOnce_obeys e own tool hown
  | @loop s body own tool source nonempty ids steps ih =>
    have hown := hk path _ .here
    unfold dispatch
    refine Proc.Obeys.bind ?_ fun r hr => conclude_obeys hown.failed hr
    refine iterate_obeys e (p := .loop s body) own source hown ?_
    intro items
    refine runEach_obeys ?_ (by simp) (by simp) 0
    intro item index
    exact runBody_obeys e (fun q hq => (steps q hq).step) (fun q hq => ih q hq fun path' r hr => hk path' r (.body hq hr)) [] []

/-- What a step without faults does keeps to the conduct of its plan, at every depth of bodies. -/
theorem dispatch_obeys (e : Engine) {topIds : List String} {p : Plan} (hp : p.Faultless topIds) (path : List String) :
    (e.dispatch path p).Obeys (p.conduct e path) Outcome.Ran := by
  refine dispatch_obeys_allowed e hp ?_
  intro path' q hq
  induction hq with
  | here =>
    refine ⟨?_, fun _ h => .failed h, fun _ _ _ _ h => .iterated ?_ h.causes, rfl⟩
    · rintro s rfl scope inputs hinputs htool
      exact .own hinputs htool
    · rw [h.total]
      exact Nat.min_le_left _ _
  | body hmem _ ih =>
    cases hp with
    | loop _ _ _ _ _ steps =>
      obtain ⟨hcall, hfailed, hiterated, hwidth⟩ := ih (steps _ hmem)
      exact ⟨fun s hs scope inputs hi ht => .body hmem (hcall s hs scope inputs hi ht), fun err h => .body hmem (hfailed err h),
        fun scope all summary hs h => .body hmem (hiterated scope all summary hs h), hwidth⟩

end Engine

end Runbook
