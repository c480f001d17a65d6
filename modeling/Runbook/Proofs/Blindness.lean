import Runbook.Engine.Sequential
import Runbook.Proofs.Reading
import Runbook.Proofs.Validity

/-!
# Procedures that do not see hidden names

A procedure is blind to names when what they stand for changes nothing of what it does: in scopes that agree outside of them it is
the same procedure, at every reading. What a step does is blind to every name outside of its loop that it does not refer to.
-/

namespace Runbook

namespace Proc

/-- A procedure that goes on in the same way in all scopes that agree outside of the hidden names. -/
inductive Blind (hidden : List String) : Proc α → Prop
  | done (a : α) : Blind hidden (.done a)
  | read {next : Scope → Proc α} (same : ∀ s s' : Scope, s.AgreeOutside hidden s' → next s = next s')
      (rest : ∀ s, Blind hidden (next s)) : Blind hidden (.read next)
  | poll {next : Bool → Proc α} (rest : ∀ b, Blind hidden (next b)) : Blind hidden (.poll next)
  | note {n : Note} {next : Proc α} (rest : Blind hidden next) : Blind hidden (.note n next)
  | call {c : Call} {next : Reply → Proc α} (rest : ∀ r, Blind hidden (next r)) : Blind hidden (.call c next)
  | gather {g : Gathering} {next : Gathered → Proc α}
      (same : ∀ job ∈ g.jobs, ∀ s s' : Scope, s.AgreeOutside hidden s' → job s = job s')
      (rest : ∀ r, Blind hidden (next r)) : Blind hidden (.gather g next)

namespace Blind

variable {hidden : List String}

/-- A procedure that goes on with another one is blind if both are. -/
theorem bind {p : Proc α} {f : α → Proc β} (hp : p.Blind hidden) (hf : ∀ a, (f a).Blind hidden) : (p.bind f).Blind hidden := by
  induction hp with
  | done a => exact hf a
  | read same _ ih => exact .read (fun s s' h => by rw [same s s' h]) ih
  | poll _ ih => exact .poll ih
  | note _ ih => exact .note ih
  | call _ ih => exact .call ih
  | gather same _ ih => exact .gather same ih

/-- What is hidden around an inner scope is hidden in it. -/
theorem within {p : Proc α} (hp : p.Blind hidden) {inner : Scope → Scope}
    (hinner : ∀ s s' : Scope, s.AgreeOutside hidden s' → (inner s).AgreeOutside hidden (inner s')) :
    (p.within inner).Blind hidden := by
  induction hp with
  | done a => exact .done a
  | read same _ ih => exact .read (fun s s' h => by rw [same _ _ (hinner s s' h)]) fun s => ih (inner s)
  | poll _ ih => exact .poll ih
  | note _ ih => exact .note ih
  | call _ ih => exact .call ih
  | gather same _ ih =>
    refine .gather ?_ ih
    intro job hjob s s' h
    obtain ⟨job', hjob', rfl⟩ := List.mem_map.mp hjob
    exact same job' hjob' _ _ (hinner s s' h)

/-- In scopes that agree outside of the hidden names it is the same procedure. -/
theorem within_const {p : Proc α} (hp : p.Blind hidden) {s s' : Scope} (h : s.AgreeOutside hidden s') :
    p.within (fun _ => s) = p.within (fun _ => s') := by
  induction hp with
  | done a => rfl
  | read same _ ih => simp only [Proc.within, same s s' h, ih]
  | poll _ ih => simp only [Proc.within, ih]
  | note _ ih => simp only [Proc.within, ih]
  | call _ ih => simp only [Proc.within, ih]
  | @gather g next same _ ih =>
    have hjobs : g.jobs.map (· ∘ fun _ : Scope => s) = g.jobs.map (· ∘ fun _ : Scope => s') :=
      List.map_congr_left fun job hjob => funext fun _ => same job hjob s s' h
    simp only [Proc.within, hjobs, ih]

/-- It makes the same calls and comes to the same, each call answered at once. -/
theorem answered {p : Proc α} (hp : p.Blind hidden) (ask : Call → Reply) {s s' : Scope} (h : s.AgreeOutside hidden s') :
    p.answered ask s = p.answered ask s' := by
  have hs := Proc.answered_within ask s (fun _ => s) p
  have hs' := Proc.answered_within ask s (fun _ => s') p
  rw [← hs, ← hs', hp.within_const h]

end Blind

end Proc

namespace Engine

variable {hidden : List String} {e : Engine} {path : List String} {s : Step}

/-- To note failures is blind. -/
theorem noteFailures_blind {results : List (Except StepError Value)} {next : Proc α} (hn : next.Blind hidden) :
    (noteFailures path results next).Blind hidden := by
  induction results with
  | nil => exact hn
  | cons r rest ih =>
    cases r with
    | error err => exact .note ih
    | ok v => exact ih

/-- To come to an outcome is blind. -/
theorem conclude_blind (path : List String) (r : Except StepError Value) : (conclude path r).Blind hidden := by
  cases r with
  | ok v => exact .done _
  | error err => exact .note (.done _)

section Own

variable (hun : Unreserved hidden) (href : ∀ n ∈ hidden, n ∉ s.ownReferences)

include hun href

/-- Whether a step runs does not depend on what it does not refer to. -/
theorem guard_blind {run : Proc (Outcome StepError)} (hrun : run.Blind hidden) : (guard path s run).Blind hidden := by
  refine .read (fun sc sc' h => by rw [Step.admits_congr h hun href]) ?_
  intro sc
  split
  · exact hrun
  · exact .done _
  · exact conclude_blind path _

/-- To call a tool once is blind. -/
theorem callOnce_blind (hl : s.isLoop = false) : (e.callOnce path s).Blind hidden := by
  refine .read (fun sc sc' h => by rw [Step.request_congr e path h hun href hl]) ?_
  intro sc
  split
  · exact .done _
  · split
    · exact .call fun r => .done _
    · exact .done _

/-- To go through a sequence is blind if what is done with its items is. -/
theorem iterate_blind {run : List Value → Proc (Except StepError (List (Except IterationError Value) × Bool))}
    (hrun : ∀ items, (run items).Blind hidden) : (e.iterate path s run).Blind hidden := by
  refine .read (fun sc sc' h => by rw [Step.sequence_congr h hun href]) ?_
  intro sc
  split
  · exact .done _
  · refine (hrun _).bind ?_
    intro r
    split
    · exact .done _
    · exact .note (.done _)

/-- The jobs of a step make the same calls in scopes that agree outside of what is hidden. -/
theorem jobs_blind (hl : s.isLoop = false) (items : List Value) (index : Nat) :
    ∀ job ∈ e.jobs path s index items, ∀ sc sc' : Scope, sc.AgreeOutside hidden sc' → job sc = job sc' := by
  induction items generalizing index with
  | nil => intro job hjob; simp [jobs] at hjob
  | cons item items ih =>
    intro job hjob sc sc' h
    rcases List.mem_cons.mp hjob with rfl | hjob
    · exact Step.request_congr e path (h.iteration item index []) hun href hl
    · exact ih (index + 1) job hjob sc sc' h

/-- To call a tool for every item is blind. -/
theorem callEach_blind (hl : s.isLoop = false) (items : List Value) : (e.callEach path s items).Blind hidden := by
  unfold callEach
  split
  · exact .gather (jobs_blind hun href hl items 0) fun r => noteFailures_blind (.done _)
  · exact .done _

end Own

/-- To run a body for every item is blind if the body is. -/
theorem runEach_blind {body : Value → Nat → Proc (Except IterationError Value)} (hbody : ∀ item index, (body item index).Blind hidden)
    (items : List Value) (results : List (Except IterationError Value)) (index : Nat) :
    (runEach body results index items).Blind hidden := by
  induction items generalizing results index with
  | nil => exact .done _
  | cons item items ih =>
    refine .poll ?_
    intro cancelled
    split
    · exact .done _
    · exact (hbody item index).bind fun r => ih _ _

/-- A body is blind when its steps are. -/
theorem runBody_blind {item : Value} {index : Nat} (hun : Unreserved hidden) {ps : List Plan}
    (hown : ∀ p ∈ ps, ∀ n ∈ hidden, n ∉ p.step.ownReferences) (hps : ∀ p ∈ ps, ∀ path, (e.dispatch path p).Blind hidden)
    (locals outputs : Fields) : (runBody e path item index locals outputs ps).Blind hidden := by
  induction ps generalizing locals outputs with
  | nil => exact .done _
  | cons p ps ih =>
    have ih' := ih (fun q hq => hown q (List.mem_cons_of_mem _ hq)) (fun q hq => hps q (List.mem_cons_of_mem _ hq))
    have hguard : (guard (path ++ [p.step.id]) p.step (e.dispatch (path ++ [p.step.id]) p)).Blind hidden :=
      guard_blind hun (hown p (by simp)) (hps p (by simp) (path ++ [p.step.id]))
    unfold runBody
    refine (hguard.within fun s s' h => h.iteration item index locals).bind ?_
    intro outcome
    dsimp only
    split
    · split
      · exact ih' _ _
      · exact .done _
    · exact ih' _ _
    · exact ih' _ _
    · exact ih' _ _

end Engine

end Runbook
