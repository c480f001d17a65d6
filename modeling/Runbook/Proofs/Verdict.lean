import Runbook.Proofs.Closing

/-!
# The verdict of a run

A run went well if and only if it was not cancelled, every step that failed continues on error, and no start was late. The failures that
it lists are those of such steps as do not continue on error, each once, in their own words, and one for every late start. Whatever
fails inside of a step that goes through a sequence, in its iterations or in the steps of its body, it tells in notes and in its summary:
the step itself completes with this summary, so it counts for nothing in the verdict.
-/

namespace Runbook

/-! ## What a procedure tells -/

/-- The step that a note is about. -/
def Note.path : Note → List String
  | failed path _ | iterated path _ => path

/-- The note that was left. -/
def Trace.note? : Trace → Option Note
  | noted n => some n
  | dispatched _ | asked _ | turn _ _ | called _ | ended _ _ | died _ => none

namespace Proc

/-- A procedure that has left some notes and, whatever it reads and whatever it is replied, comes to a result that fits all that it
leaves. -/
inductive Tells (fits : List Note → α → Prop) : List Note → Proc α → Prop
  | done {told : List Note} {a : α} (result : fits told a) : Tells fits told (.done a)
  | read {told : List Note} {next : Scope → Proc α} (rest : ∀ s, Tells fits told (next s)) : Tells fits told (.read next)
  | poll {told : List Note} {next : Bool → Proc α} (rest : ∀ b, Tells fits told (next b)) : Tells fits told (.poll next)
  | note {told : List Note} {n : Note} {next : Proc α} (rest : Tells fits (told ++ [n]) next) : Tells fits told (.note n next)
  | call {told : List Note} {c : Call} {next : Reply → Proc α} (rest : ∀ r, Tells fits told (next r)) : Tells fits told (.call c next)
  | gather {told : List Note} {g : Gathering} {next : Gathered → Proc α} (rest : ∀ r, Tells fits told (next r)) :
      Tells fits told (.gather g next)

/-- Every procedure tells something. -/
theorem tells_any (p : Proc α) (told : List Note) : p.Tells (fun _ _ => True) told := by
  induction p generalizing told with
  | done a => exact .done trivial
  | read next ih => exact .read fun s => ih s told
  | poll next ih => exact .poll fun b => ih b told
  | note n next ih => exact .note (ih (told ++ [n]))
  | call c next ih => exact .call fun r => ih r told
  | gather g next ih => exact .gather fun r => ih r told

namespace Tells

variable {fits : List Note → α → Prop} {told : List Note} {p : Proc α}

/-- A procedure that goes on with the results of another tells what both do. -/
theorem bind {fits' : List Note → β → Prop} {f : α → Proc β} (hp : p.Tells fits told)
    (hf : ∀ told a, fits told a → (f a).Tells fits' told) : (p.bind f).Tells fits' told := by
  induction hp with
  | done result => exact hf _ _ result
  | read _ ih => exact .read ih
  | poll _ ih => exact .poll ih
  | note _ ih => exact .note ih
  | call _ ih => exact .call ih
  | gather _ ih => exact .gather ih

/-- What a procedure tells until it rests comes behind what it has told. -/
theorem settle (h : p.Tells fits told) (scope : Scope) (token : CancelToken) :
    (p.settle scope token).proc.Tells fits (told ++ (p.settle scope token).notes) := by
  induction h generalizing token with
  | done result => simpa [Proc.settle] using Tells.done result
  | read _ ih => exact ih scope token
  | poll _ ih => exact ih _ token.checked
  | note _ ih =>
    have hrest := ih token
    rwa [List.append_assoc] at hrest
  | call rest _ => simpa [Proc.settle] using Tells.call rest
  | gather rest ih =>
    unfold Proc.settle
    dsimp only
    split
    · simpa using Tells.gather rest
    split
    · simpa using Tells.gather rest
    · exact ih _ token

/-- To be replied is to tell nothing. -/
theorem reply (h : p.Tells fits told) (index : CallIndex) (r : Reply) : (p.reply index r).Tells fits told := by
  cases h with
  | done result => exact .done result
  | read rest => exact .read rest
  | poll rest => exact .poll rest
  | note rest => exact .note rest
  | call rest =>
    cases index with
    | none => exact rest r
    | some i => exact .call rest
  | gather rest => cases index <;> exact .gather rest

end Tells

end Proc

/-- The outcome of a step fits its notes: a step that fails has told of this and of nothing else, and one that has told of anything else
completes with the summary of what it went through. -/
inductive Outcome.Fits (path : List String) : List Note → Outcome StepError → Prop
  | skipped : Fits path [] .skipped
  | cancelled : Fits path [] .cancelled
  | completed (output : Value) : Fits path [] (.completed output)
  | failed (err : StepError) : Fits path [.failed path err] (.failed err)
  | summed (inner : List Note) (summary : Summary) : Fits path (inner ++ [.iterated path summary]) (.completed summary.value)

namespace Engine

/-- Iterations do not come to an error once anything in them was told. -/
def Forgives (told : List Note) (r : Except StepError (List (Except IterationError Value) × Bool)) : Prop :=
  ∀ err, r = .error err → told = []

/-- Whatever failures are noted, what follows them fits what has been told. -/
theorem noteFailures_tells {fits : List Note → α → Prop} {next : Proc α} (h : ∀ told, next.Tells fits told) (path : List String)
    (results : List (Except StepError Value)) (told : List Note) : (noteFailures path results next).Tells fits told := by
  induction results generalizing told with
  | nil => exact h told
  | cons r rest ih =>
    cases r with
    | error err => exact .note (ih (told ++ [.failed path err]))
    | ok v => exact ih told

/-- To call a tool for every item comes to an error only where nothing was told. -/
theorem callEach_tells (e : Engine) (path : List String) (s : Step) (items : List Value) :
    (e.callEach path s items).Tells Forgives [] := by
  unfold callEach
  split
  · exact .gather fun g => noteFailures_tells (fun _ => .done nofun) path g.results []
  · exact .done fun _ _ => rfl

/-- To run a body for every item comes to no error. -/
theorem runEach_tells (body : Value → Nat → Proc (Except IterationError Value)) (results : List (Except IterationError Value))
    (index : Nat) (items : List Value) (told : List Note) : (runEach body results index items).Tells Forgives told := by
  induction items generalizing results index told with
  | nil => exact .done nofun
  | cons item items ih =>
    refine .poll ?_
    intro cancelled
    split
    · exact .done nofun
    · exact ((body item index).tells_any told).bind fun told r _ => ih (r :: results) (index + 1) told

/-- The result of a step fits its notes: there are none, or it is the summary that was told last. -/
def Sums (path : List String) (told : List Note) (r : Except StepError Value) : Prop :=
  told = [] ∨ ∃ inner summary, told = inner ++ [.iterated path summary] ∧ r = .ok summary.value

/-- To go through a sequence tells nothing, or its summary last. -/
theorem iterate_tells (e : Engine) (path : List String) (s : Step)
    {run : List Value → Proc (Except StepError (List (Except IterationError Value) × Bool))}
    (hrun : ∀ items, (run items).Tells Forgives []) : (e.iterate path s run).Tells (Sums path) [] := by
  refine .read ?_
  intro scope
  split
  · exact .done (Or.inl rfl)
  · refine (hrun _).bind ?_
    intro told r hr
    split
    · rename_i err
      exact .done (Or.inl (hr err rfl))
    · exact .note (.done (Or.inr ⟨told, _, rfl, rfl⟩))

/-- To call a tool once tells nothing. -/
theorem callOnce_tells (e : Engine) (path : List String) (s : Step) : (e.callOnce path s).Tells (Sums path) [] := by
  refine .read ?_
  intro scope
  split
  · exact .done (Or.inl rfl)
  · split
    · exact .call fun _ => .done (Or.inl rfl)
    · exact .done (Or.inl rfl)

/-- The outcome of a result that fits what was told fits what is told in the end. -/
theorem conclude_tells {path : List String} {told : List Note} {r : Except StepError Value} (h : Sums path told r) :
    (conclude path r).Tells (Outcome.Fits path) told := by
  rcases h with rfl | ⟨inner, summary, rfl, rfl⟩
  · cases r with
    | ok v => exact .done (.completed v)
    | error err => exact .note (.done (.failed err))
  · exact .done (.summed inner summary)

/-- Whatever a step does, its outcome fits its notes. -/
theorem dispatch_tells (e : Engine) (path : List String) (p : Plan) : (e.dispatch path p).Tells (Outcome.Fits path) [] := by
  cases p with
  | single s =>
    unfold dispatch
    refine Proc.Tells.bind ?_ fun _ _ => conclude_tells
    split
    · exact iterate_tells e path s fun items => callEach_tells e path s items
    · exact callOnce_tells e path s
  | broken s err =>
    unfold dispatch
    exact (iterate_tells e path s fun _ => .done fun _ _ => rfl).bind fun _ _ => conclude_tells
  | loop s body =>
    unfold dispatch
    exact (iterate_tells e path s fun items => runEach_tells _ [] 0 items []).bind fun _ _ => conclude_tells

end Engine

/-- What a task does once it has begun tells what fits its outcome. -/
theorem Task.begun_tells (e : Engine) (t : Task) (decision : Except StepError Bool) :
    (t.begun e decision).Tells (Outcome.Fits [t.id]) [] := by
  cases decision with
  | error err => exact .note (.done (.failed err))
  | ok b =>
    cases b with
    | true => exact Engine.dispatch_tells e [t.id] t.plan
    | false => exact .done .skipped

/-- What a plan leaves is about the step at its path, or about one in its body. -/
theorem Plan.Leaves.prefix_path {e : Engine} {path : List String} {p : Plan} {n : Note} (h : p.Leaves e path n) : path <+: n.path := by
  induction h with
  | failed => exact List.prefix_refl _
  | iterated => exact List.prefix_refl _
  | body _ _ ih => exact (List.prefix_append _ _).trans ih

/-- What a step outside of loops leaves is left in its name. -/
theorem Plan.Leaves.head?_path {e : Engine} {id : String} {p : Plan} {n : Note} (h : p.Leaves e [id] n) : n.path.head? = some id := by
  obtain ⟨rest, hrest⟩ := h.prefix_path
  rw [← hrest]
  rfl

/-! ## What the steps of a run tell -/

namespace Machine

/-- The notes that have been left, in order. -/
def notes (m : Machine) : List Note := m.trace.filterMap Trace.note?

/-- The notes of a step and of the steps in its body. -/
def notesOf (id : String) (m : Machine) : List Note := m.notes.filter (·.path.head? = some id)

/-- The notes are those in the trace. -/
theorem mem_notes {m : Machine} {n : Note} : n ∈ m.notes ↔ Trace.noted n ∈ m.trace := by
  rw [notes, List.mem_filterMap]
  constructor
  · rintro ⟨x, hx, hn⟩
    cases x <;> simp only [Trace.note?, reduceCtorEq, Option.some.injEq] at hn
    exact hn ▸ hx
  · exact fun h => ⟨_, h, rfl⟩

section Notes

variable {α : Type} (m : Machine) (token : CancelToken) (s : Settled α) (id : String)

@[simp] theorem notes_log : (m.log token s).notes = m.notes ++ s.notes := by
  have hcalls {f : CallIndex × Call → Trace} (hf : ∀ c, (f c).note? = none) : (s.calls.map f).filterMap Trace.note? = [] := by
    rw [List.filterMap_map, List.filterMap_eq_nil_iff]
    exact fun c _ => hf c
  rw [notes, trace_log, traceOf, List.filterMap_append, List.filterMap_append, hcalls fun _ => rfl, List.nil_append,
    List.filterMap_map, notes]
  exact congrArg _ List.filterMap_some

@[simp] theorem notes_finish (outcome : Outcome StepError) : (m.finish id outcome).notes = m.notes := by
  simp [notes, finish, Trace.note?]

@[simp] theorem notes_die : (m.die id).notes = m.notes := by simp [notes, die, Trace.note?]

@[simp] theorem notes_decided (t : Task) (decision : Except StepError Bool) : (m.decided t decision).notes = m.notes := by
  simp [notes, decided, Trace.note?]

/-- A step that advances leaves the notes that it comes to. -/
theorem notes_advance (p : Proc (Outcome StepError)) :
    (m.advance token id p).1.notes = m.notes ++ (p.settle m.context.scope token).notes := by
  rcases advance_cases token id p m with ⟨o, -, heq⟩ | ⟨-, heq⟩ | ⟨-, -, heq⟩ <;> rw [heq]
  · rw [notes_finish, notes_log]
  · rw [notes_die, notes_log]
  · exact notes_log m token _

end Notes

/-- Every step tells what its outcome fits, and nothing before its turn. -/
structure Candid (m : Machine) : Prop where
  silent : ∀ id, id ∉ m.turnedIds → m.notesOf id = []
  running : ∀ t ∈ m.tasks, ∀ p, t.phase = .active p → p.Tells (Outcome.Fits [t.id]) (m.notesOf t.id)
  ended : ∀ id o, (id, o) ∈ m.ended → o.Fits [id] (m.notesOf id)

namespace Candid

variable {w : Workflow} {e : Engine} {inputs : Fields} {m : Machine}

theorem start (w : Workflow) (inputs : Fields) (now : Nat) : (start w inputs now).Candid := ⟨fun _ _ => rfl, nofun, nofun⟩

/-- What adds no note and no active task leaves it so. -/
theorem of_eq (h : m.Candid) {m' : Machine} (hnotes : m'.notes = m.notes) (hturned : ∀ id ∈ m.turnedIds, id ∈ m'.turnedIds)
    (htasks : ∀ t ∈ m'.tasks, ∀ p, t.phase = .active p → t ∈ m.tasks) (hended : m'.ended = m.ended) : m'.Candid := by
  have hof (id : String) : m'.notesOf id = m.notesOf id := by rw [notesOf, hnotes, notesOf]
  refine ⟨?_, ?_, ?_⟩
  · intro id hid
    rw [hof]
    exact h.silent id fun hmem => hid (hturned id hmem)
  · intro t ht p hp
    rw [hof]
    exact h.running t (htasks t ht p hp) p hp
  · intro id o ho
    rw [hof]
    exact h.ended id o (hended ▸ ho)

/-- A step that advances tells something more, and no other does. -/
theorem notesOf_advance {t : Task} {k : Conduct} {P : Outcome StepError → Prop} (token : CancelToken) {p : Proc (Outcome StepError)}
    (hp : p.UnderWay k P) (hk : ∀ n, k.note n → n.path.head? = some t.id) (m : Machine) (id : String) :
    (m.advance token t.id p).1.notesOf id = m.notesOf id ++ if id = t.id then (p.settle m.context.scope token).notes else [] := by
  have hown : ∀ n ∈ (p.settle m.context.scope token).notes, n.path.head? = some t.id := fun n hn =>
    hk n ((hp.settle m.context.scope token).notes n hn)
  rw [notesOf, notes_advance, List.filter_append, notesOf]
  congr 1
  split
  · rename_i heq
    exact List.filter_eq_self.mpr fun n hn => by simp [hown n hn, heq]
  · rename_i hne
    exact List.filter_eq_nil_iff.mpr fun n hn => by simpa [hown n hn] using Ne.symm hne

/-- A step that is refused its turn has nothing to tell. -/
theorem refuse (h : m.Candid) {id : String} (hid : id ∉ m.turnedIds) (token : CancelToken) :
    (m.advance token id (.done .cancelled)).1.Candid := by
  have hof (k : String) : (m.advance token id (.done .cancelled)).1.notesOf k = m.notesOf k := by
    rw [notesOf, notes_advance, Proc.settle, List.append_nil, notesOf]
  refine ⟨?_, ?_, ?_⟩
  · intro k hk
    rw [hof]
    exact h.silent k (turnedIds_advance m token id _ ▸ hk)
  · intro t ht p hp
    rw [hof]
    rw [advance_done] at ht
    exact h.running t (List.mem_of_mem_filter ht) p hp
  · intro k o ho
    rw [hof]
    rcases mem_ended_advance ho with ho | ⟨rfl, hdone⟩
    · exact h.ended k o ho
    · obtain rfl := Proc.done.inj hdone
      rw [h.silent k hid]
      exact .cancelled

/-- A step that had its turn goes on telling. -/
theorem advance (h : m.Candid) (hs : m.Scheduled w) {t : Task} (ht : t ∈ m.tasks) (hturn : t.id ∈ m.turnedIds) (token : CancelToken)
    {P : Outcome StepError → Prop} {p : Proc (Outcome StepError)} (hp : p.UnderWay (t.plan.conduct e [t.id]) P)
    (htells : p.Tells (Outcome.Fits [t.id]) (m.notesOf t.id)) : (m.advance token t.id p).1.Candid := by
  have hnotes := notesOf_advance token hp (fun _ hn => Plan.Leaves.head?_path hn) m
  have hsettled := htells.settle m.context.scope token
  refine ⟨?_, ?_, ?_⟩
  · intro id hid
    rw [turnedIds_advance] at hid
    have hne : id ≠ t.id := fun heq => hid (heq ▸ hturn)
    rw [hnotes, h.silent id hid, if_neg hne, List.append_nil]
  · intro u hu q hq
    rw [hnotes]
    rcases mem_tasks_advance hu with ⟨hu, hne⟩ | ⟨hid, hactive⟩
    · rw [if_neg hne, List.append_nil]
      exact h.running u hu q hq
    · obtain rfl := Phase.active.inj (hq.symm.trans hactive)
      rw [if_pos hid, hid]
      exact hsettled
  · intro id o ho
    rw [hnotes]
    rcases mem_ended_advance ho with ho | ⟨rfl, hdone⟩
    · have hne : id ≠ t.id := by
        rintro rfl
        exact hs.not_ended_of_task ht (List.mem_map_of_mem (f := (·.1)) ho)
      rw [if_neg hne, List.append_nil]
      exact h.ended id o ho
    · rw [if_pos rfl]
      rw [hdone] at hsettled
      cases hsettled with
      | done fits => exact fits

/-- Every move leaves the steps candid. -/
theorem move (hw : w.Valid) (h : m.Candid) (hs : m.Sound w e inputs) (ht : m.Turns w e) (now : Nat) (mv : Move) :
    (m.move w e now mv).1.Candid := by
  have heffect := move_effect w e now mv m
  generalize m.move w e now mv = r at heffect
  have same {m' : Machine} (htrace : m'.trace = m.trace) (htasks : m'.tasks = m.tasks) : m'.Candid :=
    h.of_eq (congrArg (List.filterMap Trace.note?) htrace) (fun id hid => by rwa [turnedIds, htrace]) (fun _ hu _ _ => htasks ▸ hu)
      (congrArg (List.filterMap Trace.ended?) htrace)
  cases heffect with
  | idle => exact h
  | dispatched =>
    refine h.of_eq (by simp [notes, dispatching, Trace.note?]) (fun id hid => by simpa using hid) ?_ ended_dispatching
    intro t hmem p hp
    refine (List.mem_append.mp hmem).resolve_right fun hmem => ?_
    rw [List.mem_singleton.mp hmem] at hp
    cases hp
  | passed => exact same rfl rfl
  | dropped => exact same rfl rfl
  | listened => exact same rfl rfl
  | heard =>
    obtain ⟨-, htasks, htrace, -⟩ := hear_untouched w now m
    exact same htrace htasks
  | @joined index =>
    obtain ⟨-, htasks, htrace, -⟩ := join_untouched w now index m
    exact same htrace htasks
  | asked =>
    exact h.of_eq (by simp [notes, asking, Trace.note?]) (fun id hid => by simpa using hid) (fun _ hu _ _ => hu) (ended_asking ..)
  | cancelled => exact same rfl rfl
  | @refused t cut mem queued =>
    have htaking : (m.taking t.id).Candid := same rfl rfl
    exact htaking.refuse (ht.waiting t mem queued) _
  | @began t cut mem queued =>
    have hdecided : (m.decided t (t.plan.step.admits m.context.scope)).Candid :=
      h.of_eq (notes_decided ..) (fun id hid => by simp [hid]) (fun _ ht _ _ => ht) (ended_decided ..)
    have hobeys := Conforms.begun_obeys hw hs.scheduled e mem m.context.scope false
    have htells : (t.begun e (t.plan.step.admits m.context.scope)).Tells (Outcome.Fits [t.id])
        ((m.decided t (t.plan.step.admits m.context.scope)).notesOf t.id) := by
      have hnone : m.notesOf t.id = [] := h.silent t.id (ht.waiting t mem queued)
      rw [notesOf, notes_decided, ← notesOf, hnone]
      exact t.begun_tells e _
    exact hdecided.advance (decided_scheduled hs.scheduled mem _) mem (by simp) _ (.fresh hobeys) htells
  | @replied t p index c cut r mem active =>
    exact h.advance hs.scheduled mem (ht.running t mem p active).1 _ ((hs.conforms.procs t mem p active).1.reply index r)
      ((h.running t mem p active).reply index r)

end Candid

/-- The steps of every run are candid. -/
theorem Run.candid {w : Workflow} (hw : w.Valid) {e : Engine} {may : Policy} {inputs : Fields} {now : Nat} {m : Machine}
    (hrun : Run w e may (start w inputs now) m) : m.Candid := by
  induction hrun with
  | refl => exact .start w inputs now
  | move hrun now' mv _ ih => exact ih.move hw (hrun.sound hw (start_sound hw e inputs now)) (hrun.turns_and_gaps hw).1 now' mv

end Machine

/-! ## The verdict -/

namespace RunResult

/-- The status of a step. -/
def status? (r : RunResult) (id : String) : Option StepStatus := (Keyed.get? r.steps id).map (·.status)

/-- The message of a step that failed. -/
def message? (r : RunResult) (id : String) : Option String := (Keyed.get? r.steps id).bind (·.error)

/-- The verdict of a result: it went well if it was not cancelled and what failed continues on error; it lists the failures of the
other steps, each once and in its own words; and it names all steps that failed, in order. -/
structure Verdict (d : Definition) (r : RunResult) : Prop where
  clean : r.noErrors = true ↔ r.cancelled = false ∧ ∀ s ∈ d.steps, r.status? s.id = some .error → s.continueOnError = true
  once : (r.errors.map (·.id)).Nodup
  only : ∀ f ∈ r.errors, ∃ s ∈ d.steps, s.id = f.id ∧ s.continueOnError = false ∧ r.status? s.id = some .error ∧
    r.message? s.id = some f.message
  listed : ∀ s ∈ d.steps, s.continueOnError = false → r.status? s.id = some .error → s.id ∈ r.errors.map (·.id)
  sorted : Names.Sorted r.failedSteps
  failed : ∀ id, id ∈ r.failedSteps ↔ r.status? id = some .error

/-- A step that counts for nothing in the verdict. -/
structure Forgiven (r : RunResult) (id : String) : Prop where
  completed : r.status? id = some .completed
  unfailed : id ∉ r.failedSteps
  unlisted : id ∉ r.errors.map (·.id)

namespace Tells

variable {w : Workflow} {m : Machine} {r : RunResult}

/-- Only steps of the workflow end. -/
theorem step_of_ended (h : r.Tells w m) {id : String} {o : Outcome StepError} (ho : Trace.ended id o ∈ m.trace) : id ∈ w.graph.steps := by
  obtain ⟨run, hrun, -⟩ := h.shown id o ho
  exact (h.keys id).mp (Keyed.get?_isSome.mp (by simp [hrun]))

/-- No step is booked twice. -/
theorem nodup_booked (h : r.Tells w m) (hs : m.Scheduled w) : (m.booked.map (·.1)).Nodup :=
  (h.booked.map fun e : String × Outcome StepError => e.1).nodup_iff.mp hs.nodup_ended

/-- What the result shows of a step that has ended: its outcome, or, if its start was late, that it never finished. -/
theorem status_of_ended (h : r.Tells w m) {id : String} {o : Outcome StepError} (ho : Trace.ended id o ∈ m.trace) :
    (¬m.Late id → r.status? id = some o.status) ∧ (m.Late id → r.status? id = some (if r.cancelled then .skipped else .error)) := by
  obtain ⟨run, hrun, hshows, hmistaken⟩ := h.shown id o ho
  rw [status?, hrun, Option.map_some]
  exact ⟨fun hlate => by rw [(hshows hlate).status], fun hlate => by rw [(hmistaken hlate).status]⟩

/-- The steps whose status is error are those that failed, and in a run that was not cancelled those whose starts were late. -/
theorem status_error_iff (h : r.Tells w m) (hlate : ∀ id, m.Late id → id ∈ m.bookedIds) (id : String) :
    r.status? id = some .error ↔
      (¬m.Late id ∧ ∃ err, Trace.ended id (.failed err) ∈ m.trace) ∨ (m.Late id ∧ r.cancelled = false) := by
  by_cases hended : ∃ o, Trace.ended id o ∈ m.trace
  · obtain ⟨o, ho⟩ := hended
    obtain ⟨hown, hmistaken⟩ := h.status_of_ended ho
    by_cases hl : m.Late id
    · rw [hmistaken hl]
      cases r.cancelled <;> simp [hl]
    · have honly (err : StepError) : Trace.ended id (.failed err) ∈ m.trace → o.status = .error := by
        intro herr
        have heq := (hown hl).symm.trans ((h.status_of_ended herr).1 hl)
        exact Option.some.inj heq
      rw [hown hl, Option.some.injEq]
      constructor
      · intro hstatus
        cases o with
        | failed err => exact .inl ⟨hl, err, ho⟩
        | skipped => cases hstatus
        | completed output => cases hstatus
        | cancelled => cases hstatus
      · rintro (⟨-, err, herr⟩ | ⟨hl', -⟩)
        · exact honly err herr
        · exact absurd hl' hl
  · have hnot : id ∉ m.dispatched := fun hid => hended (h.ended id hid)
    refine iff_of_false ?_ ?_
    · intro hstatus
      obtain ⟨run, hrun, herror⟩ := Option.map_eq_some_iff.mp hstatus
      have hid : id ∈ w.graph.steps := (h.keys id).mp (Keyed.get?_isSome.mp (by simp [hrun]))
      obtain ⟨-, run', hrun', hshows⟩ := h.left id hid hnot
      obtain rfl := Option.some.inj (hrun.symm.trans hrun')
      rw [hshows.status] at herror
      cases herror
    · rintro (⟨-, err, herr⟩ | ⟨hl, -⟩)
      · exact hended ⟨_, herr⟩
      · obtain ⟨⟨_, o⟩, hmem, rfl⟩ := List.mem_map.mp (hlate id hl)
        exact hended ⟨o, Machine.mem_trace_of_mem_ended.mp (h.booked.mem_iff.mpr hmem)⟩

/-- A step that has failed in time has the message of its error. -/
theorem message_of_failed (h : r.Tells w m) {id : String} (hlate : ¬m.Late id) {err : StepError}
    (herr : Trace.ended id (.failed err) ∈ m.trace) : r.message? id = some err.message := by
  obtain ⟨run, hrun, hshows, -⟩ := h.shown id _ herr
  rw [message?, hrun, Option.bind_some, (hshows hlate).error]
  rfl

/-- The failures that are listed for their own sake are those of the steps that failed and do not continue on error. -/
theorem mem_failures (hw : w.Valid) (h : r.Tells w m) {f : StepFailure} :
    f ∈ w.failures m.booked ↔ ∃ s ∈ w.definition.steps, s.id = f.id ∧ s.continueOnError = false ∧
      ∃ err, Trace.ended s.id (.failed err) ∈ m.trace ∧ f.message = err.message := by
  have hbooked {id : String} {o : Outcome StepError} : (id, o) ∈ m.booked ↔ Trace.ended id o ∈ m.trace :=
    h.booked.mem_iff.symm.trans Machine.mem_trace_of_mem_ended
  rw [Workflow.mem_failures]
  constructor
  · rintro ⟨hcontinues, err, hmem, hmessage⟩
    have herr := hbooked.mp hmem
    have hid := h.step_of_ended herr
    rw [hw.steps_eq] at hid
    obtain ⟨s, hs, hsid⟩ := List.mem_map.mp hid
    rw [← hsid] at hcontinues herr
    exact ⟨s, hs, hsid, (hw.continues_eq hs).symm.trans hcontinues, err, herr, hmessage⟩
  · rintro ⟨s, hs, hsid, hcontinues, err, herr, hmessage⟩
    rw [← hsid]
    exact ⟨(hw.continues_eq hs).trans hcontinues, err, hbooked.mpr herr, hmessage⟩

/-- The failed steps are those with the status of an error. -/
theorem mem_failedSteps (h : r.Tells w m) {id : String} : id ∈ r.failedSteps ↔ r.status? id = some .error := by
  rw [failedSteps, List.mem_map]
  constructor
  · rintro ⟨⟨k, run⟩, hmem, rfl⟩
    obtain ⟨hmem, herror⟩ := List.mem_filter.mp hmem
    rw [status?, h.sorted.get?_of_mem hmem, Option.map_some, of_decide_eq_true herror]
  · intro hstatus
    obtain ⟨run, hrun, herror⟩ := Option.map_eq_some_iff.mp hstatus
    exact ⟨(id, run), List.mem_filter.mpr ⟨Keyed.mem_of_get? hrun, decide_eq_true herror⟩, rfl⟩

/-- Whatever the starts, a run went well if and only if it was not cancelled, none of them was late, and what failed continues on error. -/
theorem noErrors_iff (hw : w.Valid) (h : r.Tells w m) : r.noErrors = true ↔ r.cancelled = false ∧ (∀ id, ¬m.Late id) ∧
    ∀ s ∈ w.definition.steps, (∃ err, Trace.ended s.id (.failed err) ∈ m.trace) → s.continueOnError = true := by
  obtain ⟨mistaken, herrors, -, hmistaken⟩ := h.errors
  rw [noErrors, Bool.and_eq_true, List.isEmpty_iff, Bool.not_eq_true', and_comm]
  refine and_congr_right fun hcancelled => ?_
  rw [herrors, List.append_eq_nil_iff]
  constructor
  · rintro ⟨hown, hlate⟩
    refine ⟨fun id hl => ?_, ?_⟩
    · have hmem : (⟨id, StepRun.unfinished⟩ : StepFailure) ∈ mistaken := (hmistaken _).mpr ⟨hcancelled, hl, rfl⟩
      rw [hlate] at hmem
      cases hmem
    · rintro s hs ⟨err, herr⟩
      by_contra hcontinues
      have hmem : (⟨s.id, err.message⟩ : StepFailure) ∈ w.failures m.booked :=
        (h.mem_failures hw).mpr ⟨s, hs, rfl, Bool.eq_false_iff.mpr hcontinues, err, herr, rfl⟩
      rw [hown] at hmem
      cases hmem
  · rintro ⟨hlate, hall⟩
    refine ⟨List.eq_nil_iff_forall_not_mem.mpr fun f hf => ?_, List.eq_nil_iff_forall_not_mem.mpr fun f hf => ?_⟩
    · obtain ⟨s, hs, -, hcontinues, err, herr, -⟩ := (h.mem_failures hw).mp hf
      exact Bool.false_ne_true (hcontinues.symm.trans (hall s hs ⟨err, herr⟩))
    · exact hlate f.id ((hmistaken f).mp hf).2.1

/-- What the result tells of a run without late starts is its verdict. -/
theorem verdict (hw : w.Valid) (hs : m.Scheduled w) (h : r.Tells w m) (hlate : ∀ id, ¬m.Late id) : r.Verdict w.definition := by
  have herror (id : String) : r.status? id = some .error ↔ ∃ err, Trace.ended id (.failed err) ∈ m.trace := by
    rw [h.status_error_iff (fun k hl => absurd hl (hlate k)) id]
    simp [hlate]
  obtain ⟨mistaken, herrors, -, hmistaken⟩ := h.errors
  have hnone : mistaken = [] := List.eq_nil_iff_forall_not_mem.mpr fun f hf => hlate f.id ((hmistaken f).mp hf).2.1
  rw [hnone, List.append_nil] at herrors
  refine ⟨?_, ?_, ?_, ?_, h.sorted.sublist (List.filter_sublist.map _), fun id => h.mem_failedSteps⟩
  · rw [h.noErrors_iff hw]
    refine and_congr_right fun _ => ?_
    simp only [herror]
    exact and_iff_right hlate
  · rw [herrors]
    exact Workflow.nodup_failures (h.nodup_booked hs)
  · intro f hf
    rw [herrors] at hf
    obtain ⟨s, hs, hsid, hcontinues, err, herr, hmessage⟩ := (h.mem_failures hw).mp hf
    exact ⟨s, hs, hsid, hcontinues, (herror s.id).mpr ⟨err, herr⟩, hmessage ▸ h.message_of_failed (hlate s.id) herr⟩
  · intro s hs hcontinues hstatus
    obtain ⟨err, herr⟩ := (herror s.id).mp hstatus
    rw [herrors]
    exact List.mem_map.mpr ⟨⟨s.id, err.message⟩, (h.mem_failures hw).mpr ⟨s, hs, rfl, hcontinues, err, herr, rfl⟩, rfl⟩

end Tells

end RunResult

/-- A step that goes through an input and continues on error. -/
def Definition.sampleContinuing : Definition :=
  { Definition.empty with
    name := "sample"
    steps := [{ Step.empty with id := "each", tool := "http", forEach := some "inputs.xs", continueOnError := true }] }

namespace Workflow

open Machine

/-- However a run of a valid workflow is driven and whenever it is cancelled, with settings that a semaphore has permits for: when it is
over and no start was late, its result is the verdict on the steps that failed by themselves, each in its own words. Late starts change
it in this and in nothing else: the run did not go well, and unless it was cancelled, the steps whose starts were late are listed once
more as steps that never finished, and shown as failed. What was told of anything else than the failure of a step was told by a step
that then completed with its summary, and counts for nothing. -/
theorem verdict_on_own_failures {d : Definition} {w : Workflow} (hd : ofDefinition d = .ok w) (e : Engine) (inputs : Fields) (now : Nat)
    {m : Machine} (hrun : Run w e .any (start w inputs now) m) (hf : m.finished = true) (hpermitted : e.settings.Permitted) (later : Nat) :
    ((∀ id, ¬m.Late id) → (m.result later).Verdict d) ∧
      ((m.result later).noErrors = true ↔ (m.result later).cancelled = false ∧ (∀ id, ¬m.Late id) ∧
        ∀ s ∈ d.steps, (∃ err, Trace.ended s.id (.failed err) ∈ m.trace) → s.continueOnError = true) ∧
      (∃ own mistaken, (m.result later).errors = own ++ mistaken ∧ (own.map (·.id)).Nodup ∧ (mistaken.map (·.id)).Nodup ∧
        (∀ f, f ∈ own ↔ ∃ s ∈ d.steps, s.id = f.id ∧ s.continueOnError = false ∧
          ∃ err, Trace.ended s.id (.failed err) ∈ m.trace ∧ f.message = err.message) ∧
        ∀ f, f ∈ mistaken ↔ (m.result later).cancelled = false ∧ m.Late f.id ∧ f.message = StepRun.unfinished) ∧
      Names.Sorted (m.result later).failedSteps ∧
      (∀ id, id ∈ (m.result later).failedSteps ↔ (m.result later).status? id = some .error) ∧
      (∀ id, (m.result later).status? id = some .error ↔
        (¬m.Late id ∧ ∃ err, Trace.ended id (.failed err) ∈ m.trace) ∨ (m.Late id ∧ (m.result later).cancelled = false)) ∧
      (∀ id err, ¬m.Late id → Trace.ended id (.failed err) ∈ m.trace → (m.result later).message? id = some err.message) ∧
      ∀ n, Trace.noted n ∈ m.trace → ∃ id, n.path.head? = some id ∧
        ((∃ err, n = .failed [id] err ∧ Trace.ended id (.failed err) ∈ m.trace) ∨
          ∃ summary, Trace.noted (.iterated [id] summary) ∈ m.trace ∧ Trace.ended id (.completed summary.value) ∈ m.trace ∧
            (¬m.Late id → (m.result later).Forgiven id)) := by
  obtain ⟨rfl, hw⟩ := valid_of_definition hd
  have hs := hrun.sound hw (start_sound hw e inputs now)
  have htells := hrun.tells hw hf (hrun.died_eq_nil hw hpermitted.loops) later
  have hcandid := hrun.candid hw
  have herror := htells.status_error_iff hs.booked.books.late
  obtain ⟨mistaken, herrors, hnodup, hmistaken⟩ := htells.errors
  refine ⟨htells.verdict hw hs.scheduled, htells.noErrors_iff hw, ⟨_, mistaken, herrors, ?_, hnodup, fun _ => htells.mem_failures hw,
    hmistaken⟩, htells.sorted.sublist (List.filter_sublist.map _), fun _ => htells.mem_failedSteps, herror,
    fun _ _ hlate => htells.message_of_failed hlate, ?_⟩
  · exact nodup_failures (htells.nodup_booked hs.scheduled)
  intro n hn
  obtain ⟨id, p, -, hleaves⟩ := hs.conforms.notes n hn
  have hhead := hleaves.head?_path
  have hown : n ∈ m.notesOf id := List.mem_filter.mpr ⟨mem_notes.mpr hn, decide_eq_true hhead⟩
  have hturned : id ∈ m.turnedIds := by
    by_contra hnot
    rw [hcandid.silent id hnot] at hown
    cases hown
  obtain ⟨o, ho⟩ := htells.ended id ((hrun.turns_and_gaps hw).1.known id hturned)
  have hfits := hcandid.ended id o (mem_trace_of_mem_ended.mpr ho)
  refine ⟨id, hhead, ?_⟩
  generalize hnotes : m.notesOf id = notes at hown hfits
  cases hfits with
  | skipped => cases hown
  | cancelled => cases hown
  | completed output => cases hown
  | failed err => exact Or.inl ⟨err, List.mem_singleton.mp hown, ho⟩
  | summed inner summary =>
    have hsummed : Note.iterated [id] summary ∈ m.notesOf id := hnotes ▸ List.mem_append_right _ (List.mem_singleton_self _)
    refine Or.inr ⟨summary, mem_notes.mp (List.mem_filter.mp hsummed).1, ho, fun hlate => ?_⟩
    have hstatus : (m.result later).status? id = some .completed := (htells.status_of_ended ho).1 hlate
    have hother : (m.result later).status? id ≠ some .error := by simp [hstatus]
    refine ⟨hstatus, fun h => hother (htells.mem_failedSteps.mp h), fun hlisted => ?_⟩
    obtain ⟨f, hmem, rfl⟩ := List.mem_map.mp hlisted
    rw [herrors] at hmem
    rcases List.mem_append.mp hmem with hmem | hmem
    · obtain ⟨s, -, hsid, -, err, herr, -⟩ := (htells.mem_failures hw).mp hmem
      exact hother ((herror _).mpr (.inl ⟨hlate, err, hsid ▸ herr⟩))
    · exact hlate ((hmistaken f).mp hmem).2.1

/-- A step fails, and so does the first iteration of a loop: the verdict is on the step alone. -/
theorem verdict_on_own_failures_of_sample : ∃ (w : Workflow) (m : Machine) (err : StepError), ofDefinition .sample = .ok w ∧
    Run w ⟨.default, fun _ => true⟩ .any (start w [] 0) m ∧ m.finished = true ∧ (m.result 0).Verdict .sample ∧
    Trace.noted (.failed ["each", "fetch"] err) ∈ m.trace ∧ (m.result 0).Forgiven "each" ∧
    (m.result 0).failedSteps = ["apart"] ∧ (m.result 0).errors.map (·.id) = ["apart"] := by
  let e : Engine := ⟨.default, fun _ => true⟩
  let moves : List Move := [.dispatch, .dispatch, .ask "list", .begin "list" none, .ask "apart", .begin "apart" none, .hear, .hear,
    .reply ⟨"list", none⟩ (.answer (.value (.arr [.null, .null]))) none, .reply ⟨"apart", none⟩ (.answer .panic) none, .hear, .join 0,
    .dispatch, .hear, .join 0, .ask "each", .begin "each" none, .reply ⟨"each", none⟩ (.answer .panic) none,
    .reply ⟨"each", none⟩ (.answer (.value .null)) none, .hear, .hear, .join 0]
  let last (w : Workflow) : Machine := moves.foldl (fun m mv => (m.move w e 0 mv).1) (start w [] 0)
  let told : Trace → Option (List String)
    | .noted (.failed path _) => some path
    | _ => none
  have hend : ((ofDefinition .sample).toOption.map fun w =>
      (((last w).finished, (last w).bookedIds.all fun id => !decide ((last w).Late id)), (last w).trace.filterMap told,
        ((last w).result 0).failedSteps, ((last w).result 0).errors.map (·.id))) =
      some ((true, true), [["apart"], ["each", "fetch"]], ["apart"], ["apart"]) := by decide +kernel
  obtain ⟨w, hd, hend⟩ := exists_of_map_toOption hend
  simp only [Prod.mk.injEq] at hend
  obtain ⟨⟨hf, hnone⟩, htold, hfailed, herrors⟩ := hend
  have hlate (id : String) : ¬(last w).Late id := fun hl => by
    simpa [hl] using List.all_eq_true.mp hnone id (Event.Late.finished hl)
  obtain ⟨hverdict, -, -, -, -, -, -, hnotes⟩ :=
    verdict_on_own_failures hd e [] 0 (Machine.run_foldl w e 0 moves (start w [] 0)) hf (by decide) 0
  obtain ⟨x, hx, hpath⟩ := List.mem_filterMap.mp (htold ▸ (by simp) : ["each", "fetch"] ∈ (last w).trace.filterMap told)
  cases x with
  | noted n =>
    cases n with
    | failed path err =>
      obtain rfl : path = ["each", "fetch"] := Option.some.inj hpath
      obtain ⟨id, hid, ⟨err', hown, -⟩ | ⟨summary, -, -, hforgiven⟩⟩ := hnotes _ hx
      · cases hown
      · obtain rfl : "each" = id := Option.some.inj hid
        exact ⟨w, _, err, hd, Machine.run_foldl w e 0 moves _, hf, hverdict hlate, hx, hforgiven (hlate _), hfailed, herrors⟩
    | iterated path summary => cases hpath
  | dispatched id => cases hpath
  | asked id => cases hpath
  | turn id decision => cases hpath
  | called c => cases hpath
  | ended id o => cases hpath
  | died id => cases hpath

/-- A step that continues on error fails its run: when the runner hears of its start after its end, and when it dies, with room for 2^61
calls at a time, which no semaphore has permits for. -/
theorem continuing_step_fails_run : ∃ w : Workflow, ofDefinition .sampleContinuing = .ok w ∧
    (∀ s ∈ w.definition.steps, s.continueOnError = true) ∧
    (∃ m, Run w ⟨.default, fun _ => true⟩ .uncancelled (start w [("xs", .arr [])] 0) m ∧ m.finished = true ∧
      (m.ended.map fun (id, o) => (id, o.status)) = [("each", .completed)] ∧ (m.result 0).cancelled = false ∧
      (m.result 0).noErrors = false) ∧
    ∃ m, Run w ⟨{ EngineSettings.default with loopConcurrency := 2 ^ 61 }, fun _ => true⟩ .uncancelled
        (start w [("xs", .arr [.null])] 0) m ∧ m.finished = true ∧ m.died = ["each"] ∧ (m.result 0).cancelled = false ∧
      (m.result 0).noErrors = false := by
  let e : Engine := ⟨.default, fun _ => true⟩
  let wide : Engine := ⟨{ EngineSettings.default with loopConcurrency := 2 ^ 61 }, fun _ => true⟩
  let moves : List Move := [.dispatch, .ask "each", .hear, .begin "each" none, .join 0, .hear]
  let late (w : Workflow) : Machine := moves.foldl (fun m mv => (m.move w e 0 mv).1) (start w [("xs", .arr [])] 0)
  let dead (w : Workflow) : Machine := moves.foldl (fun m mv => (m.move w wide 0 mv).1) (start w [("xs", .arr [.null])] 0)
  have hlate : ((ofDefinition .sampleContinuing).toOption.map fun w => ((late w).finished,
      ((late w).ended.map fun (id, o) => (id, o.status)), ((late w).result 0).cancelled, ((late w).result 0).noErrors)) =
      some (true, [("each", .completed)], false, false) := by decide +kernel
  have hdead : ((ofDefinition .sampleContinuing).toOption.map fun w =>
      ((dead w).finished, (dead w).died, ((dead w).result 0).cancelled, ((dead w).result 0).noErrors)) =
      some (true, ["each"], false, false) := by decide +kernel
  obtain ⟨w, hd, hlate⟩ := exists_of_map_toOption hlate
  rw [hd] at hdead
  simp only [Except.toOption, Option.map_some, Option.some.injEq, Prod.mk.injEq] at hlate hdead
  have hcalm : ∀ mv ∈ moves, mv.cancels = false := by decide
  refine ⟨w, hd, ?_, ⟨late w, .foldl w e 0 (fun mv hmv _ => hcalm mv hmv) _, hlate⟩,
    ⟨dead w, .foldl w wide 0 (fun mv hmv _ => hcalm mv hmv) _, hdead⟩⟩
  rw [(valid_of_definition hd).1]
  simp [Definition.sampleContinuing]

end Workflow

end Runbook
