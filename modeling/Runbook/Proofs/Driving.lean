import Runbook.Proofs.Conduct

/-!
# Driving a procedure

A procedure that reads one scope goes on from reply to reply: any of the calls that it waits for may come back next, with any reply, and
the run may be cancelled whenever it goes on, unless it is to stay calm. What happens on the way is told as a list of acts. What a
procedure made of others does is what these do, one after the other; what a gathering does is, in some order, what its jobs do.
-/

namespace Runbook

/-- What happens while a procedure is driven: it makes a call, or one comes back. -/
inductive Act where
  | made (index : CallIndex) (call : Call)
  | back (index : CallIndex) (call : Call) (reply : Reply)

/-- The call that is made or comes back. -/
def Act.call : Act → Call
  | made _ c | back _ c _ => c

/-- The calls that a procedure makes until it rests. -/
def Settled.made (s : Settled α) : List Act := s.calls.map fun (i, c) => .made i c

namespace Proc

/-- What a procedure may come to in a scope, and what has happened then; in a run that stays calm, the token is not cancelled. -/
inductive DrivenIn (calm : Prop) (scope : Scope) (p : Proc α) : List Act → Proc α → Prop
  | begun (token : CancelToken) (own : calm → token = none) : DrivenIn calm scope p (p.settle scope token).made (p.settle scope token).proc
  | replied {acts : List Act} {q : Proc α} {index : CallIndex} {call : Call} (h : DrivenIn calm scope p acts q)
      (waits : (index, call) ∈ q.waitingFor) (reply : Reply) (token : CancelToken) (own : calm → token = none) :
      DrivenIn calm scope p (acts ++ .back index call reply :: ((q.reply index reply).settle scope token).made)
        ((q.reply index reply).settle scope token).proc

/-- What a procedure may come to in a scope, and what has happened then, in any run. -/
abbrev Driven (scope : Scope) (p : Proc α) : List Act → Proc α → Prop := p.DrivenIn False scope

/-- What is driven under conditions is driven. -/
theorem DrivenIn.driven {calm : Prop} {scope : Scope} {p q : Proc α} {acts : List Act} (h : p.DrivenIn calm scope acts q) :
    p.Driven scope acts q := by
  induction h with
  | begun token _ => exact .begun token nofun
  | replied _ waits reply token _ ih => exact .replied ih waits reply token nofun

/-- A procedure that comes to a result after finitely many replies, whatever they are and in whatever order they come. -/
inductive Ends (scope : Scope) : Proc α → Prop
  | done (a : α) : Ends scope (.done a)
  | waits {p : Proc α} (some : p.waitingFor ≠ [])
      (rest : ∀ index call, (index, call) ∈ p.waitingFor → ∀ reply token,
        Ends scope ((p.reply index reply).settle scope token).proc) : Ends scope p

/-- The result of a procedure that is at its end. -/
def result? : Proc α → Option α
  | done a => some a
  | _ => none

/-- A procedure has a result exactly if it is done with it. -/
theorem result?_eq_some {p : Proc α} {a : α} : p.result? = some a ↔ p = .done a := by
  cases p <;> simp [result?]

/-- A procedure that rests after these replies, in a run that is not cancelled; a reply that is not waited for is passed over. -/
def goOn (scope : Scope) : Proc α → List (CallIndex × Reply) → Proc α
  | p, [] => p
  | p, (index, reply) :: replies =>
    if index ∈ p.waitingFor.map Prod.fst then goOn scope ((p.reply index reply).settle scope none).proc replies
    else goOn scope p replies

/-- A procedure from its beginning on after these replies. -/
def drive (scope : Scope) (p : Proc α) (replies : List (CallIndex × Reply)) : Proc α :=
  (p.settle scope none).proc.goOn scope replies

/-- What is driven so far is driven on by replies. -/
theorem DrivenIn.goOn {calm : Prop} {scope : Scope} {p q : Proc α} {acts : List Act} (h : p.DrivenIn calm scope acts q)
    (replies : List (CallIndex × Reply)) : ∃ acts, p.DrivenIn calm scope acts (q.goOn scope replies) := by
  induction replies generalizing q acts with
  | nil => exact ⟨acts, h⟩
  | cons r replies ih =>
    unfold Proc.goOn
    split_ifs with hwaits
    · obtain ⟨⟨_, call⟩, hmem, rfl⟩ := List.mem_map.mp hwaits
      exact ih (.replied h hmem _ none fun _ => rfl)
    · exact ih h

/-- A procedure that is given replies is driven by them, calmly or not. -/
theorem exists_drivenIn_drive (calm : Prop) (scope : Scope) (p : Proc α) (replies : List (CallIndex × Reply)) :
    ∃ acts, p.DrivenIn calm scope acts (p.drive scope replies) :=
  DrivenIn.goOn (.begun none fun _ => rfl) replies

/-- A procedure whose gatherings a semaphore has permits for comes to a result. -/
theorem Rests.ends {k : Conduct} {P : α → Prop} {p : Proc α} (h : p.Rests k P) (hk : ∀ n, k.width n → n ≤ Semaphore.maxPermits)
    (scope : Scope) : p.Ends scope := by
  induction p using goes_wellFounded.induction with
  | _ p ih =>
    cases h with
    | done _ => exact .done _
    | waiting hp waits =>
      refine .waits waits ?_
      intro index call hmem reply token
      exact ih _ ⟨index, call, reply, scope, token, hmem, rfl⟩ ((hp.reply index reply).settle scope token).rests
    | panicked hp panics => exact absurd panics (by simp [hp.panics_eq_false hk])

/-- A procedure whose gatherings are never too wide comes to its end. -/
theorem Obeys.ends {k : Conduct} {P : α → Prop} {p : Proc α} (h : p.Obeys k P) (hk : ∀ n, k.width n → n ≤ Semaphore.maxPermits)
    (scope : Scope) (token : CancelToken) : ((p.settle scope token).proc).Ends scope :=
  (h.settle scope token).rests.ends hk scope

/-- However a procedure is driven, it keeps to its conduct. -/
theorem Obeys.driven {k : Conduct} {P : α → Prop} {p q : Proc α} (h : p.Obeys k P) {scope : Scope} {acts : List Act}
    (hd : p.Driven scope acts q) : q.Rests k P ∧ ∀ a ∈ acts, k.call a.call := by
  have hmade {s : Settled α} {before : List (CallIndex × Call)} (hs : s.Keeps k P before) : ∀ a ∈ s.made, k.call a.call := by
    intro a ha
    obtain ⟨⟨_, c⟩, hc, rfl⟩ := List.mem_map.mp ha
    exact hs.calls _ hc
  induction hd with
  | begun token _ =>
    have hs := h.settle scope token
    exact ⟨hs.rests, hmade hs⟩
  | @replied acts q index call _ waits reply token _ ih =>
    obtain ⟨hrests, hacts⟩ := ih
    have hp : q.UnderWay k P := by
      cases hrests with
      | done _ => cases waits
      | waiting hp _ => exact hp
      | panicked hp _ => exact hp
    have hs := (hp.reply index reply).settle scope token
    refine ⟨hs.rests, ?_⟩
    rw [List.forall_mem_append, List.forall_mem_cons]
    exact ⟨hacts, hp.call_of_mem waits, hmade hs⟩

/-- A procedure that waits for nothing once it has begun is driven no further. -/
theorem DrivenIn.of_idle {calm : Prop} {scope : Scope} {p q : Proc α} {acts : List Act} (h : p.DrivenIn calm scope acts q)
    (hidle : ∀ token, (p.settle scope token).proc.waitingFor = []) : ∃ token, q = (p.settle scope token).proc := by
  induction h with
  | begun token _ => exact ⟨token, rfl⟩
  | replied _ waits _ _ _ ih =>
    obtain ⟨token, rfl⟩ := ih
    rw [hidle token] at waits
    cases waits

/-! ## Single requests -/

namespace DrivenIn

variable {calm : Prop} {scope : Scope} {acts : List Act}

/-- A procedure that is done is driven no further. -/
theorem of_done {a : α} {q : Proc α} (h : (Proc.done a).DrivenIn calm scope acts q) : acts = [] ∧ q = .done a := by
  induction h with
  | begun _ _ => exact ⟨rfl, rfl⟩
  | replied _ waits _ _ _ ih =>
    obtain ⟨-, rfl⟩ := ih
    cases waits

/-- What drives a procedure that reads the scope drives what it goes on with. -/
theorem of_read {next : Scope → Proc α} {q : Proc α} (h : (Proc.read next).DrivenIn calm scope acts q) :
    (next scope).DrivenIn calm scope acts q := by
  induction h with
  | begun token own => exact .begun token own
  | replied _ waits reply token own ih => exact .replied ih waits reply token own

/-- A check finds the run cancelled only if it does not stay calm. -/
theorem of_poll {next : Bool → Proc α} {q : Proc α} (h : (Proc.poll next).DrivenIn calm scope acts q) :
    ∃ cancelled, (cancelled = true → ¬calm) ∧ (next cancelled).DrivenIn calm scope acts q := by
  induction h with
  | begun token own =>
    refine ⟨token.cancelled, fun hcancelled hcalm => CancelToken.ne_none_of_cancelled hcancelled (own hcalm), ?_⟩
    exact .begun token.checked fun hcalm => CancelToken.checked_eq_none.mpr (own hcalm)
  | replied _ waits reply token own ih =>
    obtain ⟨b, hb, ih⟩ := ih
    exact ⟨b, hb, .replied ih waits reply token own⟩

/-- What drives a procedure that notes something drives what it goes on with. -/
theorem of_note {n : Note} {next : Proc α} {q : Proc α} (h : (Proc.note n next).DrivenIn calm scope acts q) :
    next.DrivenIn calm scope acts q := by
  induction h with
  | begun token own => exact .begun token own
  | replied _ waits reply token own ih => exact .replied ih waits reply token own

end DrivenIn

/-! ## One procedure after another -/

/-- A gathering that is too wide stays where it is. -/
theorem settle_gather_wide {g : Gathering} (hwide : g.tooWide = true) (next : Gathered → Proc α) (scope : Scope) (token : CancelToken) :
    (gather g next).settle scope token = ⟨gather g next, [], []⟩ := by
  simp [settle, hwide]

/-- A gathering whose calls are not all answered makes those that it has places for, and waits. -/
theorem settle_gather_none {g : Gathering} {next : Gathered → Proc α} {scope : Scope} {token : CancelToken} (hwide : g.tooWide = false)
    (h : (g.fill scope token).results? = none) :
    (gather g next).settle scope token =
      ⟨gather (g.fill scope token) next, ((g.fill scope token).callsFrom g.begun.length).map fun (i, c) => (some i, c), []⟩ := by
  simp [settle, hwide, h]

/-- A gathering that has all of its results goes on with them. -/
theorem settle_gather_some {g : Gathering} {next : Gathered → Proc α} {scope : Scope} {token : CancelToken} (hwide : g.tooWide = false)
    {results : List (Except StepError Value)} (h : (g.fill scope token).results? = some results) :
    (gather g next).settle scope token =
      ⟨((next ⟨results, (g.fill scope token).stopped⟩).settle scope token).proc,
        ((g.fill scope token).callsFrom g.begun.length).map (fun (i, c) => (some i, c)) ++
          ((next ⟨results, (g.fill scope token).stopped⟩).settle scope token).calls,
        ((next ⟨results, (g.fill scope token).stopped⟩).settle scope token).notes⟩ := by
  simp [settle, hwide, h]

/-- A procedure that goes on with the result of another rests where this one does, or goes on at its end, with what is left of the
token. -/
theorem settle_bind (scope : Scope) (token : CancelToken) (p : Proc α) (f : α → Proc β) :
    ((p.settle scope token).proc.result? = none ∧
      ((p.bind f).settle scope token).proc = (p.settle scope token).proc.bind f ∧
      ((p.bind f).settle scope token).made = (p.settle scope token).made) ∨
    ∃ a later, (token = none → later = none) ∧ (p.settle scope token).proc = .done a ∧
      ((p.bind f).settle scope token).proc = ((f a).settle scope later).proc ∧
      ((p.bind f).settle scope token).made = (p.settle scope token).made ++ ((f a).settle scope later).made := by
  induction p generalizing token with
  | done a => exact .inr ⟨a, token, id, rfl, rfl, rfl⟩
  | read next ih => exact ih scope token
  | poll next ih =>
    obtain h | ⟨a, later, hlater, h⟩ := ih token.cancelled token.checked
    · exact .inl h
    · exact .inr ⟨a, later, fun hnone => hlater (CancelToken.checked_eq_none.mpr hnone), h⟩
  | note n next ih => exact ih token
  | call c next _ => exact .inl ⟨rfl, rfl, rfl⟩
  | gather g next ih =>
    cases hwide : g.tooWide with
    | true =>
      refine .inl ?_
      rw [settle_gather_wide hwide, bind, settle_gather_wide hwide]
      exact ⟨rfl, rfl, rfl⟩
    | false =>
      cases h : (g.fill scope token).results? with
      | none =>
        refine .inl ?_
        rw [settle_gather_none hwide h, bind, settle_gather_none hwide h]
        exact ⟨rfl, rfl, rfl⟩
      | some results =>
        rw [settle_gather_some hwide h, bind, settle_gather_some hwide h]
        obtain ⟨hnone, hproc, hacts⟩ | ⟨a, later, hlater, hdone, hproc, hacts⟩ := ih ⟨results, (g.fill scope token).stopped⟩ token
        · refine .inl ⟨hnone, hproc, ?_⟩
          simpa [Settled.made] using hacts
        · refine .inr ⟨a, later, hlater, hdone, hproc, ?_⟩
          simpa [Settled.made] using hacts

/-- A procedure that is not done waits for the same calls, whatever follows it. -/
theorem waitingFor_bind {p : Proc α} (h : p.result? = none) (f : α → Proc β) : (p.bind f).waitingFor = p.waitingFor := by
  cases p with
  | done a => cases h
  | _ => rfl

/-- A reply to a procedure that is not done is one to it, whatever follows it. -/
theorem reply_bind {p : Proc α} (h : p.result? = none) (f : α → Proc β) (index : CallIndex) (r : Reply) :
    (p.bind f).reply index r = (p.reply index r).bind f := by
  cases p with
  | done a => cases h
  | call _ _ => cases index <;> rfl
  | gather _ _ => cases index <;> rfl
  | _ => rfl

/-- A procedure is not done before the first of its parts is. -/
theorem bind_ne_done {p : Proc α} (h : p.result? = none) (f : α → Proc β) (b : β) : p.bind f ≠ .done b := by
  cases p with
  | done a => cases h
  | _ => simp [bind]

/-- What two procedures do one after the other: the first is still under way, or has come to its result, and the second goes on from
there. A reply is one to the first as long as it is under way, and may bring it to its result; from then on it is one to the second. -/
theorem DrivenIn.of_bind {calm : Prop} {scope : Scope} {acts : List Act} {p : Proc α} {f : α → Proc β} {q : Proc β}
    (h : (p.bind f).DrivenIn calm scope acts q) :
    (∃ p', p.DrivenIn calm scope acts p' ∧ p'.result? = none ∧ q = p'.bind f) ∨
      ∃ a first rest, p.DrivenIn calm scope first (.done a) ∧ (f a).DrivenIn calm scope rest q ∧ acts = first ++ rest := by
  induction h with
  | begun token own =>
    obtain ⟨hnone, hproc, hacts⟩ | ⟨a, later, hlater, hdone, hproc, hacts⟩ := settle_bind scope token p f
    · refine .inl ⟨_, ?_, hnone, hproc⟩
      rw [hacts]
      exact .begun token own
    · refine .inr ⟨a, _, _, ?_, ?_, hacts⟩
      · rw [← hdone]
        exact .begun token own
      · rw [hproc]
        exact .begun later fun hcalm => hlater (own hcalm)
  | @replied acts q index call _ waits reply token own ih =>
    obtain ⟨p', hp, hunder, rfl⟩ | ⟨a, first, rest, hp, hf, rfl⟩ := ih
    · rw [waitingFor_bind hunder] at waits
      rw [reply_bind hunder]
      have hnext := DrivenIn.replied hp waits reply token own
      obtain ⟨hnone, hproc, hacts⟩ | ⟨a, later, hlater, hdone, hproc, hacts⟩ := settle_bind scope token (p'.reply index reply) f
      · refine .inl ⟨_, ?_, hnone, hproc⟩
        rw [hacts]
        exact hnext
      · refine .inr ⟨a, _, ((f a).settle scope later).made, hdone ▸ hnext, ?_, ?_⟩
        · rw [hproc]
          exact .begun later fun hcalm => hlater (own hcalm)
        · rw [hacts, List.append_assoc, List.cons_append]
    · refine .inr ⟨a, first, _, hp, .replied hf waits reply token own, ?_⟩
      rw [List.append_assoc]

/-- What two procedures did one after the other that have come to a result. -/
theorem DrivenIn.of_bind_done {calm : Prop} {scope : Scope} {acts : List Act} {p : Proc α} {f : α → Proc β} {b : β}
    (h : (p.bind f).DrivenIn calm scope acts (.done b)) :
    ∃ a first rest, p.DrivenIn calm scope first (.done a) ∧ (f a).DrivenIn calm scope rest (.done b) ∧ acts = first ++ rest := by
  obtain ⟨p', -, hunder, hdone⟩ | h := h.of_bind
  · exact absurd hdone.symm (bind_ne_done hunder f b)
  · exact h

/-! ## Inner scopes -/

end Proc

/-! ## Many calls -/

/-- One of many calls: its place among them, what has happened to it, and the slot that it has become. -/
structure Attempt where
  place : Nat
  job : Job
  acts : List Act
  slot : Slot

/-- What has happened to an attempt is what its slot says. -/
inductive Attempt.Sound (scope : Scope) : Attempt → Prop
  | refused {place : Nat} {job : Job} {err : StepError} (h : job scope = .error err) : Sound scope ⟨place, job, [], .refused err⟩
  | flying {place : Nat} {job : Job} {c : Call} (h : job scope = .ok c) :
      Sound scope ⟨place, job, [.made (some place) c], .flying c⟩
  | finished {place : Nat} {job : Job} {c : Call} (h : job scope = .ok c) (r : Reply) :
      Sound scope ⟨place, job, [.made (some place) c, .back (some place) c r], .finished (c.result r)⟩

namespace Attempt

/-- An attempt when its turn comes. -/
def start (scope : Scope) (place : Nat) (job : Job) : Attempt :=
  match job scope with
  | .error err => ⟨place, job, [], .refused err⟩
  | .ok c => ⟨place, job, [.made (some place) c], .flying c⟩

/-- An attempt is sound when it starts. -/
theorem sound_start (scope : Scope) (place : Nat) (job : Job) : (start scope place job).Sound scope := by
  unfold start
  split
  · rename_i h
    exact .refused h
  · rename_i h
    exact .flying h

/-- Attempts at jobs whose turn comes one after the other, from a place on. -/
def startFrom (scope : Scope) (place : Nat) : List Job → List Attempt
  | [] => []
  | job :: jobs => start scope place job :: startFrom scope (place + 1) jobs

/-- Attempts that start have the slots of their jobs. -/
theorem map_slot_startFrom (scope : Scope) (place : Nat) (jobs : List Job) :
    (startFrom scope place jobs).map slot = jobs.map (Slot.ofJob scope) := by
  induction jobs generalizing place with
  | nil => rfl
  | cons job jobs ih =>
    simp only [startFrom, List.map_cons, ih, start, Slot.ofJob]
    cases job scope <;> rfl

/-- Attempts that start are those of their jobs, in order. -/
theorem map_job_startFrom (scope : Scope) (place : Nat) (jobs : List Job) : (startFrom scope place jobs).map job = jobs := by
  induction jobs generalizing place with
  | nil => rfl
  | cons job jobs ih =>
    simp only [startFrom, List.map_cons, ih, start]
    cases job scope <;> rfl

/-- Attempts that start take one place after the other. -/
theorem map_place_startFrom (scope : Scope) (place : Nat) (jobs : List Job) :
    (startFrom scope place jobs).map Attempt.place = List.range' place jobs.length := by
  induction jobs generalizing place with
  | nil => rfl
  | cons job jobs ih =>
    simp only [startFrom, List.map_cons, ih, start, List.length_cons, List.range'_succ]
    cases job scope <;> rfl

/-- What happens when turns come is that calls are made. -/
theorem acts_startFrom (scope : Scope) (place : Nat) (jobs : List Job) :
    (startFrom scope place jobs).flatMap acts =
      (Slot.calls place (jobs.map (Slot.ofJob scope))).map fun (i, c) => .made (some i) c := by
  induction jobs generalizing place with
  | nil => rfl
  | cons job jobs ih =>
    simp only [startFrom, List.flatMap_cons, ih, start, List.map_cons, Slot.ofJob]
    cases job scope <;> rfl

/-- All attempts are sound when they start. -/
theorem sound_of_mem_startFrom {scope : Scope} {place : Nat} {jobs : List Job} {a : Attempt} (h : a ∈ startFrom scope place jobs) :
    a.Sound scope := by
  induction jobs generalizing place with
  | nil => cases h
  | cons job jobs ih =>
    rcases List.mem_cons.mp h with rfl | h
    · exact sound_start scope place job
    · exact ih h

end Attempt

namespace Gathering

/-- What has happened while calls were gathered, as attempts at the first of the jobs; the others wait for their turn, or are dropped
when the run is stopped, which it is only if it does not stay calm. -/
structure Attempted (calm : Prop) (scope : Scope) (jobs : List Job) (g : Gathering) (acts : List Act) (attempts : List Attempt) : Prop where
  slots : g.begun = attempts.map Attempt.slot
  places : attempts.map Attempt.place = List.range attempts.length
  jobs : ∃ dropped, jobs = attempts.map Attempt.job ++ (g.jobs ++ dropped) ∧ (g.stopped = false → dropped = [])
  acts : acts.Perm (attempts.flatMap Attempt.acts)
  sound : ∀ a ∈ attempts, a.Sound scope
  stopped : g.stopped = true → ¬calm

namespace Attempted

variable {calm : Prop} {scope : Scope} {jobs : List Job} {g : Gathering} {acts : List Act} {attempts : List Attempt}

/-- A gathering begins without attempts. -/
theorem start (calm : Prop) (scope : Scope) (width : Nat) (jobs : List Job) :
    Attempted calm scope jobs ⟨width, [], jobs, false⟩ [] [] :=
  ⟨rfl, rfl, ⟨[], by simp, fun _ => rfl⟩, .nil, nofun, nofun⟩

/-- The first of the jobs that wait have their turn. -/
theorem fill (h : g.Attempted calm scope jobs acts attempts) (token : CancelToken) (own : calm → token = none) :
    ∃ more, (g.fill scope token).Attempted calm scope jobs
      (acts ++ ((g.fill scope token).callsFrom g.begun.length).map fun (i, c) => .made (some i) c) (attempts ++ more) := by
  obtain ⟨taken, dropped, hbegun, hjobs, hstop⟩ := fill_split scope token g
  have hlength : g.begun.length = attempts.length := by rw [h.slots, List.length_map]
  have hcount : (Attempt.startFrom scope attempts.length taken).length = taken.length := by
    rw [← List.length_map Attempt.job, Attempt.map_job_startFrom]
  refine ⟨Attempt.startFrom scope attempts.length taken, ?_, ?_, ?_, ?_, ?_, ?_⟩
  · rw [hbegun, h.slots, List.map_append, Attempt.map_slot_startFrom]
  · rw [List.map_append, h.places, Attempt.map_place_startFrom, List.length_append, hcount, List.range_eq_range', List.range_eq_range',
      ← List.range'_append_1, Nat.zero_add]
  · obtain ⟨dropped', hsplit, hstop'⟩ := h.jobs
    refine ⟨dropped ++ dropped', ?_, ?_⟩
    · rw [hsplit, hjobs, List.map_append, Attempt.map_job_startFrom]
      simp only [List.append_assoc]
    · intro hgoes
      obtain ⟨hgoes, rfl⟩ := hstop hgoes
      exact hstop' hgoes
  · rw [callsFrom_eq, hbegun, List.drop_left, hlength, ← Attempt.acts_startFrom, List.flatMap_append]
    exact h.acts.append_right _
  · intro a ha
    rcases List.mem_append.mp ha with ha | ha
    · exact h.sound a ha
    · exact Attempt.sound_of_mem_startFrom ha
  · intro hstopped hcalm
    cases hg : g.stopped with
    | true => exact h.stopped hg hcalm
    | false => exact fill_stopped hstopped hg (own hcalm)

/-- A call that comes back was made by the attempt at its place. -/
theorem reply (h : g.Attempted calm scope jobs acts attempts) {i : Nat} {c : Call} (hmem : (i, c) ∈ g.callsFrom 0) (r : Reply) :
    ∃ attempts', (g.reply i r).Attempted calm scope jobs (acts ++ [.back (some i) c r]) attempts' := by
  obtain ⟨before, after, hg, hplace, hreply⟩ := reply_split hmem r
  obtain ⟨earlier, rest, rfl, rfl, hrest⟩ := List.map_eq_append_iff.mp (h.slots.symm.trans hg)
  obtain ⟨a, later, rfl, hslot, rfl⟩ := List.map_eq_cons_iff.mp hrest
  rw [List.length_map] at hplace
  have hat : a.place = i := by
    have hget := congrArg (·[i]?) h.places
    simpa [← hplace] using hget
  have hsound := h.sound a (by simp)
  cases hsound with
  | refused _ => cases hslot
  | finished _ _ => cases hslot
  | @flying place job c' hjob =>
    obtain rfl : place = i := hat
    obtain rfl : c' = c := by simpa using hslot
    let answered : Attempt := ⟨place, job, [.made (some place) c', .back (some place) c' r], .finished (c'.result r)⟩
    refine ⟨earlier ++ answered :: later, ?_, ?_, ?_, ?_, ?_, h.stopped⟩
    · rw [hreply, List.map_append, List.map_cons]
    · simpa using h.places
    · simpa [Gathering.reply] using h.jobs
    · refine (h.acts.append_right [.back (some place) c' r]).trans ?_
      simp only [List.flatMap_append, List.flatMap_cons, List.append_assoc, List.cons_append, List.nil_append]
      exact (List.perm_append_comm.cons _).append_left _
    · intro b hb
      rcases List.mem_append.mp hb with hb | hb
      · exact h.sound b (List.mem_append_left _ hb)
      · rcases List.mem_cons.mp hb with rfl | hb
        · exact .finished hjob r
        · exact h.sound b (by simp [hb])

/-- What a gathering comes to: one result for every attempt. -/
theorem results (h : g.Attempted calm scope jobs acts attempts) {results : List (Except StepError Value)} (hr : g.results? = some results) :
    g.jobs = [] ∧ List.Forall₂ (fun a r => Slot.result? a.slot = some r) attempts results := by
  unfold results? at hr
  split at hr
  · rename_i hempty
    refine ⟨by simpa using hempty, ?_⟩
    have hslots := Slot.forall₂_results hr
    rwa [h.slots, List.forall₂_map_left_iff] at hslots
  · cases hr

end Attempted

end Gathering

namespace Proc

open Gathering

variable {calm : Prop} {scope : Scope} {jobs : List Job} {g : Gathering} {acts : List Act} {attempts : List Attempt}

/-- A gathering goes on: its jobs have their turns, and when all of them have their results, what comes next goes on from there. -/
theorem settle_attempted (h : g.Attempted calm scope jobs acts attempts) (next : Gathered → Proc α) (token : CancelToken)
    (own : calm → token = none) :
    (∃ (g' : Gathering) (attempts' : List Attempt),
      g'.Attempted calm scope jobs (acts ++ ((gather g next).settle scope token).made) attempts' ∧
      ((gather g next).settle scope token).proc = gather g' next) ∨
    ∃ (g' : Gathering) (attempts' : List Attempt) (results : List (Except StepError Value)) (made : List Act),
      g'.Attempted calm scope jobs (acts ++ made) attempts' ∧ g'.results? = some results ∧
      ((gather g next).settle scope token).proc = ((next ⟨results, g'.stopped⟩).settle scope token).proc ∧
      ((gather g next).settle scope token).made = made ++ ((next ⟨results, g'.stopped⟩).settle scope token).made := by
  obtain ⟨more, hfill⟩ := h.fill token own
  cases hwide : g.tooWide with
  | true =>
    rw [settle_gather_wide hwide]
    exact .inl ⟨g, attempts, by simpa [Settled.made] using h, rfl⟩
  | false =>
    cases hr : (g.fill scope token).results? with
    | none =>
      refine .inl ⟨_, attempts ++ more, ?_, by rw [settle_gather_none hwide hr]⟩
      rw [settle_gather_none hwide hr]
      simpa [Settled.made, Function.comp_def] using hfill
    | some results =>
      refine .inr ⟨_, attempts ++ more, results, _, hfill, hr, by rw [settle_gather_some hwide hr], ?_⟩
      rw [settle_gather_some hwide hr]
      simp [Settled.made, Function.comp_def]

/-- What a procedure does that gathers the replies to many calls. -/
theorem DrivenIn.of_gather {width : Nat} {next : Gathered → Proc α} {q : Proc α}
    (h : (gather ⟨width, [], jobs, false⟩ next).DrivenIn calm scope acts q) :
    (∃ (g : Gathering) (attempts : List Attempt), g.Attempted calm scope jobs acts attempts ∧ q = gather g next) ∨
      ∃ (g : Gathering) (attempts : List Attempt) (results : List (Except StepError Value)) (first rest : List Act),
        g.Attempted calm scope jobs first attempts ∧ g.results? = some results ∧
        (next ⟨results, g.stopped⟩).DrivenIn calm scope rest q ∧ acts = first ++ rest := by
  induction h with
  | begun token own =>
    obtain ⟨g, attempts, hg, hproc⟩ | ⟨g, attempts, results, made, hg, hr, hproc, hacts⟩ :=
      settle_attempted (.start calm scope width jobs) next token own
    · exact .inl ⟨g, attempts, hg, hproc⟩
    · refine .inr ⟨g, attempts, results, _, _, hg, hr, ?_, hacts⟩
      rw [hproc]
      exact .begun token own
  | @replied acts q index call _ waits reply token own ih =>
    obtain ⟨g, attempts, hg, rfl⟩ | ⟨g, attempts, results, first, rest, hg, hr, hnext, rfl⟩ := ih
    · obtain ⟨⟨i, c⟩, hmem, heq⟩ := List.mem_map.mp waits
      obtain ⟨rfl, rfl⟩ : some i = index ∧ c = call := by simpa using heq
      obtain ⟨attempts', hreply⟩ := hg.reply hmem reply
      have happend (more : List Act) : acts ++ .back (some i) c reply :: more = acts ++ [.back (some i) c reply] ++ more := by simp
      obtain ⟨g', attempts'', hg', hproc⟩ | ⟨g', attempts'', results, made, hg', hr, hproc, hacts⟩ :=
        settle_attempted hreply next token own
      · exact .inl ⟨g', attempts'', happend _ ▸ hg', hproc⟩
      · refine .inr ⟨g', attempts'', results, _, ((next ⟨results, g'.stopped⟩).settle scope token).made, hg', hr, ?_, ?_⟩
        · rw [show Proc.reply (some i) reply (gather g next) = gather (g.reply i reply) next from rfl, hproc]
          exact .begun token own
        · rw [happend, show Proc.reply (some i) reply (gather g next) = gather (g.reply i reply) next from rfl, hacts]
          simp only [List.append_assoc]
    · refine .inr ⟨g, attempts, results, first, _, hg, hr, .replied hnext waits reply token own, ?_⟩
      rw [List.append_assoc]

end Proc

end Runbook
