import Runbook.Proofs.Gathering

/-!
# The conduct of procedures

A conduct says which calls a procedure may make, which notes it may leave and how many replies it may gather at a time. A procedure
that keeps to its conduct does so whatever it reads and whatever it is replied; when it rests, it has come to its result, or waits for a
reply, or panics at a gathering that is too wide, and it cannot go on for ever.
-/

namespace Runbook

/-- The calls that a procedure may make, the notes that it may leave, and how wide its gatherings may be. -/
structure Conduct where
  call : Call → Prop
  note : Note → Prop
  width : Nat → Prop

/-- The conduct of procedures that may do anything. -/
def Conduct.any : Conduct := ⟨fun _ => True, fun _ => True, fun _ => True⟩

/-- What jobs may come to in an inner scope, they may come to. -/
theorem Gathered.MayBe.of_inner {inner : Scope → Scope} {jobs : List Job} {r : Gathered}
    (h : Gathered.MayBe (jobs.map (· ∘ inner)) r) : Gathered.MayBe jobs r := by
  obtain ⟨taken, left, hjobs, hresults, hleft⟩ := h
  obtain ⟨taken', left', rfl, rfl, rfl⟩ := List.map_eq_append_iff.mp hjobs
  refine ⟨taken', left', rfl, ?_, fun h => by simpa using hleft h⟩
  refine (List.forall₂_map_left_iff.mp hresults).imp ?_
  intro job result h
  cases h with
  | refused h => exact .refused h
  | replied r h => exact .replied r h

namespace Proc

/-- A procedure that keeps to a conduct and comes to a result of a kind. -/
inductive Obeys (k : Conduct) (P : α → Prop) : Proc α → Prop
  | done {a : α} (result : P a) : Obeys k P (.done a)
  | read {next : Scope → Proc α} (rest : ∀ s, Obeys k P (next s)) : Obeys k P (.read next)
  | poll {next : Bool → Proc α} (rest : ∀ b, Obeys k P (next b)) : Obeys k P (.poll next)
  | note {n : Note} {next : Proc α} (own : k.note n) (rest : Obeys k P next) : Obeys k P (.note n next)
  | call {c : Call} {next : Reply → Proc α} (own : k.call c) (rest : ∀ r, Obeys k P (next r)) : Obeys k P (.call c next)
  | gather {width : Nat} {jobs : List Job} {next : Gathered → Proc α} (room : 0 < width) (wide : k.width width)
      (made : ∀ job ∈ jobs, ∀ s c, job s = .ok c → k.call c) (rest : ∀ r, Gathered.MayBe jobs r → Obeys k P (next r)) :
      Obeys k P (.gather ⟨width, [], jobs, false⟩ next)

namespace Obeys

variable {k : Conduct} {P : α → Prop}

/-- A procedure that keeps to a conduct keeps to every wider one. -/
theorem mono {k' : Conduct} {Q : α → Prop} {p : Proc α} (hp : p.Obeys k P) (hcall : ∀ c, k.call c → k'.call c)
    (hnote : ∀ n, k.note n → k'.note n) (hwidth : ∀ n, k.width n → k'.width n) (hresult : ∀ a, P a → Q a) : p.Obeys k' Q := by
  induction hp with
  | done result => exact .done (hresult _ result)
  | read _ ih => exact .read ih
  | poll _ ih => exact .poll ih
  | note own _ ih => exact .note (hnote _ own) ih
  | call own _ ih => exact .call (hcall _ own) ih
  | gather room wide made _ ih => exact .gather room (hwidth _ wide) (fun job hjob s c h => hcall c (made job hjob s c h)) ih

/-- A procedure that goes on with the results of another keeps to its conduct when both do. -/
theorem bind {Q : β → Prop} {p : Proc α} {f : α → Proc β} (hp : p.Obeys k P) (hf : ∀ a, P a → (f a).Obeys k Q) :
    (p.bind f).Obeys k Q := by
  induction hp with
  | done result => exact hf _ result
  | read _ ih => exact .read ih
  | poll _ ih => exact .poll ih
  | note own _ ih => exact .note own ih
  | call own _ ih => exact .call own ih
  | gather room wide made _ ih => exact .gather room wide made ih

/-- To read an inner scope changes nothing of the conduct. -/
theorem within {p : Proc α} (hp : p.Obeys k P) (inner : Scope → Scope) : (p.within inner).Obeys k P := by
  induction hp with
  | done result => exact .done result
  | read _ ih => exact .read fun s => ih (inner s)
  | poll _ ih => exact .poll ih
  | note own _ ih => exact .note own ih
  | call own _ ih => exact .call own ih
  | @gather width jobs next room wide made _ ih =>
    refine .gather room wide ?_ fun r hr => ih r ?_
    · intro job hjob s c h
      obtain ⟨job', hjob', rfl⟩ := List.mem_map.mp hjob
      exact made job' hjob' (inner s) c h
    · exact hr.of_inner

end Obeys

/-! ## Procedures under way -/

/-- The calls of a procedure that are in flight before it goes on. -/
def underway : Proc α → List (CallIndex × Call)
  | gather g _ => (g.callsFrom 0).map fun (i, c) => (some i, c)
  | done _ | read _ | poll _ | note _ _ | call _ _ => []

/-- A procedure of a conduct that may have begun to gather replies. -/
inductive UnderWay (k : Conduct) (P : α → Prop) : Proc α → Prop
  | fresh {p : Proc α} (h : p.Obeys k P) : UnderWay k P p
  | gathering {g : Gathering} {jobs : List Job} {next : Gathered → Proc α} (room : 0 < g.width) (wide : k.width g.width)
      (fits : g.tooWide = true → g.begun = []) (serves : g.Serves jobs) (made : ∀ job ∈ jobs, ∀ s c, job s = .ok c → k.call c)
      (rest : ∀ r, Gathered.MayBe jobs r → (next r).Obeys k P) : UnderWay k P (.gather g next)

/-- A procedure that has come to its result, or waits for a reply, or panics. -/
inductive Rests (k : Conduct) (P : α → Prop) : Proc α → Prop
  | done {a : α} (result : P a) : Rests k P (.done a)
  | waiting {p : Proc α} (h : p.UnderWay k P) (waits : p.waitingFor ≠ []) : Rests k P p
  | panicked {p : Proc α} (h : p.UnderWay k P) (panics : p.panics = true) : Rests k P p

/-- No procedure of a conduct panics whose gatherings a semaphore has permits for. -/
theorem UnderWay.panics_eq_false {k : Conduct} {P : α → Prop} {p : Proc α} (h : p.UnderWay k P)
    (hk : ∀ n, k.width n → n ≤ Semaphore.maxPermits) : p.panics = false := by
  have hnarrow {n : Nat} (wide : k.width n) : decide (Semaphore.maxPermits < n) = false :=
    decide_eq_false (Nat.not_lt.mpr (hk n wide))
  cases h with
  | fresh h =>
    cases h with
    | gather _ wide _ _ => exact hnarrow wide
    | _ => rfl
  | gathering _ wide _ _ _ _ => exact hnarrow wide

/-- A procedure that panics waits for nothing. -/
theorem UnderWay.idle_of_panics {k : Conduct} {P : α → Prop} {p : Proc α} (h : p.UnderWay k P) (hpanics : p.panics = true) :
    p.waitingFor = [] := by
  cases h with
  | fresh h =>
    cases h with
    | gather _ _ _ _ => rfl
    | done _ | read _ | poll _ | note _ _ | call _ _ => cases hpanics
  | gathering _ _ fits _ _ _ => simp [waitingFor, Gathering.callsFrom_zero_eq_nil, Gathering.flying, fits hpanics]

/-- A procedure that rests is under way. -/
theorem Rests.way {k : Conduct} {P : α → Prop} {p : Proc α} (h : p.Rests k P) : p.UnderWay k P := by
  cases h with
  | done result => exact .fresh (.done result)
  | waiting way _ => exact way
  | panicked way _ => exact way

/-- What a procedure at its end has come to. -/
theorem Rests.result {k : Conduct} {P : α → Prop} {a : α} (h : (Proc.done a).Rests k P) : P a := by
  cases h with
  | done result => exact result
  | waiting _ waits => exact absurd rfl waits
  | panicked _ panics => cases panics

/-- A procedure that obeys from its beginning has nothing under way. -/
theorem Obeys.underway_eq_nil {k : Conduct} {P : α → Prop} {p : Proc α} (h : p.Obeys k P) : p.underway = [] := by
  cases h <;> rfl

end Proc

/-- What a procedure does until it rests: calls and notes of its conduct, and it waits for the calls that were in flight and those
that it made. -/
structure Settled.Keeps (s : Settled α) (k : Conduct) (P : α → Prop) (before : List (CallIndex × Call)) : Prop where
  calls : ∀ c ∈ s.calls, k.call c.2
  notes : ∀ n ∈ s.notes, k.note n
  rests : s.proc.Rests k P
  waiting : s.proc.waitingFor = before ++ s.calls

namespace Gathering.Serves

/-- A call in flight is the call of a job. -/
theorem call_of_mem {g : Gathering} {jobs : List Job} (h : g.Serves jobs) {before i : Nat} {c : Call}
    (hc : (i, c) ∈ g.callsFrom before) : ∃ job ∈ jobs, ∃ s, job s = .ok c := by
  obtain ⟨⟨taken, dropped, rfl, hslots, -⟩, -⟩ := h
  rw [callsFrom_eq, Slot.mem_calls] at hc
  obtain ⟨hle, hi⟩ := hc
  rw [List.getElem?_drop, Nat.add_sub_cancel' hle] at hi
  obtain ⟨hlt, hslot⟩ := List.getElem?_eq_some_iff.mp hi
  have hlt' : i < taken.length := hslots.length_eq ▸ hlt
  have hof := hslots.get hlt' hlt
  simp only [List.get_eq_getElem, hslot] at hof
  cases hof with
  | @flying s _ hjob => exact ⟨taken[i], by simp, s, hjob⟩

end Gathering.Serves

namespace Proc

variable {k : Conduct} {P : α → Prop}

/-- A gathering keeps to its conduct until it rests when what comes after it does. -/
theorem settle_gather {g : Gathering} {jobs : List Job} {next : Gathered → Proc α} (room : 0 < g.width) (wide : k.width g.width)
    (fits : g.tooWide = true → g.begun = []) (serves : g.Serves jobs) (made : ∀ job ∈ jobs, ∀ s c, job s = .ok c → k.call c)
    (rest : ∀ r, Gathered.MayBe jobs r → (next r).Obeys k P) (scope : Scope) (token : CancelToken)
    (ih : ∀ r, Gathered.MayBe jobs r → ((next r).settle scope token).Keeps k P []) :
    ((gather g next).settle scope token).Keeps k P (gather g next).underway := by
  have hfill := serves.fill scope token
  have hcalls : ∀ c ∈ ((g.fill scope token).callsFrom g.begun.length).map (fun (i, c) => ((some i : CallIndex), c)),
      k.call c.2 := by
    intro c hc
    obtain ⟨⟨i, c⟩, hmem, rfl⟩ := List.mem_map.mp hc
    obtain ⟨job, hjob, s, hs⟩ := hfill.call_of_mem hmem
    exact made job hjob s c hs
  have hsplit := Gathering.callsFrom_fill scope token g
  unfold settle
  dsimp only
  split
  · rename_i hpanics
    exact ⟨nofun, nofun, .panicked (.gathering room wide fits serves made rest) hpanics, (List.append_nil _).symm⟩
  rename_i hnarrow
  split
  · rename_i hnone
    have hflying := Gathering.flying_of_fill room serves.idle hnone
    have hfits : (g.fill scope token).tooWide = true → (g.fill scope token).begun = [] := fun hwide => by
      simp [Gathering.tooWide] at hwide hnarrow
      omega
    refine ⟨hcalls, nofun, .waiting (.gathering (by simpa using room) (by simpa using wide) hfits hfill made rest) ?_, ?_⟩
    · simp only [waitingFor, ne_eq, List.map_eq_nil_iff, Gathering.callsFrom_zero_eq_nil]
      omega
    · simp only [waitingFor, underway, hsplit, List.map_append]
  · rename_i results hsome
    have hnil : (g.fill scope token).callsFrom 0 = [] := by
      rw [Gathering.callsFrom_zero_eq_nil, Gathering.flying]
      unfold Gathering.results? at hsome
      split at hsome
      · exact Slot.countP_flying_of_results hsome
      · cases hsome
    obtain ⟨hbefore, hnew⟩ := List.append_eq_nil_iff.mp (hsplit.symm.trans hnil)
    obtain ⟨hc, hn, hr, hw⟩ := ih _ (hfill.mayBe hsome)
    exact ⟨by simpa [hnew] using hc, hn, hr, by simpa [hnew, underway, hbefore] using hw⟩

/-- A procedure of a conduct keeps to it until it rests. -/
theorem Obeys.settle {p : Proc α} (hp : p.Obeys k P) (scope : Scope) (token : CancelToken) :
    (p.settle scope token).Keeps k P [] := by
  induction hp generalizing token with
  | done result => exact ⟨nofun, nofun, .done result, rfl⟩
  | read _ ih => exact ih scope token
  | poll _ ih => exact ih _ token.checked
  | note own _ ih =>
    have hkeeps := ih token
    refine ⟨hkeeps.calls, ?_, hkeeps.rests, hkeeps.waiting⟩
    intro n hn
    rcases List.mem_cons.mp hn with rfl | hn
    · exact own
    · exact hkeeps.notes n hn
  | @call c next own rest _ =>
    refine ⟨?_, nofun, .waiting (.fresh (.call own rest)) (by simp [Proc.settle, waitingFor]), rfl⟩
    intro c' hc'
    obtain rfl := List.mem_singleton.mp hc'
    exact own
  | gather room wide made rest ih => exact settle_gather room wide (fun _ => rfl) (.start _ _) made rest scope token fun r hr => ih r hr token

namespace UnderWay

/-- What goes on as far as it can keeps to its conduct, with the calls that it makes on the way. -/
theorem settle {p : Proc α} (hp : p.UnderWay k P) (scope : Scope) (token : CancelToken) :
    (p.settle scope token).Keeps k P p.underway := by
  cases hp with
  | fresh h => exact h.underway_eq_nil ▸ h.settle scope token
  | gathering room wide fits serves made rest =>
    exact settle_gather room wide fits serves made rest scope token fun r hr => (rest r hr).settle scope token

/-- A reply leaves a procedure under way. -/
theorem reply {p : Proc α} (hp : p.UnderWay k P) (index : CallIndex) (r : Reply) : (p.reply index r).UnderWay k P := by
  cases hp with
  | fresh h =>
    cases h with
    | done result => exact .fresh (.done result)
    | read rest => exact .fresh (.read rest)
    | poll rest => exact .fresh (.poll rest)
    | note own rest => exact .fresh (.note own rest)
    | call own rest =>
      cases index with
      | none => exact .fresh (rest r)
      | some i => exact .fresh (.call own rest)
    | gather room wide made rest =>
      cases index with
      | none => exact .fresh (.gather room wide made rest)
      | some i => exact .gathering room wide (fun _ => by simp [Gathering.reply]) ((Gathering.Serves.start _ _).reply i r) made rest
  | gathering room wide fits serves made rest =>
    cases index with
    | none => exact .gathering room wide fits serves made rest
    | some i => exact .gathering room wide (fun h => by simp [Gathering.reply, fits h]) (serves.reply i r) made rest

/-- A call that a procedure waits for is one of its conduct. -/
theorem call_of_mem {p : Proc α} (hp : p.UnderWay k P) {x : CallIndex × Call} (hx : x ∈ p.waitingFor) : k.call x.2 := by
  cases hp with
  | fresh h =>
    cases h with
    | done _ => cases hx
    | read _ => cases hx
    | poll _ => cases hx
    | note _ _ => cases hx
    | call own _ =>
      obtain rfl := List.mem_singleton.mp hx
      exact own
    | gather _ _ _ _ => cases hx
  | gathering _ _ _ serves made _ =>
    obtain ⟨⟨i, c⟩, hmem, rfl⟩ := List.mem_map.mp hx
    obtain ⟨job, hjob, s, hs⟩ := serves.call_of_mem hmem
    exact made job hjob s c hs

/-- A reply to a call takes it out of flight and leaves the others. -/
theorem underway_reply {p : Proc α} (hp : p.UnderWay k P) {index : CallIndex} {c : Call} (h : (index, c) ∈ p.waitingFor)
    (r : Reply) :
    ∃ before after, p.waitingFor = before ++ (index, c) :: after ∧ (p.reply index r).underway = before ++ after := by
  cases p with
  | done a => cases h
  | read next => cases h
  | poll next => cases h
  | note n next => cases h
  | call c' next =>
    obtain ⟨rfl, rfl⟩ : index = none ∧ c = c' := by simpa [waitingFor] using h
    refine ⟨[], [], rfl, ?_⟩
    cases hp with
    | fresh hp =>
      cases hp with
      | call _ rest => exact (rest r).underway_eq_nil
  | gather g next =>
    obtain ⟨⟨i, c'⟩, hmem, heq⟩ := List.mem_map.mp h
    obtain ⟨rfl, rfl⟩ : some i = index ∧ c' = c := by simpa using heq
    obtain ⟨before, after, hbefore, hafter⟩ := Gathering.callsFrom_reply hmem r
    refine ⟨before.map fun (i, c) => (some i, c), after.map fun (i, c) => (some i, c), ?_, ?_⟩
    · simp [waitingFor, hbefore]
    · simp [Proc.reply, underway, hafter]

end UnderWay

/-! ## Procedures come to an end -/

/-- To go on from a reply to the next rest. -/
def Goes (q p : Proc α) : Prop :=
  ∃ (index : CallIndex) (c : Call) (r : Reply) (scope : Scope) (token : CancelToken),
    (index, c) ∈ p.waitingFor ∧ q = ((p.reply index r).settle scope token).proc

/-- A gathering comes to an end when what comes after it does: each reply leaves fewer calls to be made or waited for. -/
theorem acc_gather {next : Gathered → Proc α} (hnext : ∀ r scope token, Acc Goes ((next r).settle scope token).proc)
    (g : Gathering) : Acc Goes (gather g next) := by
  induction h : g.jobs.length + g.flying using Nat.strongRecOn generalizing g with
  | ind n ih =>
    subst h
    refine ⟨_, ?_⟩
    intro q hq
    obtain ⟨index, c, r, scope, token, hmem, rfl⟩ := hq
    obtain ⟨⟨i, c'⟩, hcall, heq⟩ := List.mem_map.mp hmem
    obtain ⟨rfl, rfl⟩ : some i = index ∧ c' = c := by simpa using heq
    have hreply := Gathering.flying_reply hcall r
    have hfill := Gathering.weight_fill_le scope token (g.reply i r)
    have hjobs : (g.reply i r).jobs.length = g.jobs.length := rfl
    simp only [reply, settle]
    split
    · exact ih _ (by omega) _ rfl
    split
    · exact ih _ (by omega) _ rfl
    · exact hnext _ _ _

/-- No procedure can go on for ever. -/
theorem goes_wellFounded : WellFounded (Goes (α := α)) := by
  have hidle {p : Proc α} (h : p.waitingFor = []) : Acc Goes p := by
    refine ⟨_, ?_⟩
    intro q hq
    obtain ⟨index, c, _, _, _, hmem, -⟩ := hq
    simp [h] at hmem
  have hall (p : Proc α) : Acc Goes p ∧ ∀ scope token, Acc Goes (p.settle scope token).proc := by
    induction p with
    | done a => exact ⟨hidle rfl, fun _ _ => hidle rfl⟩
    | read next ih => exact ⟨hidle rfl, fun scope token => (ih scope).2 scope token⟩
    | poll next ih => exact ⟨hidle rfl, fun scope token => (ih _).2 scope token.checked⟩
    | note n next ih => exact ⟨hidle rfl, fun scope token => ih.2 scope token⟩
    | call c next ih =>
      have hcall : Acc Goes (call c next) := by
        refine ⟨_, ?_⟩
        intro q hq
        obtain ⟨index, c', r, scope, token, hmem, rfl⟩ := hq
        obtain ⟨rfl, rfl⟩ : index = none ∧ c' = c := by simpa [waitingFor] using hmem
        exact (ih r).2 scope token
      exact ⟨hcall, fun _ _ => hcall⟩
    | gather g next ih =>
      have hgather := acc_gather fun r scope token => (ih r).2 scope token
      refine ⟨hgather g, ?_⟩
      intro scope token
      simp only [settle]
      split
      · exact hgather _
      split
      · exact hgather _
      · exact (ih _).2 scope token
  exact ⟨fun p => (hall p).1⟩

end Proc

end Runbook
