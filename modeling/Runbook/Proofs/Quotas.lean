import Mathlib.Algebra.GroupWithZero.Nat
import Runbook.Proofs.Widths

/-!
# Quotas

What a step does in its iterations uses up a quota, one for each sign that an iteration leaves, and the step has its quota anew once it
has summed up. A procedure that is thrifty never uses more than what is left, whatever it reads and whatever it is replied. An iterating
step is thrifty with a quota of as many iterations as it may have, and so is every step around it.
-/

namespace Runbook

/-- What is seen of a step that was executed: its call, or the summary of its iterations. -/
inductive Sign where
  | call (path : List String)
  | summary (path : List String)

namespace Sign

def path : Sign → List String
  | call path | summary path => path

/-- Whether something is the sign. -/
def shows : Sign → Trace → Bool
  | call path, .called c => c.path == path
  | summary path, .noted (.iterated path' _) => path' == path
  | call _, .dispatched _ | call _, .asked _ | call _, .turn _ _ | call _, .noted _ | call _, .ended _ _ | call _, .died _ => false
  | summary _, .dispatched _ | summary _, .asked _ | summary _, .turn _ _ | summary _, .called _ | summary _, .noted (.failed _ _)
  | summary _, .ended _ _ | summary _, .died _ => false

/-- The sign of a step at a place. -/
def ofStep (path : List String) (s : Step) : Sign := if s.iterates then summary path else call path

@[simp] theorem path_ofStep (path : List String) (s : Step) : (ofStep path s).path = path := by
  unfold ofStep
  split <;> rfl

end Sign

/-- How often a sign at a place or below it may be seen until the step at this place sums up. -/
structure Quota where
  path : List String
  sign : Sign
  limit : Nat
  below : path <+: sign.path

namespace Quota

/-- What something takes of a quota. -/
def cost (q : Quota) (x : Trace) : Nat := if q.sign.shows x then 1 else 0

/-- What is neither the sign nor a summary of the step. -/
def Free (q : Quota) (x : Trace) : Prop := q.cost x = 0 ∧ ∀ summary, x ≠ .noted (.iterated q.path summary)

/-- A summary of no more iterations than the quota allows. -/
structure Fits (q : Quota) (summary : Summary) : Prop where
  counted : summary.results.length + summary.errors.length ≤ summary.total
  total : summary.total ≤ q.limit

/-- What happens within a quota, with what is left of it before and after. -/
inductive Spends (q : Quota) : Nat → List Trace → Nat → Prop
  | nil {k k' : Nat} (left : k' ≤ k) : Spends q k [] k'
  | summed {k k' : Nat} {summary : Summary} {xs : List Trace} (fits : q.Fits summary) (rest : Spends q q.limit xs k') :
      Spends q k (.noted (.iterated q.path summary) :: xs) k'
  | other {k k₁ k' : Nat} {x : Trace} {xs : List Trace} (apart : ∀ summary, x ≠ .noted (.iterated q.path summary))
      (left : k₁ + q.cost x ≤ k) (rest : Spends q k₁ xs k') : Spends q k (x :: xs) k'

namespace Spends

variable {q : Quota} {k k₁ k' : Nat} {xs ys : List Trace}

/-- With more left, the same may happen. -/
theorem mono (h : q.Spends k xs k') {n : Nat} (hn : k ≤ n) : q.Spends n xs k' := by
  cases h with
  | nil left => exact .nil (left.trans hn)
  | summed fits rest => exact .summed fits rest
  | other apart left rest => exact .other apart (left.trans hn) rest

/-- Two traces spend what the first one spends, and then the second one. -/
theorem append (h : q.Spends k xs k₁) (h' : q.Spends k₁ ys k') : q.Spends k (xs ++ ys) k' := by
  induction h with
  | nil left => exact h'.mono left
  | summed fits _ ih => exact .summed fits (ih h')
  | other apart left _ ih => exact .other apart left (ih h')

/-- A trace spends what a first part of it spends, and then the rest. -/
theorem split (h : q.Spends k (xs ++ ys) k') : ∃ k₁, q.Spends k xs k₁ ∧ q.Spends k₁ ys k' := by
  induction xs generalizing k with
  | nil => exact ⟨k, .nil (Nat.le_refl k), h⟩
  | cons x xs ih =>
    cases h with
    | summed fits rest =>
      obtain ⟨k₁, hxs, hys⟩ := ih rest
      exact ⟨k₁, .summed fits hxs, hys⟩
    | other apart left rest =>
      obtain ⟨k₁, hxs, hys⟩ := ih rest
      exact ⟨k₁, .other apart left hxs, hys⟩

/-- There is never more left than the quota has at first. -/
theorem le_limit (h : q.Spends k xs k') (hk : k ≤ q.limit) : k' ≤ q.limit := by
  induction h with
  | nil left => exact left.trans hk
  | summed _ _ ih => exact ih (Nat.le_refl _)
  | other _ left _ ih => exact ih (by omega)

/-- Until the step sums up, the sign is seen as often at most as is left. -/
theorem countP_le (h : q.Spends k xs k') (hxs : ∀ summary, .noted (.iterated q.path summary) ∉ xs) :
    xs.countP q.sign.shows ≤ k := by
  induction h with
  | nil _ => exact Nat.zero_le _
  | summed _ _ _ => exact absurd List.mem_cons_self (hxs _)
  | @other k k₁ k' x xs _ left _ ih =>
    have hrest := ih fun summary hmem => hxs summary (List.mem_cons_of_mem _ hmem)
    have hcost : q.cost x = if q.sign.shows x then 1 else 0 := rfl
    rw [List.countP_cons]
    omega

/-- The summaries in a trace that spends fit. -/
theorem fits_of_mem (h : q.Spends k xs k') {summary : Summary} (hmem : .noted (.iterated q.path summary) ∈ xs) : q.Fits summary := by
  induction h with
  | nil _ => cases hmem
  | summed fits _ ih =>
    rcases List.mem_cons.mp hmem with heq | hmem
    · obtain ⟨-, rfl⟩ := Note.iterated.inj (Trace.noted.inj heq)
      exact fits
    · exact ih hmem
  | other apart _ _ ih =>
    rcases List.mem_cons.mp hmem with rfl | hmem
    · exact absurd rfl (apart summary)
    · exact ih hmem

/-- Calls may be made while there is enough left for all of them. -/
theorem calls {calls : List Call} {price : Nat} (hprice : ∀ c ∈ calls, q.cost (.called c) ≤ price)
    (hleft : k' + price * calls.length ≤ k) : q.Spends k (calls.map Trace.called) k' := by
  induction calls generalizing k with
  | nil => exact .nil (by simpa using hleft)
  | cons c calls ih =>
    have hc := hprice c List.mem_cons_self
    rw [List.length_cons, Nat.mul_succ] at hleft
    exact .other nofun (by omega) (ih (fun c' hc' => hprice c' (List.mem_cons_of_mem _ hc')) (Nat.le_refl (k' + price * calls.length)))

/-- What is free leaves the quota as it is. -/
theorem free (h : ∀ x ∈ xs, q.Free x) : q.Spends k xs k := by
  induction xs with
  | nil => exact .nil (Nat.le_refl k)
  | cons x xs ih =>
    obtain ⟨hcost, hapart⟩ := h x List.mem_cons_self
    exact .other hapart (by omega) (ih fun y hy => h y (List.mem_cons_of_mem _ hy))

end Spends

/-- A place at which the sign is not seen, nor anywhere below. -/
def Aside (q : Quota) (path : List String) : Prop := ¬path <+: q.sign.path

section Cost

variable {q : Quota} {path : List String}

theorem cost_le_one (x : Trace) : q.cost x ≤ 1 := by
  unfold cost
  split <;> omega

@[simp] theorem cost_failed (err : StepError) : q.cost (.noted (.failed path err)) = 0 := by
  unfold cost
  cases q.sign <;> rfl

/-- A call is free if the sign is no call at its place. -/
theorem cost_called {c : Call} (h : q.sign ≠ .call c.path) : q.cost (.called c) = 0 := by
  unfold cost
  cases hsign : q.sign with
  | call path =>
    have hpath : c.path ≠ path := by
      rintro rfl
      exact h hsign
    simp [Sign.shows, hpath]
  | summary path => rfl

/-- A summary is free if the sign is no summary at its place. -/
theorem cost_iterated {summary : Summary} (h : q.sign ≠ .summary path) : q.cost (.noted (.iterated path summary)) = 0 := by
  unfold cost
  cases hsign : q.sign with
  | call path' => rfl
  | summary path' =>
    have hpath : path ≠ path' := by
      rintro rfl
      exact h hsign
    simp [Sign.shows, hpath]

/-- What is no call and no note is free. -/
theorem free_of_still {x : Trace} (hcall : x.call? = none) (hnote : ∀ n, x ≠ .noted n) : q.Free x := by
  refine ⟨?_, fun summary => hnote _⟩
  unfold cost
  cases x with
  | called c => cases hcall
  | noted n => exact absurd rfl (hnote n)
  | dispatched _ | asked _ | turn _ _ | ended _ _ | died _ => cases q.sign <;> rfl

namespace Aside

/-- The sign is not that of a place aside. -/
theorem sign_ne (h : q.Aside path) : q.sign ≠ .call path ∧ q.sign ≠ .summary path := by
  refine ⟨?_, ?_⟩ <;>
  · intro hsign
    refine h ?_
    rw [hsign]
    exact List.prefix_refl path

theorem ne_path (h : q.Aside path) : path ≠ q.path := by
  rintro rfl
  exact h q.below

/-- The places below one that is aside are aside. -/
theorem concat (h : q.Aside path) (id : String) : q.Aside (path ++ [id]) :=
  fun hbelow => h ((List.prefix_append path [id]).trans hbelow)

end Aside

/-- A call at a place that is aside is free. -/
theorem Aside.free_called {c : Call} (h : q.Aside c.path) : q.Free (.called c) := ⟨cost_called h.sign_ne.1, nofun⟩

/-- So are the notes of a step that is aside. -/
theorem Aside.free_failed (path : List String) (err : StepError) : q.Free (.noted (.failed path err)) := ⟨cost_failed err, nofun⟩

/-- The summary of a place aside is free. -/
theorem Aside.free_iterated (h : q.Aside path) (summary : Summary) : q.Free (.noted (.iterated path summary)) := by
  refine ⟨cost_iterated h.sign_ne.2, fun summary' heq => h.ne_path ?_⟩
  exact (Note.iterated.inj (Trace.noted.inj heq)).1

/-- The steps of a body that are not on the way to the sign are aside. -/
theorem aside_of_ne {id id' : String} (h : path ++ [id] <+: q.sign.path) (hne : id' ≠ id) : q.Aside (path ++ [id']) := by
  intro h'
  obtain ⟨rest, hrest⟩ := h
  obtain ⟨rest', hrest'⟩ := h'
  have heq := hrest.trans hrest'.symm
  simp only [List.append_assoc, List.cons_append, List.nil_append, List.append_cancel_left_eq, List.cons.injEq] at heq
  exact hne heq.1.symm

/-- What is below the sign is aside. -/
theorem aside_below (h : q.sign.path = path) (id : String) : q.Aside (path ++ [id]) := by
  intro hbelow
  have hlength := hbelow.length_le
  rw [h, List.length_append, List.length_singleton] at hlength
  omega

end Cost

end Quota

/-! ## Gatherings -/

namespace Gathering

/-- The calls that are begun are those of jobs, each of another one, and the other jobs are left. -/
theorem calls_fill (scope : Scope) (token : CancelToken) (g : Gathering) :
    (∀ c ∈ ((g.fill scope token).callsFrom g.begun.length).map (·.2), ∃ job ∈ g.jobs, job scope = .ok c) ∧
    (∀ job ∈ (g.fill scope token).jobs, job ∈ g.jobs) ∧
    ((g.fill scope token).callsFrom g.begun.length).length + (g.fill scope token).jobs.length ≤ g.jobs.length ∧
    (g.fill scope token).begun.length + (g.fill scope token).jobs.length ≤ g.begun.length + g.jobs.length := by
  obtain ⟨taken, hbegun, htaken⟩ := fill_taken scope token g
  have hlength : taken.length + (g.fill scope token).jobs.length ≤ g.jobs.length := by simpa using htaken.length_le
  have hcalls : (g.fill scope token).callsFrom g.begun.length = Slot.calls g.begun.length (taken.map (Slot.ofJob scope)) := by
    rw [callsFrom_eq, hbegun, List.drop_left]
  have hnew : (taken.map (Slot.ofJob scope)).countP Slot.isFlying ≤ taken.length := by
    simpa using List.countP_le_length (p := Slot.isFlying) (l := taken.map (Slot.ofJob scope))
  refine ⟨?_, fun job hjob => htaken.subset (List.mem_append_right _ hjob), ?_, ?_⟩
  · intro c hc
    rw [hcalls, Slot.map_snd_calls, List.mem_filterMap] at hc
    obtain ⟨slot, hslot, hcall⟩ := hc
    obtain ⟨job, hjob, rfl⟩ := List.mem_map.mp hslot
    refine ⟨job, htaken.subset (List.mem_append_left _ hjob), ?_⟩
    unfold Slot.ofJob at hcall
    split at hcall
    · cases hcall
    · rename_i c' hc'
      rw [hc']
      exact congrArg Except.ok (Option.some.inj hcall)
  · rw [hcalls, Slot.length_calls]
    omega
  · rw [hbegun, List.length_append, List.length_map]
    omega

/-- A gathering that has all results has no calls in flight, and a result for every slot. -/
theorem idle_of_results {g : Gathering} {results : List (Except StepError Value)} (h : g.results? = some results) :
    g.callsFrom 0 = [] ∧ results.length = g.begun.length := by
  unfold results? at h
  split at h
  · exact ⟨callsFrom_zero_eq_nil.mpr (Slot.countP_flying_of_results h), (Slot.forall₂_results h).length_eq.symm⟩
  · cases h

end Gathering

/-! ## Procedures -/

/-- What a procedure does until it rests, in the order in which it does it: a procedure that has made a call waits for the reply, so it
leaves all of its notes before. -/
def Settled.acts (s : Settled α) : List Trace := s.notes.map Trace.noted ++ (s.calls.map (·.2)).map Trace.called

namespace Proc

/-- A procedure for which a quota suffices of which some is left, with what the result and the rest of the quota are like. -/
inductive Thrifty (q : Quota) (P : α → Nat → Prop) : Nat → Proc α → Prop
  | done {k k' : Nat} {a : α} (left : k' ≤ k) (result : P a k') : Thrifty q P k (.done a)
  | read {k : Nat} {next : Scope → Proc α} (rest : ∀ s, Thrifty q P k (next s)) : Thrifty q P k (.read next)
  | poll {k : Nat} {next : Bool → Proc α} (rest : ∀ b, Thrifty q P k (next b)) : Thrifty q P k (.poll next)
  | summed {k : Nat} {summary : Summary} {next : Proc α} (fits : q.Fits summary) (rest : Thrifty q P q.limit next) :
      Thrifty q P k (.note (.iterated q.path summary) next)
  | note {k l : Nat} {n : Note} {next : Proc α} (apart : ∀ summary, n ≠ .iterated q.path summary)
      (left : l + q.cost (.noted n) ≤ k) (rest : Thrifty q P l next) : Thrifty q P k (.note n next)
  | call {k l : Nat} {c : Call} {next : Reply → Proc α} (left : l + q.cost (.called c) ≤ k)
      (rest : ∀ r, Thrifty q P l (next r)) : Thrifty q P k (.call c next)
  | gather {k k' price : Nat} {g : Gathering} {next : Gathered → Proc α}
      (made : ∀ job ∈ g.jobs, ∀ s c, job s = .ok c → q.cost (.called c) ≤ price) (left : k' + price * g.jobs.length ≤ k)
      (rest : ∀ r : Gathered, r.results.length ≤ g.begun.length + g.jobs.length → Thrifty q P k' (next r)) :
      Thrifty q P k (.gather g next)

/-- A thrifty procedure that rests: the call that it waits for has been made. -/
def RestsThrifty (q : Quota) (P : α → Nat → Prop) (k : Nat) : Proc α → Prop
  | call _ next => ∀ r, (next r).Thrifty q P k
  | p => p.Thrifty q P k

namespace Thrifty

variable {q : Quota} {P : α → Nat → Prop} {k k' : Nat}

/-- What suffices still does with more left. -/
theorem mono {p : Proc α} (h : p.Thrifty q P k) (hk : k ≤ k') : p.Thrifty q P k' := by
  induction h generalizing k' with
  | done left result => exact .done (left.trans hk) result
  | read _ ih => exact .read fun s => ih s hk
  | poll _ ih => exact .poll fun b => ih b hk
  | summed fits rest _ => exact .summed fits rest
  | note apart left rest _ => exact .note apart (left.trans hk) rest
  | call left rest _ => exact .call (left.trans hk) rest
  | gather made left rest _ => exact .gather made (left.trans hk) rest

/-- A procedure is thrifty if it is and all that follows it spends no more than is left. -/
theorem bind {Q : β → Nat → Prop} {p : Proc α} {f : α → Proc β} (h : p.Thrifty q P k)
    (hf : ∀ a l, P a l → (f a).Thrifty q Q l) : (p.bind f).Thrifty q Q k := by
  induction h with
  | done left result => exact (hf _ _ result).mono left
  | read _ ih => exact .read ih
  | poll _ ih => exact .poll ih
  | summed fits _ ih => exact .summed fits ih
  | note apart left _ ih => exact .note apart left ih
  | call left _ ih => exact .call left ih
  | gather made left _ ih => exact .gather made left ih

/-- A procedure that leaves enough for the one after it. -/
theorem andThen {l : Nat} {Q : β → Nat → Prop} {p : Proc α} {f : α → Proc β} (h : p.Thrifty q (fun _ left => l ≤ left) k)
    (hf : ∀ a, (f a).Thrifty q Q l) : (p.bind f).Thrifty q Q k :=
  h.bind fun a _ hleft => (hf a).mono hleft

/-- A procedure is as thrifty in an inner scope. -/
theorem within {p : Proc α} (h : p.Thrifty q P k) (inner : Scope → Scope) : (p.within inner).Thrifty q P k := by
  induction h with
  | done left result => exact .done left result
  | read _ ih => exact .read fun s => ih (inner s)
  | poll _ ih => exact .poll ih
  | summed fits _ ih => exact .summed fits ih
  | note apart left _ ih => exact .note apart left ih
  | call left _ ih => exact .call left ih
  | @gather k k' price g next made left _ ih =>
    have hmade : ∀ job ∈ g.jobs.map (· ∘ inner), ∀ s c, job s = .ok c → q.cost (.called c) ≤ price := by
      intro job hjob s c hc
      obtain ⟨job', hjob', rfl⟩ := List.mem_map.mp hjob
      exact made job' hjob' (inner s) c hc
    exact .gather hmade (by simpa using left) fun r hr => ih r (by simpa using hr)

/-- A thrifty procedure that goes on to its next rest stays within the quota. -/
theorem settle {p : Proc α} (h : p.Thrifty q P k) (scope : Scope) (token : CancelToken) :
    ∃ k', q.Spends k (p.settle scope token).acts k' ∧ (p.settle scope token).proc.RestsThrifty q P k' := by
  induction h generalizing token with
  | @done k k' a left result => exact ⟨k, .nil (Nat.le_refl k), .done left result⟩
  | read _ ih => exact ih scope token
  | poll _ ih => exact ih _ token.checked
  | summed fits _ ih =>
    obtain ⟨k', hspends, hrests⟩ := ih token
    exact ⟨k', .summed fits hspends, hrests⟩
  | note apart left _ ih =>
    obtain ⟨k', hspends, hrests⟩ := ih token
    refine ⟨k', .other ?_ left hspends, hrests⟩
    exact fun summary heq => apart summary (Trace.noted.inj heq)
  | @call k k' c next left rest _ => exact ⟨k', .other nofun left (.nil (Nat.le_refl k')), rest⟩
  | @gather k k' price g next made left rest ih =>
    obtain ⟨hcalls, hjobs, hlength, hslots⟩ := Gathering.calls_fill scope token g
    have hsplit := Gathering.callsFrom_fill scope token g
    unfold Proc.settle
    dsimp only
    split
    · exact ⟨k, .nil (Nat.le_refl k), .gather made left rest⟩
    split
    · refine ⟨k' + price * (g.fill scope token).jobs.length, ?_, ?_⟩
      · have hprice : ∀ c ∈ ((g.fill scope token).callsFrom g.begun.length).map (·.2), q.cost (.called c) ≤ price := by
          intro c hc
          obtain ⟨job, hjob, hmade⟩ := hcalls c hc
          exact made job hjob scope c hmade
        have hmul := Nat.mul_le_mul_left price hlength
        rw [Nat.mul_add] at hmul
        have hspends : q.Spends k ((((g.fill scope token).callsFrom g.begun.length).map (·.2)).map Trace.called)
            (k' + price * (g.fill scope token).jobs.length) := .calls hprice (by rw [List.length_map]; omega)
        simpa [Settled.acts, Function.comp_def] using hspends
      · exact .gather (fun job hjob => made job (hjobs job hjob)) (Nat.le_refl _) fun r hr => rest r (hr.trans hslots)
    · rename_i results hresults
      obtain ⟨hnil, hall⟩ := Gathering.idle_of_results hresults
      have hnone := (List.append_eq_nil_iff.mp (hsplit.symm.trans hnil)).2
      obtain ⟨k'', hspends, hrests⟩ := ih ⟨results, (g.fill scope token).stopped⟩ (by dsimp only; omega) token
      exact ⟨k'', by simpa [Settled.acts, hnone] using hspends.mono (by omega), hrests⟩

end Thrifty

/-- A reply to a call that it waits for leaves a procedure thrifty. -/
theorem RestsThrifty.reply {q : Quota} {P : α → Nat → Prop} {k : Nat} {p : Proc α} (h : p.RestsThrifty q P k) {index : CallIndex}
    {c : Call} (hc : (index, c) ∈ p.waitingFor) (r : Reply) : (p.reply index r).Thrifty q P k := by
  cases p with
  | done a => cases hc
  | read next => cases hc
  | poll next => cases hc
  | note n next => cases hc
  | call c' next =>
    obtain ⟨rfl, rfl⟩ : index = none ∧ c = c' := by simpa [waitingFor] using hc
    exact h r
  | gather g next =>
    obtain ⟨⟨i, c'⟩, -, heq⟩ := List.mem_map.mp hc
    obtain ⟨rfl, -⟩ : some i = index ∧ c' = c := by simpa using heq
    cases h with
    | gather made left rest => exact .gather made left fun r hr => rest r (by simpa [Gathering.reply] using hr)

end Proc

/-! ## Steps -/

/-- What the iterations over items leave: all of the quota if none could be made, and else a result for each of them at most. -/
structure Quota.Covers (q : Quota) (items : List Value) (r : Except StepError (List (Except IterationError Value) × Bool))
    (left : Nat) : Prop where
  whole : ∀ err, r = .error err → q.limit ≤ left
  within : ∀ results stopped, r = .ok (results, stopped) → results.length ≤ items.length

namespace Quota.Covers

variable {q : Quota} {items : List Value} {left : Nat}

/-- An error covers the items if the whole of the quota is left. -/
theorem refused (h : q.limit ≤ left) (err : StepError) : q.Covers items (.error err) left := by
  refine ⟨fun _ _ => h, ?_⟩
  intro results stopped heq
  cases heq

/-- Results cover the items if there is one for each of them at most. -/
theorem made {results : List (Except IterationError Value)} (h : results.length ≤ items.length) (stopped : Bool) :
    q.Covers items (.ok (results, stopped)) left := by
  refine ⟨?_, ?_⟩
  · intro err heq
    cases heq
  · intro results' stopped' heq
    obtain ⟨rfl, -⟩ := Prod.mk.inj (Except.ok.inj heq)
    exact h

end Quota.Covers

/-- A sign that every iteration of a plan leaves once at most: the call of a step without a body, or the sign of a step of the body. -/
inductive Plan.Signs (path : List String) : Plan → Sign → Prop
  | call {s : Step} : Signs path (.single s) (.call path)
  | body {s : Step} {body : List Plan} {p : Plan} (hp : p ∈ body) : Signs path (.loop s body) (.ofStep (path ++ [p.step.id]) p.step)

/-- The sign of a plan is at its place or below it. -/
theorem Plan.Signs.below {path : List String} {p : Plan} {sign : Sign} (h : p.Signs path sign) : path <+: sign.path := by
  cases h with
  | call => exact List.prefix_refl path
  | body hp =>
    rw [Sign.path_ofStep]
    exact List.prefix_append _ _

/-- A plan without faults has a sign. -/
theorem Plan.Faultless.exists_signs {topIds : List String} {p : Plan} (h : p.Faultless topIds) (path : List String) :
    ∃ sign, p.Signs path sign := by
  cases h with
  | single => exact ⟨_, .call⟩
  | @loop s body _ _ _ nonempty _ _ =>
    obtain ⟨p, hp⟩ := List.exists_mem_of_ne_nil body nonempty
    exact ⟨_, .body hp⟩

namespace Engine

variable {q : Quota} {k k' price : Nat} {path : List String} {s : Step}

/-- To note failures spends nothing. -/
theorem noteFailures_thrifty {P : α → Nat → Prop} (path : List String) (results : List (Except StepError Value)) {next : Proc α}
    (h : next.Thrifty q P k) : (noteFailures path results next).Thrifty q P k := by
  induction results with
  | nil => exact h
  | cons r rest ih =>
    cases r with
    | error err => exact .note nofun (by simp) ih
    | ok v => exact ih

/-- To come to an outcome spends nothing. -/
theorem conclude_thrifty (path : List String) (r : Except StepError Value) : (conclude path r).Thrifty q (fun _ l => k ≤ l) k := by
  have hdone (o : Outcome StepError) : (Proc.done o).Thrifty q (fun _ l => k ≤ l) k := .done (Nat.le_refl k) (Nat.le_refl k)
  cases r with
  | ok v => exact hdone _
  | error err => exact .note nofun (by simp) (hdone _)

/-- A step under its condition spends what the step does, at most. -/
theorem guard_thrifty (path : List String) (s : Step) {run : Proc (Outcome StepError)} (hleft : k' ≤ k)
    (h : run.Thrifty q (fun _ l => k' ≤ l) k) : (guard path s run).Thrifty q (fun _ l => k' ≤ l) k := by
  refine .read ?_
  intro scope
  split
  · exact h
  · exact .done hleft (Nat.le_refl k')
  · exact (conclude_thrifty path _).mono hleft

/-- To call a tool once spends the price of one call, at most. -/
theorem callOnce_thrifty (e : Engine) (path : List String) (s : Step) (price : Nat)
    (hprice : ∀ c : Call, c.path = path → q.cost (.called c) ≤ price) :
    (e.callOnce path s).Thrifty q (fun _ l => k ≤ l) (k + price) := by
  refine .read ?_
  intro scope
  split
  · exact .done (Nat.le_add_right k price) (Nat.le_refl k)
  · rename_i c hc
    split
    · have hcost := hprice c (request_path hc)
      exact .call (l := k) (by omega) fun r => .done (Nat.le_refl k) (Nat.le_refl k)
    · exact .done (Nat.le_add_right k price) (Nat.le_refl k)

/-- A call for every item. -/
theorem callEach_thrifty (e : Engine) (path : List String) (s : Step) (items : List Value)
    (hprice : ∀ c : Call, c.path = path → q.cost (.called c) ≤ price)
    {P : Except StepError (List (Except IterationError Value) × Bool) → Nat → Prop}
    (hrefused : ∀ err, P (.error err) (k + price * items.length))
    (hdone : ∀ results stopped, results.length ≤ items.length → P (.ok (results, stopped)) k) :
    (e.callEach path s items).Thrifty q P (k + price * items.length) := by
  unfold callEach
  split
  · have hlength := length_jobs e path s items 0
    have hmade : ∀ job ∈ e.jobs path s 0 items, ∀ scope c, job scope = .ok c → q.cost (.called c) ≤ price :=
      fun job hjob scope c hc => hprice c (path_of_mem_jobs hjob hc)
    refine .gather hmade (Nat.le_of_eq (congrArg (k + price * ·) hlength)) ?_
    intro r hr
    refine noteFailures_thrifty path r.results (.done (Nat.le_refl k) (hdone _ _ ?_))
    simpa [hlength] using hr
  · exact .done (Nat.le_refl _) (hrefused _)

/-- The iterations of a body, each of which takes its price of the quota. -/
theorem runEach_thrifty (price : Nat) {body : Value → Nat → Proc (Except IterationError Value)}
    (hbody : ∀ item index n, (body item index).Thrifty q (fun _ l => k + price * n ≤ l) (k + price * (n + 1)))
    {P : Except StepError (List (Except IterationError Value) × Bool) → Nat → Prop} (all : List Value)
    (hdone : ∀ results stopped n, results.length ≤ all.length → P (.ok (results, stopped)) (k + price * n))
    {results : List (Except IterationError Value)} {items : List Value} (hlength : results.length + items.length ≤ all.length)
    (index : Nat) : (runEach body results index items).Thrifty q P (k + price * items.length) := by
  induction items generalizing results index with
  | nil => exact .done (Nat.le_refl _) (hdone _ _ _ (by simpa using hlength))
  | cons item items ih =>
    rw [List.length_cons] at hlength
    refine .poll ?_
    intro cancelled
    split
    · exact .done (Nat.le_refl _) (hdone _ _ _ (by rw [List.length_reverse]; omega))
    · exact (hbody item index items.length).andThen fun r => ih (by rw [List.length_cons]; omega) (index + 1)

/-- The steps of a body, each of which takes its own cost of the quota. -/
theorem runBody_thrifty (e : Engine) (cost : Plan → Nat) {ps : List Plan}
    (h : ∀ p ∈ ps, ∀ n, n + cost p ≤ (ps.map cost).sum →
      (e.dispatch (path ++ [p.step.id]) p).Thrifty q (fun _ l => k + n ≤ l) (k + n + cost p))
    (item : Value) (index : Nat) (locals outputs : Fields) :
    (runBody e path item index locals outputs ps).Thrifty q (fun _ l => k ≤ l) (k + (ps.map cost).sum) := by
  induction ps generalizing locals outputs with
  | nil => exact .done (Nat.le_add_right k _) (Nat.le_refl k)
  | cons p ps ih =>
    rw [List.map_cons, List.sum_cons] at h
    have hrest := ih fun p' hp' n hn => h p' (List.mem_cons_of_mem _ hp') n (by omega)
    have hown := h p List.mem_cons_self (ps.map cost).sum (by omega)
    have hguard := guard_thrifty (path ++ [p.step.id]) p.step (Nat.le_add_right _ _) hown
    have hsum : k + ((p :: ps).map cost).sum = k + (ps.map cost).sum + cost p := by
      rw [List.map_cons, List.sum_cons]
      omega
    unfold runBody
    rw [hsum]
    refine (hguard.within _).andThen ?_
    intro outcome
    dsimp only
    split
    · split
      · exact hrest _ _
      · exact .done (Nat.le_add_right k _) (Nat.le_refl k)
    · exact hrest _ _
    · exact hrest _ _
    · exact hrest _ _

/-- A step that is not the one that the quota is for takes no more of it than the sign that its summary may be. -/
theorem iterate_thrifty (e : Engine) (price : Nat) (hpath : path ≠ q.path)
    (hprice : ∀ summary, q.cost (.noted (.iterated path summary)) ≤ price)
    {run : List Value → Proc (Except StepError (List (Except IterationError Value) × Bool))}
    (hrun : ∀ items, (run items).Thrifty q (fun _ l => k + price ≤ l) (k + price)) :
    (e.iterate path s run).Thrifty q (fun _ l => k ≤ l) (k + price) := by
  refine .read ?_
  intro scope
  split
  · exact .done (Nat.le_add_right k price) (Nat.le_refl k)
  · refine (hrun _).andThen ?_
    intro r
    split
    · exact .done (Nat.le_add_right k price) (Nat.le_refl k)
    · rename_i results cancelled
      refine .note (l := k) ?_ (Nat.add_le_add_left (hprice _) k) (.done (Nat.le_refl k) (Nat.le_refl k))
      intro summary heq
      exact hpath (Note.iterated.inj heq).1

/-- The step that the quota is for has it anew once it has summed up. -/
theorem iterate_renews (e : Engine) (hlimit : e.maxIterations s ≤ q.limit)
    {run : List Value → Proc (Except StepError (List (Except IterationError Value) × Bool))}
    (hrun : ∀ items, items.length ≤ q.limit → (run items).Thrifty q (q.Covers items) q.limit) :
    (e.iterate q.path s run).Thrifty q (fun _ l => q.limit ≤ l) q.limit := by
  refine .read ?_
  intro scope
  split
  · exact .done (Nat.le_refl _) (Nat.le_refl _)
  · rename_i all hall
    have htaken : (all.take (e.maxIterations s)).length ≤ q.limit := (List.length_take_le _ _).trans hlimit
    refine (hrun _ htaken).bind ?_
    intro r left hcovers
    split
    · exact .done (hcovers.whole _ rfl) (Nat.le_refl _)
    · rename_i results cancelled
      have hwithin := hcovers.within results cancelled rfl
      refine .summed ⟨?_, htaken⟩ (.done (Nat.le_refl _) (Nat.le_refl _))
      exact Nat.le_trans (Nat.le_of_eq (Summary.length_outputs_add_failures hwithin 0)) hwithin

/-- Calls that are not the sign are made for free. -/
theorem callEach_free (e : Engine) (hcall : q.sign ≠ .call path) (items : List Value) :
    (e.callEach path s items).Thrifty q (fun _ l => k ≤ l) k := by
  have hfree : (e.callEach path s items).Thrifty q (fun _ l => k ≤ l) (k + 0 * items.length) := by
    refine callEach_thrifty e path s items ?_ (fun _ => Nat.le_add_right k _) fun _ _ _ => Nat.le_refl k
    rintro c rfl
    exact Nat.le_of_eq (Quota.cost_called hcall)
  simpa using hfree

/-- A body is run for free as often as one likes when its steps are. -/
theorem runEach_free (e : Engine) {body : List Plan}
    (h : ∀ p ∈ body, (e.dispatch (path ++ [p.step.id]) p).Thrifty q (fun _ l => k ≤ l) k) (items : List Value) :
    (runEach (fun item index => runBody e path item index [] [] body) [] 0 items).Thrifty q (fun _ l => k ≤ l) k := by
  have hbody (item : Value) (index : Nat) : (runBody e path item index [] [] body).Thrifty q (fun _ l => k ≤ l) k := by
    have hsteps : ∀ p ∈ body, ∀ n, n + 0 ≤ (body.map fun _ => 0).sum →
        (e.dispatch (path ++ [p.step.id]) p).Thrifty q (fun _ l => k + n ≤ l) (k + n + 0) := by
      intro p hp n hn
      obtain rfl : n = 0 := by simpa using hn
      exact h p hp
    simpa using runBody_thrifty e (fun _ => 0) hsteps item index [] []
  have heach : (runEach (fun item index => runBody e path item index [] [] body) [] 0 items).Thrifty q (fun _ l => k ≤ l)
      (k + 0 * items.length) :=
    runEach_thrifty 0 (fun item index n => by simpa using hbody item index) items (fun _ _ _ _ => Nat.le_add_right k _) (by simp) 0
  simpa using heach

/-- A step that is aside, and all in its body, takes nothing of the quota. -/
theorem dispatch_aside (e : Engine) {topIds : List String} {p : Plan} (hp : p.Faultless topIds) (h : q.Aside path) :
    (e.dispatch path p).Thrifty q (fun _ l => k ≤ l) k := by
  have hsummary (path : List String) (h : q.Aside path) : ∀ summary, q.cost (.noted (.iterated path summary)) ≤ 0 :=
    fun _ => Nat.le_of_eq (Quota.cost_iterated h.sign_ne.2)
  induction hp generalizing path with
  | @single s _ _ =>
    unfold dispatch
    refine Proc.Thrifty.andThen (l := k) ?_ fun r => conclude_thrifty path r
    split
    · exact iterate_thrifty e 0 h.ne_path (hsummary path h) fun items => callEach_free e h.sign_ne.1 items
    · refine callOnce_thrifty e path s 0 ?_
      rintro c rfl
      exact Nat.le_of_eq (Quota.cost_called h.sign_ne.1)
  | @loop s body _ _ _ _ _ _ ih =>
    unfold dispatch
    refine Proc.Thrifty.andThen (l := k) ?_ fun r => conclude_thrifty path r
    exact iterate_thrifty e 0 h.ne_path (hsummary path h) fun items => runEach_free e (fun p hp => ih p hp (h.concat _)) items

/-- The step that leaves the sign takes one of the quota. -/
theorem dispatch_sign (e : Engine) {topIds : List String} {p : Plan} (hp : p.Faultless topIds) (hpath : path ≠ q.path)
    (hsign : q.sign = .ofStep path p.step) : (e.dispatch path p).Thrifty q (fun _ l => k ≤ l) (k + 1) := by
  have hbelow : q.sign.path = path := by
    rw [hsign, Sign.path_ofStep]
  have hcall (h : p.step.iterates = true) : q.sign ≠ .call path := by
    rw [hsign, Sign.ofStep, if_pos h]
    exact nofun
  unfold dispatch
  cases hp with
  | @single s _ _ =>
    refine Proc.Thrifty.andThen (l := k) ?_ fun r => conclude_thrifty path r
    split
    · rename_i hiterates
      exact iterate_thrifty e 1 hpath (fun _ => Quota.cost_le_one _) fun items => callEach_free e (hcall hiterates) items
    · exact callOnce_thrifty e path s 1 fun c _ => Quota.cost_le_one _
  | @loop s body _ _ _ _ _ steps =>
    refine Proc.Thrifty.andThen (l := k) ?_ fun r => conclude_thrifty path r
    refine iterate_thrifty e 1 hpath (fun _ => Quota.cost_le_one _) fun items => runEach_free e ?_ items
    exact fun p hp => dispatch_aside e (steps p hp) (Quota.aside_below hbelow _)

/-- To take one for every step with an id is to count the steps with this id. -/
theorem sum_eq_count (id : String) (ps : List Plan) :
    (ps.map fun p => if p.step.id = id then 1 else 0).sum = (ps.map (·.step.id)).count id := by
  induction ps with
  | nil => rfl
  | cons p ps ih =>
    rw [List.map_cons, List.sum_cons, ih, List.map_cons, List.count_cons, Nat.add_comm]
    simp

/-- One iteration of a body takes one of the quota for a sign of one of its steps: the others have other ids, and take nothing. -/
theorem runBody_sign (e : Engine) {topIds : List String} {body : List Plan} (ids : (body.map (·.step.id)).Nodup)
    (steps : ∀ p ∈ body, p.Faultless topIds) {p : Plan} (hp : p ∈ body) (hsign : q.sign = .ofStep (q.path ++ [p.step.id]) p.step)
    (item : Value) (index : Nat) : (runBody e q.path item index [] [] body).Thrifty q (fun _ l => k ≤ l) (k + 1) := by
  have hbelow : q.sign.path = q.path ++ [p.step.id] := by
    rw [hsign, Sign.path_ofStep]
  let cost (p' : Plan) : Nat := if p'.step.id = p.step.id then 1 else 0
  have hsum : (body.map cost).sum ≤ 1 := (sum_eq_count p.step.id body).trans_le (List.nodup_iff_count_le_one.mp ids p.step.id)
  refine (runBody_thrifty e cost ?_ item index [] []).mono (by omega)
  intro p' hp' n hn
  by_cases hid : p'.step.id = p.step.id
  · obtain rfl : p' = p := List.inj_on_of_nodup_map ids hp' hp hid
    simp only [cost, if_pos]
    exact dispatch_sign e (steps p' hp') (by simp) hsign
  · simp only [cost, if_neg hid]
    exact dispatch_aside e (steps p' hp') (Quota.aside_of_ne (hbelow ▸ List.prefix_refl (q.path ++ [p.step.id])) hid)

/-- A step that may have no more iterations than the quota allows has the quota anew whenever it is at its end: each of its items takes one
of the quota. -/
theorem dispatch_renews (e : Engine) {topIds : List String} {p : Plan} (hp : p.Faultless topIds) (hiterates : p.step.iterates = true)
    (hsigns : p.Signs q.path q.sign) (hlimit : e.maxIterations p.step ≤ q.limit) :
    (e.dispatch q.path p).Thrifty q (fun _ l => q.limit ≤ l) q.limit := by
  have hspent {items : List Value} (h : items.length ≤ q.limit) : q.limit - items.length + 1 * items.length = q.limit := by omega
  generalize hsign : q.sign = sign at hsigns
  cases hsigns with
  | @call s =>
    have hs : s.iterates = true := hiterates
    unfold dispatch
    rw [if_pos hs]
    refine Proc.Thrifty.andThen (l := q.limit) ?_ fun r => conclude_thrifty q.path r
    refine iterate_renews e hlimit fun items hitems => ?_
    rw [← hspent hitems]
    exact callEach_thrifty e q.path s items (fun c _ => Quota.cost_le_one _) (Quota.Covers.refused (Nat.le_of_eq (hspent hitems).symm))
      fun results stopped hlength => .made hlength stopped
  | @body s body p hmem =>
    unfold dispatch
    refine Proc.Thrifty.andThen (l := q.limit) ?_ fun r => conclude_thrifty q.path r
    refine iterate_renews e hlimit fun items hitems => ?_
    cases hp with
    | loop _ _ _ _ ids steps =>
      have hbody (item : Value) (index n : Nat) : (runBody e q.path item index [] [] body).Thrifty q
          (fun _ l => q.limit - items.length + 1 * n ≤ l) (q.limit - items.length + 1 * (n + 1)) :=
        (runBody_sign e ids.nodup steps hmem hsign item index).mono (by omega)
      exact hspent hitems ▸ runEach_thrifty 1 hbody items (fun results stopped n hlength => .made hlength stopped) (by simp) 0

/-- A loop around such a step keeps the quota too: it is used up in the step only, and is there anew before the step is executed again. The
sign is below the step that the quota is for, and so it is not the summary of a loop around it. -/
theorem dispatch_around (e : Engine) {topIds : List String} {path' : List String} {p p' : Plan} (hat : p.At path path' p')
    (hpath : path' = q.path) (hp : p.Faultless topIds) (hown : (e.dispatch q.path p').Thrifty q (fun _ l => q.limit ≤ l) q.limit) :
    (e.dispatch path p).Thrifty q (fun _ l => q.limit ≤ l) q.limit := by
  induction hat with
  | here => exact hpath ▸ hown
  | @body path path' s body r p' hmem hat ih =>
    subst hpath
    have hway := hat.prefix_path
    have hne : path ≠ q.path := by
      rintro rfl
      exact Plan.At.not_below hat
    have hsummary : q.sign ≠ .summary path := by
      intro hsign
      have hlength := (hway.trans q.below).length_le
      rw [hsign, Sign.path, List.length_append, List.length_singleton] at hlength
      omega
    cases hp with
    | loop _ _ _ _ ids steps =>
      unfold dispatch
      refine Proc.Thrifty.andThen (l := q.limit) ?_ fun r => conclude_thrifty path r
      refine iterate_thrifty e 0 hne (fun _ => Nat.le_of_eq (Quota.cost_iterated hsummary)) fun items => runEach_free e ?_ items
      intro r' hr'
      by_cases hid : r'.step.id = r.step.id
      · obtain rfl : r' = r := List.inj_on_of_nodup_map ids.nodup hr' hmem hid
        exact ih rfl (steps _ hr') hown
      · exact dispatch_aside e (steps r' hr') (Quota.aside_of_ne (hway.trans q.below) hid)

end Engine

end Runbook
