import Mathlib.Data.List.Forall2
import Runbook.Engine.Sequential

/-!
# Gatherings

What happens to a gathering when its calls are begun and when replies come in. The first jobs become slots, in order, until there is
no room, no job or no wish to go on; every slot comes from its job, and so does every result.
-/

namespace Runbook

namespace CancelToken

@[simp] theorem cancelled_none : cancelled none = false := rfl

@[simp] theorem cancelled_zero : cancelled (some 0) = true := rfl

@[simp] theorem checked_none : checked none = none := rfl

@[simp] theorem isSome_checked {t : CancelToken} : t.checked.isSome = t.isSome := Option.isSome_map

@[simp] theorem checked_eq_none {t : CancelToken} : t.checked = none ↔ t = none := Option.map_eq_none_iff

/-- A check that finds the run cancelled is one of a token that is cancelled at some time. -/
theorem ne_none_of_cancelled {t : CancelToken} (h : t.cancelled = true) : t ≠ none := by
  rintro rfl
  cases h

end CancelToken

/-- Something that can become a call. -/
abbrev Job := Scope → Except StepError Call

/-- A result that a job may come to: that it cannot be made, or what a reply to its call gives. -/
inductive Job.MayGive (job : Job) : Except StepError Value → Prop
  | refused {s : Scope} {err : StepError} (h : job s = .error err) : MayGive job (.error err)
  | replied {s : Scope} {c : Call} (r : Reply) (h : job s = .ok c) : MayGive job (c.result r)

/-- What jobs may come to together: the first of them their results, and all of them unless the run was stopped. -/
def Gathered.MayBe (jobs : List Job) (r : Gathered) : Prop :=
  ∃ taken left, jobs = taken ++ left ∧ List.Forall₂ Job.MayGive taken r.results ∧ (r.stopped = false → left = [])

namespace Slot

/-- A slot that a job has become. -/
inductive Of (job : Job) : Slot → Prop
  | refused {s : Scope} {err : StepError} (h : job s = .error err) : Of job (.refused err)
  | flying {s : Scope} {c : Call} (h : job s = .ok c) : Of job (.flying c)
  | finished {s : Scope} {c : Call} (r : Reply) (h : job s = .ok c) : Of job (.finished (c.result r))

/-- The slot that a job becomes in a scope. -/
def ofJob (scope : Scope) (job : Job) : Slot :=
  match job scope with
  | .error e => .refused e
  | .ok c => .flying c

/-- A slot that a job takes up is one of the job. -/
theorem of_ofJob (scope : Scope) (job : Job) : Of job (ofJob scope job) := by
  unfold ofJob
  split
  · rename_i h
    exact .refused h
  · rename_i h
    exact .flying h

/-- A slot of a job is still one of it after a reply. -/
theorem Of.reply {job : Job} {slot : Slot} (h : Of job slot) (r : Reply) : Of job (slot.reply r) := by
  cases h with
  | refused h => exact .refused h
  | flying h => exact .finished r h
  | finished r' h => exact .finished r' h

/-- What a slot of a job results in is what the job may give. -/
theorem Of.mayGive {job : Job} {slot : Slot} (h : Of job slot) {result : Except StepError Value}
    (hr : slot.result? = some result) : job.MayGive result := by
  cases h with
  | refused h =>
    obtain rfl := Option.some.inj hr
    exact .refused h
  | flying h => cases hr
  | finished r h =>
    obtain rfl := Option.some.inj hr
    exact .replied r h

@[simp] theorem call?_refused (err : StepError) : (refused err).call? = none := rfl

@[simp] theorem call?_flying (c : Call) : (flying c).call? = some c := rfl

@[simp] theorem call?_finished (result : Except StepError Value) : (finished result).call? = none := rfl

/-- Slots that all have results have them each for itself. -/
theorem forall₂_results {slots : List Slot} {results : List (Except StepError Value)} (h : slots.mapM result? = some results) :
    List.Forall₂ (fun slot r => slot.result? = some r) slots results := by
  induction slots generalizing results with
  | nil =>
    obtain rfl : [] = results := by simpa using h
    exact .nil
  | cons slot slots ih =>
    obtain ⟨r, hr, rest, hrest, rfl⟩ : ∃ r, slot.result? = some r ∧ ∃ rest, slots.mapM result? = some rest ∧ r :: rest = results := by
      simpa [List.mapM_cons, Option.bind_eq_some_iff] using h
    exact .cons hr (ih hrest)

/-- Slots have all their results once nothing is in flight. -/
theorem exists_results {slots : List Slot} (h : slots.countP isFlying = 0) : ∃ results, slots.mapM result? = some results := by
  induction slots with
  | nil => exact ⟨[], rfl⟩
  | cons slot slots ih =>
    rw [List.countP_cons, Nat.add_eq_zero_iff] at h
    obtain ⟨rest, hrest⟩ := ih h.1
    cases slot with
    | refused err => exact ⟨.error err :: rest, by simp [List.mapM_cons, result?, hrest]⟩
    | finished r => exact ⟨r :: rest, by simp [List.mapM_cons, result?, hrest]⟩
    | flying c => simp [isFlying] at h

/-- Slots that all have results have no call in flight. -/
theorem countP_flying_of_results {slots : List Slot} {results : List (Except StepError Value)}
    (h : slots.mapM result? = some results) : slots.countP isFlying = 0 := by
  have hresults := forall₂_results h
  clear h
  induction hresults with
  | nil => rfl
  | @cons slot r slots _ hr _ ih =>
    cases slot with
    | refused err => simpa [isFlying] using ih
    | finished r => simpa [isFlying] using ih
    | flying c => cases hr

/-- The calls in flight among slots, with their places from one on. -/
def calls (place : Nat) : List Slot → List (Nat × Call)
  | [] => []
  | flying c :: rest => (place, c) :: calls (place + 1) rest
  | refused _ :: rest | finished _ :: rest => calls (place + 1) rest

/-- The calls of slots are those of the first ones, and those of the others, from their places on. -/
theorem calls_append (place : Nat) (slots slots' : List Slot) :
    calls place (slots ++ slots') = calls place slots ++ calls (place + slots.length) slots' := by
  induction slots generalizing place with
  | nil => rfl
  | cons slot slots ih =>
    have hlen : place + 1 + slots.length = place + (slots.length + 1) := by omega
    cases slot <;> simp [calls, ih, hlen]

/-- The calls in flight are where they are. -/
theorem mem_calls {place i : Nat} {c : Call} {slots : List Slot} :
    (i, c) ∈ calls place slots ↔ place ≤ i ∧ slots[i - place]? = some (.flying c) := by
  induction slots generalizing place with
  | nil => simp [calls]
  | cons slot slots ih =>
    have hrest : (i, c) ∈ calls (place + 1) slots ↔ place < i ∧ (slot :: slots)[i - place]? = some (.flying c) := by
      rw [ih]
      refine and_congr_right ?_
      intro h
      obtain ⟨k, rfl⟩ := Nat.exists_eq_add_of_le h
      have hk : place + 1 + k - place = k + 1 := by omega
      rw [hk, Nat.add_sub_cancel_left, List.getElem?_cons_succ]
    have hhere : (i, c) ∈ calls place (slot :: slots) ↔ (i = place ∧ slot = .flying c) ∨ (i, c) ∈ calls (place + 1) slots := by
      cases slot <;> simp [calls, eq_comm]
    rw [hhere, hrest]
    constructor
    · rintro (⟨rfl, rfl⟩ | ⟨h, hs⟩)
      · simp
      · exact ⟨Nat.le_of_lt h, hs⟩
    · rintro ⟨h, hs⟩
      rcases Nat.eq_or_lt_of_le h with rfl | h
      · exact Or.inl ⟨rfl, by simpa using hs⟩
      · exact Or.inr ⟨h, hs⟩

/-- The calls of slots are theirs, each with its place. -/
theorem filterMap_zip_range' (place : Nat) (slots : List Slot) :
    ((List.range' place slots.length).zip slots).filterMap (fun (i, s) => s.call?.map (i, ·)) = calls place slots := by
  induction slots generalizing place with
  | nil => rfl
  | cons slot slots ih => cases slot <;> simp [List.range'_succ, calls, ih, List.filterMap_cons]

/-- Without their places, the calls of slots are those of each of them. -/
theorem map_snd_calls (place : Nat) (slots : List Slot) : (calls place slots).map (·.2) = slots.filterMap call? := by
  induction slots generalizing place with
  | nil => rfl
  | cons slot slots ih => cases slot <;> simp [calls, ih, List.filterMap_cons]

/-- Slots make no call exactly if none of them is in flight. -/
theorem calls_eq_nil {place : Nat} {slots : List Slot} : calls place slots = [] ↔ slots.countP isFlying = 0 := by
  induction slots generalizing place with
  | nil => simp [calls]
  | cons slot slots ih => cases slot <;> simp [calls, isFlying, ih]

end Slot

namespace Gathering

/-- The calls of a gathering from a place on are those of its slots from there on. -/
theorem callsFrom_eq (before : Nat) (g : Gathering) : g.callsFrom before = Slot.calls before (g.begun.drop before) := by
  rw [← Slot.filterMap_zip_range', callsFrom, List.range_eq_range', List.zip, List.drop_zipWith, List.drop_range']
  simp

/-- Begins calls: `taken` are the jobs that become slots, and `left` those that do not. Either the left ones wait for room, or the
run is cancelled on the way and they are dropped. -/
inductive Fills (scope : Scope) (token : CancelToken) (width : Nat) (begun : List Slot) :
    List Job → Gathering → Prop
  | full {taken left : List Job}
      (room : left ≠ [] → width ≤ (begun ++ taken.map (Slot.ofJob scope)).countP Slot.isFlying) :
      Fills scope token width begun (taken ++ left) ⟨width, begun ++ taken.map (Slot.ofJob scope), left, false⟩
  | dropped {taken left : List Job} (wish : token ≠ none) (some : left ≠ []) :
      Fills scope token width begun (taken ++ left) ⟨width, begun ++ taken.map (Slot.ofJob scope), [], true⟩

/-- To take up a first job and to fill up from there is to fill up. -/
theorem Fills.cons {scope : Scope} {token : CancelToken} {width : Nat} {begun : List Slot}
    {job : Job} {jobs : List Job} {g : Gathering}
    (h : Fills scope token width (begun ++ [Slot.ofJob scope job]) jobs g) :
    Fills scope token width begun (job :: jobs) g := by
  cases h with
  | @full taken left room =>
    have hfull : Fills scope token width begun (job :: taken ++ left)
        ⟨width, begun ++ (job :: taken).map (Slot.ofJob scope), left, false⟩ := .full (by simpa using room)
    simpa using hfull
  | @dropped taken left wish some =>
    have hdropped : Fills scope token width begun (job :: taken ++ left)
        ⟨width, begun ++ (job :: taken).map (Slot.ofJob scope), [], true⟩ := .dropped wish some
    simpa using hdropped

/-- A check on the way changes nothing of what may happen. -/
theorem Fills.of_checked {scope : Scope} {token : CancelToken} {width : Nat} {begun : List Slot} {jobs : List Job} {g : Gathering}
    (h : Fills scope token.checked width begun jobs g) : Fills scope token width begun jobs g := by
  cases h with
  | full room => exact .full room
  | dropped wish some => exact .dropped (fun hnone => wish (CancelToken.checked_eq_none.mpr hnone)) some

/-- A gathering fills up as far as its places, its token and its jobs go. -/
theorem fillFrom_fills (scope : Scope) (token : CancelToken) (width : Nat) (begun : List Slot)
    (jobs : List Job) :
    Fills scope token width begun jobs (fillFrom scope token width begun jobs) := by
  induction jobs generalizing begun token with
  | nil =>
    have hfull : Fills scope token width begun ([] ++ []) ⟨width, begun ++ [].map (Slot.ofJob scope), [], false⟩ :=
      .full (by simp)
    simpa [fillFrom] using hfull
  | cons job jobs ih =>
    have hnone {left : List Job} (hroom : left ≠ [] → width ≤ begun.countP Slot.isFlying) :
        Fills scope token width begun left ⟨width, begun, left, false⟩ := by
      have hfull : Fills scope token width begun ([] ++ left) ⟨width, begun ++ [].map (Slot.ofJob scope), left, false⟩ :=
        .full (by simpa using hroom)
      simpa using hfull
    unfold fillFrom
    split
    · rename_i err herr
      refine .cons ?_
      simpa [Slot.ofJob, herr] using ih token (begun ++ [.refused err])
    · rename_i call hcall
      split
      · rename_i hroom
        exact hnone fun _ => hroom
      · split
        · rename_i hwish
          have hdropped : Fills scope token width begun ([] ++ job :: jobs)
              ⟨width, begun ++ [].map (Slot.ofJob scope), [], true⟩ := .dropped (CancelToken.ne_none_of_cancelled hwish) (by simp)
          simpa using hdropped
        · refine .cons ?_
          simpa [Slot.ofJob, hcall] using (ih token.checked (begun ++ [.flying call])).of_checked

/-- What has begun stays as it is, and the first of the jobs come behind it. The others wait, or are dropped when the run is stopped. -/
theorem fill_split (scope : Scope) (token : CancelToken) (g : Gathering) :
    ∃ taken dropped : List Job, (g.fill scope token).begun = g.begun ++ taken.map (Slot.ofJob scope) ∧
      g.jobs = taken ++ ((g.fill scope token).jobs ++ dropped) ∧
      ((g.fill scope token).stopped = false → g.stopped = false ∧ dropped = []) := by
  unfold fill
  split
  · exact ⟨[], [], by simp, by simp, fun h => ⟨h, rfl⟩⟩
  · rename_i hs
    have hs : g.stopped = false := by simpa using hs
    have hfills := fillFrom_fills scope token g.width g.begun g.jobs
    generalize fillFrom scope token g.width g.begun g.jobs = filled at hfills
    generalize g.jobs = jobs at hfills
    cases hfills with
    | @full taken left _ => exact ⟨taken, [], rfl, by simp, fun _ => ⟨hs, rfl⟩⟩
    | @dropped taken left _ _ => exact ⟨taken, left, rfl, by simp, nofun⟩

/-- Only a token that is cancelled at some time stops a gathering. -/
theorem fill_stopped {scope : Scope} {token : CancelToken} {g : Gathering} (h : (g.fill scope token).stopped = true)
    (hgoes : g.stopped = false) : token ≠ none := by
  unfold fill at h
  rw [hgoes, if_neg Bool.false_ne_true] at h
  have hfills := fillFrom_fills scope token g.width g.begun g.jobs
  generalize fillFrom scope token g.width g.begun g.jobs = filled at hfills h
  generalize g.jobs = jobs at hfills
  cases hfills with
  | full _ => cases h
  | dropped wish _ => exact wish

/-- To fill up takes the first of the jobs, in order. -/
theorem fill_taken (scope : Scope) (token : CancelToken) (g : Gathering) :
    ∃ taken : List Job, (g.fill scope token).begun = g.begun ++ taken.map (Slot.ofJob scope) ∧
      taken ++ (g.fill scope token).jobs <+: g.jobs := by
  obtain ⟨taken, dropped, hbegun, hjobs, -⟩ := fill_split scope token g
  exact ⟨taken, hbegun, dropped, by rw [hjobs, List.append_assoc]⟩

/-- To fill up begins as many slots as it takes jobs, at most. -/
theorem fill_begun (scope : Scope) (token : CancelToken) (g : Gathering) :
    ∃ taken : List Job, (g.fill scope token).begun = g.begun ++ taken.map (Slot.ofJob scope) ∧
      taken.length + (g.fill scope token).jobs.length ≤ g.jobs.length := by
  obtain ⟨taken, hbegun, htaken⟩ := fill_taken scope token g
  exact ⟨taken, hbegun, by simpa using htaken.length_le⟩

@[simp] theorem fill_width (scope : Scope) (token : CancelToken) (g : Gathering) : (g.fill scope token).width = g.width := by
  unfold fill
  split
  · rfl
  · have hfills := fillFrom_fills scope token g.width g.begun g.jobs
    generalize fillFrom scope token g.width g.begun g.jobs = filled at hfills
    generalize g.jobs = jobs at hfills
    cases hfills <;> rfl

/-- The calls in flight after some are begun are those of before, and those that are begun. -/
theorem callsFrom_fill (scope : Scope) (token : CancelToken) (g : Gathering) :
    (g.fill scope token).callsFrom 0 = g.callsFrom 0 ++ (g.fill scope token).callsFrom g.begun.length := by
  obtain ⟨taken, htaken, -⟩ := fill_begun scope token g
  simp only [callsFrom_eq, List.drop_zero, htaken, Slot.calls_append, List.drop_left, Nat.zero_add]

/-- To begin a call makes no more of what is left to be done. -/
theorem weight_fill_le (scope : Scope) (token : CancelToken) (g : Gathering) :
    (g.fill scope token).jobs.length + (g.fill scope token).flying ≤ g.jobs.length + g.flying := by
  obtain ⟨taken, htaken, hlen⟩ := fill_begun scope token g
  have hnew : (taken.map (Slot.ofJob scope)).countP Slot.isFlying ≤ taken.length := by
    simpa using List.countP_le_length (p := Slot.isFlying) (l := taken.map (Slot.ofJob scope))
  simp only [flying, htaken, List.countP_append]
  omega

/-- A gathering that has no results yet, though it has begun what it could, waits for a call. -/
theorem flying_of_fill {scope : Scope} {token : CancelToken} {g : Gathering} (hwidth : 0 < g.width)
    (hidle : g.stopped = true → g.jobs = []) (hnone : (g.fill scope token).results? = none) :
    0 < (g.fill scope token).flying := by
  have hjobs : (g.fill scope token).jobs = [] ∨ g.width ≤ (g.fill scope token).flying := by
    unfold fill
    split
    · exact Or.inl (hidle (by assumption))
    · have hfills := fillFrom_fills scope token g.width g.begun g.jobs
      generalize fillFrom scope token g.width g.begun g.jobs = filled at hfills
      generalize g.jobs = jobs at hfills
      cases hfills with
      | @full taken left room =>
        rcases eq_or_ne left [] with rfl | hleft
        · exact Or.inl rfl
        · exact Or.inr (room hleft)
      | dropped _ _ => exact Or.inl rfl
  rcases hjobs with hjobs | hroom
  · by_contra hzero
    have hnone_flying : (g.fill scope token).begun.countP Slot.isFlying = 0 := by simpa [flying] using hzero
    obtain ⟨results, hresults⟩ := Slot.exists_results hnone_flying
    simp [results?, hjobs, hresults] at hnone
  · omega

/-- A gathering waits for nothing exactly if nothing of it is in flight. -/
theorem callsFrom_zero_eq_nil {g : Gathering} : g.callsFrom 0 = [] ↔ g.flying = 0 := by
  rw [callsFrom_eq, List.drop_zero, Slot.calls_eq_nil, flying]

/-- A gathering waits for the calls of its slots in flight, each at its place. -/
theorem mem_callsFrom_zero {g : Gathering} {i : Nat} {c : Call} : (i, c) ∈ g.callsFrom 0 ↔ g.begun[i]? = some (.flying c) := by
  rw [callsFrom_eq, List.drop_zero, Slot.mem_calls]
  simp

/-- A reply to a call in flight changes its slot and no other. -/
theorem reply_split {g : Gathering} {i : Nat} {c : Call} (h : (i, c) ∈ g.callsFrom 0) (r : Reply) :
    ∃ before after, g.begun = before ++ .flying c :: after ∧ before.length = i ∧
      (g.reply i r).begun = before ++ .finished (c.result r) :: after := by
  obtain ⟨hi, hslot⟩ := List.getElem?_eq_some_iff.mp (mem_callsFrom_zero.mp h)
  refine ⟨g.begun.take i, g.begun.drop (i + 1), ?_, by simp; omega, ?_⟩
  · rw [← hslot, List.getElem_cons_drop, List.take_append_drop]
  · rw [reply, List.modify_eq_take_cons_drop hi, hslot, Slot.reply]

/-- A reply to a call in flight takes it out of flight. -/
theorem flying_reply {g : Gathering} {i : Nat} {c : Call} (h : (i, c) ∈ g.callsFrom 0) (r : Reply) :
    (g.reply i r).flying + 1 = g.flying := by
  obtain ⟨before, after, hg, -, hreply⟩ := reply_split h r
  simp only [flying, hg, hreply, List.countP_append, List.countP_cons, Slot.isFlying, if_true, Bool.false_eq_true, if_false]
  omega

/-- A reply takes its call from those that a gathering waits for, and no other. -/
theorem callsFrom_reply {g : Gathering} {i : Nat} {c : Call} (h : (i, c) ∈ g.callsFrom 0) (r : Reply) :
    ∃ before after, g.callsFrom 0 = before ++ (i, c) :: after ∧ (g.reply i r).callsFrom 0 = before ++ after := by
  obtain ⟨before, after, hg, hlen, hreply⟩ := reply_split h r
  refine ⟨Slot.calls 0 before, Slot.calls (i + 1) after, ?_, ?_⟩
  · simp [callsFrom_eq, hg, Slot.calls_append, Slot.calls, hlen]
  · simp [callsFrom_eq, hreply, Slot.calls_append, Slot.calls, hlen]

/-! ## Gatherings under way -/

/-- A gathering that some jobs have become: each slot comes from its job, the others wait for their turn, and none are dropped
unless the run was stopped. -/
structure Serves (jobs : List Job) (g : Gathering) : Prop where
  parts : ∃ taken dropped, jobs = taken ++ (g.jobs ++ dropped) ∧ List.Forall₂ Slot.Of taken g.begun ∧
    (g.stopped = false → dropped = [])
  idle : g.stopped = true → g.jobs = []

namespace Serves

variable {jobs : List Job} {g : Gathering}

theorem start (width : Nat) (jobs : List Job) : Serves jobs ⟨width, [], jobs, false⟩ :=
  ⟨⟨[], [], by simp, .nil, fun _ => rfl⟩, nofun⟩

/-- A gathering still serves its jobs after a reply. -/
theorem reply (h : g.Serves jobs) (index : Nat) (r : Reply) : (g.reply index r).Serves jobs := by
  obtain ⟨⟨taken, dropped, hjobs, hslots, hstop⟩, hidle⟩ := h
  refine ⟨⟨taken, dropped, hjobs, ?_, hstop⟩, hidle⟩
  refine List.forall₂_iff_get.mpr ⟨by simpa [Gathering.reply] using hslots.length_eq, ?_⟩
  intro i hi hi'
  have hlen : i < g.begun.length := by simpa [Gathering.reply] using hi'
  have hof := hslots.get hi hlen
  simp only [Gathering.reply, List.get_eq_getElem, List.getElem_modify] at hof ⊢
  split
  · exact hof.reply r
  · exact hof

/-- A gathering still serves its jobs when it is filled up. -/
theorem fill (h : g.Serves jobs) (scope : Scope) (token : CancelToken) : (g.fill scope token).Serves jobs := by
  obtain ⟨⟨taken, dropped, hjobs, hslots, hstop⟩, hidle⟩ := h
  unfold Gathering.fill
  split
  · exact ⟨⟨taken, dropped, hjobs, hslots, hstop⟩, hidle⟩
  · rename_i hs
    have hs : g.stopped = false := by simpa using hs
    obtain rfl := hstop hs
    have hof (more : List Job) : List.Forall₂ Slot.Of (taken ++ more) (g.begun ++ more.map (Slot.ofJob scope)) := by
      refine List.rel_append hslots ?_
      rw [List.forall₂_map_right_iff, List.forall₂_same]
      exact fun job _ => Slot.of_ofJob scope job
    have hfills := fillFrom_fills scope token g.width g.begun g.jobs
    generalize fillFrom scope token g.width g.begun g.jobs = filled at hfills
    generalize g.jobs = rest at hfills hjobs
    cases hfills with
    | @full more left _ => exact ⟨⟨taken ++ more, [], by simpa using hjobs, hof more, fun _ => rfl⟩, nofun⟩
    | @dropped more left _ _ => exact ⟨⟨taken ++ more, left, by simpa using hjobs, hof more, nofun⟩, fun _ => rfl⟩

/-- What the gathering comes to is what the jobs may come to. -/
theorem mayBe (h : g.Serves jobs) {results : List (Except StepError Value)} (hr : g.results? = some results) :
    Gathered.MayBe jobs ⟨results, g.stopped⟩ := by
  obtain ⟨⟨taken, dropped, hjobs, hslots, hstop⟩, hidle⟩ := h
  unfold results? at hr
  split at hr
  · rename_i hempty
    have hempty : g.jobs = [] := by simpa using hempty
    rw [hempty, List.nil_append] at hjobs
    refine ⟨taken, dropped, hjobs, ?_, hstop⟩
    have hresults := Slot.forall₂_results hr
    clear hjobs hr
    generalize g.begun = slots at hslots hresults
    induction hslots generalizing results with
    | nil =>
      cases hresults
      exact .nil
    | cons hof _ ih =>
      cases hresults with
      | cons hres hresults => exact .cons (hof.mayGive hres) (ih hresults)
  · cases hr

end Serves

end Gathering

end Runbook
