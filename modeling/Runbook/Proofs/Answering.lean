import Runbook.Proofs.Blindness
import Runbook.Proofs.Conduct

/-!
# Answered procedures

When every call comes back with its own answer, the answers decide what a procedure comes to. It makes no difference in how many
pieces it runs, in which order the answers of a gathering come in, or how many calls may be in flight at a time.
-/

namespace Runbook

variable {ask : Call → Reply} {scope : Scope}

/-! ## Gatherings -/

namespace Slot

/-- A slot with a result is answered with it. -/
theorem answered_of_result? {slot : Slot} {r : Except StepError Value} (h : slot.result? = some r) : slot.answered ask = r := by
  cases slot with
  | refused err => exact Option.some.inj h
  | finished r' => exact Option.some.inj h
  | flying c => cases h

/-- A job that is taken up is answered as the call that it makes is, if it makes one. -/
theorem answered_ofJob (job : Job) : (ofJob scope job).answered ask = (job scope).bind fun c => c.result (ask c) := by
  unfold ofJob
  cases job scope with
  | error err => rfl
  | ok c => rfl

/-- A job that is taken up has a call in flight exactly if it makes one. -/
theorem call?_ofJob (job : Job) : (ofJob scope job).call? = (job scope).toOption := by
  unfold ofJob
  cases job scope with
  | error err => rfl
  | ok c => rfl

end Slot

namespace Gathering

/-- In a run that is not cancelled, the first jobs become slots and the others stay what they are. -/
theorem fill_parts (scope : Scope) (g : Gathering) :
    ∃ taken : List Job, g.jobs = taken ++ (g.fill scope none).jobs ∧
      (g.fill scope none).begun = g.begun ++ taken.map (Slot.ofJob scope) ∧ (g.fill scope none).stopped = g.stopped := by
  unfold fill
  split
  · exact ⟨[], by simp⟩
  · rename_i hstopped
    have hstopped : g.stopped = false := by simpa using hstopped
    have hfills := fillFrom_fills scope none g.width g.begun g.jobs
    generalize fillFrom scope none g.width g.begun g.jobs = filled at hfills
    generalize g.jobs = jobs at hfills
    cases hfills with
    | @full taken left _ => exact ⟨taken, rfl, rfl, hstopped.symm⟩
    | dropped wish _ => exact absurd rfl wish

/-- To begin calls changes nothing of the answers. -/
theorem answered_fill (g : Gathering) : (g.fill scope none).answered ask scope = g.answered ask scope := by
  obtain ⟨taken, hjobs, hbegun, -⟩ := fill_parts scope g
  have htaken : (taken.map (Slot.ofJob scope)).map (Slot.answered ask) =
      taken.map fun job => (job scope).bind fun c => c.result (ask c) := by
    rw [List.map_map]
    exact List.map_congr_left fun job _ => Slot.answered_ofJob job
  rw [answered, answered, hbegun, hjobs, List.map_append, List.map_append, htaken, List.append_assoc]

/-- The calls that are to be made are those that are begun and those that are left. -/
theorem callsToMake_fill (g : Gathering) :
    g.callsToMake scope =
      ((g.fill scope none).callsFrom g.begun.length).map (·.2) ++ (g.fill scope none).callsToMake scope := by
  obtain ⟨taken, hjobs, hbegun, -⟩ := fill_parts scope g
  have hnew : ((g.fill scope none).callsFrom g.begun.length).map (·.2) = taken.filterMap fun job => (job scope).toOption := by
    rw [callsFrom_eq, hbegun, List.drop_left, Slot.map_snd_calls, List.filterMap_map]
    exact List.filterMap_congr fun job _ => Slot.call?_ofJob job
  rw [hnew, callsToMake, callsToMake, hjobs, List.filterMap_append]

/-- A call that comes back with its answer changes nothing of the answers. -/
theorem answered_reply {g : Gathering} {i : Nat} {c : Call} (h : (i, c) ∈ g.callsFrom 0) :
    (g.reply i (ask c)).answered ask scope = g.answered ask scope := by
  obtain ⟨before, after, hg, -, hreply⟩ := reply_split h (ask c)
  have hjobs : (g.reply i (ask c)).jobs = g.jobs := rfl
  rw [answered, answered, hjobs, hreply, hg]
  simp [Slot.answered]

/-- The results of a gathering are its answers. -/
theorem answered_of_results? {g : Gathering} {results : List (Except StepError Value)} (h : g.results? = some results) :
    g.jobs = [] ∧ g.answered ask scope = results := by
  unfold results? at h
  split at h
  · rename_i hempty
    have hempty : g.jobs = [] := by simpa using hempty
    refine ⟨hempty, ?_⟩
    have hresults := Slot.forall₂_results h
    rw [answered, hempty, List.map_nil, List.append_nil]
    clear h
    generalize g.begun = slots at hresults
    induction hresults with
    | nil => rfl
    | cons hr _ ih => rw [List.map_cons, ih, Slot.answered_of_result? hr]
  · cases h

end Gathering

/-! ## Procedures in pieces -/

namespace Proc

/-- What a procedure that waits still does, once the calls in flight are answered. -/
def remaining (ask : Call → Reply) (scope : Scope) : Proc α → Performed α
  | call c next => (next (ask c)).answered ask scope
  | done a => (done a).answered ask scope
  | read next => (read next).answered ask scope
  | poll next => (poll next).answered ask scope
  | note n next => (note n next).answered ask scope
  | gather g next => (gather g next).answered ask scope

/-- Calls that are sent with their places are the same calls. -/
theorem map_snd_placed (calls : List (Nat × Call)) :
    (calls.map fun (i, c) => ((some i : CallIndex), c)).map (·.2) = calls.map (·.2) := by
  rw [List.map_map]
  rfl

/-- A procedure does what it does until it waits, and then what remains. -/
theorem answered_settle (p : Proc α) :
    p.answered ask scope = ((p.settle scope none).proc.remaining ask scope).after ((p.settle scope none).calls.map (·.2))
      (p.settle scope none).notes := by
  induction p with
  | done a => rfl
  | read next ih => exact ih scope
  | poll next ih => exact ih false
  | note n next ih => simp [answered, settle, ih]
  | call c next _ => rfl
  | gather g next ih =>
    obtain ⟨_, _, _, hstopped⟩ := Gathering.fill_parts scope g
    unfold settle
    dsimp only
    split
    · rfl
    split
    · simp only [remaining, answered, Gathering.answered_fill, hstopped, map_snd_placed, Gathering.callsToMake_fill g,
        Performed.after_after, List.append_nil]
    · rename_i results hsome
      obtain ⟨hempty, hanswered⟩ : (g.fill scope none).jobs = [] ∧ (g.fill scope none).answered ask scope = results :=
        Gathering.answered_of_results? hsome
      have hnone : (g.fill scope none).callsToMake scope = [] := by rw [Gathering.callsToMake, hempty, List.filterMap_nil]
      have hresults : g.answered ask scope = results := by rw [← Gathering.answered_fill, hanswered]
      rw [answered, ih, Gathering.callsToMake_fill g, hnone, hresults, hstopped, List.append_nil, Performed.after_after,
        List.map_append, map_snd_placed, List.nil_append]

/-- After an answer a procedure does what remained. -/
theorem answered_reply {p : Proc α} {index : CallIndex} {c : Call} (h : (index, c) ∈ p.waitingFor) :
    (p.reply index (ask c)).answered ask scope = p.remaining ask scope := by
  cases p with
  | done a => cases h
  | read next => cases h
  | poll next => cases h
  | note n next => cases h
  | call c' next =>
    obtain ⟨rfl, rfl⟩ : index = none ∧ c = c' := by simpa [waitingFor] using h
    rfl
  | gather g next =>
    obtain ⟨⟨i, c'⟩, hmem, heq⟩ := List.mem_map.mp h
    obtain ⟨rfl, rfl⟩ := Prod.mk.inj heq
    have hjobs : (g.reply i (ask c')).callsToMake scope = g.callsToMake scope := rfl
    have hstopped : (g.reply i (ask c')).stopped = g.stopped := rfl
    simp only [reply, remaining, answered, Gathering.answered_reply hmem, hjobs, hstopped]

/-- A procedure waits for one call at each of its places. -/
theorem waitingFor_unique {p : Proc α} {index : CallIndex} {c c' : Call} (h : (index, c) ∈ p.waitingFor)
    (h' : (index, c') ∈ p.waitingFor) : c = c' := by
  cases p with
  | done a => cases h
  | read next => cases h
  | poll next => cases h
  | note n next => cases h
  | call c₀ next =>
    obtain ⟨-, rfl⟩ : index = none ∧ c = c₀ := by simpa [waitingFor] using h
    obtain ⟨-, rfl⟩ : index = none ∧ c' = c := by simpa [waitingFor] using h'
    rfl
  | gather g next =>
    obtain ⟨⟨i, c₁⟩, hmem, heq⟩ := List.mem_map.mp h
    obtain ⟨⟨i', c₂⟩, hmem', heq'⟩ := List.mem_map.mp h'
    obtain ⟨rfl, rfl⟩ := Prod.mk.inj heq
    obtain ⟨hi, rfl⟩ := Prod.mk.inj heq'
    obtain rfl := Option.some.inj hi
    have hslot := (Gathering.mem_callsFrom_zero.mp hmem).symm.trans (Gathering.mem_callsFrom_zero.mp hmem')
    exact Slot.flying.inj (Option.some.inj hslot)

end Proc

/-! ## Blind procedures in pieces -/

namespace Proc.Blind

variable {hidden : List String} {p : Proc α}

/-- A blind procedure is still blind when it has gone on as far as it can. -/
theorem settle (hp : p.Blind hidden) (scope : Scope) : (p.settle scope none).proc.Blind hidden := by
  induction hp with
  | done a => exact .done a
  | read _ _ ih => exact ih scope
  | poll _ ih => exact ih false
  | note _ ih => exact ih
  | call rest _ => exact .call rest
  | @gather g next same rest ih =>
    obtain ⟨taken, hjobs, -⟩ := Gathering.fill_parts scope g
    unfold Proc.settle
    dsimp only
    split
    · exact .gather same rest
    split
    · exact .gather (fun job hjob => same job (hjobs ▸ List.mem_append_right _ hjob)) rest
    · exact ih _

/-- A blind procedure is still blind after a reply. -/
theorem reply (hp : p.Blind hidden) (index : CallIndex) (r : Reply) : (p.reply index r).Blind hidden := by
  cases hp with
  | done a => exact .done a
  | read same rest => exact .read same rest
  | poll rest => exact .poll rest
  | note rest => exact .note rest
  | call rest =>
    cases index with
    | none => exact rest r
    | some i => exact .call rest
  | gather same rest =>
    cases index with
    | none => exact .gather same rest
    | some i => exact .gather same rest

/-- In scopes that agree outside of the hidden names the same remains. -/
theorem remaining (hp : p.Blind hidden) (ask : Call → Reply) {s s' : Scope} (h : s.AgreeOutside hidden s') :
    p.remaining ask s = p.remaining ask s' := by
  cases p with
  | call c next =>
    cases hp with
    | call rest => exact (rest (ask c)).answered ask h
  | done a => exact hp.answered ask h
  | read next => exact hp.answered ask h
  | poll next => exact hp.answered ask h
  | note n next => exact hp.answered ask h
  | gather g next => exact hp.answered ask h

end Proc.Blind

end Runbook
