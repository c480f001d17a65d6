import Runbook.Proofs.Contexts

/-!
# Slots

A slot is written once. What a context answers is decided by the first record of each of its steps, whatever else is tried, and its
inputs and defaults are those it started with.
-/

namespace Runbook.Context

/-- One access to a context. -/
inductive Access where
  | record (id : String) (value : Value)
  | entry (id : String)
  | lookup (name : String)

/-- What a context answers to an access. -/
inductive Response where
  | recorded
  | refused (error : SlotError)
  | value (v : Option Value)

/-- The answer to one access, and the context after it. -/
def perform (c : Context) : Access → Response × Context
  | .record id entry =>
    match c.record id entry with
    | .ok c' => (.recorded, c')
    | .error e => (.refused e, c)
  | .entry id => (.value (c.entry? id), c)
  | .lookup name => (.value (c.lookup name), c)

/-- The context after one access after another. -/
def after (c : Context) (accesses : List Access) : Context := accesses.foldl (fun c a => (c.perform a).2) c

/-- The answers to one access after another. -/
def answers (c : Context) : List Access → List Response
  | [] => []
  | a :: accesses => (c.perform a).1 :: (c.perform a).2.answers accesses

/-- What an access tries to record of a step. -/
def Access.records? (id : String) : Access → Option Value
  | .record id' value => if id' = id then some value else none
  | _ => none

/-- What is first recorded of a step. -/
def firstRecord (id : String) (accesses : List Access) : Option Value := accesses.findSome? (Access.records? id)

/-- The first record of a step is the one in the first accesses, if it is there. -/
theorem firstRecord_append (id : String) (accesses more : List Access) :
    firstRecord id (accesses ++ more) = (firstRecord id accesses).or (firstRecord id more) := List.findSome?_append

/-- A step that is recorded first has this record. -/
theorem firstRecord_record (id : String) (entry : Value) (accesses : List Access) :
    firstRecord id (.record id entry :: accesses) = some entry := by
  simp [firstRecord, Access.records?]

/-- Nothing is recorded of a step exactly when no access tries to. -/
theorem firstRecord_eq_none {id : String} {accesses : List Access} :
    firstRecord id accesses = none ↔ ∀ entry, .record id entry ∉ accesses := by
  unfold firstRecord
  rw [List.findSome?_eq_none_iff]
  constructor
  · intro h entry hmem
    simpa [Access.records?] using h _ hmem
  · intro h a ha
    cases a with
    | record id' entry =>
      by_cases hid : id' = id
      · exact absurd (hid ▸ ha) (h entry)
      · simp [Access.records?, hid]
    | entry _ => rfl
    | lookup _ => rfl

/-- A context of these steps in which, of every step, the first record of these accesses is written. -/
structure Written (inputs defaults : Fields) (ids : List String) (accesses : List Access) (c : Context) : Prop where
  inputs : c.inputs = .obj inputs
  defaults : c.defaults = .obj defaults
  slots : ∀ id, Keyed.get? c.slots id = if id ∈ ids then some (firstRecord id accesses) else none

namespace Written

variable {inputs defaults : Fields} {ids : List String} {accesses : List Access} {c : Context}

/-- At the start nothing is written. -/
theorem start (inputs defaults : Fields) (ids : List String) :
    (Context.start inputs defaults ids).Written inputs defaults ids [] :=
  ⟨rfl, rfl, get?_start inputs defaults ids⟩

/-- The entry of a step is the first record of it, if it is one of the steps. -/
theorem entry_eq (h : c.Written inputs defaults ids accesses) (id : String) :
    c.entry? id = if id ∈ ids then firstRecord id accesses else none := by
  unfold entry?
  rw [h.slots]
  split <;> rfl

/-- A record is written where there is a slot without one. -/
theorem perform_record (h : c.Written inputs defaults ids accesses) (id : String) (entry : Value) :
    c.perform (.record id entry) =
      if id ∈ ids then
        if (firstRecord id accesses).isSome then (.refused (.alreadyWritten id), c)
        else (.recorded, { c with slots := Keyed.insert c.slots id (some entry) })
      else (.refused (.unknown id), c) := by
  have hslot := h.slots id
  by_cases hid : id ∈ ids
  · rw [if_pos hid] at hslot
    rw [if_pos hid]
    cases hfirst : firstRecord id accesses <;> simp [Context.perform, record, hslot, hfirst]
  · rw [if_neg hid] at hslot
    simp [Context.perform, record, hslot, hid]

/-- What was first recorded stays, whatever is tried. -/
theorem unchanged (h : c.Written inputs defaults ids accesses) {a : Access}
    (hsame : ∀ id ∈ ids, (firstRecord id accesses).isSome = true ∨ a.records? id = none) :
    c.Written inputs defaults ids (accesses ++ [a]) := by
  refine ⟨h.inputs, h.defaults, ?_⟩
  intro id
  rw [h.slots]
  split
  · rename_i hid
    rw [firstRecord_append]
    obtain hsome | hnone := hsame id hid
    · rw [Option.or_of_isSome hsome]
    · simp [firstRecord, hnone]
  · rfl

/-- The first record of a step is written. -/
theorem written (h : c.Written inputs defaults ids accesses) {id : String} (hid : id ∈ ids) (hnew : firstRecord id accesses = none)
    (entry : Value) :
    Context.Written inputs defaults ids (accesses ++ [.record id entry])
      { c with slots := Keyed.insert c.slots id (some entry) } := by
  refine ⟨h.inputs, h.defaults, ?_⟩
  intro k
  simp only [Keyed.get?_insert, h.slots, firstRecord_append]
  by_cases hk : id = k
  · subst hk
    simp [hid, hnew, firstRecord_record]
  · have hnone : firstRecord k [.record id entry] = none := by simp [firstRecord, Access.records?, hk]
    simp [hk, hnone]

/-- One access more. -/
theorem perform (h : c.Written inputs defaults ids accesses) (a : Access) :
    (c.perform a).2.Written inputs defaults ids (accesses ++ [a]) := by
  cases a with
  | entry id => exact h.unchanged fun _ _ => .inr rfl
  | lookup name => exact h.unchanged fun _ _ => .inr rfl
  | record id entry =>
    rw [h.perform_record]
    split_ifs with hid hsome
    · refine h.unchanged ?_
      intro k _
      by_cases hk : id = k
      · exact .inl (hk ▸ hsome)
      · exact .inr (if_neg hk)
    · exact h.written hid (by simpa using hsome) entry
    · refine h.unchanged ?_
      intro k hk
      have hne : id ≠ k := fun heq => hid (heq ▸ hk)
      exact .inr (if_neg hne)

/-- One access after another. -/
theorem after (h : c.Written inputs defaults ids accesses) (more : List Access) :
    (c.after more).Written inputs defaults ids (accesses ++ more) := by
  induction more generalizing c accesses with
  | nil => simpa [Context.after] using h
  | cons a more ih => simpa [Context.after] using ih (h.perform a)

end Written

/-- After accesses, the context is as they have written it. -/
theorem written_after (inputs defaults : Fields) (ids : List String) (accesses : List Access) :
    ((start inputs defaults ids).after accesses).Written inputs defaults ids accesses := by
  simpa using (Written.start inputs defaults ids).after accesses

/-- Whatever was done with a context, a record is written exactly when it is the first of a step of the context; any other is refused, by
what is wrong with it, and shows in no later answer. A record stays as it was first written, and the inputs and defaults as they were
given: these two names stand for nothing else, so a step that bears one of them is read as a step only. -/
theorem slots_writtenOnce (inputs defaults : Fields) (ids : List String) (past : List Access) :
    let c := (start inputs defaults ids).after past
    (∀ id entry,
      ((c.perform (.record id entry)).1 = .recorded ↔ id ∈ ids ∧ ∀ earlier, .record id earlier ∉ past) ∧
      ((c.perform (.record id entry)).1 = .refused (.alreadyWritten id) ↔ id ∈ ids ∧ ∃ earlier, .record id earlier ∈ past) ∧
      ((c.perform (.record id entry)).1 = .refused (.unknown id) ↔ id ∉ ids) ∧
      ((c.perform (.record id entry)).1 ≠ .recorded →
        ∀ future, (c.perform (.record id entry)).2.answers future = c.answers future)) ∧
    (∀ id ∈ ids, ∀ entry, (∀ earlier, .record id earlier ∉ past) →
      ∀ future, let later := c.after (.record id entry :: future)
        later.entry? id = some entry ∧ (id ≠ "inputs" → id ≠ "defaults" → later.lookup id = some entry)) ∧
    (∀ id, (id ∈ ids → ∀ earlier, .record id earlier ∉ past) → c.entry? id = none) ∧
    c.lookup "inputs" = some (.obj inputs) ∧ c.lookup "defaults" = some (.obj defaults) := by
  intro c
  have hc : c.Written inputs defaults ids past := written_after inputs defaults ids past
  refine ⟨?_, ?_, ?_, ?_, ?_⟩
  · intro id entry
    rw [hc.perform_record, ← firstRecord_eq_none]
    have hearlier : (firstRecord id past).isSome = true ↔ ∃ earlier, .record id earlier ∈ past := by
      rw [Option.isSome_iff_ne_none, Ne, firstRecord_eq_none]
      push Not
      rfl
    rw [← hearlier]
    split_ifs with hid hsome
    · simp [hid, hsome, Option.isSome_iff_ne_none.mp hsome]
    · simp [hid, Option.not_isSome_iff_eq_none.mp hsome]
    · simp [hid]
  · intro id hid entry hnew future
    have hlater : Context.entry? (c.after (.record id entry :: future)) id = some entry := by
      rw [(hc.after _).entry_eq, if_pos hid, firstRecord_append, firstRecord_eq_none.mpr hnew, firstRecord_record]
      rfl
    refine ⟨hlater, ?_⟩
    intro hinputs hdefaults
    simpa [lookup, hinputs, hdefaults] using hlater
  · intro id hnone
    rw [hc.entry_eq]
    split
    · rename_i hid
      exact firstRecord_eq_none.mpr (hnone hid)
    · rfl
  · simp [lookup, hc.inputs]
  · simp [lookup, hc.defaults]

end Runbook.Context
