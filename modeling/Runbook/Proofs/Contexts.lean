import Runbook.Proofs.Reading
import Runbook.Proofs.Workflow

/-!
# Contexts

A context has a slot for every step of its workflow, and a record in each slot that was written. What it says of a name is decided by
the inputs, the defaults and these records.
-/

namespace Runbook

/-- The record of an outcome. -/
def Outcome.entry (o : Outcome StepError) : Value := (o.mapError StepError.message).record

namespace Context

/-- A context has slots for steps only. -/
def Serves (c : Context) (ids : List String) : Prop := ∀ id, (c.slots.get? id).isSome = true → id ∈ ids

/-- A context starts with an empty slot for each of its steps, and no other. -/
theorem get?_start (inputs defaults : Fields) (ids : List String) (id : String) :
    Keyed.get? (start inputs defaults ids).slots id = if id ∈ ids then some none else none := by
  have hentries : ∀ e ∈ ids.map fun id => (id, (none : Option Value)), e.2 = none := by
    intro e he
    obtain ⟨id, -, rfl⟩ := List.mem_map.mp he
    rfl
  have hget := Keyed.get?_ofList (f := fun _ => none) hentries id
  have hkeys : (ids.map fun id => (id, (none : Option Value))).map (·.1) = ids := by simp [Function.comp_def]
  rw [hkeys] at hget
  exact hget

/-- The first context serves the steps that it is made for. -/
theorem serves_start (inputs defaults : Fields) (ids : List String) : (start inputs defaults ids).Serves ids := by
  intro id h
  have hmem := (Keyed.mem_keys_ofList _ _).mp (Keyed.get?_isSome.mp h)
  simpa using hmem

/-- A context still serves its steps when one of them is closed. -/
theorem serves_close {c : Context} {ids : List String} (h : c.Serves ids) (id : String) (entry : Value) :
    (c.close id entry).Serves ids := by
  unfold close record
  cases hs : c.slots.get? id with
  | none => exact h
  | some slot =>
    cases slot with
    | some v => exact h
    | none =>
      intro k hk
      simp only [Keyed.get?_insert] at hk
      by_cases hik : id = k
      · exact hik ▸ h id (by simp [hs])
      · exact h k (by simpa [hik] using hk)

/-- A context that serves steps has no entry under another name. -/
theorem entry_eq_none {c : Context} {ids : List String} (h : c.Serves ids) {name : String} (hn : name ∉ ids) :
    c.entry? name = none := by
  unfold entry?
  cases hs : c.slots.get? name with
  | none => rfl
  | some slot => exact absurd (h name (by simp [hs])) hn

/-- To write one record changes no other. -/
theorem entry_close_of_ne {c : Context} {id name : String} (h : name ≠ id) (entry : Value) :
    Context.entry? (c.close id entry) name = c.entry? name := by
  unfold entry? close record
  cases hs : c.slots.get? id with
  | none => rfl
  | some slot =>
    cases slot with
    | some v => rfl
    | none => simp [Keyed.get?_insert, Ne.symm h]

theorem inputs_close (c : Context) (id : String) (entry : Value) : (c.close id entry).inputs = c.inputs := by
  unfold close record
  cases hs : c.slots.get? id with
  | none => rfl
  | some slot => cases slot <;> rfl

theorem defaults_close (c : Context) (id : String) (entry : Value) : (c.close id entry).defaults = c.defaults := by
  unfold close record
  cases hs : c.slots.get? id with
  | none => rfl
  | some slot => cases slot <;> rfl

/-- Contexts with the same inputs and defaults look alike outside of the steps of which they hold different records. -/
theorem agreeOutside {c c' : Context} {ids hidden : List String} (hc : c.Serves ids) (hc' : c'.Serves ids)
    (hinputs : c.inputs = c'.inputs) (hdefaults : c.defaults = c'.defaults)
    (hentries : ∀ id ∈ ids, id ∉ hidden → c.entry? id = c'.entry? id) : c.scope.AgreeOutside hidden c'.scope := by
  intro n hn
  have hentry : c.entry? n = c'.entry? n := by
    by_cases hids : n ∈ ids
    · exact hentries n hids hn
    · rw [entry_eq_none hc hids, entry_eq_none hc' hids]
  simp only [scope, lookup, hinputs, hdefaults, hentry]

/-! ## What is written -/

/-- A context of a workflow with its inputs, in which these records are written. -/
structure Holds (w : Workflow) (inputs : Fields) (written : String → Option Value) (c : Context) : Prop where
  inputs : c.inputs = .obj inputs
  defaults : c.defaults = .obj w.definition.defaults
  slots : ∀ id, Keyed.get? c.slots id = if id ∈ w.graph.steps then some (written id) else none

namespace Holds

variable {w : Workflow} {inputs : Fields} {written written' : String → Option Value} {c c' : Context}

/-- The first context holds no record. -/
theorem start (w : Workflow) (inputs : Fields) :
    (Context.start inputs w.definition.defaults w.graph.steps).Holds w inputs fun _ => none :=
  ⟨rfl, rfl, get?_start inputs w.definition.defaults w.graph.steps⟩

/-- What a context holds depends on the records of its steps only. -/
theorem congr (h : c.Holds w inputs written) (hsame : ∀ id ∈ w.graph.steps, written id = written' id) :
    c.Holds w inputs written' := by
  refine ⟨h.inputs, h.defaults, ?_⟩
  intro id
  rw [h.slots]
  split
  · rename_i hid
    rw [hsame id hid]
  · rfl

/-- The record of a step that has none yet is written, and no other. -/
theorem close (h : c.Holds w inputs written) {id : String} (hid : id ∈ w.graph.steps) (hnew : written id = none) (entry : Value) :
    (c.close id entry).Holds w inputs fun k => if k = id then some entry else written k := by
  have hempty : Keyed.get? c.slots id = some none := by rw [h.slots, if_pos hid, hnew]
  have hclose : c.close id entry = { c with slots := Keyed.insert c.slots id (some entry) } := by
    simp only [Context.close, Context.record, hempty]
  refine ⟨(inputs_close ..).trans h.inputs, (defaults_close ..).trans h.defaults, ?_⟩
  intro k
  rw [hclose]
  simp only [Keyed.get?_insert, h.slots]
  by_cases hk : k = id
  · subst hk
    simp [hid]
  · simp [hk, Ne.symm hk]

/-- A context that holds the records of a workflow serves its steps. -/
theorem serves (h : c.Holds w inputs written) : c.Serves w.graph.steps := by
  intro id hid
  rw [h.slots] at hid
  by_contra hno
  simp [hno] at hid

/-- The entry of a step is the record that the context holds for it. -/
theorem entry_eq (h : c.Holds w inputs written) {id : String} (hid : id ∈ w.graph.steps) : c.entry? id = written id := by
  unfold entry?
  simp [h.slots, hid]

/-- Contexts look alike outside of the steps of which other records are written. -/
theorem agreeOutside {hidden : List String} (h : c.Holds w inputs written) (h' : c'.Holds w inputs written')
    (hsame : ∀ id ∈ w.graph.steps, id ∉ hidden → written id = written' id) : c.scope.AgreeOutside hidden c'.scope := by
  refine Context.agreeOutside h.serves h'.serves (h.inputs.trans h'.inputs.symm) (h.defaults.trans h'.defaults.symm) ?_
  intro id hid hshown
  rw [h.entry_eq hid, h'.entry_eq hid]
  exact hsame id hid hshown

end Holds

end Context

end Runbook
