import Runbook.Definition.Decode
import Runbook.Json.SchemaLemmas

/-!
# Plans

A plan is a step with the steps of its body: the body of a loop step, which its inputs hold as data, is decoded once, at every
depth. Validation, audit, capabilities and execution all follow the plan.
-/

namespace Runbook

/-- Why a loop step has no body to run. -/
inductive BodyError where
  | missing
  | malformed (error : DecodeError)
  deriving DecidableEq, Repr

def BodyError.message : BodyError → String
  | missing => "missing inputs.steps"
  | malformed error => error.message

/-- A step that calls a tool, a loop step without a body, or a loop step with the plans of its body. -/
inductive Plan where
  | single (step : Step)
  | broken (step : Step) (error : BodyError)
  | loop (step : Step) (body : List Plan)
  deriving Repr

/-- The body of a loop step. -/
def Step.body (s : Step) : Except BodyError (List Step) :=
  match s.loopBody? with
  | none => .error .missing
  | some (.error e) => .error (.malformed e)
  | some (.ok steps) => .ok steps

/-- The inputs of a step that is read from a document are at most as deep as it. -/
theorem Step.depth_inputs_le {d : Document} {s : Step} (h : Step.schema.decode d = .ok s) :
    s.inputs.depth ≤ max d.depth 1 := by
  refine Schema.decode_induction (Q := fun e => e.depth ≤ d.depth) (P := fun s => s.inputs.depth ≤ max d.depth 1)
    ?_ (Nat.le_max_right _ _) ?_ ?_ h
  · intro f hf e a a' hq hp hr
    simp only [Step.schema, List.mem_cons, List.not_mem_nil, or_false] at hf
    rcases hf with rfl | rfl | rfl | rfl | rfl | rfl | rfl | rfl | rfl | rfl | rfl | rfl
    case inr.inr.inr.inr.inl =>
      obtain ⟨b, hb, rfl⟩ := Field.of_read_ok hr
      have := Document.depth_value?_le e b (Decoder.value_ok hb)
      show b.depth ≤ _
      omega
    all_goals
      obtain ⟨b, _, rfl⟩ := Field.of_read_ok hr
      exact hp
  · rintro items closed rfl e he
    have := Document.depth_le_of_mem he
    simp only [Document.depth]
    omega
  · rintro fields closed rfl k e he
    have := Document.depth_le_of_mem_fields he
    simp only [Document.depth]
    omega

/-- The inputs of the steps of a body are less deep than those of the loop. -/
theorem Step.depth_body_lt {s t : Step} {steps : List Step} (h : s.body = .ok steps) (ht : t ∈ steps) :
    t.inputs.depth < s.inputs.depth := by
  unfold body loopBody? at h
  cases hv : s.inputs.get? bodyKey with
  | none => rw [hv] at h; cases h
  | some v =>
    rw [hv] at h
    simp only [Option.map_some] at h
    cases hd : decodeBody v with
    | error e => rw [hd] at h; cases h
    | ok ts =>
      rw [hd] at h
      cases h
      have hlt := Value.depth_lt_of_get? hv
      obtain ⟨items, closed, hitems, hmem⟩ := Decoder.list_ok hd
      obtain ⟨d, hdi, hdt⟩ := hmem t ht
      have h1 := Step.depth_inputs_le hdt
      have h2 := Document.depth_le_of_mem hdi
      have h3 : v.depth = Document.depthItems items + 1 := by
        rw [← Document.depth_ofValue, hitems, Document.depth]
      omega

namespace Plan

/-- The plan of a step. -/
def ofStep (s : Step) : Plan :=
  if s.isLoop then
    match _h : s.body with
    | .error e => .broken s e
    | .ok steps => .loop s (steps.attach.map fun ⟨t, _⟩ => ofStep t)
  else .single s
termination_by s.inputs.depth
decreasing_by exact Step.depth_body_lt (by assumption) (by assumption)

/-- The step that a plan is of. -/
def step : Plan → Step
  | single s => s
  | broken s _ => s
  | loop s _ => s

/-- The plans of the body. -/
def body : Plan → List Plan
  | loop _ body => body
  | _ => []

/-- The plan of a loop with a body has the plans of its steps. -/
theorem ofStep_loop {s : Step} {steps : List Step} (hs : s.isLoop = true) (h : s.body = .ok steps) :
    ofStep s = .loop s (steps.map ofStep) := by
  rw [ofStep, if_pos hs]
  split
  · rename_i e he
    rw [h] at he
    cases he
  · rename_i ts hts
    rw [h] at hts
    cases hts
    simp

/-- The plan of a loop without a body that can be read keeps the error. -/
theorem ofStep_broken {s : Step} {e : BodyError} (hs : s.isLoop = true) (h : s.body = .error e) :
    ofStep s = .broken s e := by
  rw [ofStep, if_pos hs]
  split
  · rename_i e' he
    rw [h] at he
    cases he
    rfl
  · rename_i ts hts
    rw [h] at hts
    cases hts

/-- The plan of a step that is no loop is the step. -/
theorem ofStep_single {s : Step} (hs : s.isLoop = false) : ofStep s = .single s := by
  rw [ofStep, if_neg (by simp [hs])]

/-- The plan of a step is a plan of it. -/
@[simp] theorem step_ofStep (s : Step) : (ofStep s).step = s := by
  cases hs : s.isLoop with
  | false => rw [ofStep_single hs, step]
  | true =>
    cases h : s.body with
    | error e => rw [ofStep_broken hs h, step]
    | ok steps => rw [ofStep_loop hs h, step]

end Plan

/-- The plans of the steps of a definition. -/
def Definition.plans (d : Definition) : List Plan := d.steps.map Plan.ofStep

end Runbook
