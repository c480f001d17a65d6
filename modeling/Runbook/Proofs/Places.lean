import Runbook.Proofs.Validity

/-!
# Places of steps

The place of a step is the way to it: its id, behind the ids of the loops around it. In a definition without faults no two steps have
the same place.
-/

namespace Runbook

/-- The plan at a place: the one whose own place it is, or one at a place in the body of that. -/
inductive Plan.At : List String → Plan → List String → Plan → Prop
  | here {path : List String} {p : Plan} : At path p path p
  | body {path path' : List String} {s : Step} {body : List Plan} {p q : Plan} (hp : p ∈ body)
      (h : At (path ++ [p.step.id]) p path' q) : At path (.loop s body) path' q

namespace Plan.At

variable {path path' : List String} {p q : Plan}

/-- The way to a plan begins with the way to the loops around it. -/
theorem prefix_path (h : At path p path' q) : path <+: path' := by
  induction h with
  | here => exact List.prefix_refl _
  | body _ _ ih => exact (List.prefix_append _ _).trans ih

/-- No plan in a body is at the place of the loop. -/
theorem not_below {id : String} : ¬At (path ++ [id]) p path q := by
  intro h
  have hlength := h.prefix_path.length_le
  rw [List.length_append, List.length_singleton] at hlength
  omega

/-- The plans in a plan without faults are without faults. -/
theorem faultless {topIds : List String} (hp : p.Faultless topIds) (h : At path p path' q) : q.Faultless topIds := by
  induction h with
  | here => exact hp
  | body hmem _ ih =>
    cases hp with
    | loop _ _ _ _ _ steps => exact ih (steps _ hmem)

/-- Where ids of siblings differ, ways tell plans apart: two ways into a body go on with the id of the same step. -/
theorem unique {topIds : List String} (hp : p.Faultless topIds) {r : Plan} (hq : At path p path' q) (hr : At path p path' r) :
    q = r := by
  induction hq generalizing r with
  | here =>
    cases hr with
    | here => rfl
    | body _ h => exact absurd h not_below
  | @body path path' s body p q hmem hq ih =>
    cases hr with
    | here => exact absurd hq not_below
    | @body _ _ _ _ p' _ hmem' hr =>
      cases hp with
      | loop _ _ _ _ ids steps =>
        have hid : p.step.id = p'.step.id := by
          obtain ⟨rest, hrest⟩ := hq.prefix_path
          obtain ⟨rest', hrest'⟩ := hr.prefix_path
          have heq := hrest.trans hrest'.symm
          simp only [List.append_assoc, List.cons_append, List.nil_append, List.append_cancel_left_eq, List.cons.injEq] at heq
          exact heq.1
        obtain rfl : p = p' := List.inj_on_of_nodup_map ids.nodup hmem hmem' hid
        exact ih (steps p hmem) hr

end Plan.At

/-- The plan at a place of a definition. -/
def Definition.PlanAt (d : Definition) (path : List String) (p : Plan) : Prop := ∃ q ∈ d.plans, q.At [q.step.id] path p

namespace Definition

variable {d : Definition} {path : List String} {p q : Plan}

/-- The plans of a definition without faults have none at any place. -/
theorem PlanAt.faultless (hd : d.Faultless) (h : d.PlanAt path p) : p.Faultless d.ids := by
  obtain ⟨q, hq, hat⟩ := h
  exact hat.faultless (hd.plans q hq)

/-- There is one plan at a place, if the definition has no faults. -/
theorem PlanAt.unique (hd : d.Faultless) (hp : d.PlanAt path p) (hq : d.PlanAt path q) : p = q := by
  obtain ⟨p', hp', hpat⟩ := hp
  obtain ⟨q', hq', hqat⟩ := hq
  have hid : p'.step.id = q'.step.id := by
    obtain ⟨rest, hrest⟩ := hpat.prefix_path
    obtain ⟨rest', hrest'⟩ := hqat.prefix_path
    exact (List.cons.inj (hrest.trans hrest'.symm)).1
  have hids : (d.plans.map (·.step.id)).Nodup := by
    have heq : d.plans.map (·.step.id) = d.ids := by simp [plans, ids, Function.comp_def]
    exact heq ▸ hd.nodup
  obtain rfl : p' = q' := List.inj_on_of_nodup_map hids hp' hq' hid
  exact hpat.unique (hd.plans p' hp') hqat

end Definition

end Runbook
