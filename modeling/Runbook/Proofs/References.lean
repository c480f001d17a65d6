import Runbook.Plan.References

/-!
# What a step refers to

A step refers to the names that its expressions begin a path with, and to those that the steps of its body refer to, unless a step of the
same body has the name. What a plan collects are exactly these names, and they are what makes one step depend on another.
-/

namespace Runbook

/-- What expression texts refer to are the names in them that are neither reserved nor literals. -/
theorem mem_references {reserved texts : List String} {n : String} :
    n ∈ references reserved texts ↔ (∃ text ∈ texts, n ∈ Expr.namesOf text) ∧ n ∉ reserved ∧ n ∉ Expr.literalNames := by
  simp [references]

namespace Step

/-- A step is written with an expression: in a fragment of its inputs, its body left aside, or in its condition or the source of its
loop. -/
def HasExpression (s : Step) (text : String) : Prop :=
  text ∈ s.inputsWithoutBody.fragments ∨ ∃ source ∈ s.sources, text ∈ source.expressions

/-- A step refers to a name: one of its expressions names it, and it is neither reserved nor a literal, or a step of its body refers to
it, and it is no step of the same body. -/
inductive RefersTo : Step → String → Prop
  | own {s : Step} {text name : String} (written : s.HasExpression text) (named : name ∈ Expr.namesOf text)
      (notReserved : name ∉ reservedNames) (notLiteral : name ∉ Expr.literalNames) : RefersTo s name
  | body {s t : Step} {body : List Step} {name : String} (loop : s.isLoop = true) (decoded : s.body = .ok body) (ht : t ∈ body)
      (outside : name ∉ body.map (·.id)) (h : RefersTo t name) : RefersTo s name

/-- The references that a step collects of its own are the names in its expressions that are neither reserved nor literals. -/
theorem mem_ownReferences {s : Step} {n : String} : n ∈ s.ownReferences ↔
    (∃ text, s.HasExpression text ∧ n ∈ Expr.namesOf text) ∧ n ∉ reservedNames ∧ n ∉ Expr.literalNames := by
  have hown : n ∈ s.ownReferences ↔ n ∈ references reservedNames s.inputsWithoutBody.fragments ∨
      ∃ source ∈ s.sources, n ∈ references reservedNames source.expressions := by
    simp [ownReferences, Value.references, Source.references]
  rw [hown, mem_references]
  constructor
  · rintro (⟨⟨text, htext, hn⟩, hkept⟩ | ⟨source, hsource, hmem⟩)
    · exact ⟨⟨text, .inl htext, hn⟩, hkept⟩
    · obtain ⟨⟨text, htext, hn⟩, hkept⟩ := mem_references.mp hmem
      exact ⟨⟨text, .inr ⟨source, hsource, htext⟩, hn⟩, hkept⟩
  · rintro ⟨⟨text, htext | ⟨source, hsource, htext⟩, hn⟩, hkept⟩
    · exact .inl ⟨⟨text, htext, hn⟩, hkept⟩
    · exact .inr ⟨source, hsource, mem_references.mpr ⟨⟨text, htext, hn⟩, hkept⟩⟩

end Step

namespace Plan

/-- What the plans of a body refer to is what one of them refers to. -/
theorem mem_bodyReferences {ps : List Plan} {n : String} : n ∈ bodyReferences ps ↔ ∃ p ∈ ps, n ∈ p.references := by
  induction ps with
  | nil => simp [bodyReferences]
  | cons p ps ih => simp [bodyReferences, ih]

/-- A loop refers to what its step refers to, and to what its body refers to outside of itself. -/
theorem mem_references_loop {s : Step} {body : List Plan} {n : String} : n ∈ (loop s body).references ↔
    n ∈ s.ownReferences ∨ (∃ q ∈ body, n ∈ q.references) ∧ n ∉ body.map (·.step.id) := by
  rw [references, Names.mem_union, List.mem_filter, mem_bodyReferences]
  simp

/-- What the plan of a step collects is what the step refers to. -/
theorem mem_references_ofStep {n : String} (s : Step) : n ∈ (ofStep s).references ↔ s.RefersTo n := by
  have hown {s : Step} (h : n ∈ s.ownReferences) : s.RefersTo n := by
    obtain ⟨⟨text, htext, hn⟩, hreserved, hliteral⟩ := Step.mem_ownReferences.mp h
    exact .own htext hn hreserved hliteral
  have hmem {s : Step} {text : String} (htext : s.HasExpression text) (hn : n ∈ Expr.namesOf text) (hreserved : n ∉ reservedNames)
      (hliteral : n ∉ Expr.literalNames) : n ∈ s.ownReferences := Step.mem_ownReferences.mpr ⟨⟨text, htext, hn⟩, hreserved, hliteral⟩
  induction s using ofStep.induct with
  | case1 s hs err hb =>
    rw [ofStep_broken hs hb, references]
    refine ⟨hown, ?_⟩
    rintro (⟨htext, hn, hreserved, hliteral⟩ | ⟨-, hdecoded, -⟩)
    · exact hmem htext hn hreserved hliteral
    · cases hb.symm.trans hdecoded
  | case2 s hs steps hb ih =>
    have hids : (steps.map ofStep).map (·.step.id) = steps.map (·.id) := by simp [Function.comp_def]
    rw [ofStep_loop hs hb, mem_references_loop, hids]
    constructor
    · rintro (h | ⟨⟨q, hq, h⟩, houtside⟩)
      · exact hown h
      · obtain ⟨t, ht, rfl⟩ := List.mem_map.mp hq
        exact .body hs hb ht houtside ((ih t ht).mp h)
    · rintro (⟨htext, hn, hreserved, hliteral⟩ | ⟨-, hdecoded, ht, houtside, h⟩)
      · exact .inl (hmem htext hn hreserved hliteral)
      · obtain rfl := Except.ok.inj (hb.symm.trans hdecoded)
        exact .inr ⟨⟨_, List.mem_map_of_mem ht, (ih _ ht).mpr h⟩, houtside⟩
  | case3 s hs =>
    rw [ofStep_single (by simpa using hs), references]
    refine ⟨hown, ?_⟩
    rintro (⟨htext, hn, hreserved, hliteral⟩ | ⟨hloop, -⟩)
    · exact hmem htext hn hreserved hliteral
    · exact absurd hloop hs

end Plan

end Runbook
