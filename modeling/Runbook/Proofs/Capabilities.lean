import Runbook.Audit.Capability
import Runbook.Proofs.Cancellation

/-!
# What a workflow may do

The capabilities of a definition are those of the steps at all of its places. A run makes no calls but those of these steps, so every
call is covered by a capability, and a run that goes through a sequence is one of a definition that needs to loop.
-/

namespace Runbook

namespace Capability

/-- The tools that a capability is for. -/
def tools : Capability → List ToolKind
  | network => [.http]
  | readDb => [.aggregate, .query, .search, .collections]
  | writeDb => [.ingest, .insert]
  | llm => [.generate, .embed]
  | loop => []

/-- There is a capability for all tools but those that leave nothing and reach for nothing: chunking, and loops themselves. -/
theorem exists_tools {t : ToolKind} (hchunk : t ≠ .chunk) (hloop : t ≠ .loop) : ∃ k : Capability, t ∈ k.tools := by
  cases t with
  | http => exact ⟨network, by decide⟩
  | aggregate | query | search | collections => exact ⟨readDb, by decide⟩
  | ingest | insert => exact ⟨writeDb, by decide⟩
  | generate | embed => exact ⟨llm, by decide⟩
  | chunk => exact absurd rfl hchunk
  | loop => exact absurd rfl hloop

/-- There are no other capabilities. -/
theorem mem_all (k : Capability) : k ∈ all := by cases k <;> decide

/-- A step needs the capabilities that are for its tool. -/
theorem mem_ofStep_of_tool {s : Step} {t : ToolKind} {k : Capability} (ht : s.toolKind? = some t) (hk : t ∈ k.tools) :
    k ∈ ofStep s := by
  refine List.mem_append_left _ ?_
  rw [ht]
  cases k with
  | network =>
    obtain rfl := List.mem_singleton.mp hk
    exact List.mem_cons_self
  | readDb =>
    simp only [tools, List.mem_cons, List.not_mem_nil, or_false] at hk
    rcases hk with rfl | rfl | rfl | rfl
    · dsimp only
      split <;> exact List.mem_cons_self
    all_goals exact List.mem_cons_self
  | writeDb | llm =>
    simp only [tools, List.mem_cons, List.not_mem_nil, or_false] at hk
    rcases hk with rfl | rfl <;> exact List.mem_cons_self
  | loop => cases hk

/-- A step that goes through a sequence needs to loop. -/
theorem loop_mem_ofStep {s : Step} (h : s.iterates = true) : loop ∈ ofStep s := by simp [ofStep, h]

/-! ## All steps of a definition -/

/-- What plans need is what one of them needs. -/
theorem mem_ofPlans {ps : List Plan} {k : Capability} : k ∈ ofPlans ps ↔ ∃ p ∈ ps, k ∈ ofPlan p := by
  induction ps with
  | nil => simp [ofPlans]
  | cons p ps ih => rw [ofPlans, List.mem_append, ih, List.exists_mem_cons_iff]

/-- What its step needs, a plan needs. -/
theorem ofStep_subset_ofPlan {p : Plan} {k : Capability} (h : k ∈ ofStep p.step) : k ∈ ofPlan p := by
  cases p with
  | single s => exact h
  | broken s err => exact h
  | loop s body => exact List.mem_append_left _ h

/-- What the steps at all places in a plan need, the plan needs. -/
theorem ofStep_subset_of_at {path path' : List String} {p q : Plan} (hq : p.At path path' q) {k : Capability} (h : k ∈ ofStep q.step) :
    k ∈ ofPlan p := by
  induction hq with
  | here => exact ofStep_subset_ofPlan h
  | body hp _ ih => exact List.mem_append_right _ (mem_ofPlans.mpr ⟨_, hp, ih h⟩)

mutual

/-- What a plan needs is needed by the step at some place in it. -/
theorem exists_at_of_mem {k : Capability} : (p : Plan) → (path : List String) → k ∈ ofPlan p →
    ∃ path' q, p.At path path' q ∧ k ∈ ofStep q.step
  | .single _, path, h => ⟨path, _, .here, h⟩
  | .broken _ _, path, h => ⟨path, _, .here, h⟩
  | .loop s body, path, h => by
    rcases List.mem_append.mp h with h | h
    · exact ⟨path, _, .here, h⟩
    · obtain ⟨p, hp, path', q, hat, hq⟩ := exists_at_of_mem_body body path h
      exact ⟨path', q, .body hp hat, hq⟩

/-- What a body needs is needed by the step at some place in one of its plans. -/
theorem exists_at_of_mem_body {k : Capability} : (ps : List Plan) → (path : List String) → k ∈ ofPlans ps →
    ∃ p ∈ ps, ∃ path' q, p.At (path ++ [p.step.id]) path' q ∧ k ∈ ofStep q.step
  | p :: ps, path, h => by
    rcases List.mem_append.mp h with h | h
    · exact ⟨p, List.mem_cons_self, exists_at_of_mem p _ h⟩
    · obtain ⟨q, hq, hrest⟩ := exists_at_of_mem_body ps path h
      exact ⟨q, List.mem_cons_of_mem p hq, hrest⟩

end

end Capability

/-- A definition needs what the steps at its places need, and nothing else. -/
theorem Definition.mem_capabilities {d : Definition} {k : Capability} :
    k ∈ d.capabilities ↔ ∃ path p, d.PlanAt path p ∧ k ∈ Capability.ofStep p.step := by
  rw [capabilities, List.mem_filter, List.contains_iff_mem, Capability.mem_ofPlans]
  constructor
  · rintro ⟨-, q, hq, hk⟩
    obtain ⟨path, p, hat, hp⟩ := Capability.exists_at_of_mem q [q.step.id] hk
    exact ⟨path, p, ⟨q, hq, hat⟩, hp⟩
  · rintro ⟨path, p, ⟨q, hq, hat⟩, hk⟩
    exact ⟨Capability.mem_all k, q, hq, Capability.ofStep_subset_of_at hat hk⟩

/-- A step has a sequence to go through only if it iterates. -/
theorem Step.iterates_of_sequence {s : Step} {scope : Scope} {all : List Value} (h : s.sequence scope = .ok all) : s.iterates = true := by
  cases hsource : s.forEach with
  | none =>
    rw [sequence, hsource] at h
    cases h
  | some source => simp [iterates, hsource]

/-- A step without faults that has no body names a tool, but not that of loops. -/
theorem Plan.Faultless.exists_toolKind {topIds : List String} {s : Step} (h : (Plan.single s).Faultless topIds) :
    ∃ t, s.toolKind? = some t ∧ s.tool = t.name ∧ t ≠ .loop := by
  cases h with
  | single own hsingle =>
    obtain ⟨t, ht⟩ := Option.isSome_iff_exists.mp own.tool
    have hname : t.name = s.tool := by simpa using List.find?_some ht
    refine ⟨t, ht, hname.symm, ?_⟩
    rintro rfl
    simp [Step.isLoop, ht] at hsingle

namespace Workflow

open Machine

/-- What a run does is covered by the capabilities of its definition. However a run is driven, whatever its calls come back with and
whenever it is cancelled: every call, of a step at any depth, is one of a tool that the definition has a capability for, or it
only chunks. If a step goes through a sequence, at run time or only as it is written, then the definition has the capability to loop. -/
theorem calls_within_capabilities {d : Definition} {w : Workflow} (hd : ofDefinition d = .ok w) (e : Engine) (inputs : Fields)
    (now : Nat) {m : Machine} (hrun : Run w e .any (start w inputs now) m) :
    (∀ c, Trace.called c ∈ m.trace →
      (∀ k : Capability, ∀ t ∈ k.tools, c.tool = t.name → k ∈ d.capabilities) ∧
      (c.tool = ToolKind.chunk.name ∨ ∃ k ∈ d.capabilities, ∃ t ∈ k.tools, c.tool = t.name)) ∧
    (∀ path summary, Trace.noted (.iterated path summary) ∈ m.trace → .loop ∈ d.capabilities) ∧
    ∀ path p, d.PlanAt path p → p.step.iterates = true → .loop ∈ d.capabilities := by
  obtain ⟨rfl, hw⟩ := valid_of_definition hd
  have hloop : ∀ path p, w.definition.PlanAt path p → p.step.iterates = true → .loop ∈ w.definition.capabilities := by
    intro path p hp hiterates
    exact Definition.mem_capabilities.mpr ⟨path, p, hp, Capability.loop_mem_ofStep hiterates⟩
  refine ⟨?_, ?_, hloop⟩
  · intro c hc
    obtain ⟨s, hs, htool, -⟩ := (hrun.sound hw (start_sound hw e inputs now)).conforms.call_at_place hc
    obtain ⟨t, ht, hname, hnoloop⟩ := (hs.faultless hw.faultless).exists_toolKind
    have hcovered {k : Capability} (hk : t ∈ k.tools) : k ∈ w.definition.capabilities :=
      Definition.mem_capabilities.mpr ⟨c.path, _, hs, Capability.mem_ofStep_of_tool ht hk⟩
    refine ⟨?_, ?_⟩
    · intro k t' hk htool'
      have ht' : some t' = some t := by rw [← ht, Step.toolKind?, ← htool, htool', ToolKind.ofName?_name]
      exact hcovered (Option.some.inj ht' ▸ hk)
    · by_cases hchunk : t = .chunk
      · exact Or.inl (hchunk ▸ htool.trans hname)
      · obtain ⟨k, hk⟩ := Capability.exists_tools hchunk hnoloop
        exact Or.inr ⟨k, hcovered hk, t, hk, htool.trans hname⟩
  · intro path summary hnoted
    obtain ⟨p, hp, scope, all, hall, -⟩ := (hrun.turns_and_gaps hw).1.notes _ hnoted path summary rfl
    exact hloop path p hp (Step.iterates_of_sequence hall)

/-- The loop of a small workflow has called its tool for the one item and is done. -/
theorem calls_within_capabilities_of_sample : ∃ (w : Workflow) (m : Machine) (c : Call) (summary : Summary),
    ofDefinition .sample = .ok w ∧ Run w ⟨.default, fun _ => true⟩ .any (start w [] 0) m ∧
    Trace.called c ∈ m.trace ∧ c.path = ["each", "fetch"] ∧ c.tool = "http" ∧ Capability.network ∈ Definition.sample.capabilities ∧
    Trace.noted (.iterated ["each"] summary) ∈ m.trace ∧ Capability.loop ∈ Definition.sample.capabilities := by
  let e : Engine := ⟨.default, fun _ => true⟩
  let moves : List Move := [.dispatch, .dispatch, .ask "list", .begin "list" none, .ask "apart", .begin "apart" none,
    .reply ⟨"list", none⟩ (.answer (.value (.arr [.null]))) none, .hear, .hear, .hear, .join 0, .dispatch, .ask "each",
    .begin "each" none, .reply ⟨"each", none⟩ (.answer (.value .null)) none]
  let last (w : Workflow) : Machine := moves.foldl (fun m mv => (m.move w e 0 mv).1) (start w [] 0)
  let told : Trace → Option (List String)
    | .noted (.iterated path _) => some path
    | _ => none
  have hend : ((ofDefinition .sample).toOption.map fun w =>
      ((last w).calls.map fun c => (c.path, c.tool), (last w).trace.filterMap told)) =
      some ([(["list"], "http"), (["apart"], "http"), (["each", "fetch"], "http")], [["each"]]) := by decide +kernel
  obtain ⟨w, hd, hend⟩ := exists_of_map_toOption hend
  obtain ⟨hcalls, htold⟩ := Prod.mk.inj hend
  have hrun := Machine.run_foldl w e 0 moves (start w [] 0)
  have hfetch : (["each", "fetch"], "http") ∈ (last w).calls.map fun c => (c.path, c.tool) := by simp [hcalls]
  obtain ⟨c, hc, hcall⟩ := List.mem_map.mp hfetch
  obtain ⟨hpath, htool⟩ := Prod.mk.inj hcall
  have hmem := mem_calls.mp hc
  obtain ⟨x, hx, htold⟩ := List.mem_filterMap.mp (htold ▸ List.mem_singleton_self ["each"])
  obtain ⟨summary, rfl⟩ : ∃ summary, x = .noted (.iterated ["each"] summary) := by
    unfold told at htold
    split at htold
    · exact ⟨_, by rw [Option.some.inj htold]⟩
    · cases htold
  obtain ⟨hcovered, hlooped, -⟩ := calls_within_capabilities hd e [] 0 hrun
  exact ⟨w, last w, c, summary, hd, hrun, hmem, hpath, htool, (hcovered c hmem).1 .network .http List.mem_cons_self htool, hx,
    hlooped _ _ hx⟩

end Workflow

end Runbook
