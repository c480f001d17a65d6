import Runbook.Proofs.Auditing
import Runbook.Proofs.Capabilities
import Runbook.Proofs.Shapes

/-!
# Steps that write

The audit and the capabilities go through the steps at all places of a definition, each for itself. An aggregation writes by a stage
that may stand anywhere in its inputs: the audit finds it wherever an object has its key, and what the audit finds of aggregations is
what makes them need to write.
-/

namespace Runbook

namespace Value

/-! ## Stages that write -/

/-- An object somewhere in the value has the key. -/
def HoldsKey (v : Value) (key : String) : Prop := ∃ path fields, Part v path (.obj fields) ∧ key ∈ Keyed.keys fields

mutual

/-- The objects in a value, each before those inside of it. -/
def objects : Value → List (List (String × Value))
  | .arr items => objectsOfItems items
  | .obj fields => fields :: objectsOfFields fields
  | .null | .bool _ | .num _ | .str _ => []

def objectsOfItems : List Value → List (List (String × Value))
  | [] => []
  | v :: vs => objects v ++ objectsOfItems vs

def objectsOfFields : List (String × Value) → List (List (String × Value))
  | [] => []
  | (_, v) :: fs => objects v ++ objectsOfFields fs

end

mutual

/-- The objects of a value are those among its parts. -/
theorem mem_objects {inner : List (String × Value)} : (v : Value) → (inner ∈ v.objects ↔ ∃ path, Part v path (.obj inner))
  | .null | .bool _ | .num _ | .str _ => by
    refine iff_of_false (by simp [objects]) ?_
    rintro ⟨path, hpart⟩
    cases hpart
  | .arr items => by
    rw [objects, mem_objectsOfItems items]
    constructor
    · rintro ⟨v, hv, path, hpart⟩
      obtain ⟨i, hi⟩ := List.mem_iff_getElem?.mp hv
      exact ⟨_, .item hi hpart⟩
    · rintro ⟨path, hpart⟩
      cases hpart with
      | item hv h => exact ⟨_, List.mem_of_getElem? hv, _, h⟩
  | .obj fields => by
    rw [objects, List.mem_cons, mem_objectsOfFields fields]
    constructor
    · rintro (rfl | ⟨f, hf, path, hpart⟩)
      · exact ⟨[], .whole⟩
      · exact ⟨_, .field hf hpart⟩
    · rintro ⟨path, hpart⟩
      cases hpart with
      | whole => exact Or.inl rfl
      | field hv h => exact Or.inr ⟨_, hv, _, h⟩

/-- The objects of items are those among the parts of one of them. -/
theorem mem_objectsOfItems {inner : List (String × Value)} :
    (items : List Value) → (inner ∈ objectsOfItems items ↔ ∃ v ∈ items, ∃ path, Part v path (.obj inner))
  | [] => by simp [objectsOfItems]
  | v :: vs => by rw [objectsOfItems, List.mem_append, mem_objects v, mem_objectsOfItems vs, List.exists_mem_cons_iff]

/-- The objects of fields are those among the parts of one of them. -/
theorem mem_objectsOfFields {inner : List (String × Value)} :
    (fields : List (String × Value)) → (inner ∈ objectsOfFields fields ↔ ∃ f ∈ fields, ∃ path, Part f.2 path (.obj inner))
  | [] => by simp [objectsOfFields]
  | (_, v) :: fs => by rw [objectsOfFields, List.mem_append, mem_objects v, mem_objectsOfFields fs, List.exists_mem_cons_iff]

end

/-- The stage that an object has the key of. -/
def stageOf? (fields : List (String × Value)) : Option String :=
  writeStages.find? fun stage => (Keyed.keys fields).contains stage

mutual

/-- The search for a stage goes through the objects in a value. -/
theorem writeStage?_eq : (v : Value) → v.writeStage? = v.objects.findSome? stageOf?
  | .null | .bool _ | .num _ | .str _ => by simp [writeStage?, objects]
  | .arr items => by rw [writeStage?, objects, writeStageOfItems?_eq items]
  | .obj fields => by
    rw [writeStage?, objects, List.findSome?_cons, writeStageOfFields?_eq fields, ← stageOf?]
    cases stageOf? fields <;> rfl

/-- The write stage of items is that of the first of their objects that has one. -/
theorem writeStageOfItems?_eq : (items : List Value) → writeStageOfItems? items = (objectsOfItems items).findSome? stageOf?
  | [] => rfl
  | v :: vs => by
    rw [writeStageOfItems?, objectsOfItems, List.findSome?_append, writeStage?_eq v, writeStageOfItems?_eq vs]

/-- The write stage of fields is that of the first of their objects that has one. -/
theorem writeStageOfFields?_eq :
    (fields : List (String × Value)) → writeStageOfFields? fields = (objectsOfFields fields).findSome? stageOf?
  | [] => rfl
  | (_, v) :: fs => by
    rw [writeStageOfFields?, objectsOfFields, List.findSome?_append, writeStage?_eq v, writeStageOfFields?_eq fs]

end

/-- A stage is found exactly if some object in the value, however deep, has its key. -/
theorem isSome_writeStage? {v : Value} : v.writeStage?.isSome = true ↔ ∃ stage ∈ writeStages, v.HoldsKey stage := by
  simp only [writeStage?_eq, List.findSome?_isSome_iff, stageOf?, List.find?_isSome, List.contains_iff_mem, mem_objects, HoldsKey]
  constructor
  · rintro ⟨fields, ⟨path, hpart⟩, stage, hstage, hkey⟩
    exact ⟨stage, hstage, path, fields, hpart, hkey⟩
  · rintro ⟨stage, hstage, path, fields, hpart, hkey⟩
    exact ⟨fields, ⟨path, hpart⟩, stage, hstage, hkey⟩

/-- The stage that is found is one of those that write, and is there. -/
theorem writeStage?_eq_some {v : Value} {stage : String} (h : v.writeStage? = some stage) : stage ∈ writeStages ∧ v.HoldsKey stage := by
  rw [writeStage?_eq] at h
  obtain ⟨fields, hfields, hstage⟩ := List.exists_of_findSome?_eq_some h
  obtain ⟨path, hpart⟩ := (mem_objects v).mp hfields
  exact ⟨List.mem_of_find?_eq_some hstage, path, fields, hpart, by simpa using List.find?_some hstage⟩

end Value

/-! ## Steps at places -/

/-- The step at a place: the one whose own place it is, or, if that is a loop, one at a place in the body that it is decoded to. -/
inductive Step.At : List String → Step → List String → Step → Prop
  | here {path : List String} {s : Step} : At path s path s
  | body {path path' : List String} {s t u : Step} {steps : List Step} (loop : s.isLoop = true) (decoded : s.body = .ok steps)
      (ht : t ∈ steps) (h : At (path ++ [t.id]) t path' u) : At path s path' u

/-- The step at a place of a definition. -/
def Definition.StepAt (d : Definition) (path : List String) (s : Step) : Prop := ∃ t ∈ d.steps, t.At [t.id] path s

mutual

/-- The steps of a plan with their places, each before those of its body. -/
def Plan.places (path : List String) : Plan → List (List String × Step)
  | .single s => [(path, s)]
  | .broken s _ => [(path, s)]
  | .loop s body => (path, s) :: Plan.placesOfBody path body

def Plan.placesOfBody (path : List String) : List Plan → List (List String × Step)
  | [] => []
  | p :: ps => p.places (path ++ [p.step.id]) ++ Plan.placesOfBody path ps

end

/-- All steps of a definition with their places, in authoring order. -/
def Definition.places (d : Definition) : List (List String × Step) := d.plans.flatMap fun p => p.places [p.step.id]

namespace Plan

mutual

/-- The places of a plan are those of its own step and of the steps in its body. -/
theorem mem_places {path' : List String} {s : Step} :
    (p : Plan) → (path : List String) → ((path', s) ∈ p.places path ↔ ∃ q, p.At path path' q ∧ q.step = s)
  | .single t, path | .broken t _, path => by
    rw [places, List.mem_singleton, Prod.mk.injEq]
    constructor
    · rintro ⟨rfl, rfl⟩
      exact ⟨_, .here, rfl⟩
    · rintro ⟨q, hq, rfl⟩
      cases hq
      exact ⟨rfl, rfl⟩
  | .loop t body, path => by
    rw [places, List.mem_cons, Prod.mk.injEq, mem_placesOfBody body path]
    constructor
    · rintro (⟨rfl, rfl⟩ | ⟨p, hp, q, hq, rfl⟩)
      · exact ⟨_, .here, rfl⟩
      · exact ⟨q, .body hp hq, rfl⟩
    · rintro ⟨q, hq, rfl⟩
      cases hq with
      | here => exact Or.inl ⟨rfl, rfl⟩
      | body hp hq => exact Or.inr ⟨_, hp, q, hq, rfl⟩

/-- The places of a body are those of its plans. -/
theorem mem_placesOfBody {path' : List String} {s : Step} : (ps : List Plan) → (path : List String) →
    ((path', s) ∈ placesOfBody path ps ↔ ∃ p ∈ ps, ∃ q, p.At (path ++ [p.step.id]) path' q ∧ q.step = s)
  | [], path => by simp [placesOfBody]
  | p :: ps, path => by
    rw [placesOfBody, List.mem_append, mem_places p, mem_placesOfBody ps path, List.exists_mem_cons_iff]

end

/-- The places in the plan of a step are those in the step. -/
theorem at_ofStep {path path' : List String} {s t : Step} : (∃ q, (ofStep s).At path path' q ∧ q.step = t) ↔ s.At path path' t := by
  constructor
  · rintro ⟨q, hq, rfl⟩
    generalize hp : ofStep s = p at hq
    induction hq generalizing s with
    | here =>
      rw [← hp, step_ofStep]
      exact .here
    | body hmem _ ih =>
      cases hloop : s.isLoop with
      | false => simp [ofStep_single hloop] at hp
      | true =>
        cases hbody : s.body with
        | error err => simp [ofStep_broken hloop hbody] at hp
        | ok steps =>
          obtain ⟨rfl, rfl⟩ := Plan.loop.inj ((ofStep_loop hloop hbody).symm.trans hp)
          obtain ⟨u, hu, rfl⟩ := List.mem_map.mp hmem
          have hinner := ih rfl
          rw [step_ofStep] at hinner
          exact .body hloop hbody hu hinner
  · intro h
    induction h with
    | here => exact ⟨_, .here, step_ofStep _⟩
    | @body path path' s u t steps hloop hbody hu _ ih =>
      obtain ⟨q, hq, hstep⟩ := ih
      rw [ofStep_loop hloop hbody]
      exact ⟨q, .body (List.mem_map_of_mem hu) (by rwa [step_ofStep]), hstep⟩

end Plan

namespace Definition

variable {d : Definition} {path : List String} {s : Step}

/-- Where there is the plan of a step, there is the step. -/
theorem planAt_iff_stepAt : (∃ p, d.PlanAt path p ∧ p.step = s) ↔ d.StepAt path s := by
  constructor
  · rintro ⟨p, ⟨q, hq, hat⟩, hp⟩
    obtain ⟨t, ht, rfl⟩ := List.mem_map.mp hq
    rw [Plan.step_ofStep] at hat
    exact ⟨t, ht, Plan.at_ofStep.mp ⟨p, hat, hp⟩⟩
  · rintro ⟨t, ht, hat⟩
    obtain ⟨p, hp, hstep⟩ := Plan.at_ofStep.mpr hat
    exact ⟨p, ⟨Plan.ofStep t, List.mem_map_of_mem ht, by rwa [Plan.step_ofStep]⟩, hstep⟩

/-- The places of a definition are those of its steps. -/
theorem mem_places : (path, s) ∈ d.places ↔ d.StepAt path s := by
  rw [← planAt_iff_stepAt, places, List.mem_flatMap]
  simp only [Plan.mem_places]
  exact ⟨fun ⟨q, hq, p, hp, hstep⟩ => ⟨p, ⟨q, hq, hp⟩, hstep⟩, fun ⟨p, ⟨q, hq, hp⟩, hstep⟩ => ⟨q, hq, p, hp, hstep⟩⟩

end Definition

/-! ## What is found of them -/

/-- Says that an aggregation has a stage that writes. -/
def Finding.IsWriteStage (f : Finding) : Prop :=
  f.severity = .critical ∧ ∃ stage ∈ writeStages, f.message = s!"pipeline contains a '{stage}' write stage"

/-- Says that an aggregation is allowed to write. -/
def Finding.IsWritePermission (f : Finding) : Prop :=
  f.severity = .high ∧ f.message = "aggregation is allowed to write (allowWrites)"

namespace Audit

/-- What is found of a generation is not critical. -/
theorem not_critical_of_mem_generate {s : Step} {message : String} : (Severity.critical, message) ∉ generate s := by
  intro h
  obtain ⟨field, -, h⟩ := List.mem_flatMap.mp h
  split at h
  · cases h
  · rcases List.mem_append.mp h with h | h <;> split at h <;> simp at h

/-- What is found of an ingestion is not critical. -/
theorem not_critical_of_mem_ingest {s : Step} {message : String} : (Severity.critical, message) ∉ ingest s := by
  intro h
  obtain ⟨field, -, h⟩ := List.mem_flatMap.mp h
  split at h <;> simp at h

/-- What is critical of an aggregation is its write stage. -/
theorem critical_mem_aggregate {s : Step} {message : String} :
    (Severity.critical, message) ∈ aggregate s ↔
      ∃ stage, s.inputs.writeStage? = some stage ∧ message = s!"pipeline contains a '{stage}' write stage" := by
  unfold aggregate
  cases s.inputs.writeStage? <;> cases s.allowWrites <;> simp

variable [Url.Reader] {policy : AuditPolicy}

mutual

/-- The findings on a plan are those on its steps, one after the other. -/
theorem plan_eq_flatMap : (p : Plan) → (path : List String) → path ≠ [] →
    plan policy (labelOf path) p = (p.places path).flatMap fun place => step policy (labelOf place.1) place.2
  | .single s, path, _ | .broken s _, path, _ => by simp [plan, Plan.places]
  | .loop s body, path, hpath => by rw [plan, Plan.places, List.flatMap_cons, bodyFindings_eq_flatMap body path hpath]

/-- The findings on a body are those on the steps at its places. -/
theorem bodyFindings_eq_flatMap : (ps : List Plan) → (path : List String) → path ≠ [] →
    bodyFindings policy (labelOf path) ps = (Plan.placesOfBody path ps).flatMap fun place => step policy (labelOf place.1) place.2
  | [], path, _ => rfl
  | p :: ps, path, hpath => by
    rw [bodyFindings, Plan.placesOfBody, List.flatMap_append, ← labelOf_concat hpath, plan_eq_flatMap p _ (by simp),
      bodyFindings_eq_flatMap ps path hpath]

end

/-- The report on a definition has the findings on the steps at all of its places, one step after the other. -/
theorem audit_eq_flatMap (d : Definition) :
    (policy.audit d).findings = d.places.flatMap fun place => step policy (labelOf place.1) place.2 := by
  rw [AuditPolicy.audit, Definition.places, List.flatMap_assoc]
  exact List.flatMap_congr fun p _ => plan_eq_flatMap p [p.step.id] (by simp)

/-- A finding on a step is one of the rule for its tool, or one on its iterations, which is of medium severity. -/
theorem of_mem_step {label : String} {s : Step} {f : Finding} (h : f ∈ step policy label s) (hsevere : f.severity ≠ .medium) :
    match s.toolKind? with
    | some .http => (f.severity, f.message) ∈ http policy s
    | some .aggregate => (f.severity, f.message) ∈ aggregate s
    | some .generate => (f.severity, f.message) ∈ generate s
    | some .ingest => (f.severity, f.message) ∈ ingest s
    | _ => False := by
  obtain ⟨⟨severity, message⟩, hmem, rfl⟩ := List.mem_map.mp h
  rcases List.mem_append.mp hmem with hmem | hmem
  · dsimp only at hmem ⊢
    split at hmem
    case h_5 => cases hmem
    all_goals simp only [*]
  · refine absurd ?_ hsevere
    split at hmem
    · unfold iteration at hmem
      split at hmem
      · exact (Prod.mk.inj (List.mem_singleton.mp hmem)).1
      · split at hmem
        · exact (Prod.mk.inj (List.mem_singleton.mp hmem)).1
        · cases hmem
    · cases hmem

/-- What is critical about an address is the host. -/
theorem critical_of_mem_http {s : Step} {message : String} (h : (Severity.critical, message) ∈ http policy s) :
    ∃ host : String, message = s!"request to disallowed host '{host}'" := by
  unfold http at h
  split at h
  · unfold requestFindings at h
    split at h
    · simp at h
    · split at h
      · simp at h
      · rcases List.mem_append.mp h with h | h
        · split at h
          · split at h
            · exact ⟨_, (Prod.mk.inj (List.mem_singleton.mp h)).2⟩
            · cases h
          · cases h
        · split at h <;> simp at h
  · cases h

/-- What is found of an aggregation is found of the step. -/
theorem mem_step_of_aggregate {label : String} {s : Step} (ht : s.toolKind? = some .aggregate) {severity : Severity} {message : String}
    (h : (severity, message) ∈ aggregate s) : (⟨severity, message, some label⟩ : Finding) ∈ step policy label s := by
  simp only [step, ht]
  exact List.mem_map_of_mem (f := fun (x : Severity × String) => (⟨x.1, x.2, some label⟩ : Finding)) (List.mem_append_left _ h)

/-- A step has a finding that it has a stage that writes exactly if it is an aggregation and some object in its inputs has the key of
such a stage; whether it is allowed to write does not matter. -/
theorem exists_isWriteStage_iff {label : String} {s : Step} :
    (∃ f ∈ step policy label s, f.IsWriteStage) ↔
      s.toolKind? = some .aggregate ∧ ∃ stage ∈ writeStages, s.inputs.HoldsKey stage := by
  rw [← Value.isSome_writeStage?]
  constructor
  · rintro ⟨⟨severity, message, name⟩, hf, rfl, stage, -, rfl⟩
    have htool := of_mem_step hf (by simp)
    split at htool
    · obtain ⟨host, hmessage⟩ := critical_of_mem_http htool
      have hfirst := congrArg (fun text : String => text.toList.head?) hmessage
      simp [toString] at hfirst
    · rename_i ht
      obtain ⟨stage, hstage, -⟩ := critical_mem_aggregate.mp htool
      exact ⟨ht, by rw [hstage]; rfl⟩
    · exact absurd htool not_critical_of_mem_generate
    · exact absurd htool not_critical_of_mem_ingest
    · exact htool.elim
  · rintro ⟨ht, hsome⟩
    obtain ⟨stage, hstage⟩ := Option.isSome_iff_exists.mp hsome
    exact ⟨_, mem_step_of_aggregate ht (critical_mem_aggregate.mpr ⟨stage, hstage, rfl⟩), rfl, stage,
      (Value.writeStage?_eq_some hstage).1, rfl⟩

/-- An aggregation has a finding that it is allowed to write exactly if it is. -/
theorem exists_isWritePermission_iff {label : String} {s : Step} (ht : s.toolKind? = some .aggregate) :
    (∃ f ∈ step policy label s, f.IsWritePermission) ↔ s.allowWrites = true := by
  constructor
  · rintro ⟨⟨severity, message, name⟩, hf, rfl, rfl⟩
    have htool := of_mem_step hf (by simp)
    rw [ht] at htool
    unfold aggregate at htool
    cases hallowed : s.allowWrites with
    | true => rfl
    | false =>
      cases hstage : s.inputs.writeStage? <;> simp [hallowed, hstage] at htool
  · intro hallowed
    refine ⟨_, mem_step_of_aggregate ht (List.mem_append_left _ ?_), rfl, rfl⟩
    rw [hallowed]
    exact List.mem_singleton_self _

end Audit

namespace Capability

/-- A step needs to write if it ingests or inserts, or if it aggregates and is allowed to write or has a stage that does. -/
theorem writeDb_mem_ofStep {s : Step} :
    writeDb ∈ ofStep s ↔ s.toolKind? = some .ingest ∨ s.toolKind? = some .insert ∨
      s.toolKind? = some .aggregate ∧ (s.allowWrites = true ∨ s.inputs.writeStage?.isSome = true) := by
  have hloop : writeDb ∉ (if s.iterates then [loop] else []) := by split <;> simp
  unfold ofStep
  rw [List.mem_append, or_iff_left hloop]
  cases s.toolKind? with
  | none => simp
  | some t =>
    cases t with
    | aggregate =>
      cases s.allowWrites <;> cases s.inputs.writeStage? <;> simp
    | _ => simp

end Capability

/-- The audit and the capabilities agree about what writes. The report on a definition, valid or not, consists of the findings on the
steps at all of its places, one step after the other. A step has the critical finding about a stage that writes exactly if it
aggregates and an object somewhere in its inputs has the key `$out` or `$merge`, whether or not it is allowed to write. And the definition
needs to write exactly if some step ingests or inserts, or aggregates and has a finding about a stage that writes or about the
permission. -/
theorem AuditPolicy.writes_agree [Url.Reader] (policy : AuditPolicy) (d : Definition) :
    ((policy.audit d).findings = d.places.flatMap fun place => Audit.step policy (Audit.labelOf place.1) place.2) ∧
    (∀ path s, (path, s) ∈ d.places ↔ d.StepAt path s) ∧
    (∀ path s, (∃ f ∈ Audit.step policy (Audit.labelOf path) s, f.IsWriteStage) ↔
      s.toolKind? = some .aggregate ∧ (s.inputs.HoldsKey "$out" ∨ s.inputs.HoldsKey "$merge")) ∧
    (.writeDb ∈ d.capabilities ↔ ∃ path s, d.StepAt path s ∧ (s.toolKind? = some .ingest ∨ s.toolKind? = some .insert ∨
      s.toolKind? = some .aggregate ∧ ∃ f ∈ Audit.step policy (Audit.labelOf path) s, f.IsWriteStage ∨ f.IsWritePermission)) := by
  have hstages (v : Value) : (∃ stage ∈ writeStages, v.HoldsKey stage) ↔ v.HoldsKey "$out" ∨ v.HoldsKey "$merge" := by
    simp [writeStages]
  refine ⟨Audit.audit_eq_flatMap d, fun path s => Definition.mem_places,
    fun path s => Audit.exists_isWriteStage_iff.trans (and_congr_right fun _ => hstages s.inputs), ?_⟩
  rw [Definition.mem_capabilities]
  have hwrites (path : List String) (s : Step) : .writeDb ∈ Capability.ofStep s ↔
      s.toolKind? = some .ingest ∨ s.toolKind? = some .insert ∨
        s.toolKind? = some .aggregate ∧ ∃ f ∈ Audit.step policy (Audit.labelOf path) s, f.IsWriteStage ∨ f.IsWritePermission := by
    rw [Capability.writeDb_mem_ofStep]
    refine or_congr_right (or_congr_right (and_congr_right fun ht => ?_))
    simp only [and_or_left, exists_or]
    rw [Audit.exists_isWritePermission_iff ht, Audit.exists_isWriteStage_iff, ← Value.isSome_writeStage?, and_iff_right ht, or_comm]
  simp only [← Definition.planAt_iff_stepAt, ← hwrites]
  constructor
  · rintro ⟨path, p, hp, hneeds⟩
    exact ⟨path, p.step, ⟨p, hp, rfl⟩, hneeds⟩
  · rintro ⟨path, s, ⟨p, hp, rfl⟩, hneeds⟩
    exact ⟨path, p, hp, hneeds⟩

end Runbook
