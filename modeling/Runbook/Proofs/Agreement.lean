import Runbook.Proofs.Closing
import Runbook.Proofs.Places

/-!
# What dependents see and what the result shows

The record of a step is written once, by its end, and nothing else writes it. From then on it is found under the id of the step,
wherever in the run a name is looked up: what an iteration calls by names of its own hides no step. When the run is over, the result
shows the same of the step, and of a step that was never dispatched it shows what its missing record says: nothing.
-/

namespace Runbook

/-- The record of a step, as other steps see it, from what is known of it. -/
def StepRun.record (r : StepRun) : Value :=
  .obj ((r.error.map fun message => ("error", .str message)).toList ++ (r.output.map fun output => ("output", output)).toList
    ++ [("status", .str r.status.name)])

/-- A run that shows an outcome has the record that the outcome leaves. -/
theorem StepRun.Shows.record_eq {r : StepRun} {o : Outcome StepError} (h : r.Shows o) : r.record = o.entry := by
  rw [StepRun.record, h.status, h.output, h.error]
  cases o <;> rfl

/-! ## Where names are looked up -/

/-- The ids of steps in bodies, at every depth. -/
def Definition.BodyId (d : Definition) (id : String) : Prop := ∃ path p, d.PlanAt (path ++ [id]) p ∧ path ≠ []

/-- A place in a plan is the place of the plan itself, or it ends with an id that no step of the definition has. -/
theorem Plan.At.bodyId_apart {topIds : List String} {path path' : List String} {p q : Plan} (hp : p.Faultless topIds)
    (h : At path p path' q) : path' = path ∨ ∃ around id, path' = around ++ [id] ∧ id ∉ topIds := by
  induction h with
  | here => exact Or.inl rfl
  | @body path path' s body p q hmem _ ih =>
    cases hp with
    | loop _ _ _ _ ids steps =>
      rcases ih (steps _ hmem) with rfl | hdeeper
      · exact Or.inr ⟨path, p.step.id, rfl, ids.apart _ (List.mem_map_of_mem hmem)⟩
      · exact Or.inr hdeeper

/-- The steps of bodies have other ids than those outside of loops. -/
theorem Definition.BodyId.apart {d : Definition} (hd : d.Faultless) {id : String} (h : d.BodyId id) : id ∉ d.ids := by
  obtain ⟨path, p, ⟨q, hq, hat⟩, hne⟩ := h
  rcases hat.bodyId_apart (hd.plans q hq) with heq | ⟨around, id', heq, hid⟩
  · obtain ⟨hnil, -⟩ := List.append_inj' (show path ++ [id] = [] ++ [q.step.id] from heq) rfl
    exact absurd hnil hne
  · obtain ⟨-, heq⟩ := List.append_inj' heq rfl
    obtain rfl := List.singleton_inj.mp heq
    exact hid

namespace Machine

/-- The scopes in which the names of a run are looked up: that of its context, and those of iterations over them, in which the records
of steps of bodies are found beside the item and its index. -/
inductive Sees (w : Workflow) (m : Machine) : Scope → Prop
  | context : Sees w m m.context.scope
  | iteration {outer : Scope} (h : Sees w m outer) (item : Value) (index : Nat) (locals : Fields)
      (body : ∀ id ∈ Keyed.keys locals, w.definition.BodyId id) : Sees w m (iterationScope item index locals outer)

variable {w : Workflow} {e : Engine} {may : Policy} {inputs : Fields} {m m' : Machine}

/-- Wherever a step is looked up, its record in the context is found. -/
theorem Sees.lookup (hw : w.Valid) {scope : Scope} (h : Sees w m scope) {id : String} (hid : id ∈ w.graph.steps) :
    scope id = m.context.entry? id := by
  have hnames : id ∉ ["inputs", "defaults", "item", "index"] := (hw.not_reserved hid).1
  simp only [List.mem_cons, List.not_mem_nil, or_false, not_or] at hnames
  obtain ⟨hinputs, hdefaults, hitem, hindex⟩ := hnames
  induction h with
  | context => simp only [Context.scope, Context.lookup, if_neg hinputs, if_neg hdefaults]
  | @iteration outer _ item index locals body ih =>
    have hlocal : Keyed.get? locals id = none := by
      by_contra hsome
      have hkey := Keyed.get?_isSome.mp (Option.isSome_iff_ne_none.mpr hsome)
      exact (body id hkey).apart hw.faultless (hw.steps_eq ▸ hid)
    simp only [iterationScope, Scope.iteration, if_neg hitem, if_neg hindex, hlocal, Option.none_or]
    exact ih

/-! ## What is written -/

/-- What a move does to the records: nothing, or one step ends and its record, which is none yet, is written. -/
inductive Writes (m m' : Machine) : Prop
  | nothing (ended : m'.ended = m.ended) (context : m'.context = m.context)
  | record {id : String} {o : Outcome StepError} (ended : m'.ended = m.ended ++ [(id, o)])
      (written : m.context.record id o.entry = .ok m'.context)

/-- The record of a step that has not ended can be written. -/
theorem Recorded.record_close (h : m.Recorded w inputs) {id : String} (hid : id ∈ w.graph.steps) (hnew : id ∉ m.endedIds)
    (entry : Value) : m.context.record id entry = .ok (m.context.close id entry) := by
  have hempty : Keyed.get? m.context.slots id = some none := by
    rw [h.slots, if_pos hid, outcome?_eq_none.mpr hnew, Option.map_none]
  simp only [Context.close, Context.record, hempty]

/-- A step that advances writes its own record at most, and writes it when it ends. -/
theorem writes_advance (hs : m.Scheduled w) (hr : m.Recorded w inputs) {t : Task} (ht : t ∈ m.tasks) (token : CancelToken)
    (p : Proc (Outcome StepError)) : Writes m (m.advance token t.id p).1 := by
  rcases advance_cases token t.id p m with ⟨o, -, heq⟩ | ⟨-, heq⟩ | ⟨-, -, heq⟩ <;> rw [heq]
  · refine Writes.record (by rw [ended_finish, ended_log]) ?_
    exact hr.record_close (hs.step_of_dispatched (hs.dispatched_of_task ht)) (hs.not_ended_of_task ht) o.entry
  · exact .nothing (by rw [ended_die, ended_log]) rfl
  · exact .nothing (ended_log m token _) rfl

/-- What is written when a step goes on is written whether or not this is its turn. -/
theorem Writes.of_eq {n m' : Machine} (h : Writes n m') (hended : n.ended = m.ended) (hcontext : n.context = m.context) : Writes m m' := by
  cases h with
  | nothing ended context => exact .nothing (ended.trans hended) (context.trans hcontext)
  | record ended written => exact .record (hended ▸ ended) (hcontext ▸ written)

/-- Every end writes a record, and nothing else does. -/
theorem Sound.writes (h : m.Sound w e inputs) (now : Nat) (mv : Move) : Writes m (m.move w e now mv).1 := by
  have heffect := move_effect w e now mv m
  generalize m.move w e now mv = r at heffect
  cases heffect with
  | idle => exact .nothing rfl rfl
  | dispatched => exact .nothing ended_dispatching rfl
  | passed => exact .nothing rfl rfl
  | dropped => exact .nothing rfl rfl
  | listened => exact .nothing rfl rfl
  | heard =>
    obtain ⟨hcontext, -, htrace, -⟩ := hear_untouched w now m
    exact .nothing (congrArg (List.filterMap Trace.ended?) htrace) hcontext
  | @joined index =>
    obtain ⟨hcontext, -, htrace, -⟩ := join_untouched w now index m
    exact .nothing (congrArg (List.filterMap Trace.ended?) htrace) hcontext
  | asked => exact .nothing (ended_asking ..) rfl
  | cancelled => exact .nothing rfl rfl
  | @refused t cut mem =>
    have htaking : (m.taking t.id).Recorded w inputs := h.recorded.of_eq rfl rfl
    exact (writes_advance (taking_scheduled h.scheduled t.id) htaking mem _ _).of_eq rfl rfl
  | @began t cut mem =>
    have hended := ended_decided m t (t.plan.step.admits m.context.scope)
    have hdecided : (m.decided t (t.plan.step.admits m.context.scope)).Recorded w inputs := h.recorded.of_eq rfl hended
    exact (writes_advance (decided_scheduled h.scheduled mem _) hdecided mem _ _).of_eq hended rfl
  | replied r mem => exact writes_advance h.scheduled h.recorded mem _ _

/-- The record of a step that has ended is its own. -/
theorem Sound.entry_of_ended (h : m.Sound w e inputs) {id : String} {o : Outcome StepError} (ho : (id, o) ∈ m.ended) :
    m.context.entry? id = some o.entry := by
  have hmem : id ∈ m.endedIds := List.mem_map_of_mem (f := (·.1)) ho
  have hid := h.scheduled.step_of_dispatched (h.scheduled.dispatched_of_ended hmem)
  rw [Context.Holds.entry_eq h.recorded hid]
  cases houtcome : m.outcome? id with
  | none => exact absurd hmem (outcome?_eq_none.mp houtcome)
  | some o' =>
    obtain rfl : o' = o :=
      congrArg Prod.snd (List.inj_on_of_nodup_map h.scheduled.nodup_ended (mem_ended_of_outcome? houtcome) ho rfl)
    rfl

end Machine

namespace Workflow

open Machine

/-- However a run of a valid workflow is driven and whenever it is cancelled: every end of a step writes its record, nothing else
writes any, and no step ends twice. From then on, wherever the step is looked up, this record is found, and none before. When the run
is over, with settings that a semaphore has permits for, the result shows what the record of each dispatched step says, but for a step
whose start was heard of after its end, which it shows as one that never finished; and it shows any other step as skipped, with no
record. -/
theorem records_agree_with_result {d : Definition} {w : Workflow} (hd : ofDefinition d = .ok w) (e : Engine) (inputs : Fields)
    (now : Nat) {m : Machine} (hrun : Run w e .any (start w inputs now) m) :
    (∀ now' mv, Writes m (m.move w e now' mv).1) ∧ m.endedIds.Nodup ∧
      (∀ s ∈ d.steps, s.id ∉ m.endedIds → ∀ scope, Sees w m scope → scope s.id = none) ∧
      (∀ id o, Trace.ended id o ∈ m.trace → ∀ m', Run w e .any m m' → ∀ scope, Sees w m' scope → scope id = some o.entry) ∧
      (e.settings.Permitted → m.finished = true → ∀ later, ∀ s ∈ d.steps, ∃ r, Keyed.get? (m.result later).steps s.id = some r ∧
        (s.id ∈ m.dispatched → ∃ o, Trace.ended s.id o ∈ m.trace ∧ (∀ scope, Sees w m scope → scope s.id = some o.entry) ∧
          (¬m.Late s.id → r.Shows o ∧ r.record = o.entry) ∧ (m.Late s.id → r.Mistaken (m.result later).cancelled o)) ∧
        (s.id ∉ m.dispatched → (∀ scope, Sees w m scope → scope s.id = none) ∧
          r.status = .skipped ∧ r.output = none ∧ r.error = none)) := by
  obtain ⟨rfl, hw⟩ := valid_of_definition hd
  have hs := hrun.sound hw (start_sound hw e inputs now)
  have hstep {s : Step} (hmem : s ∈ w.definition.steps) : s.id ∈ w.graph.steps := hw.steps_eq ▸ List.mem_map_of_mem hmem
  have hnone {s : Step} (hmem : s ∈ w.definition.steps) (hnot : s.id ∉ m.endedIds) {scope : Scope} (hsees : Sees w m scope) :
      scope s.id = none := by
    rw [hsees.lookup hw (hstep hmem), Context.Holds.entry_eq hs.recorded (hstep hmem), outcome?_eq_none.mpr hnot, Option.map_none]
  have hfound {id : String} {o : Outcome StepError} (ho : Trace.ended id o ∈ m.trace) {m' : Machine} (hlater : Run w e .any m m')
      {scope : Scope} (hsees : Sees w m' scope) : scope id = some o.entry := by
    have hs' := hlater.sound hw hs
    have ho' := (hlater.ended_prefix hw hs).subset (mem_trace_of_mem_ended.mpr ho)
    have hid := hs'.scheduled.step_of_dispatched (hs'.scheduled.dispatched_of_ended (List.mem_map_of_mem (f := (·.1)) ho'))
    rw [hsees.lookup hw hid, hs'.entry_of_ended ho']
  refine ⟨hs.writes, hs.scheduled.nodup_ended, fun s hmem hnot scope => hnone hmem hnot, fun id o ho m' hlater scope => hfound ho hlater,
    ?_⟩
  intro hpermitted hf later s hmem
  have htells := hrun.tells hw hf (hrun.died_eq_nil hw hpermitted.loops) later
  by_cases hdispatched : s.id ∈ m.dispatched
  · obtain ⟨o, ho⟩ := htells.ended s.id hdispatched
    obtain ⟨r, hr, hshows, hmistaken⟩ := htells.shown s.id o ho
    refine ⟨r, hr, fun _ => ⟨o, ho, fun scope hsees => hfound ho .refl hsees, fun hlate => ?_, hmistaken⟩,
      fun hnot => absurd hdispatched hnot⟩
    exact ⟨hshows hlate, (hshows hlate).record_eq⟩
  · obtain ⟨-, r, hr, hshows⟩ := htells.left s.id (hstep hmem) hdispatched
    have hnot : s.id ∉ m.endedIds := fun hended => hdispatched (hs.scheduled.dispatched_of_ended hended)
    exact ⟨r, hr, fun h => absurd h hdispatched, fun _ =>
      ⟨fun scope hsees => hnone hmem hnot hsees, hshows.status, hshows.output, hshows.error⟩⟩

/-- A run that is cancelled while its first steps run: what they left is found and shown, and the loop that was dropped left nothing. -/
theorem records_agree_with_result_of_sample : ∃ (w : Workflow) (m : Machine) (r : StepRun), ofDefinition .sample = .ok w ∧
    Run w ⟨.default, fun _ => true⟩ .any (start w [] 0) m ∧ m.finished = true ∧ m.dispatched = ["list", "apart"] ∧
    Keyed.get? (m.result 0).steps "list" = some r ∧ m.context.scope "list" = some r.record ∧ m.context.scope "each" = none := by
  let e : Engine := ⟨.default, fun _ => true⟩
  let moves : List Move := [.dispatch, .dispatch, .ask "list", .begin "list" none, .ask "apart", .begin "apart" none, .hear, .hear,
    .cancel, .reply ⟨"list", none⟩ (.answer (.value (.arr []))) none, .reply ⟨"apart", none⟩ (.answer (.value .null)) none,
    .hear, .join 0, .dispatch, .hear, .join 0]
  let last (w : Workflow) : Machine := moves.foldl (fun m mv => (m.move w e 0 mv).1) (start w [] 0)
  have hend : ((ofDefinition .sample).toOption.map fun w => ((last w).finished, (last w).dispatched, decide ((last w).Late "list"))) =
      some (true, ["list", "apart"], false) := by decide +kernel
  obtain ⟨w, hd, hend⟩ := exists_of_map_toOption hend
  simp only [Prod.mk.injEq, decide_eq_false_iff_not] at hend
  obtain ⟨hf, hdispatched, hlate⟩ := hend
  have hrun := Machine.run_foldl w e 0 moves (start w [] 0)
  obtain ⟨-, -, -, -, hend⟩ := records_agree_with_result hd e [] 0 hrun
  obtain ⟨r, hr, hlist, -⟩ := hend (by decide) hf 0 { Step.empty with id := "list", tool := "http" } (by simp [Definition.sample])
  obtain ⟨_, -, -, heach⟩ := hend (by decide) hf 0 .sampleLoop (by simp [Definition.sample])
  obtain ⟨o, -, hfound, hshows, -⟩ := hlist (hdispatched ▸ List.mem_cons_self)
  have hnot : "each" ∉ (last w).dispatched := by
    rw [hdispatched]
    simp
  exact ⟨w, last w, r, hd, hrun, hf, hdispatched, hr, (hshows hlate).2 ▸ hfound _ .context, (heach hnot).1 _ .context⟩

/-- The run of the sample that hears of a start after the end: the record of the first step says that it completed, and the result that
it failed. -/
theorem late_start_disagrees : ∃ (w : Workflow) (o : Outcome StepError) (r : StepRun), ofDefinition .sample = .ok w ∧
    Run w ⟨.default, fun _ => true⟩ .uncancelled (start w [] 0) w.lateRun ∧ w.lateRun.finished = true ∧
    o.status = .completed ∧ w.lateRun.context.scope "list" = some o.entry ∧
    Keyed.get? (w.lateRun.result 0).steps "list" = some r ∧ r.status = .error ∧ r.error = some StepRun.unfinished := by
  have hend : ((ofDefinition .sample).toOption.map fun w => (w.lateRun.finished,
      w.lateRun.ended.any fun e => e.1 == "list" && decide (e.2.status = .completed),
      (Keyed.get? (w.lateRun.result 0).steps "list").any fun r => decide (r.status = .error ∧ r.error = some StepRun.unfinished))) =
      some (true, true, true) := by decide +kernel
  obtain ⟨w, hd, hend⟩ := exists_of_map_toOption hend
  simp only [Prod.mk.injEq, Option.any_eq_true, List.any_eq_true, Bool.and_eq_true, beq_iff_eq, decide_eq_true_eq] at hend
  obtain ⟨hf, ⟨⟨id, o⟩, ho, rfl, hcompleted⟩, r, hr, hshown⟩ := hend
  have hw := (valid_of_definition hd).2
  have hsound := w.run_lateRun.sound hw (start_sound hw _ [] 0)
  have hended : "list" ∈ w.lateRun.endedIds := List.mem_map_of_mem ho
  have hid := hsound.scheduled.step_of_dispatched (hsound.scheduled.dispatched_of_ended hended)
  refine ⟨w, o, r, hd, w.run_lateRun, hf, hcompleted, ?_, hr, hshown⟩
  exact ((Sees.context (m := w.lateRun)).lookup hw hid).trans (hsound.entry_of_ended ho)

end Workflow

end Runbook
