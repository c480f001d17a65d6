import Runbook.Proofs.Answers
import Runbook.Proofs.Timekeeping

/-!
# The schedule makes no difference

A workflow whose tools answer by what they are asked comes to the same, however much may be done at a time, however long its tools
take, and in whatever order its steps, its replies and its runner come: to what its steps come to when they are executed one at a time,
in the order of execution. It makes the same calls, each as often. Its result says the same, too, unless a start is late.
-/

namespace Runbook

/-- Every call comes back with the answer to its tool and inputs. -/
def Reply.byQuestion (answers : String → Value → Answer) (c : Call) : Reply := .answer (answers c.tool c.inputs)

/-- An activity that comes to an answer, however long it takes, and does not stop the run. -/
inductive Activity.Gives {W : Type} (a : Answer) : Activity W → Prop
  | answer : Gives a (.answer a)
  | sleep {d : Duration} {rest : Activity W} (h : Gives a rest) : Gives a (.sleep d rest)
  | act {update : W → W} {rest : W → Activity W} (h : ∀ w, Gives a (rest w)) : Gives a (.act update rest)

/-- The tools of a box answer by what they are asked, however long they take and whatever their world is. -/
def Toolbox.Gives {W : Type} (box : Toolbox W) (answers : String → Value → Answer) : Prop :=
  ∀ name tool, box.find? name = some tool → ∀ inputs, (tool inputs).Gives (answers name inputs)

/-- The answer of the tool of a small box. -/
def Answer.sample : Answer := .value (.arr [.str "a", .str "b"])

/-- A box with a tool that takes a millisecond less at each call. -/
def Toolbox.sample : Toolbox Nat :=
  ⟨[("http", fun _ => .act (· + 1) fun calls => .sleep (.ofMillis (10 - calls)) (.answer .sample))]⟩

/-- The sample tools give the sample answer. -/
theorem Toolbox.sample_gives : Toolbox.sample.Gives fun _ _ => .sample := by
  intro name tool hfind inputs
  obtain ⟨⟨name', tool'⟩, hmem, rfl⟩ := Option.map_eq_some_iff.mp hfind
  obtain ⟨rfl, rfl⟩ := Prod.mk.inj (List.mem_singleton.mp (List.mem_of_find?_eq_some hmem))
  exact .act fun _ => .sleep .answer

/-- Calls come back with their own answers and in time, and nothing cancels the run. -/
def Terms.answering (ask : Call → Reply) : Terms := ⟨fun c a => ask c = .answer a, False, False⟩

/-- An activity that gives an answer keeps to terms on which this is the answer. -/
theorem Activity.Gives.within {W : Type} {act : Activity W} {a : Answer} (h : act.Gives a) {ask : Call → Reply} {c : Call}
    (ha : ask c = .answer a) : act.Within (.answering ask) c := by
  induction h with
  | answer => exact .answer ha
  | sleep _ ih => exact .sleep ih
  | act _ ih => exact .act ih

/-- A driver that keeps to these terms answers. -/
theorem Machine.Policy.answering_of_on (ask : Call → Reply) (m : Machine) (mv : Move) (h : Policy.on (.answering ask) m mv) :
    Policy.answering ask m mv := by
  cases mv with
  | reply ticket r cut =>
    obtain ⟨hcut, c, hc, hmay⟩ := h
    cases r with
    | answer a => exact ⟨hcut, c, hc, hmay.symm⟩
    | timedOut => cases hmay
    | aborted => cases hmay
  | begin id cut => exact h
  | cancel => exact h
  | dispatch => trivial
  | hear => trivial
  | join index => trivial
  | ask id => trivial

namespace Plan

mutual

/-- The steps that call tools, at every depth of bodies. -/
def callers : Plan → List Step
  | single s => [s]
  | broken _ _ => []
  | loop _ body => bodyCallers body

/-- The steps that call tools in the plans of a body. -/
def bodyCallers : List Plan → List Step
  | [] => []
  | p :: ps => p.callers ++ bodyCallers ps

end

/-- The steps of a plan in a body that call are among those of the body. -/
theorem mem_bodyCallers {ps : List Plan} {p : Plan} (hp : p ∈ ps) {s : Step} (hs : s ∈ p.callers) : s ∈ bodyCallers ps := by
  induction ps with
  | nil => cases hp
  | cons q qs ih =>
    unfold bodyCallers
    rcases List.mem_cons.mp hp with rfl | hp
    · exact List.mem_append_left _ hs
    · exact List.mem_append_right _ (ih hp)

/-- A call that a plan makes is that of a step that calls its tool. -/
theorem Makes.caller {e : Engine} {path : List String} {p : Plan} {c : Call} (h : p.Makes e path c) :
    e.hasTool c.tool = true ∧ ∃ s ∈ p.callers, c.timeoutMs = e.timeoutMs s := by
  induction h with
  | @own path s scope inputs _ available =>
    refine ⟨available, s, ?_, rfl⟩
    unfold callers
    exact List.mem_singleton.mpr rfl
  | @body path s body p c hp _ ih =>
    obtain ⟨htool, s', hs', htimeout⟩ := ih
    refine ⟨htool, s', ?_, htimeout⟩
    unfold callers
    exact mem_bodyCallers hp hs'

end Plan

namespace Workflow

open Machine

variable {w : Workflow}

/-- What a run one step at a time has written at its end. -/
theorem Upto.holds (hw : w.Valid) {e : Engine} {ask : Call → Reply} {inputs : Fields} {r : SequentialRun}
    (h : w.Upto e ask inputs w.graph.order r) :
    r.context.Holds w inputs fun id => some (w.performed e ask r.context id).result.entry :=
  h.context.congr fun _ hid => if_pos (hw.mem_order.mpr hid)

/-- A toolbox whose tools answer serves the calls of a workflow without time limits. -/
theorem served_answering {W : Type} {settings : EngineSettings} {box : Toolbox W} {answers : String → Value → Answer}
    (hgives : box.Gives answers) (hsettings : settings.stepTimeoutMs = none)
    (hsteps : ∀ p ∈ w.definition.plans, ∀ s ∈ p.callers, s.timeoutMs = none) :
    w.Served ⟨settings, box.has⟩ box (.answering (.byQuestion answers)) := by
  intro id p call hp hmakes
  obtain ⟨htool, s, hs, htimeout⟩ := hmakes.caller
  refine ⟨?_, Or.inl ?_⟩
  · obtain ⟨tool, hfind⟩ := Option.isSome_iff_exists.mp htool
    rw [Toolbox.activity, hfind]
    exact (hgives call.tool tool hfind call.inputs).within rfl
  · rw [htimeout, Engine.timeoutMs, hsteps p (plan?_some hp).1 s hs, hsettings]
    rfl

/-- A run in which every call comes back with its answer, and that is over, has done what a run one step at a time does; if no start was
late, its result says so. -/
theorem Valid.answered_same (hw : w.Valid) {e : Engine} {ask : Call → Reply} {inputs : Fields} {r : SequentialRun}
    (hr : w.Upto e ask inputs w.graph.order r) (hpermitted : e.settings.Permitted) {now : Nat} {m : Machine}
    (hrun : Run w e (.answering ask) (start w inputs now) m) (hf : m.finished = true) :
    m.ended.Perm r.outcomes ∧ m.calls.Perm r.calls ∧ ((∀ id, ¬m.Late id) → ∀ now, (m.result now).Same (r.result w)) := by
  have hs := start_sound hw e inputs now
  have hfollows := (Follows.start w e ask r.context inputs now).run hw hs (hr.holds hw) hrun
  exact hfollows.same hw (hrun.sound hw hs) hr hf (hrun.died_eq_nil hw hpermitted.loops)

/-- A run on a clock comes to what a run one step at a time comes to. -/
theorem Valid.run_same {W : Type} (hw : w.Valid) {settings : EngineSettings} {box : Toolbox W} {ask : Call → Reply} {inputs : Fields}
    {r : SequentialRun} (hr : w.Upto ⟨settings, box.has⟩ ask inputs w.graph.order r) (hpermitted : settings.Permitted)
    (hserved : w.Served ⟨settings, box.has⟩ box (.answering ask)) (world : W) (now : Nat) :
    (w.run settings box world inputs false now).result.Same (r.result w) ∧
      (w.run settings box world inputs false now).calls.Perm r.calls := by
  obtain ⟨m, later, hrun, hfinished, hresult, -, hcalls⟩ := hw.run_ends hserved world inputs false nofun now
  obtain ⟨-, hperm, hsame⟩ := hw.answered_same hr hpermitted (hrun.mono (Policy.answering_of_on ask)) hfinished
  rw [hresult, hcalls]
  exact ⟨hsame (hrun.inTime.not_late hw) later, hperm⟩

/-- The schedule makes no difference. Let the tools of a workflow answer by what they are asked. However much the settings let be done
at a time, as long as a semaphore has permits for it, and in whatever order a driver lets the runner, the steps and the replies come,
the run cannot but end with the outcomes and the calls of a run one step at a time, each call as often; and with its result, if no start
is heard of after the end of its step. So does every run on the clock whose calls have no time limits, however long its tools take:
there, no start is late. -/
theorem result_independent_of_schedule {d : Definition} (hd : ofDefinition d = .ok w) {settings : EngineSettings}
    (hpermitted : settings.Permitted) (hasTool : String → Bool) (answers : String → Value → Answer) (inputs : Fields) :
    let e : Engine := ⟨settings, hasTool⟩
    let ask := Reply.byQuestion answers
    let alone := w.sequentially e.oneByOne ask inputs
    (∀ now, Inevitable w e (.answering ask)
      (fun m => m.finished = true ∧ m.ended.Perm alone.outcomes ∧ m.calls.Perm alone.calls ∧
        ((∀ id, ¬m.Late id) → ∀ now, (m.result now).Same (alone.result w) ∧ (m.result now).noErrors = (alone.result w).noErrors))
      (start w inputs now)) ∧
    (∀ now, Inevitable w e (.inTime (.answering ask))
      (fun m => m.finished = true ∧ m.ended.Perm alone.outcomes ∧ m.calls.Perm alone.calls ∧
        ∀ now, (m.result now).Same (alone.result w) ∧ (m.result now).noErrors = (alone.result w).noErrors) (start w inputs now)) ∧
    ∀ {W : Type} (box : Toolbox W) (world : W) (supplied : Fields) (now : Nat), box.has = hasTool → box.Gives answers →
      settings.stepTimeoutMs = none → (∀ p ∈ d.plans, ∀ s ∈ p.callers, s.timeoutMs = none) →
      d.bindInputs supplied = .ok inputs →
      ∃ report, d.run settings box world supplied false now = .ok report ∧ report.result.Same (alone.result w) ∧
        report.result.noErrors = (alone.result w).noErrors ∧ report.calls.Perm alone.calls := by
  intro e ask alone
  obtain ⟨rfl, hw⟩ := valid_of_definition hd
  have hr : w.Upto e ask inputs w.graph.order alone := hw.sequentially_oneByOne e ask inputs
  refine ⟨?_, ?_, fun {W} box world supplied now hhas hgives hsettings hsteps hbound => ?_⟩
  · intro now
    have hend := finished_inevitable (e := e) hw (Policy.answering_live ask) (I := fun m => Run w e (.answering ask) (start w inputs now) m)
      (fun m hrun => hrun.sound hw (start_sound hw e inputs now)) (fun m now mv hrun hmv => hrun.move now mv hmv) .refl
    refine hend.mono fun m hm => ?_
    obtain ⟨hended, hcalls, hsame⟩ := hw.answered_same hr hpermitted hm.2 hm.1
    exact ⟨hm.1, hended, hcalls, fun hlate later => ⟨hsame hlate later, (hsame hlate later).noErrors⟩⟩
  · intro now
    have hend := finished_inevitable (e := e) hw (Policy.answering_live ask).inTime
      (I := fun m => Run w e (.inTime (.answering ask)) (start w inputs now) m)
      (fun m hrun => hrun.sound hw (start_sound hw e inputs now)) (fun m now mv hrun hmv => hrun.move now mv hmv) .refl
    refine hend.mono fun m hm => ?_
    obtain ⟨hended, hcalls, hsame⟩ := hw.answered_same hr hpermitted (hm.2.mono fun _ _ h => h.1) hm.1
    have hsame := hsame (hm.2.not_late hw)
    exact ⟨hm.1, hended, hcalls, fun later => ⟨hsame later, (hsame later).noErrors⟩⟩
  · subst hhas
    obtain ⟨hresult, hcalls⟩ := hw.run_same hr hpermitted (served_answering hgives hsettings hsteps) world now
    refine ⟨w.run settings box world inputs false now, ?_, hresult, hresult.noErrors, hcalls⟩
    simp only [Definition.run, hd, hbound, Except.mapError, bind, Except.bind]
    rfl

/-- Two steps at a time and two items at a time, each call back sooner than the one before it: the four calls of a small workflow
come to what they come to one at a time. -/
theorem result_independent_of_schedule_of_sample : ∃ (w : Workflow) (report : RunReport Nat), ofDefinition .sample = .ok w ∧
    Definition.sample.run ⟨2, 2, 1000, none⟩ .sample 0 [] false 0 = .ok report ∧ report.calls.length = 4 ∧
      report.result.Same ((w.sequentially (Engine.oneByOne ⟨⟨2, 2, 1000, none⟩, Toolbox.sample.has⟩)
        (Reply.byQuestion fun _ _ => .sample) []).result w) := by
  obtain ⟨w, hw⟩ := ofDefinition_sample
  have hlength : ((ofDefinition .sample).toOption.map fun w =>
      (w.sequentially (Engine.oneByOne ⟨⟨2, 2, 1000, none⟩, Toolbox.sample.has⟩) (Reply.byQuestion fun _ _ => .sample) []).calls.length) =
        some 4 := by decide +kernel
  rw [hw] at hlength
  have hpermitted : (⟨2, 2, 1000, none⟩ : EngineSettings).Permitted := by decide
  obtain ⟨report, hrun, hsame, -, hcalls⟩ := (result_independent_of_schedule hw hpermitted Toolbox.sample.has
    (fun _ _ => .sample) []).2.2 .sample 0 [] 0 rfl Toolbox.sample_gives rfl (by decide +kernel) rfl
  exact ⟨w, report, hw, hrun, hcalls.length_eq.trans (Option.some.inj hlength), hsame⟩

/-- Of two schedules of the same calls with the same answers, one comes to errors and the other does not: in the first, the runner hears
of the start of the first step after its end. -/
theorem late_start_depends_on_schedule : ∃ (w : Workflow) (moves : List Move), ofDefinition .sample = .ok w ∧
    (∀ mv ∈ moves, mv.cancels = false) ∧ (∀ ticket r cut, .reply ticket r cut ∈ moves → r = .answer (.value (.arr []))) ∧
    let e : Engine := ⟨.default, fun _ => true⟩
    let m := moves.foldl (fun m mv => (m.move w e 0 mv).1) (start w [] 0)
    m.finished = true ∧ (m.result 0).noErrors = false ∧
      ((w.sequentially e.oneByOne (Reply.byQuestion fun _ _ => .value (.arr [])) []).result w).noErrors = true := by
  let moves : List Move := [.dispatch, .dispatch, .ask "list", .ask "apart", .hear, .begin "list" none,
    .reply ⟨"list", none⟩ (.answer (.value (.arr []))) none, .join 0, .dispatch, .hear, .begin "apart" none, .hear,
    .reply ⟨"apart", none⟩ (.answer (.value (.arr []))) none, .hear, .join 0, .ask "each", .begin "each" none, .hear, .hear, .join 0]
  let e : Engine := ⟨.default, fun _ => true⟩
  let last (w : Workflow) : Machine := moves.foldl (fun m mv => (m.move w e 0 mv).1) (start w [] 0)
  have hend : ((ofDefinition .sample).toOption.map fun w => ((last w).finished, ((last w).result 0).noErrors,
      ((w.sequentially e.oneByOne (Reply.byQuestion fun _ _ => .value (.arr [])) []).result w).noErrors)) =
      some (true, false, true) := by decide +kernel
  obtain ⟨w, hw, hend⟩ := exists_of_map_toOption hend
  simp only [Prod.mk.injEq] at hend
  refine ⟨w, moves, hw, by decide, ?_, hend⟩
  intro ticket r cut hmem
  simp only [moves, List.mem_cons, List.not_mem_nil, reduceCtorEq, Move.reply.injEq, false_or, or_false] at hmem
  rcases hmem with ⟨-, hr, -⟩ | ⟨-, hr, -⟩ <;> exact hr

end Workflow

end Runbook
