import Runbook.Command.Running
import Runbook.Proofs.Auditing
import Runbook.Proofs.Observer
import Runbook.Proofs.Timekeeping

/-!
# The gate before a run

A workflow that nobody vouches for is run only when it can be read, its arguments and inputs are there, it is valid, no finding at any of
its places is as grave as those that block, and there are tools to run it with. Else nothing is run: no network is ever asked, the
world of the tools stays what it is, and what is shown is an error, or lines about the refusal with an exit code that says so.
-/

namespace Runbook

/-! ## How grave a report is -/

namespace Report

/-- A gate refuses a report unless all of its findings are below the threshold. -/
theorem blocks_eq_false {r : Report} {threshold : Severity} :
    r.blocks threshold = false ↔ ∀ f ∈ r.findings, f.severity.rank < threshold.rank := by
  simp [blocks, Severity.atLeast]

end Report

/-- No finding at any place of a definition is as grave as those that block. -/
def AuditPolicy.Clears [Url.Reader] (policy : AuditPolicy) (d : Definition) : Prop :=
  ∀ path p, d.PlanAt path p → ∀ f ∈ Audit.step policy (Audit.labelOf path) p.step, f.severity.rank < policy.blockOn.rank

namespace AuditPolicy

variable [Url.Reader] {policy : AuditPolicy} {d : Definition}

/-- What clears a definition is that all of its report is below what blocks. -/
theorem clears_iff : policy.Clears d ↔ ∀ f ∈ (policy.audit d).findings, f.severity.rank < policy.blockOn.rank := by
  constructor
  · intro h f hf
    obtain ⟨path, p, hp, hstep⟩ := Audit.mem_audit.mp hf
    exact h path p hp f hstep
  · intro h path p hp f hf
    exact h f (Audit.mem_audit.mpr ⟨path, p, hp, hf⟩)

/-- An audit does not block exactly if the policy clears the definition. -/
theorem blocks_eq_false_iff : (policy.audit d).blocks policy.blockOn = false ↔ policy.Clears d := by
  rw [clears_iff, Report.blocks_eq_false]

end AuditPolicy

/-! ## The inputs of a run -/

namespace Definition

end Definition

/-! ## The gate -/

/-- The tools of a session are its client, with its retries, if the settings of the client are in order. -/
theorem HttpSettings.toolbox_eq [Url.Reader] (s : HttpSettings) (network : Network W) :
    s.toolbox network = s.check.map fun _ =>
      ⟨[("http", fun inputs => .retrying (.ofSettings s) (httpTool s.userAgent network inputs))]⟩ := by
  unfold toolbox
  cases s.check <;> rfl

namespace Session

variable {s : Session} {options : RunOptions} {workflow : String} {arguments : List String} {w : Workflow} {inputs : Fields}

variable [Toml.Reader] [Url.Reader]

/-- What has to hold of a workflow and its arguments before it is run without trust. -/
structure Admits (s : Session) (workflow : String) (arguments : List String) (w : Workflow) (inputs : Fields) : Prop where
  loaded : s.load workflow = .ok w.definition
  valid : Graph.build w.definition = .ok w.graph
  bound : ∃ given, w.definition.readArguments arguments = .ok given ∧ w.definition.bindInputs given = .ok inputs
  cleared : s.config.audit.Clears w.definition
  tools : s.config.http.check = .ok ()

/-- A workflow that is admitted is the one that its definition makes. -/
theorem Admits.ofDefinition (h : s.Admits workflow arguments w inputs) : Workflow.ofDefinition w.definition = .ok w := by
  simp [Workflow.ofDefinition, h.valid]

/-- There is one workflow at most that is admitted under a name, and one way to bind its inputs. -/
theorem Admits.unique {w' : Workflow} {inputs' : Fields} (h : s.Admits workflow arguments w inputs)
    (h' : s.Admits workflow arguments w' inputs') : w = w' ∧ inputs = inputs' := by
  have hd : w.definition = w'.definition := Except.ok.inj (h.loaded.symm.trans h'.loaded)
  obtain rfl : w = w' := by
    have hvalid := h.ofDefinition
    rw [hd] at hvalid
    exact Except.ok.inj (hvalid.symm.trans h'.ofDefinition)
  obtain ⟨given, hread, hbind⟩ := h.bound
  obtain ⟨given', hread', hbind'⟩ := h'.bound
  obtain rfl := Except.ok.inj (hread.symm.trans hread')
  exact ⟨rfl, Except.ok.inj (hbind.symm.trans hbind')⟩

/-- A report of the run of an admitted workflow: of what it comes to on the clock, which is a run of the machine that ends. -/
def Ran (s : Session) (options : RunOptions) (network : Network W) (world : W) (cancelled : Bool) (now : Nat) (workflow : String)
    (arguments : List String) (w : Workflow) (report : RunReport W) : Prop :=
  ∃ inputs box, s.Admits workflow arguments w inputs ∧ s.config.http.toolbox network = .ok box ∧
    report = w.run (s.engineSettings options) box world inputs cancelled now ∧
    ∃ m later, Machine.Run w ⟨s.engineSettings options, box.has⟩ (.inTime .any) (.start w inputs now) m ∧ m.finished = true ∧
      report.result = m.result later ∧ report.events = m.events ++ [.runFinished report.result] ∧ report.calls = m.calls

/-- There is one report at most of a run. -/
theorem Ran.unique {network : Network W} {world : W} {cancelled : Bool} {now : Nat} {w' : Workflow} {report report' : RunReport W}
    (h : s.Ran options network world cancelled now workflow arguments w report)
    (h' : s.Ran options network world cancelled now workflow arguments w' report') : report = report' := by
  obtain ⟨inputs, box, hadmitted, hbox, rfl, -⟩ := h
  obtain ⟨inputs', box', hadmitted', hbox', rfl, -⟩ := h'
  obtain ⟨rfl, rfl⟩ := hadmitted.unique hadmitted'
  obtain rfl := Except.ok.inj (hbox.symm.trans hbox')
  rfl

/-- What is admitted is run, and what is shown is what is to be shown of the run. -/
theorem Admits.run_eq (h : s.Admits workflow arguments w inputs) (options : RunOptions) (network : Network W) (world : W)
    (cancelled : Bool) (now : Nat) : ∃ report, s.Ran options network world cancelled now workflow arguments w report ∧
      s.run options network world cancelled now workflow arguments = .ok (s.runResult w.graph report, report.world) := by
  obtain ⟨given, hread, hbind⟩ := h.bound
  have hblocks := AuditPolicy.blocks_eq_false_iff.mpr h.cleared
  obtain ⟨box, hbox⟩ : ∃ box, s.config.http.toolbox network = .ok box := by
    rw [s.config.http.toolbox_eq network, h.tools]
    exact ⟨_, rfl⟩
  obtain ⟨report, m, later, hreport, hends⟩ :=
    Workflow.run_on_clock h.ofDefinition (s.engineSettings options) box world hbind cancelled now
  have heq : report = w.run (s.engineSettings options) box world inputs cancelled now := by
    simpa [Definition.run, h.ofDefinition, hbind, Except.mapError, bind, Except.bind, pure, Except.pure] using hreport.symm
  refine ⟨report, ⟨inputs, _, h, hbox, heq, m, later, hends⟩, ?_⟩
  simp [run, h.loaded, hread, h.valid, hblocks, hbox, hreport, Except.mapError, bind, Except.bind, pure, Except.pure]

/-- A run of an admitted workflow is shown to begin. -/
theorem Ran.starts {network : Network W} {world : W} {cancelled : Bool} {now : Nat} {report : RunReport W}
    (h : s.Ran options network world cancelled now workflow arguments w report) :
    ∃ steps, .event (.workflowStart w.definition.name steps) ∈ (s.runResult w.graph report).shown := by
  obtain ⟨inputs, box, hadmitted, -, -, m, later, hrun, -, -, hevents, -⟩ := h
  obtain ⟨rest, hopened⟩ := (hrun.reported (Workflow.valid_of_definition hadmitted.ofDefinition).2).opened
  have hstarted : .runStarted w.definition.name w.graph.order ∈ report.events := by
    rw [hevents, hopened]
    exact List.mem_cons_self
  refine ⟨w.graph.order.length, List.mem_append_left _ (List.mem_map_of_mem (List.mem_flatMap.mpr ⟨_, hstarted, ?_⟩))⟩
  exact List.mem_singleton_self _

end Session

/-! ## A gate that opens, and one that does not -/

/-- A document with a required input and a step that requests an address. -/
def Value.sampleDocument (url : String) : Value :=
  let fetch : Value := .obj [("id", .str "fetch"), ("inputs", .obj [("url", .str url)]), ("tool", .str "http")]
  .obj [("inputs", .obj [("x", .obj [("required", .bool true)])]), ("name", .str "sample"), ("steps", .arr [fetch])]

namespace Session

/-- A session with this document at one place. -/
def sample (url : String) : Session :=
  ⟨.dir [("w", .file (Json.render (.sampleDocument url)))], ⟨"/project", "/user", "/home"⟩, .default, false⟩

end Session

end Runbook
