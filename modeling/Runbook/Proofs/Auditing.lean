import Runbook.Audit.Rules
import Runbook.Proofs.Runs

/-!
# What the audit has seen

The audit reads the address of a request, and the names of the database and collection to be written, in the inputs of a step as they
are written. What it does not report as dependent on data is what every call of the step carries, in every run, provided that the
inputs show their fields: inputs that are one lone fragment show nothing, and the audit reports nothing of them.
-/

namespace Runbook

/-- Says that the address of a request depends on data. -/
def Finding.IsDynamicUrl (f : Finding) : Prop :=
  f.severity = .high ∧ ∃ url : String, f.message = s!"dynamic URL '{url}' needs review: it cannot be verified statically"

/-- The inputs of an ingesting step that name what it writes to. -/
def Audit.targetFields : List String := ["database", "collection"]

/-- Says that the name of what is written depends on data. -/
def Finding.IsTemplatedName (f : Finding) : Prop :=
  f.severity = .medium ∧
    ∃ field ∈ Audit.targetFields, f.message = s!"{field} name is templated: non-deterministic write target"

namespace Audit

/-- What reports call the step at a place. -/
def labelOf : List String → String
  | [] => ""
  | id :: ids => ids.foldl (fun label id => s!"{label}.{id}") id

/-- The label of a step in a body is that of the loop with the id behind it. -/
theorem labelOf_concat {path : List String} (h : path ≠ []) (id : String) :
    labelOf (path ++ [id]) = s!"{labelOf path}.{id}" := by
  cases path with
  | nil => exact absurd rfl h
  | cons first rest => simp only [labelOf, List.cons_append, List.foldl_append, List.foldl_cons, List.foldl_nil]

/-! ## Findings -/

variable [Url.Reader] {policy : AuditPolicy}

/-- The findings on a body are those on its plans, each under its own label. -/
theorem mem_bodyFindings {label : String} {ps : List Plan} {f : Finding} :
    f ∈ bodyFindings policy label ps ↔ ∃ p ∈ ps, f ∈ plan policy s!"{label}.{p.step.id}" p := by
  induction ps with
  | nil => simp [bodyFindings]
  | cons p ps ih => rw [bodyFindings, List.mem_append, ih, List.exists_mem_cons_iff]

/-- The findings on a plan are on its step, or on its body. -/
theorem step_subset_plan {label : String} {p : Plan} {f : Finding} (h : f ∈ step policy label p.step) :
    f ∈ plan policy label p := by
  cases p with
  | single s => exact h
  | broken s err => exact h
  | loop s body => exact List.mem_append_left _ h

/-- The findings on the steps at all places in a plan are among its findings. -/
theorem step_subset_of_at {path path' : List String} {p q : Plan} (hq : p.At path path' q) (hpath : path ≠ []) {f : Finding}
    (h : f ∈ step policy (labelOf path') q.step) : f ∈ plan policy (labelOf path) p := by
  induction hq with
  | here => exact step_subset_plan h
  | @body path path' s body p q hp _ ih =>
    have hp' := ih (by simp) h
    rw [labelOf_concat hpath] at hp'
    exact List.mem_append_right _ (mem_bodyFindings.mpr ⟨p, hp, hp'⟩)

/-- The findings on the step at a place of a definition are in the report, under the name of the place. -/
theorem step_subset_audit {d : Definition} {path : List String} {p : Plan} (hp : d.PlanAt path p) {f : Finding}
    (h : f ∈ step policy (labelOf path) p.step) : f ∈ (policy.audit d).findings := by
  obtain ⟨q, hq, hat⟩ := hp
  exact List.mem_flatMap.mpr ⟨q, hq, step_subset_of_at hat (by simp) h⟩

mutual

/-- A finding on a plan is one on the step at some place in it. -/
theorem exists_at_of_mem_plan {f : Finding} : (p : Plan) → (path : List String) → path ≠ [] → f ∈ plan policy (labelOf path) p →
    ∃ path' q, p.At path path' q ∧ f ∈ step policy (labelOf path') q.step
  | .single _, path, _, h => ⟨path, _, .here, h⟩
  | .broken _ _, path, _, h => ⟨path, _, .here, h⟩
  | .loop s body, path, hpath, h => by
    rcases List.mem_append.mp h with h | h
    · exact ⟨path, _, .here, h⟩
    · obtain ⟨p, hp, path', q, hat, hq⟩ := exists_at_of_mem_body body path hpath h
      exact ⟨path', q, .body hp hat, hq⟩

/-- A finding on a body is one on the step at some place in one of its plans. -/
theorem exists_at_of_mem_body {f : Finding} : (ps : List Plan) → (path : List String) → path ≠ [] →
    f ∈ bodyFindings policy (labelOf path) ps →
    ∃ p ∈ ps, ∃ path' q, p.At (path ++ [p.step.id]) path' q ∧ f ∈ step policy (labelOf path') q.step
  | p :: ps, path, hpath, h => by
    rcases List.mem_append.mp h with h | h
    · rw [← labelOf_concat hpath] at h
      exact ⟨p, List.mem_cons_self, exists_at_of_mem_plan p _ (by simp) h⟩
    · obtain ⟨q, hq, hrest⟩ := exists_at_of_mem_body ps path hpath h
      exact ⟨q, List.mem_cons_of_mem p hq, hrest⟩

end

/-- The report on a definition has the findings on the steps at all of its places, and no others. -/
theorem mem_audit {d : Definition} {f : Finding} :
    f ∈ (policy.audit d).findings ↔ ∃ path p, d.PlanAt path p ∧ f ∈ step policy (labelOf path) p.step := by
  constructor
  · intro h
    obtain ⟨q, hq, hf⟩ := List.mem_flatMap.mp h
    obtain ⟨path, p, hat, hp⟩ := exists_at_of_mem_plan q [q.step.id] (List.cons_ne_nil _ _) hf
    exact ⟨path, p, ⟨q, hq, hat⟩, hp⟩
  · rintro ⟨path, p, hp, h⟩
    exact step_subset_audit hp h

/-- What is found of a request is found of the step. -/
theorem mem_step_of_http {label : String} {s : Step} (ht : s.toolKind? = some .http) {severity : Severity} {message : String}
    (h : (severity, message) ∈ http policy s) : (⟨severity, message, some label⟩ : Finding) ∈ step policy label s := by
  simp only [step, ht]
  exact List.mem_map_of_mem (f := fun (x : Severity × String) => (⟨x.1, x.2, some label⟩ : Finding)) (List.mem_append_left _ h)

/-- What is found of an ingestion is found of the step. -/
theorem mem_step_of_ingest {label : String} {s : Step} (ht : s.toolKind? = some .ingest) {severity : Severity} {message : String}
    (h : (severity, message) ∈ ingest s) : (⟨severity, message, some label⟩ : Finding) ∈ step policy label s := by
  simp only [step, ht]
  exact List.mem_map_of_mem (f := fun (x : Severity × String) => (⟨x.1, x.2, some label⟩ : Finding)) (List.mem_append_left _ h)

section Place

variable {d : Definition} {path : List String} {p : Plan} (hp : d.PlanAt path p)

include hp

/-- What the audit says of the address that a step is written with is in the report. -/
theorem request_reported (ht : p.step.toolKind? = some .http) {url : String} (hurl : p.step.inputText? "url" = some url)
    {severity : Severity} {message : String} (h : (severity, message) ∈ requestFindings policy url) :
    (⟨severity, message, some (labelOf path)⟩ : Finding) ∈ (policy.audit d).findings := by
  refine step_subset_audit hp (mem_step_of_http ht ?_)
  simpa only [http, hurl] using h

/-- An address that is not reported to be dynamic has no fragment. -/
theorem url_literal (ht : p.step.toolKind? = some .http)
    (hclean : ∀ f ∈ (policy.audit d).findings, f.step = some (labelOf path) → ¬f.IsDynamicUrl) {url : String}
    (hurl : p.step.inputText? "url" = some url) : hasFragment url = false := by
  by_contra hfragment
  have hfinding : (Severity.high, s!"dynamic URL '{url}' needs review: it cannot be verified statically") ∈
      requestFindings policy url := by
    rw [requestFindings, if_pos (by simpa using hfragment)]
    exact List.mem_singleton_self _
  exact hclean _ (request_reported hp ht hurl hfinding) rfl ⟨rfl, url, rfl⟩

/-- A name that is not reported to be templated has no fragment. -/
theorem target_literal (ht : p.step.toolKind? = some .ingest)
    (hclean : ∀ f ∈ (policy.audit d).findings, f.step = some (labelOf path) → ¬f.IsTemplatedName) {field name : String}
    (hfield : field ∈ targetFields) (hname : p.step.inputText? field = some name) : hasFragment name = false := by
  by_contra hfragment
  have hfinding : (Severity.medium, s!"{field} name is templated: non-deterministic write target") ∈ ingest p.step := by
    refine List.mem_flatMap.mpr ⟨field, hfield, ?_⟩
    rw [hname, if_pos (by simpa using hfragment)]
    exact List.mem_singleton_self _
  exact hclean _ (step_subset_audit hp (mem_step_of_ingest ht hfinding)) rfl ⟨rfl, field, hfield, rfl⟩

end Place

end Audit

/-! ## Calls -/

namespace Value

variable {scope : Scope}

/-- A value that is no text with a fragment resolves to one that is the same text, or no text either. -/
theorem resolveNode_text {v : Value} {r : Option Value} (hr : v.resolveNode scope = .ok r)
    (h : ∀ text, v = .str text → hasFragment text = false) : ∃ v', r = some v' ∧ v'.str? = v.str? := by
  cases v with
  | null => exact ⟨.null, (Except.ok.inj hr).symm, rfl⟩
  | bool b => exact ⟨.bool b, (Except.ok.inj hr).symm, rfl⟩
  | num n => exact ⟨.num n, (Except.ok.inj hr).symm, rfl⟩
  | str text =>
    have hliteral : (Template.ofString text).hasFragment = false := h text rfl
    unfold resolveNode at hr
    simp only [hliteral, Bool.false_eq_true, if_false, Except.ok.injEq] at hr
    exact ⟨.str text, hr.symm, rfl⟩
  | arr items =>
    unfold resolveNode at hr
    cases hi : resolveItems scope items with
    | error err => rw [hi] at hr; cases hr
    | ok items' => rw [hi] at hr; exact ⟨.arr items', (Except.ok.inj hr).symm, rfl⟩
  | obj fields =>
    unfold resolveNode at hr
    cases hf : resolveFields scope fields with
    | error err => rw [hf] at hr; cases hr
    | ok fields' => rw [hf] at hr; exact ⟨.obj fields', (Except.ok.inj hr).symm, rfl⟩

/-- A field that is no text with a fragment keeps its text, whatever becomes of the others. -/
theorem resolveFields_text {fields fields' : Fields} {key : String} (hr : resolveFields scope fields = .ok fields')
    (h : ∀ text, Keyed.get? fields key = some (.str text) → hasFragment text = false) :
    (Keyed.get? fields' key).bind str? = (Keyed.get? fields key).bind str? := by
  induction fields generalizing fields' with
  | nil =>
    obtain rfl := Except.ok.inj hr
    rfl
  | cons e rest ih =>
    obtain ⟨k, v⟩ := e
    unfold resolveFields at hr
    cases hv : resolveNode scope v with
    | error err => rw [hv] at hr; cases hr
    | ok field =>
      cases hrest : resolveFields scope rest with
      | error err => rw [hv, hrest] at hr; cases hr
      | ok rest' =>
        rw [hv, hrest] at hr
        obtain rfl := Except.ok.inj hr
        rw [Keyed.get?_cons] at h ⊢
        by_cases hk : k = key
        · rw [if_pos hk] at h ⊢
          obtain ⟨v', rfl, htext⟩ := resolveNode_text hv fun text htext => h text (congrArg some htext)
          simpa only [Keyed.get?_cons, if_pos hk, Option.bind_some] using htext
        · rw [if_neg hk] at h ⊢
          rw [← ih hrest h]
          cases field with
          | none => rfl
          | some v' => simp only [Keyed.get?_cons, if_neg hk]

/-- Inputs that are no lone fragment show the texts of their fields: one without fragments is what it is written to be. -/
theorem resolve_text {v v' : Value} {key : String} (hr : v.resolve scope = .ok v')
    (hsight : ∀ text, v = .str text → (Template.ofString text).lone? = none)
    (h : ∀ text, (v.get? key).bind str? = some text → hasFragment text = false) :
    (v'.get? key).bind str? = (v.get? key).bind str? := by
  unfold resolve at hr
  cases hn : v.resolveNode scope with
  | error err => rw [hn] at hr; cases hr
  | ok r =>
    rw [hn] at hr
    obtain rfl := Except.ok.inj hr
    cases v with
    | null => obtain rfl := Except.ok.inj hn; rfl
    | bool b => obtain rfl := Except.ok.inj hn; rfl
    | num n => obtain rfl := Except.ok.inj hn; rfl
    | arr items =>
      unfold resolveNode at hn
      cases hi : resolveItems scope items with
      | error err => rw [hi] at hn; cases hn
      | ok items' => rw [hi] at hn; obtain rfl := Except.ok.inj hn; rfl
    | str text =>
      unfold resolveNode Template.resolve at hn
      simp only [hsight text rfl] at hn
      split at hn
      · cases hf : Template.fill scope (Template.ofString text).rest (Template.ofString text).spans with
        | error err => rw [hf] at hn; cases hn
        | ok filled => rw [hf] at hn; obtain rfl := Except.ok.inj hn; rfl
      · obtain rfl := Except.ok.inj hn
        rfl
    | obj fields =>
      unfold resolveNode at hn
      cases hf : resolveFields scope fields with
      | error err => rw [hf] at hn; cases hn
      | ok fields' =>
        rw [hf] at hn
        obtain rfl := Except.ok.inj hn
        refine resolveFields_text hf fun text htext => h text ?_
        show (Keyed.get? fields key).bind str? = some text
        rw [htext]
        rfl

end Value

/-- In a run, every call with the place of a step has inputs of this step. -/
theorem Machine.Conforms.inputs_of_call {w : Workflow} (hw : w.Valid) {e : Engine} {m : Machine} (h : m.Conforms w e)
    {path : List String} {p : Plan} (hp : w.definition.PlanAt path p) {c : Call} (hc : Trace.called c ∈ m.trace)
    (hpath : c.path = path) : ∃ scope, p.step.inputs.resolve scope = .ok c.inputs := by
  obtain ⟨s, hs, -, hinputs⟩ := h.call_at_place hc
  obtain rfl := hp.unique hw.faultless (hpath ▸ hs)
  exact hinputs

/-- A step that posts every item of an input to a written address. -/
def Step.samplePost : Step :=
  let inputs : Value := .obj [("body", .str "\x7b\x7b item \x7d\x7d"), ("url", .str "https://api.test/items")]
  { Step.empty with id := "post", tool := "http", forEach := some "inputs.xs", inputs }

def Definition.samplePost : Definition := { Definition.empty with name := "sample", steps := [.samplePost] }

/-- A step that requests what an input says. -/
def Step.sampleRequest : Step :=
  { Step.empty with id := "fetch", tool := "http", inputs := .str "\x7b\x7b inputs.req \x7d\x7d" }

def Definition.sampleRequest : Definition := { Definition.empty with name := "sample", steps := [.sampleRequest] }

namespace Workflow

/-- What the audit has seen is what is called, whatever reads the addresses. Take a step at any place of a valid definition whose inputs
are not one lone fragment. Of a step that requests something and is not reported to have a dynamic address, every call, in every run, has
the address that is written, if any, and what the audit finds about that address is in the report. Of a step that ingests something and
is not reported to have a templated name, every call has the names of database and collection that are written. -/
theorem audited_inputs_are_called [Url.Reader] {d : Definition} {w : Workflow} (hd : ofDefinition d = .ok w) (policy : AuditPolicy)
    (e : Engine) (inputs : Fields) (now : Nat) {m : Machine} (hrun : Machine.Run w e .any (.start w inputs now) m)
    {path : List String} {p : Plan} (hp : d.PlanAt path p) (hsight : ∀ text, p.step.inputs = .str text → (Template.ofString text).lone? = none) :
    (p.step.toolKind? = some .http →
      (∀ f ∈ (policy.audit d).findings, f.step = some (Audit.labelOf path) → ¬f.IsDynamicUrl) →
      (∀ c, Trace.called c ∈ m.trace → c.path = path → (c.inputs.get? "url").bind Value.str? = p.step.inputText? "url") ∧
      ∀ url, p.step.inputText? "url" = some url → hasFragment url = false ∧
        ∀ severity message, (severity, message) ∈ Audit.requestFindings policy url →
          (⟨severity, message, some (Audit.labelOf path)⟩ : Finding) ∈ (policy.audit d).findings) ∧
    (p.step.toolKind? = some .ingest →
      (∀ f ∈ (policy.audit d).findings, f.step = some (Audit.labelOf path) → ¬f.IsTemplatedName) →
      ∀ c, Trace.called c ∈ m.trace → c.path = path → ∀ field ∈ Audit.targetFields,
        (c.inputs.get? field).bind Value.str? = p.step.inputText? field) := by
  obtain ⟨rfl, hw⟩ := valid_of_definition hd
  have hs := hrun.sound hw (Machine.start_sound hw e inputs now)
  refine ⟨fun ht hclean => ⟨?_, ?_⟩, fun ht hclean => ?_⟩
  · intro c hc hpath
    obtain ⟨scope, hinputs⟩ := hs.conforms.inputs_of_call hw hp hc hpath
    exact Value.resolve_text hinputs hsight fun url hurl => Audit.url_literal hp ht hclean hurl
  · intro url hurl
    exact ⟨Audit.url_literal hp ht hclean hurl, fun _ _ h => Audit.request_reported hp ht hurl h⟩
  · intro c hc hpath field hfield
    obtain ⟨scope, hinputs⟩ := hs.conforms.inputs_of_call hw hp hc hpath
    exact Value.resolve_text hinputs hsight fun name hname => Audit.target_literal hp ht hclean hfield hname

/-- A step that posts every item of an input to a written address: the audit finds nothing but iterations without bound, and the call
for the first item goes to this address. -/
theorem audited_inputs_are_called_of_post : ∃ (w : Workflow) (m : Machine) (c : Call), ofDefinition .samplePost = .ok w ∧
    Machine.Run w ⟨.default, fun _ => true⟩ .any (.start w [("xs", .arr [.str "one"])] 0) m ∧ Trace.called c ∈ m.trace ∧
    (AuditPolicy.default.audit .samplePost).findings = [⟨.medium, "unbounded iteration: no maxIterations", some "post"⟩] ∧
    c.path = ["post"] ∧ (c.inputs.get? "body").bind Value.str? = some "one" ∧
    (c.inputs.get? "url").bind Value.str? = some "https://api.test/items" := by
  let e : Engine := ⟨.default, fun _ => true⟩
  let moves : List Move := [.dispatch, .ask "post", .begin "post" none]
  let last (w : Workflow) : Machine := moves.foldl (fun m mv => (m.move w e 0 mv).1) (.start w [("xs", .arr [.str "one"])] 0)
  have hcalls : ((ofDefinition .samplePost).toOption.map fun w =>
      (last w).calls.map fun c => (c.path, (c.inputs.get? "body").bind Value.str?)) = some [(["post"], some "one")] := by
    decide +kernel
  obtain ⟨w, hw, hcalls⟩ := Option.map_eq_some_iff.mp hcalls
  have hd := ofDefinition_of_toOption hw
  obtain ⟨c, hc, hcall⟩ := List.mem_map.mp (hcalls ▸ List.mem_singleton_self (["post"], some "one"))
  obtain ⟨hpath, hbody⟩ := Prod.mk.inj hcall
  have hmem := Machine.mem_calls.mp hc
  have hrun := Machine.run_foldl w e 0 moves (.start w [("xs", .arr [.str "one"])] 0)
  have hfindings : (AuditPolicy.default.audit .samplePost).findings =
      [⟨.medium, "unbounded iteration: no maxIterations", some "post"⟩] := by decide +kernel
  have hclean : ∀ f ∈ (AuditPolicy.default.audit .samplePost).findings, f.step = some (Audit.labelOf ["post"]) →
      ¬f.IsDynamicUrl := by
    rw [hfindings]
    rintro f hf - ⟨hhigh, -⟩
    obtain rfl := List.mem_singleton.mp hf
    cases hhigh
  have hp : Definition.samplePost.PlanAt ["post"] (Plan.ofStep .samplePost) := by
    refine ⟨Plan.ofStep .samplePost, by simp [Definition.plans, Definition.samplePost], ?_⟩
    rw [Plan.step_ofStep]
    exact .here
  have hstep := Plan.step_ofStep Step.samplePost
  have haudit := (audited_inputs_are_called hd .default e [("xs", .arr [.str "one"])] 0 hrun hp (by simp [Step.samplePost])).1
    (by rw [hstep]; decide) hclean
  refine ⟨w, last w, c, hd, hrun, hmem, hfindings, hpath, hbody, ?_⟩
  rw [haudit.1 c hmem hpath, hstep]
  decide

/-- Inputs that are one lone fragment hide the address from the audit: it finds nothing, and the call goes where an input says. -/
theorem hidden_url_unaudited : ∃ (w : Workflow) (m : Machine) (c : Call), ofDefinition .sampleRequest = .ok w ∧
    (AuditPolicy.default.audit .sampleRequest).findings = [] ∧ Step.sampleRequest.toolKind? = some .http ∧
    Machine.Run w ⟨.default, fun _ => true⟩ .any (.start w [("req", .obj [("url", .str "http://localhost/")])] 0) m ∧
    Trace.called c ∈ m.trace ∧ c.path = ["fetch"] ∧ (c.inputs.get? "url").bind Value.str? = some "http://localhost/" ∧
    Step.sampleRequest.inputText? "url" = none := by
  let e : Engine := ⟨.default, fun _ => true⟩
  let moves : List Move := [.dispatch, .ask "fetch", .begin "fetch" none]
  let last (w : Workflow) : Machine :=
    moves.foldl (fun m mv => (m.move w e 0 mv).1) (.start w [("req", .obj [("url", .str "http://localhost/")])] 0)
  have hcalls : ((ofDefinition .sampleRequest).toOption.map fun w =>
      (last w).calls.map fun c => (c.path, (c.inputs.get? "url").bind Value.str?)) = some [(["fetch"], some "http://localhost/")] := by
    decide +kernel
  obtain ⟨w, hw, hcalls⟩ := Option.map_eq_some_iff.mp hcalls
  obtain ⟨c, hc, hcall⟩ := List.mem_map.mp (hcalls ▸ List.mem_singleton_self (["fetch"], some "http://localhost/"))
  obtain ⟨hpath, hurl⟩ := Prod.mk.inj hcall
  exact ⟨w, last w, c, ofDefinition_of_toOption hw, by decide +kernel, by decide, Machine.run_foldl w e 0 moves _,
    Machine.mem_calls.mp hc, hpath, hurl, by decide⟩

end Workflow

end Runbook
