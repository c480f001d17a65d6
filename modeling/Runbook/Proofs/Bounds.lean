import Runbook.Proofs.Auditing
import Runbook.Proofs.Cancellation
import Runbook.Proofs.Quotas
import Runbook.Proofs.Scheduling

/-!
# Iterations that the audit has bounded

A step that goes through a sequence, and of which the audit does not report that it does so without bound, has a maximum of iterations
that the policy allows. However a run is driven, whatever the sequence and the settings, no execution of the step has more iterations.
-/

namespace Runbook

/-- Says that a step goes through a sequence without a bound that the policy allows. -/
def Finding.IsUnboundedIteration (f : Finding) : Prop :=
  f.severity = .medium ∧ (f.message = "unbounded iteration: no maxIterations" ∨
    ∃ n ceiling : Nat, f.message = s!"unbounded iteration: maxIterations {n} exceeds {ceiling}")

namespace Audit

/-- What is found of iterations is found of the step. -/
theorem mem_step_of_iteration [Url.Reader] {policy : AuditPolicy} {label : String} {s : Step} (hiterates : s.iterates = true)
    {severity : Severity} {message : String} (h : (severity, message) ∈ iteration policy s) :
    (⟨severity, message, some label⟩ : Finding) ∈ step policy label s := by
  simp only [step, hiterates, if_true]
  exact List.mem_map_of_mem (f := fun (x : Severity × String) => (⟨x.1, x.2, some label⟩ : Finding)) (List.mem_append_right _ h)

/-- An iterating step of which nothing of the kind is reported has a maximum that the policy allows, whatever the settings. -/
theorem maxIterations_le [Url.Reader] {policy : AuditPolicy} {d : Definition} {path : List String} {p : Plan} (hp : d.PlanAt path p)
    (hiterates : p.step.iterates = true)
    (hclean : ∀ f ∈ (policy.audit d).findings, f.step = some (labelOf path) → ¬f.IsUnboundedIteration) (e : Engine) :
    e.maxIterations p.step ≤ policy.maxIterationsCeiling := by
  have hreported {severity : Severity} {message : String} (h : (severity, message) ∈ iteration policy p.step) :
      (⟨severity, message, some (labelOf path)⟩ : Finding) ∈ (policy.audit d).findings :=
    step_subset_audit hp (mem_step_of_iteration hiterates h)
  cases hmax : p.step.maxIterations with
  | none =>
    have hmem : (Severity.medium, "unbounded iteration: no maxIterations") ∈ iteration policy p.step := by simp [iteration, hmax]
    exact absurd ⟨rfl, Or.inl rfl⟩ (hclean _ (hreported hmem) rfl)
  | some n =>
    rw [Engine.maxIterations, hmax, Option.getD_some]
    by_contra hexceeds
    have hmem : (Severity.medium, s!"unbounded iteration: maxIterations {n} exceeds {policy.maxIterationsCeiling}") ∈
        iteration policy p.step := by
      simp only [iteration, hmax]
      rw [if_pos (Nat.lt_of_not_le hexceeds)]
      exact List.mem_singleton_self _
    exact hclean _ (hreported hmem) rfl ⟨rfl, Or.inr ⟨n, policy.maxIterationsCeiling, rfl⟩⟩

end Audit

/-- A note of a plan is left on the way of the plan. -/
theorem Plan.Leaves.on_way {e : Engine} {path : List String} {p : Plan} {n : Note} (h : p.Leaves e path n) :
    ∃ path', path <+: path' ∧ ((∃ err, n = .failed path' err) ∨ ∃ summary, n = .iterated path' summary) := by
  induction h with
  | @failed path _ err _ => exact ⟨path, List.prefix_refl path, Or.inl ⟨err, rfl⟩⟩
  | @iterated path _ summary _ _ => exact ⟨path, List.prefix_refl path, Or.inr ⟨summary, rfl⟩⟩
  | body _ _ ih =>
    obtain ⟨path', hprefix, hnote⟩ := ih
    exact ⟨path', (List.prefix_append _ _).trans hprefix, hnote⟩

namespace Machine

/-! ## What happens in a run -/

/-- What a move adds to a trace, in the order in which it happens: a step that goes on makes calls only to wait for them, so it makes
them last. -/
def callsLast (new : List Trace) : List Trace := new.filter (!·.call?.isSome) ++ new.filter (·.call?.isSome)

/-- A run with what happens in it. -/
inductive History (w : Workflow) (e : Engine) (m : Machine) : List Trace → Machine → Prop
  | refl : History w e m [] m
  | move {acts new : List Trace} {m' : Machine} (h : History w e m acts m') (now : Nat) (mv : Move)
      (added : (m'.move w e now mv).1.trace = m'.trace ++ new) : History w e m (acts ++ callsLast new) (m'.move w e now mv).1

variable {w : Workflow} {e : Engine} {inputs : Fields} {m m' : Machine}

theorem History.run {acts : List Trace} (h : History w e m acts m') : Run w e .any m m' := by
  induction h with
  | refl => exact .refl
  | move _ now mv _ ih => exact ih.move now mv trivial

/-- All that happens in a run is in its trace, and nothing else. -/
theorem History.perm {acts : List Trace} (h : History w e m acts m') : m'.trace.Perm (m.trace ++ acts) := by
  induction h with
  | refl => simp
  | @move acts new m' _ now mv added ih =>
    have hnew : new.Perm (callsLast new) := (List.filter_append_perm (·.call?.isSome) new).symm.trans List.perm_append_comm
    rw [added, ← List.append_assoc]
    exact ih.append hnew

/-- There is a history of every run. -/
theorem Run.history (hw : w.Valid) (h : m.Sound w e inputs) (hrun : Run w e .any m m') : ∃ acts, History w e m acts m' := by
  induction hrun with
  | refl => exact ⟨[], .refl⟩
  | move hrun now mv _ ih =>
    obtain ⟨acts, hacts⟩ := ih
    obtain ⟨new, hnew, -⟩ := trace_move hw (hrun.sound hw h) now mv
    exact ⟨_, hacts.move now mv hnew⟩

/-- What is no call stays in front. -/
theorem callsLast_append (new new' : List Trace) (h : ∀ x ∈ new, x.call? = none) :
    callsLast (new ++ new') = new ++ callsLast new' := by
  have hall : new.filter (!·.call?.isSome) = new := List.filter_eq_self.mpr fun x hx => by simp [h x hx]
  have hnone : new.filter (·.call?.isSome) = [] := List.filter_eq_nil_iff.mpr fun x hx => by simp [h x hx]
  simp only [callsLast, List.filter_append, hall, hnone, List.nil_append, List.append_assoc]

/-- Calls move behind what is none. -/
theorem callsLast_calls (calls : List Call) (after : List Trace) (h : ∀ x ∈ after, x.call? = none) :
    callsLast (calls.map Trace.called ++ after) = after ++ calls.map Trace.called := by
  have hafter : after.filter (!·.call?.isSome) = after := List.filter_eq_self.mpr fun x hx => by simp [h x hx]
  have hnone : after.filter (·.call?.isSome) = [] := List.filter_eq_nil_iff.mpr fun x hx => by simp [h x hx]
  have hcalls : (calls.map Trace.called).filter (·.call?.isSome) = calls.map Trace.called :=
    List.filter_eq_self.mpr (List.forall_mem_map.mpr fun _ _ => rfl)
  have hother : (calls.map Trace.called).filter (!·.call?.isSome) = [] :=
    List.filter_eq_nil_iff.mpr (List.forall_mem_map.mpr fun _ _ => by simp [Trace.call?])
  simp only [callsLast, List.filter_append, hafter, hnone, hcalls, hother, List.nil_append, List.append_nil]

/-- What is neither a call nor a note. -/
def Still (x : Trace) : Prop := x.call? = none ∧ ∀ n, x ≠ .noted n

/-- A step that advances adds what it does until it rests, and maybe that it ended or died. -/
theorem trace_advance_eq (token : CancelToken) (id : String) (p : Proc (Outcome StepError)) (m : Machine) :
    ∃ after, (m.advance token id p).1.trace = m.trace ++ (traceOf (p.settle m.context.scope token) ++ after) ∧ ∀ x ∈ after, Still x := by
  have hlast {x : Trace} (hx : Still x) : ∀ y ∈ [x], Still y := fun y hy => List.mem_singleton.mp hy ▸ hx
  rcases advance_cases token id p m with ⟨o, -, heq⟩ | ⟨-, heq⟩ | ⟨-, -, heq⟩ <;> rw [heq]
  · refine ⟨[.ended id o], ?_, hlast ⟨rfl, nofun⟩⟩
    rw [← List.append_assoc, ← trace_log]
    rfl
  · refine ⟨[.died id], ?_, hlast ⟨rfl, nofun⟩⟩
    rw [← List.append_assoc, ← trace_log]
    rfl
  · refine ⟨[], ?_, nofun⟩
    rw [List.append_nil, ← trace_log m token]
    rfl

/-! ## Quotas in a run -/

section Quotas

variable {q : Quota} {top : String} {k k' : Nat}

/-- What a step does until it rests stays within a quota also beside what is free. -/
theorem spends_callsLast {s : Settled α} (h : q.Spends k s.acts k') {before after : List Trace}
    (hbefore : ∀ x ∈ before, q.Free x ∧ x.call? = none) (hafter : ∀ x ∈ after, q.Free x ∧ x.call? = none) :
    q.Spends k (callsLast (before ++ (traceOf s ++ after))) k' := by
  obtain ⟨k₁, hnotes, hcalls⟩ := h.split
  have hrest : ∀ x ∈ s.notes.map Trace.noted ++ after, x.call? = none :=
    List.forall_mem_append.mpr ⟨List.forall_mem_map.mpr fun _ _ => rfl, fun x hx => (hafter x hx).2⟩
  have heq : callsLast (before ++ (traceOf s ++ after)) =
      before ++ (s.notes.map Trace.noted ++ (after ++ (s.calls.map (·.2)).map Trace.called)) := by
    rw [callsLast_append _ _ fun x hx => (hbefore x hx).2]
    have hlast := callsLast_calls (s.calls.map (·.2)) _ hrest
    simp only [traceOf, List.append_assoc, List.map_map] at hlast ⊢
    rw [← hlast]
    rfl
  rw [heq]
  refine (Quota.Spends.free fun x hx => (hbefore x hx).1).append (hnotes.append ?_)
  exact (Quota.Spends.free fun x hx => (hafter x hx).1).append hcalls

/-- What is left of a quota for a step outside of loops, or for one in its body: all of it before the step had its turn, and then enough
for what it still does. -/
structure Within (q : Quota) (top : String) (m : Machine) (left : Nat) : Prop where
  fresh : top ∉ m.turnedIds → q.limit ≤ left
  running : ∀ t ∈ m.tasks, ∀ p, t.id = top → t.phase = .active p → p.RestsThrifty q (fun _ l => q.limit ≤ l) left

/-- A step that advances leaves of the quota what it does not use, which is all if it is another step. -/
theorem Within.advance (h : m.Within q top k) (htasks : m'.tasks = m.tasks) {t : Task} {token : CancelToken} {p : Proc (Outcome StepError)}
    (hother : t.id ≠ top → k' = k)
    (hown : t.id = top → (p.settle m'.context.scope token).proc.RestsThrifty q (fun _ l => q.limit ≤ l) k')
    (hfresh : top ∉ m'.turnedIds → q.limit ≤ k') : (m'.advance token t.id p).1.Within q top k' := by
  refine ⟨?_, ?_⟩
  · rw [turnedIds_advance]
    exact hfresh
  · intro u hu p' hid hp'
    rcases mem_tasks_advance hu with ⟨hu, hne⟩ | ⟨hut, hactive⟩
    · have hkeep : k' = k := hother fun heq => hne (hid.trans heq.symm)
      exact hkeep ▸ h.running u (htasks ▸ hu) p' hid hp'
    · obtain rfl := Phase.active.inj (hp'.symm.trans hactive)
      exact hown (hut.symm.trans hid)

/-- What another step does is free. -/
theorem free_of_keeps {t : Task} {P : Outcome StepError → Prop} {before : List (CallIndex × Call)} {s : Settled (Outcome StepError)}
    (hs : s.Keeps (t.plan.conduct e [t.id]) P before) (haside : q.Aside [t.id]) : ∀ x ∈ s.acts, q.Free x := by
  have hway {path : List String} (h : [t.id] <+: path) : q.Aside path := fun hbelow => haside (h.trans hbelow)
  intro x hx
  rcases List.mem_append.mp hx with hx | hx
  · obtain ⟨n, hn, rfl⟩ := List.mem_map.mp hx
    obtain ⟨path, hprefix, ⟨err, rfl⟩ | ⟨summary, rfl⟩⟩ := (hs.notes n hn).on_way
    · exact Quota.Aside.free_failed path err
    · exact (hway hprefix).free_iterated summary
  · obtain ⟨c, hc, rfl⟩ := List.mem_map.mp hx
    obtain ⟨c', hc', rfl⟩ := List.mem_map.mp hc
    exact (hway (hs.calls c' hc').prefix_path).free_called

/-- A step outside of loops that does not have the one that a quota is for in its body is aside. -/
theorem aside_of_head (htop : q.path.head? = some top) {id : String} (hid : id ≠ top) : q.Aside [id] := by
  rintro ⟨rest, hrest⟩
  obtain ⟨rest', hrest'⟩ := q.below
  cases hpath : q.path with
  | nil => rw [hpath] at htop; cases htop
  | cons first path =>
    rw [hpath] at htop hrest'
    obtain rfl : first = top := Option.some.inj htop
    exact hid (List.cons.inj (hrest.trans hrest'.symm)).1

/-- What happens when a step advances stays within a quota when what it does until it rests does. -/
theorem spends_advance {t : Task} {token : CancelToken} {p : Proc (Outcome StepError)} (before : List Trace) {new : List Trace}
    (hbefore : m'.trace = m.trace ++ before) (hstill : ∀ x ∈ before, Still x) (hnew : (m'.advance token t.id p).1.trace = m.trace ++ new)
    (h : q.Spends k (p.settle m'.context.scope token).acts k') : q.Spends k (callsLast new) k' := by
  obtain ⟨after, htrace, hafter⟩ := trace_advance_eq token t.id p m'
  rw [hbefore, List.append_assoc, hnew, List.append_cancel_left_eq] at htrace
  rw [htrace]
  exact spends_callsLast h (fun x hx => ⟨Quota.free_of_still (hstill x hx).1 (hstill x hx).2, (hstill x hx).1⟩)
    fun x hx => ⟨Quota.free_of_still (hafter x hx).1 (hafter x hx).2, (hafter x hx).1⟩

/-- A step for whose plan a quota suffices begins with enough of it. -/
theorem begun_thrifty {t : Task} (h : (e.dispatch [t.id] t.plan).Thrifty q (fun _ l => q.limit ≤ l) q.limit)
    (decision : Except StepError Bool) : (t.begun e decision).Thrifty q (fun _ l => q.limit ≤ l) q.limit := by
  cases decision with
  | error err => exact Engine.conclude_thrifty [t.id] (.error err)
  | ok b =>
    cases b with
    | true => exact h
    | false => exact .done (Nat.le_refl _) (Nat.le_refl _)

/-- A move in which no step goes on takes nothing. -/
theorem Within.still (h : m.Within q top k) (new : List Trace) (hnew : m'.trace = m.trace ++ new) (hstill : ∀ x ∈ new, Still x)
    (hturned : m'.turnedIds = m.turnedIds) (htasks : ∀ t ∈ m'.tasks, ∀ p, t.phase = .active p → t ∈ m.tasks) {added : List Trace}
    (hadded : m'.trace = m.trace ++ added) : ∃ k', q.Spends k (callsLast added) k' ∧ m'.Within q top k' := by
  obtain rfl : new = added := List.append_cancel_left (hnew.symm.trans hadded)
  have hcalls := callsLast_append new [] fun x hx => (hstill x hx).1
  rw [List.append_nil] at hcalls
  refine ⟨k, ?_, hturned ▸ h.fresh, fun t ht p hid hp => h.running t (htasks t ht p hp) p hid hp⟩
  rw [hcalls]
  refine (Quota.Spends.free ?_).append (.nil (Nat.le_refl k))
  exact fun x hx => Quota.free_of_still (hstill x hx).1 (hstill x hx).2

section Moves

variable (hw : w.Valid) (h : m.Within q top k) (hs : m.Sound w e inputs) (ht : m.Turns w e) (htop : q.path.head? = some top)
  {new : List Trace}

include hw h hs ht htop

/-- A step that begins has all of the quota left if it is for the step or for one in its body, and uses nothing of it if it is for
another. -/
theorem Within.begin (hplan : ∀ p, w.plan? top = some p → (e.dispatch [top] p).Thrifty q (fun _ l => q.limit ≤ l) q.limit) {t : Task}
    (mem : t ∈ m.tasks) (queued : t.phase = .queued) {decision : Except StepError Bool}
    (hdecision : t.plan.step.admits m.context.scope = decision) (token : CancelToken)
    (hnew : ((m.decided t decision).advance token t.id (t.begun e decision)).1.trace = m.trace ++ new) :
    ∃ k', q.Spends k (callsLast new) k' ∧ ((m.decided t decision).advance token t.id (t.begun e decision)).1.Within q top k' := by
  have hturned := turnedIds_decided m t decision
  have htasks : (m.decided t decision).tasks = m.tasks := rfl
  have hstill : ∀ x ∈ [Trace.turn t.id decision], Still x := by
    intro x hx
    obtain rfl := List.mem_singleton.mp hx
    exact ⟨rfl, nofun⟩
  by_cases hid : t.id = top
  · subst hid
    have hleft := h.fresh (ht.waiting t mem queued)
    have hthrifty := (begun_thrifty (hplan t.plan (hs.scheduled.plans t mem)) decision).mono hleft
    obtain ⟨k', hspends, hrests⟩ := hthrifty.settle (m.decided t decision).context.scope token
    refine ⟨k', spends_advance _ rfl hstill hnew hspends, h.advance htasks (fun hne => absurd rfl hne) (fun _ => hrests) ?_⟩
    rw [hturned]
    exact fun hnot => absurd (List.mem_append_right _ (List.mem_singleton_self _)) hnot
  · have hobeys := hdecision ▸ Conforms.begun_obeys hw hs.scheduled e mem m.context.scope false
    have hkeeps := (Proc.UnderWay.fresh hobeys).settle (m.decided t decision).context.scope token
    have hspends := Quota.Spends.free (k := k) (free_of_keeps hkeeps (aside_of_head htop hid))
    refine ⟨k, spends_advance _ rfl hstill hnew hspends, h.advance htasks (fun _ => rfl) (fun heq => absurd heq hid) ?_⟩
    rw [hturned]
    exact fun hnot => h.fresh fun hmem => hnot (List.mem_append_left _ hmem)

omit hw in
/-- A step that goes on with a reply uses what is left, or nothing if it is another. -/
theorem Within.reply {t : Task} {p : Proc (Outcome StepError)} {index : CallIndex} {c : Call} (r : Reply) (mem : t ∈ m.tasks)
    (active : t.phase = .active p) (waits : (index, c) ∈ p.waitingFor) (token : CancelToken)
    (hnew : (m.advance token t.id (p.reply index r)).1.trace = m.trace ++ new) :
    ∃ k', q.Spends k (callsLast new) k' ∧ (m.advance token t.id (p.reply index r)).1.Within q top k' := by
  by_cases hid : t.id = top
  · subst hid
    obtain ⟨k', hspends, hrests⟩ := ((h.running t mem p rfl active).reply waits r).settle m.context.scope token
    refine ⟨k', spends_advance [] (by simp) (List.forall_mem_nil _) hnew hspends, h.advance rfl (fun hne => absurd rfl hne) (fun _ => hrests) ?_⟩
    exact fun hnot => absurd (ht.running t mem p active).1 hnot
  · have hkeeps := ((hs.conforms.procs t mem p active).1.reply index r).settle m.context.scope token
    have hspends := Quota.Spends.free (k := k) (free_of_keeps hkeeps (aside_of_head htop hid))
    refine ⟨k, spends_advance [] (by simp) (List.forall_mem_nil _) hnew hspends, ?_⟩
    exact h.advance rfl (fun _ => rfl) (fun heq => absurd heq hid) h.fresh

/-- Every move stays within a quota that suffices for the plan of the step. -/
theorem Within.move (hplan : ∀ p, w.plan? top = some p → (e.dispatch [top] p).Thrifty q (fun _ l => q.limit ≤ l) q.limit) (now : Nat)
    (mv : Move) (hnew : (m.move w e now mv).1.trace = m.trace ++ new) :
    ∃ k', q.Spends k (callsLast new) k' ∧ (m.move w e now mv).1.Within q top k' := by
  have heffect := move_effect w e now mv m
  generalize m.move w e now mv = r at heffect hnew
  have hsame {m' : Machine} (htrace : m'.trace = m.trace) (htasks : m'.tasks = m.tasks) (hadded : m'.trace = m.trace ++ new) :
      ∃ k', q.Spends k (callsLast new) k' ∧ m'.Within q top k' :=
    h.still [] (by rw [htrace, List.append_nil]) (List.forall_mem_nil _) (by rw [turnedIds, htrace, turnedIds]) (fun _ hu _ _ => htasks ▸ hu) hadded
  have hone (x : Trace) (hx : Still x) : ∀ y ∈ [x], Still y := fun y hy => List.mem_singleton.mp hy ▸ hx
  cases heffect with
  | idle => exact hsame rfl rfl hnew
  | @dispatched id =>
    refine h.still _ rfl (hone (.dispatched id) ⟨rfl, by simp⟩) (turnedIds_dispatching ..) ?_ hnew
    intro u hu p hp
    rcases List.mem_append.mp hu with hu | hu
    · exact hu
    · rw [List.mem_singleton.mp hu] at hp
      cases hp
  | passed => exact hsame rfl rfl hnew
  | dropped => exact hsame rfl rfl hnew
  | listened => exact hsame rfl rfl hnew
  | heard => exact hsame (hear_untouched w now m).2.2.1 (hear_untouched w now m).2.1 hnew
  | @joined index => exact hsame (join_untouched w now index m).2.2.1 (join_untouched w now index m).2.1 hnew
  | @asked t => exact h.still _ rfl (hone (.asked t.id) ⟨rfl, by simp⟩) (turnedIds_asking ..) (fun _ hu _ _ => hu) hnew
  | cancelled => exact hsame rfl rfl hnew
  | @refused t cut mem queued =>
    have htrace : (m.taking t.id).trace = m.trace ++ [] := (List.append_nil _).symm
    have htasks : (m.taking t.id).tasks = m.tasks := rfl
    refine ⟨k, spends_advance [] htrace (List.forall_mem_nil _) hnew (.nil (Nat.le_refl k)), ?_⟩
    refine h.advance htasks (fun _ => rfl) ?_ h.fresh
    rintro rfl
    exact .done (Nat.le_refl k) (h.fresh (ht.waiting t mem queued))
  | began mem queued _ _ => exact h.begin hw hs ht htop hplan mem queued rfl _ hnew
  | replied r mem active waits => exact h.reply hs ht htop r mem active waits _ hnew

end Moves

/-- A run stays within such a quota. -/
theorem History.within (hw : w.Valid) {now : Nat} (htop : q.path.head? = some top)
    (hplan : ∀ p, w.plan? top = some p → (e.dispatch [top] p).Thrifty q (fun _ l => q.limit ≤ l) q.limit) {acts : List Trace}
    (h : History w e (start w inputs now) acts m) : ∃ k, q.Spends q.limit acts k ∧ m.Within q top k := by
  induction h with
  | refl => exact ⟨q.limit, .nil (Nat.le_refl _), fun _ => Nat.le_refl _, nofun⟩
  | move h now' mv added ih =>
    obtain ⟨k, hspends, hwithin⟩ := ih
    have hs := h.run.sound hw (start_sound hw e inputs now)
    obtain ⟨k', hspends', hwithin'⟩ := hwithin.move hw hs (h.run.turns_and_gaps hw).1 htop hplan now' mv added
    exact ⟨k', hspends.append hspends', hwithin'⟩

end Quotas

end Machine

/-- A step of a body that goes through an input, once at most. -/
def Step.sampleBounded : Step :=
  { Step.empty with id := "fetch", tool := "http", forEach := some "inputs.ys", maxIterations := some 1 }

/-- A loop over an input with this step as its body. -/
def Step.sampleUnbounded : Step :=
  let inner : Value :=
    .obj [("forEach", .str "inputs.ys"), ("id", .str "fetch"), ("maxIterations", .ofNat 1), ("tool", .str "http")]
  { Step.empty with id := "each", tool := "loop", forEach := some "inputs.xs", inputs := .obj [("steps", .arr [inner])] }

def Definition.sampleBounded : Definition := { Definition.empty with name := "sample", steps := [.sampleUnbounded] }

/-- The plan of the sample. -/
theorem Plan.ofStep_sampleUnbounded : ofStep .sampleUnbounded = .loop .sampleUnbounded [.single .sampleBounded] := by
  have hbody : Step.sampleUnbounded.body = .ok [.sampleBounded] := by rfl
  rw [ofStep_loop (by rfl) hbody, List.map_cons, List.map_nil, ofStep_single (by rfl)]

namespace Workflow

open Machine

/-- A loop of which the audit does not report that it is unbounded is bounded. Take a step at any place of a valid definition that
iterates, and of which the report has no such finding. However a run is driven, with whatever settings, inputs and replies: no summary
of the step tells of more iterations than the policy allows. And between two summaries of the step, that is in one execution of it,
what an iteration leaves once at most is seen no more often than that: the call of the step, or the sign of a step of its body. -/
theorem unreported_iterations_bounded [Url.Reader] {d : Definition} {w : Workflow} (hd : ofDefinition d = .ok w)
    (policy : AuditPolicy) {path : List String} {p : Plan} (hp : d.PlanAt path p) (hiterates : p.step.iterates = true)
    (hclean : ∀ f ∈ (policy.audit d).findings, f.step = some (Audit.labelOf path) → ¬f.IsUnboundedIteration) (e : Engine)
    (inputs : Fields) (now : Nat) {m : Machine} (hrun : Run w e .any (start w inputs now) m) :
    (∃ acts, History w e (start w inputs now) acts m) ∧ ∀ acts, History w e (start w inputs now) acts m →
      acts.Perm m.trace ∧
      (∀ summary, .noted (.iterated path summary) ∈ acts →
        summary.results.length + summary.errors.length ≤ summary.total ∧ summary.total ≤ policy.maxIterationsCeiling) ∧
      ∀ sign, p.Signs path sign → ∀ before during after, acts = before ++ during ++ after →
        (∀ summary, .noted (.iterated path summary) ∉ during) → during.countP sign.shows ≤ policy.maxIterationsCeiling := by
  obtain ⟨rfl, hw⟩ := valid_of_definition hd
  have hfaultless := hp.faultless hw.faultless
  obtain ⟨r, hr, hat⟩ := hp
  have hlimit := Audit.maxIterations_le ⟨r, hr, hat⟩ hiterates hclean e
  have hhead : path.head? = some r.step.id := by
    obtain ⟨rest, rfl⟩ := hat.prefix_path
    rfl
  have hspends {acts : List Trace} (h : History w e (start w inputs now) acts m) {sign : Sign} (hsign : p.Signs path sign) :
      ∃ k, (⟨path, sign, policy.maxIterationsCeiling, hsign.below⟩ : Quota).Spends policy.maxIterationsCeiling acts k := by
    let q : Quota := ⟨path, sign, policy.maxIterationsCeiling, hsign.below⟩
    have hplan : ∀ p', w.plan? r.step.id = some p' → (e.dispatch [r.step.id] p').Thrifty q (fun _ l => q.limit ≤ l) q.limit := by
      intro p' hp'
      obtain ⟨hp', hid⟩ := plan?_some hp'
      obtain rfl : p' = r := Definition.PlanAt.unique hw.faultless ⟨p', hp', .here⟩ ⟨r, hr, hid ▸ .here⟩
      exact Engine.dispatch_around (q := q) e hat rfl (hw.faultless.plans p' hr)
        (Engine.dispatch_renews (q := q) e hfaultless hiterates hsign hlimit)
    obtain ⟨k, hspends, -⟩ := h.within (q := q) hw hhead hplan
    exact ⟨k, hspends⟩
  refine ⟨hrun.history hw (start_sound hw e inputs now), fun acts hacts => ⟨?_, ?_, ?_⟩⟩
  · exact hacts.perm.symm
  · intro summary hmem
    obtain ⟨sign, hsign⟩ := hfaultless.exists_signs path
    obtain ⟨k, hspends⟩ := hspends hacts hsign
    obtain ⟨hcounted, htotal⟩ := hspends.fits_of_mem hmem
    exact ⟨hcounted, htotal⟩
  · rintro sign hsign before during after rfl hduring
    obtain ⟨k, hspends⟩ := hspends hacts hsign
    obtain ⟨k₁, hfront, -⟩ := hspends.split
    obtain ⟨k₀, hbefore, hspent⟩ := hfront.split
    exact (hspent.countP_le hduring).trans (hbefore.le_limit (Nat.le_refl _))

/-- A step in a loop is executed for both items of the loop. Its own sequence has two items as well, but it may have one iteration only,
and that is what the policy allows: the audit reports the loop, and not the step. The step is called twice, and each time it sums up
one iteration. -/
theorem unreported_iterations_bounded_of_nested : ∃ (w : Workflow) (m : Machine) (acts : List Trace),
    let policy : AuditPolicy := { AuditPolicy.default with maxIterationsCeiling := 1 }
    let inputs : Fields := [("xs", .arr [.null, .null]), ("ys", .arr [.null, .null])]
    let fetches : Sign := .call ["each", "fetch"]
    ofDefinition .sampleBounded = .ok w ∧
    (policy.audit .sampleBounded).findings = [⟨.medium, "unbounded iteration: no maxIterations", some "each"⟩] ∧
    Run w ⟨.default, fun _ => true⟩ .any (start w inputs 0) m ∧ History w ⟨.default, fun _ => true⟩ (start w inputs 0) acts m ∧
    acts.countP fetches.shows = 2 ∧ acts.countP (Sign.summary ["each", "fetch"]).shows = 2 ∧
    (∀ summary, .noted (.iterated ["each", "fetch"] summary) ∈ acts → summary.total ≤ 1) ∧
    ∀ before during after, acts = before ++ during ++ after →
      (∀ summary, .noted (.iterated ["each", "fetch"] summary) ∉ during) → during.countP fetches.shows ≤ 1 := by
  let e : Engine := ⟨.default, fun _ => true⟩
  let inputs : Fields := [("xs", .arr [.null, .null]), ("ys", .arr [.null, .null])]
  let moves : List Move := [.dispatch, .ask "each", .begin "each" none, .reply ⟨"each", some 0⟩ (.answer (.value .null)) none,
    .reply ⟨"each", some 0⟩ (.answer (.value .null)) none]
  let last (w : Workflow) : Machine := moves.foldl (fun m mv => (m.move w e 0 mv).1) (start w inputs 0)
  have hcounts : ((ofDefinition .sampleBounded).toOption.map fun w =>
      ((last w).trace.countP (Sign.call ["each", "fetch"]).shows, (last w).trace.countP (Sign.summary ["each", "fetch"]).shows)) =
      some (2, 2) := by decide +kernel
  obtain ⟨w, hd, hcounts⟩ := exists_of_map_toOption hcounts
  obtain ⟨hcalls, hsummaries⟩ := Prod.mk.inj hcounts
  have hfindings : (({ AuditPolicy.default with maxIterationsCeiling := 1 } : AuditPolicy).audit .sampleBounded).findings =
      [⟨.medium, "unbounded iteration: no maxIterations", some "each"⟩] := by decide +kernel
  have hat : Definition.sampleBounded.PlanAt ["each", "fetch"] (.single .sampleBounded) := by
    refine ⟨Plan.ofStep .sampleUnbounded, List.mem_cons_self, ?_⟩
    rw [Plan.ofStep_sampleUnbounded]
    exact .body List.mem_cons_self .here
  have hrun := Machine.run_foldl w e 0 moves (start w inputs 0)
  have hclean : ∀ f ∈ (({ AuditPolicy.default with maxIterationsCeiling := 1 } : AuditPolicy).audit .sampleBounded).findings,
      f.step = some (Audit.labelOf ["each", "fetch"]) → ¬f.IsUnboundedIteration := by
    rw [hfindings]
    rintro f hf hlabel -
    obtain rfl := List.mem_singleton.mp hf
    exact absurd hlabel (by decide)
  obtain ⟨⟨acts, hacts⟩, hbounded⟩ := unreported_iterations_bounded hd { AuditPolicy.default with maxIterationsCeiling := 1 } hat
    (by decide) hclean e inputs 0 hrun
  obtain ⟨hperm, hsummary, hsigns⟩ := hbounded acts hacts
  refine ⟨w, last w, acts, hd, hfindings, hrun, hacts, ?_, ?_, fun summary h => (hsummary summary h).2, hsigns _ .call⟩
  · exact (hperm.countP_eq _).trans hcalls
  · exact (hperm.countP_eq _).trans hsummaries

end Workflow

end Runbook
