import Runbook.Proofs.Schedule

/-!
# Places for running steps

As many permits of a semaphore are out as have been handed and as are in use, and nobody waits while one is left. Those who wait are the
last who have asked, in the order of asking: whoever has asked earlier has been handed a permit. In a run, the permits in use are those of
the steps that run, and every way on which a step comes to its end gives its permit back.
-/

namespace Runbook

namespace Semaphore

/-- What a semaphore keeps whose permits some are using. -/
structure Keeps (permits used : Nat) (s : Semaphore) : Prop where
  taken : s.taken = s.handed.length + used
  most : s.taken ≤ permits
  full : s.queue ≠ [] → s.taken = permits
  once : (s.handed ++ s.queue).Nodup

variable {permits used : Nat} {id : String} {s : Semaphore}

/-- A semaphore knows those that it has handed a permit and those that wait for one. -/
theorem knows_iff : s.knows id = true ↔ id ∈ s.handed ++ s.queue := by simp [knows]

/-- An idle semaphore keeps its permits. -/
theorem keeps_idle (permits : Nat) : idle.Keeps permits 0 := ⟨rfl, Nat.zero_le _, fun h => absurd rfl h, List.nodup_nil⟩

/-- Whoever asks for a permit is handed one if one is left, and waits behind all others if none is. -/
theorem Keeps.acquire_cases (h : s.Keeps permits used) (id : String) :
    (s.taken < permits ∧ s.queue = [] ∧ s.acquire permits id = { s with taken := s.taken + 1, handed := s.handed ++ [id] }) ∨
      (s.taken = permits ∧ s.acquire permits id = { s with queue := s.queue ++ [id] }) := by
  unfold acquire
  split
  · rename_i hlt
    refine .inl ⟨hlt, ?_, rfl⟩
    by_contra hqueue
    exact absurd (h.full hqueue) (Nat.ne_of_lt hlt)
  · rename_i hlt
    exact .inr ⟨Nat.le_antisymm h.most (Nat.not_lt.mp hlt), rfl⟩

/-- A semaphore keeps its permits when someone new asks for one. -/
theorem Keeps.acquire (h : s.Keeps permits used) (hid : id ∉ s.handed ++ s.queue) : (s.acquire permits id).Keeps permits used := by
  rcases h.acquire_cases id with ⟨hlt, hqueue, heq⟩ | ⟨hfull, heq⟩
  · rw [heq]
    refine ⟨?_, hlt, fun hne => absurd hqueue hne, ?_⟩
    · show s.taken + 1 = (s.handed ++ [id]).length + used
      rw [h.taken, List.length_append, List.length_singleton]
      omega
    · have honce := h.once
      rw [hqueue, List.append_nil] at honce hid ⊢
      exact List.nodup_append.mpr ⟨honce, List.nodup_singleton id, fun a ha b hb heq => hid (List.mem_singleton.mp hb ▸ heq ▸ ha)⟩
  · rw [heq]
    refine ⟨h.taken, h.most, fun _ => hfull, ?_⟩
    rw [← List.append_assoc]
    exact List.nodup_append.mpr ⟨h.once, List.nodup_singleton id, fun a ha b hb heq => hid (List.mem_singleton.mp hb ▸ heq ▸ ha)⟩

/-- Whoever has been handed a permit may use it. -/
theorem Keeps.take (h : s.Keeps permits used) (hid : id ∈ s.handed) : (s.take id).Keeps permits (used + 1) := by
  refine ⟨?_, h.most, h.full, h.once.sublist (List.erase_sublist.append_right _)⟩
  have hlength := List.length_erase_add_one hid
  have htaken := h.taken
  show s.taken = (s.handed.erase id).length + (used + 1)
  omega

/-- A permit that is given back is handed on, or it is left. -/
theorem Keeps.release (h : s.Keeps permits (used + 1)) : s.release.Keeps permits used := by
  have htaken := h.taken
  have hmost := h.most
  unfold Semaphore.release
  split
  · rename_i hqueue
    refine ⟨?_, ?_, fun hne => absurd hqueue hne, h.once⟩
    · show s.taken - 1 = s.handed.length + used
      omega
    · show s.taken - 1 ≤ permits
      omega
  · rename_i first queue hqueue
    refine ⟨?_, hmost, fun _ => h.full (hqueue ▸ List.cons_ne_nil _ _), ?_⟩
    · show s.taken = (s.handed ++ [first]).length + used
      rw [List.length_append, List.length_singleton]
      omega
    · have honce := h.once
      rw [hqueue] at honce
      show (s.handed ++ [first] ++ queue).Nodup
      rwa [List.append_assoc]

/-- Who waits longest leaves the queue when a permit comes back. -/
theorem release_queue (s : Semaphore) : s.release.queue = s.queue.tail := by
  unfold release
  split
  · rename_i hqueue
    simp [hqueue]
  · rename_i hqueue
    simp [hqueue]

/-- A permit that comes back lets nobody be forgotten. -/
theorem mem_release : id ∈ s.release.handed ++ s.release.queue ↔ id ∈ s.handed ++ s.queue := by
  unfold release
  split
  · exact .rfl
  · rename_i first queue hqueue
    simp [hqueue]

end Semaphore

namespace Machine

/-- The number of steps that run beside one. -/
def others (id : String) (m : Machine) : Nat := (m.tasks.filter (·.id ≠ id)).countP (·.phase.isActive)

/-- Of the places for running steps, as many are in use as steps run. Those who wait for one are the last who have asked; any other step
that has asked and has not begun has been handed one. No step has begun that has not asked. -/
structure Seated (e : Engine) (m : Machine) : Prop where
  keeps : m.places.Keeps e.settings.stepSlots m.running
  waiting : m.places.queue <:+ m.asked
  once : m.asked.Nodup
  dispatched : ∀ id ∈ m.asked, id ∈ m.dispatched
  asked : ∀ t ∈ m.tasks, t.phase = .queued → (t.id ∈ m.asked ↔ t.id ∈ m.places.handed ++ m.places.queue)
  queued : ∀ id ∈ m.places.handed ++ m.places.queue, ∃ t ∈ m.tasks, t.id = id ∧ t.phase = .queued
  unasked : ∀ id ∈ m.dispatched, id ∉ m.asked → ∃ t ∈ m.tasks, t.id = id ∧ t.phase = .queued

/-- The places while one step has gone on with its place. -/
structure Holding (e : Engine) (id : String) (m : Machine) : Prop where
  keeps : m.places.Keeps e.settings.stepSlots (m.others id + 1)
  waiting : m.places.queue <:+ m.asked
  once : m.asked.Nodup
  dispatched : ∀ id ∈ m.asked, id ∈ m.dispatched
  asked : ∀ t ∈ m.tasks, t.id ≠ id → t.phase = .queued → (t.id ∈ m.asked ↔ t.id ∈ m.places.handed ++ m.places.queue)
  queued : ∀ k ∈ m.places.handed ++ m.places.queue, ∃ t ∈ m.tasks, t.id = k ∧ t.id ≠ id ∧ t.phase = .queued
  unasked : ∀ k ∈ m.dispatched, k ∉ m.asked → ∃ t ∈ m.tasks, t.id = k ∧ t.id ≠ id ∧ t.phase = .queued

variable {w : Workflow} {e : Engine} {m : Machine} {t : Task}

/-- The running steps are those that run beside one of them, and this one. -/
theorem running_eq (hnd : (m.tasks.map (·.id)).Nodup) (ht : t ∈ m.tasks) :
    m.running = m.others t.id + if t.phase.isActive then 1 else 0 := by
  obtain ⟨before, after, hsplit, hfilter, -⟩ := tasks_split hnd ht
  rw [running, others, hfilter, hsplit, List.countP_append, List.countP_append, List.countP_cons]
  omega

namespace Holding

variable {id : String}

/-- Who holds a permit shows in the tasks, the places, and who has asked and was dispatched. -/
theorem of_eq {m' : Machine} (h : m.Holding e id) (htasks : m'.tasks = m.tasks) (hplaces : m'.places = m.places)
    (hasked : m'.asked = m.asked) (hdispatched : m'.dispatched = m.dispatched) : m'.Holding e id := by
  obtain ⟨h1, h2, h3, h4, h5, h6, h7⟩ := h
  have hothers : m'.others id = m.others id := by rw [others, htasks, others]
  refine ⟨?_, ?_, hasked ▸ h3, ?_, ?_, ?_, ?_⟩
  · rw [hplaces, hothers]
    exact h1
  · rw [hplaces, hasked]
    exact h2
  · rw [hasked, hdispatched]
    exact h4
  · rw [htasks, hasked, hplaces]
    exact h5
  · rw [htasks, hplaces]
    exact h6
  · rw [hdispatched, hasked, htasks]
    exact h7

/-- A step that is gone has given its place back. -/
theorem leave (h : m.Holding e id) {m' : Machine} (htasks : m'.tasks = m.tasks.filter (·.id ≠ id))
    (hplaces : m'.places = m.places.release) (hasked : m'.asked = m.asked) (hdispatched : m'.dispatched = m.dispatched) :
    m'.Seated e := by
  have hrunning : m'.running = m.others id := by rw [running, htasks, others]
  refine ⟨?_, ?_, hasked ▸ h.once, ?_, ?_, ?_, ?_⟩
  · rw [hplaces, hrunning]
    exact h.keeps.release
  · rw [hplaces, hasked, Semaphore.release_queue]
    exact (List.tail_suffix _).trans h.waiting
  · rw [hasked, hdispatched]
    exact h.dispatched
  · intro t ht hqueued
    rw [htasks] at ht
    obtain ⟨ht, hne⟩ := List.mem_filter.mp ht
    rw [hasked, hplaces, Semaphore.mem_release]
    exact h.asked t ht (by simpa using hne) hqueued
  · intro k hk
    rw [hplaces, Semaphore.mem_release] at hk
    obtain ⟨t, ht, htk, hne, hqueued⟩ := h.queued k hk
    exact ⟨t, htasks ▸ List.mem_filter.mpr ⟨ht, by simpa using hne⟩, htk, hqueued⟩
  · intro k hk hnot
    rw [hdispatched] at hk
    rw [hasked] at hnot
    obtain ⟨t, ht, htk, hne, hqueued⟩ := h.unasked k hk hnot
    exact ⟨t, htasks ▸ List.mem_filter.mpr ⟨ht, by simpa using hne⟩, htk, hqueued⟩

/-- A step that waits for replies keeps its place. -/
theorem suspend (h : m.Holding e t.id) (hnd : (m.tasks.map (·.id)).Nodup) (ht : t ∈ m.tasks) (p : Proc (Outcome StepError)) :
    (m.suspend t.id p).Seated e := by
  have hrunning : (m.suspend t.id p).running = m.others t.id + 1 := by
    obtain ⟨before, after, hsplit, hfilter, hmap⟩ := tasks_split hnd ht
    have htasks : (m.suspend t.id p).tasks = before ++ { t with phase := .active p } :: after := hmap _
    have hactive : List.countP (·.phase.isActive) ({ t with phase := .active p } :: after) = after.countP (·.phase.isActive) + 1 :=
      List.countP_cons_of_pos rfl
    rw [running, others, htasks, hfilter, List.countP_append, List.countP_append, hactive, Nat.add_assoc]
  refine ⟨hrunning ▸ h.keeps, h.waiting, h.once, h.dispatched, ?_, ?_, ?_⟩
  · intro u hu hqueued
    obtain ⟨v, hv, rfl⟩ := List.mem_map.mp hu
    by_cases hid : v.id = t.id
    · rw [if_pos hid] at hqueued
      cases hqueued
    · rw [if_neg hid] at hqueued ⊢
      exact h.asked v hv hid hqueued
  · intro k hk
    obtain ⟨u, hu, huk, hne, hqueued⟩ := h.queued k hk
    exact ⟨u, List.mem_map.mpr ⟨u, hu, if_neg hne⟩, huk, hqueued⟩
  · intro k hk hnot
    obtain ⟨u, hu, huk, hne, hqueued⟩ := h.unasked k hk hnot
    exact ⟨u, List.mem_map.mpr ⟨u, hu, if_neg hne⟩, huk, hqueued⟩

/-- On whatever way a step goes on, it keeps its place or gives it back. -/
theorem advance (h : m.Holding e t.id) (hnd : (m.tasks.map (·.id)).Nodup) (ht : t ∈ m.tasks) (token : CancelToken)
    (p : Proc (Outcome StepError)) : (m.advance token t.id p).1.Seated e := by
  have hlog : (m.log token (p.settle m.context.scope token)).Holding e t.id :=
    h.of_eq rfl rfl (asked_log ..) (dispatched_log ..)
  rcases advance_cases token t.id p m with ⟨o, -, heq⟩ | ⟨-, heq⟩ | ⟨-, -, heq⟩ <;> rw [heq]
  · exact hlog.leave rfl rfl (asked_finish ..) (dispatched_finish ..)
  · exact hlog.leave rfl rfl (asked_die ..) (dispatched_die ..)
  · exact hlog.suspend hnd ht _

end Holding

namespace Seated

/-- At the start nobody has a place. -/
theorem start (w : Workflow) (e : Engine) (inputs : Fields) (now : Nat) : (start w inputs now).Seated e :=
  ⟨Semaphore.keeps_idle _, List.suffix_refl _, List.nodup_nil, nofun, nofun, nofun, nofun⟩

/-- Nothing has changed about the places. -/
theorem of_eq {m' : Machine} (h : m.Seated e) (htasks : m'.tasks = m.tasks) (hplaces : m'.places = m.places)
    (hasked : m'.asked = m.asked) (hdispatched : m'.dispatched = m.dispatched) : m'.Seated e := by
  obtain ⟨h1, h2, h3, h4, h5, h6, h7⟩ := h
  have hrunning : m'.running = m.running := by rw [running, htasks, running]
  refine ⟨?_, ?_, hasked ▸ h3, ?_, ?_, ?_, ?_⟩
  · rw [hplaces, hrunning]
    exact h1
  · rw [hplaces, hasked]
    exact h2
  · rw [hasked, hdispatched]
    exact h4
  · rw [htasks, hasked, hplaces]
    exact h5
  · rw [htasks, hplaces]
    exact h6
  · rw [hdispatched, hasked, htasks]
    exact h7

/-- A step that runs has a place. -/
theorem holding_active (h : m.Seated e) (hnd : (m.tasks.map (·.id)).Nodup) (ht : t ∈ m.tasks) {p : Proc (Outcome StepError)}
    (hp : t.phase = .active p) : m.Holding e t.id := by
  have hrunning := running_eq hnd ht
  rw [hp, if_pos (show Phase.isActive (.active p) = true from rfl)] at hrunning
  have hother {u : Task} (hu : u ∈ m.tasks) (hqueued : u.phase = .queued) : u.id ≠ t.id := by
    intro heq
    obtain rfl := List.inj_on_of_nodup_map hnd hu ht heq
    rw [hqueued] at hp
    cases hp
  refine ⟨hrunning ▸ h.keeps, h.waiting, h.once, h.dispatched, fun u hu _ => h.asked u hu, ?_, ?_⟩
  · intro k hk
    obtain ⟨u, hu, huk, hqueued⟩ := h.queued k hk
    exact ⟨u, hu, huk, hother hu hqueued, hqueued⟩
  · intro k hk hnot
    obtain ⟨u, hu, huk, hqueued⟩ := h.unasked k hk hnot
    exact ⟨u, hu, huk, hother hu hqueued, hqueued⟩

/-- A step that has been handed a place goes on with it. -/
theorem holding_taking (h : m.Seated e) (hnd : (m.tasks.map (·.id)).Nodup) (ht : t ∈ m.tasks) (hqueued : t.phase = .queued)
    (hhanded : t.id ∈ m.places.handed) : (m.taking t.id).Holding e t.id := by
  have hrunning := running_eq hnd ht
  rw [hqueued, if_neg (by simp [Phase.isActive]), Nat.add_zero] at hrunning
  have honce := List.nodup_append.mp h.keeps.once
  have hmem {k : String} : k ∈ (m.taking t.id).places.handed ++ (m.taking t.id).places.queue ↔
      k ∈ m.places.handed ++ m.places.queue ∧ k ≠ t.id := by
    show k ∈ m.places.handed.erase t.id ++ m.places.queue ↔ _
    rw [List.mem_append, honce.1.mem_erase_iff, List.mem_append]
    constructor
    · rintro (⟨hne, hk⟩ | hk)
      · exact ⟨.inl hk, hne⟩
      · exact ⟨.inr hk, fun heq => honce.2.2 t.id hhanded k hk heq.symm⟩
    · rintro ⟨hk | hk, hne⟩
      · exact .inl ⟨hne, hk⟩
      · exact .inr hk
  refine ⟨?_, h.waiting, h.once, h.dispatched, ?_, ?_, ?_⟩
  · have htake := h.keeps.take hhanded
    rw [hrunning] at htake
    exact htake
  · intro u hu hne huqueued
    rw [hmem]
    exact (h.asked u hu huqueued).trans ⟨fun hk => ⟨hk, hne⟩, fun hk => hk.1⟩
  · intro k hk
    obtain ⟨hk, hne⟩ := hmem.mp hk
    obtain ⟨u, hu, huk, huqueued⟩ := h.queued k hk
    exact ⟨u, hu, huk, huk ▸ hne, huqueued⟩
  · intro k hk hnot
    obtain ⟨u, hu, rfl, huqueued⟩ := h.unasked k hk hnot
    have hasked : t.id ∈ m.asked := (h.asked t ht hqueued).mpr (List.mem_append_left _ hhanded)
    exact ⟨u, hu, rfl, fun heq => hnot (heq ▸ hasked), huqueued⟩

/-- The places stay in order when a step is dispatched. -/
theorem dispatching (h : m.Seated e) (hs : m.Scheduled w) {id : String} {ready : List String} (hready : m.ready = id :: ready)
    (plan : Plan) : (m.dispatching id plan ready).Seated e := by
  have hnew : id ∉ m.dispatched := fun hid =>
    (List.nodup_append.mp hs.once).2.2 id (by simp [hready]) id hid rfl
  have hrunning : (m.dispatching id plan ready).running = m.running := by
    show (m.tasks ++ [(⟨id, plan, .queued⟩ : Task)]).countP (·.phase.isActive) = _
    rw [List.countP_append, List.countP_singleton]
    rfl
  refine ⟨hrunning ▸ h.keeps, ?_, ?_, ?_, ?_, ?_, ?_⟩
  · rw [asked_dispatching]
    exact h.waiting
  · rw [asked_dispatching]
    exact h.once
  · intro k hk
    rw [asked_dispatching] at hk
    rw [dispatched_dispatching]
    exact List.mem_append_left _ (h.dispatched k hk)
  · intro u hu hqueued
    rw [asked_dispatching]
    rcases List.mem_append.mp hu with hu | hu
    · exact h.asked u hu hqueued
    · obtain rfl := List.mem_singleton.mp hu
      refine iff_of_false (fun hk => hnew (h.dispatched id hk)) fun hk => hnew ?_
      obtain ⟨v, hv, hvid, -⟩ := h.queued id hk
      exact hvid ▸ hs.dispatched_of_task hv
  · intro k hk
    obtain ⟨u, hu, huk, hqueued⟩ := h.queued k hk
    exact ⟨u, List.mem_append_left _ hu, huk, hqueued⟩
  · intro k hk hnot
    rw [dispatched_dispatching] at hk
    rw [asked_dispatching] at hnot
    rcases List.mem_append.mp hk with hk | hk
    · obtain ⟨u, hu, huk, hqueued⟩ := h.unasked k hk hnot
      exact ⟨u, List.mem_append_left _ hu, huk, hqueued⟩
    · exact ⟨_, List.mem_append_right _ (List.mem_singleton_self _), (List.mem_singleton.mp hk).symm, rfl⟩

/-- The places stay in order when a task asks for one. -/
theorem asking (h : m.Seated e) (hs : m.Scheduled w) (ht : t ∈ m.tasks) (hqueued : t.phase = .queued)
    (hnew : m.places.knows t.id = false) : (m.asking e t.id).Seated e := by
  have hunknown : t.id ∉ m.places.handed ++ m.places.queue := fun hid => by
    rw [Semaphore.knows_iff.mpr hid] at hnew
    cases hnew
  have hmem {k : String} : k ∈ (m.asking e t.id).places.handed ++ (m.asking e t.id).places.queue ↔
      k ∈ m.places.handed ++ m.places.queue ∨ k = t.id := by
    show k ∈ (m.places.acquire e.settings.stepSlots t.id).handed ++ (m.places.acquire e.settings.stepSlots t.id).queue ↔ _
    rcases h.keeps.acquire_cases t.id with ⟨-, hqueue, heq⟩ | ⟨-, heq⟩
    · simp [heq, hqueue]
    · simp [heq, or_assoc]
  have hasked := asked_asking e t.id m
  refine ⟨h.keeps.acquire hunknown, ?_, ?_, ?_, ?_, ?_, ?_⟩
  · rw [hasked]
    show (m.places.acquire e.settings.stepSlots t.id).queue <:+ _
    rcases h.keeps.acquire_cases t.id with ⟨-, hqueue, heq⟩ | ⟨-, heq⟩
    · rw [heq]
      exact hqueue ▸ List.nil_suffix
    · rw [heq]
      exact List.suffix_append_self_iff.mpr h.waiting
  · rw [hasked]
    refine List.nodup_append.mpr ⟨h.once, List.nodup_singleton _, ?_⟩
    rintro a ha b hb rfl
    rw [List.mem_singleton.mp hb] at ha
    exact hunknown ((h.asked t ht hqueued).mp ha)
  · intro k hk
    rw [hasked] at hk
    rw [dispatched_asking]
    rcases List.mem_append.mp hk with hk | hk
    · exact h.dispatched k hk
    · exact List.mem_singleton.mp hk ▸ hs.dispatched_of_task ht
  · intro u hu huqueued
    rw [hasked, hmem, List.mem_append, List.mem_singleton]
    exact or_congr_left (h.asked u hu huqueued)
  · intro k hk
    rcases hmem.mp hk with hk | rfl
    · exact h.queued k hk
    · exact ⟨t, ht, rfl, hqueued⟩
  · intro k hk hnot
    rw [dispatched_asking] at hk
    rw [hasked] at hnot
    exact h.unasked k hk fun hmem => hnot (List.mem_append_left _ hmem)

/-- Every move keeps the places. -/
theorem move (h : m.Seated e) (hs : m.Scheduled w) (now : Nat) (move : Move) : (m.move w e now move).1.Seated e := by
  have heffect := move_effect w e now move m
  generalize m.move w e now move = r at heffect
  cases heffect with
  | idle => exact h
  | dispatched first _ _ => exact h.dispatching hs first _
  | passed => exact h.of_eq rfl rfl rfl rfl
  | dropped => exact h.of_eq rfl rfl rfl rfl
  | listened => exact h.of_eq rfl rfl rfl rfl
  | heard =>
    obtain ⟨-, htasks, htrace, -, -, -, -, hplaces, -⟩ := hear_untouched w now m
    exact h.of_eq htasks hplaces (congrArg (List.filterMap Trace.asked?) htrace) (congrArg (List.filterMap Trace.dispatched?) htrace)
  | @joined index =>
    obtain ⟨-, htasks, htrace, -, -, hplaces, -⟩ := join_untouched w now index m
    exact h.of_eq htasks hplaces (congrArg (List.filterMap Trace.asked?) htrace) (congrArg (List.filterMap Trace.dispatched?) htrace)
  | asked mem queued new => exact h.asking hs mem queued new
  | cancelled => exact h.of_eq rfl rfl rfl rfl
  | refused mem queued handed => exact (h.holding_taking hs.nodup_tasks mem queued handed).advance hs.nodup_tasks mem _ _
  | @began t cut mem queued handed =>
    have hdecided : (m.decided t (t.plan.step.admits m.context.scope)).Holding e t.id :=
      (h.holding_taking hs.nodup_tasks mem queued handed).of_eq rfl rfl (asked_decided ..) (dispatched_decided ..)
    exact hdecided.advance hs.nodup_tasks mem _ _
  | replied r mem active => exact (h.holding_active hs.nodup_tasks mem active).advance hs.nodup_tasks mem _ _

end Seated

end Machine

end Runbook
