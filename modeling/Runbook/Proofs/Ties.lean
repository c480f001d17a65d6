import Runbook.Proofs.Views

/-!
# Ties in the order of execution

Which of two steps comes first in the order is told by the way that the walk takes: through the steps as they are written, and below
each through its dependencies by their names. The first step on this way that needs one of the two but not the other decides. Between
steps that depend on the same, the order in which they are written therefore decides, unless the later one is needed by a step that is
written before both.
-/

namespace Runbook

/-! ## What stands before what -/

namespace Before

variable {α : Type} {order order' : List α} {x y : α}

theorem mem (h : Before order x y) : x ∈ order ∧ y ∈ order := ⟨h.subset (by simp), h.subset (by simp)⟩

/-- In two orders one after the other, what is before something is so in one of them, or is in the first one. -/
theorem of_append (h : Before (order ++ order') x y) : Before order x y ∨ Before order' x y ∨ x ∈ order ∧ y ∈ order' := by
  obtain ⟨xs, ys, hsplit, hxs, hys⟩ := List.sublist_append_iff.mp h
  match xs with
  | [] => exact Or.inr (Or.inl (by rwa [Before, hsplit]))
  | [z] =>
    obtain ⟨rfl, rfl⟩ : x = z ∧ [y] = ys := by simpa using hsplit
    exact Or.inr (Or.inr ⟨List.singleton_sublist.mp hxs, List.singleton_sublist.mp hys⟩)
  | z :: z' :: zs =>
    obtain ⟨rfl, rfl, rfl, -⟩ : x = z ∧ y = z' ∧ zs = [] ∧ ys = [] := by simpa using hsplit
    exact Or.inl hxs

/-- Of two items of a list one stands before the other. -/
theorem total (hx : x ∈ order) (hy : y ∈ order) (hne : x ≠ y) : Before order x y ∨ Before order y x := by
  obtain ⟨before, after, hsplit⟩ := List.append_of_mem hy
  rw [hsplit, List.mem_append, List.mem_cons] at hx
  rcases hx with hx | rfl | hx
  · exact Or.inl (before_of_split hsplit hx)
  · exact absurd rfl hne
  · obtain ⟨between, after, rfl⟩ := List.append_of_mem hx
    have hback : order = (before ++ y :: between) ++ x :: after := by simpa using hsplit
    exact Or.inr (before_of_split hback (by simp))

theorem asymm (hnd : order.Nodup) (h : Before order x y) : ¬Before order y x := by
  induction order with
  | nil => exact fun h' => nomatch h'.mem.1
  | cons z zs ih =>
    obtain ⟨hz, hzs⟩ := List.nodup_cons.mp hnd
    intro h'
    rcases List.cons_sublist_cons'.mp h with hlater | ⟨rfl, -⟩
    · rcases List.cons_sublist_cons'.mp h' with hlater' | ⟨rfl, -⟩
      · exact ih hzs hlater hlater'
      · exact hz (Before.mem hlater).2
    · rcases List.cons_sublist_cons'.mp h' with hlater' | ⟨rfl, hself⟩
      · exact hz (Before.mem hlater').2
      · exact hz (List.singleton_sublist.mp hself)

end Before

end Runbook

namespace Runbook.Sort

variable {deps : String → List String} {ids path : List String}

/-! ## The way of the walk -/

/-- From a node the walk gets to what it needs, however indirectly, and to the node itself. -/
def LeadsTo (deps : String → List String) : String → String → Prop := Relation.ReflTransGen (Needs deps)

/-- A walk through these nodes, one after the other, puts a node before another: the first that leads to one of the two leads to this one
only, or it is the other one itself, or it leads to both and the walk through what it needs decides. -/
inductive Earlier (deps : String → List String) : List String → String → String → Prop
  | skip {c x y : String} {cs : List String} (hx : ¬LeadsTo deps c x) (hy : ¬LeadsTo deps c y) (rest : Earlier deps cs x y) :
      Earlier deps (c :: cs) x y
  | apart {c x y : String} {cs : List String} (hx : LeadsTo deps c x) (hy : ¬LeadsTo deps c y) : Earlier deps (c :: cs) x y
  | last {c x : String} {cs : List String} (hx : LeadsTo deps c x) (hne : x ≠ c) : Earlier deps (c :: cs) x c
  | within {c x y : String} {cs : List String} (hx : LeadsTo deps c x) (hy : LeadsTo deps c y) (hnx : x ≠ c) (hny : y ≠ c)
      (below : Earlier deps (deps c) x y) : Earlier deps (c :: cs) x y

/-- Of two nodes one at most is put before the other. -/
theorem Earlier.asymm {xs : List String} {x y : String} (h : Earlier deps xs x y) : ¬Earlier deps xs y x := by
  induction h with
  | skip hx hy _ ih =>
    intro h
    cases h with
    | skip _ _ rest => exact ih rest
    | apart hy' _ => exact hy hy'
    | last hy' _ => exact hy hy'
    | within hy' _ _ _ _ => exact hy hy'
  | apart hx hy =>
    intro h
    cases h with
    | skip _ hx' _ => exact hx' hx
    | apart hy' _ => exact hy hy'
    | last hy' _ => exact hy hy'
    | within hy' _ _ _ _ => exact hy hy'
  | last hx hne =>
    intro h
    cases h with
    | skip _ hx' _ => exact hx' hx
    | apart _ hx' => exact hx' hx
    | last _ _ => exact hne rfl
    | within _ _ hnc _ _ => exact hnc rfl
  | within hx hy hnx hny _ ih =>
    intro h
    cases h with
    | skip _ hx' _ => exact hx' hx
    | apart _ hx' => exact hx' hx
    | last _ _ => exact hnx rfl
    | within _ _ _ _ below => exact ih below

/-- A node comes before one that neither it nor any node before it leads to. -/
theorem earlier_of_not_leadsTo {before after : List String} {x y : String} (hbefore : ∀ c ∈ before, ¬LeadsTo deps c y)
    (hx : ¬LeadsTo deps x y) : Earlier deps (before ++ x :: after) x y := by
  induction before with
  | nil => exact .apart .refl hx
  | cons c cs ih =>
    have hy := hbefore c List.mem_cons_self
    by_cases hc : LeadsTo deps c x
    · exact .apart hc hy
    · exact .skip hc hy (ih fun c' hc' => hbefore c' (List.mem_cons_of_mem _ hc'))

/-- With a node, an order holds all that the node leads to. -/
theorem DepsFirst.mem_of_leadsTo {order : List String} (h : DepsFirst deps order) {x y : String} (hx : x ∈ order)
    (hxy : LeadsTo deps x y) : y ∈ order := by
  induction hxy with
  | refl => exact hx
  | tail _ hneeds ih =>
    obtain ⟨before, after, hsplit⟩ := List.append_of_mem ih
    rw [hsplit]
    exact List.mem_append_left _ (h before _ after hsplit _ hneeds)

/-! ## Where the walk puts what it finds -/

/-- What visits of these nodes put at the end of the order: nodes that they lead to, in the order of the way. -/
def Puts (deps : String → List String) (nodes order order' : List String) : Prop :=
  ∃ new, order' = order ++ new ∧ (∀ x ∈ new, ∃ c ∈ nodes, LeadsTo deps c x) ∧ ∀ x y, Before new x y → Earlier deps nodes x y

/-- Visits may put nothing. -/
theorem Puts.refl (nodes order : List String) : Puts deps nodes order order :=
  ⟨[], (List.append_nil order).symm, fun _ hx => absurd hx List.not_mem_nil, fun _ _ h => absurd h.mem.1 List.not_mem_nil⟩

/-- What is put by the visit of a node, and then by those of others, is put by the visits of all. -/
theorem Puts.cons {c : String} {cs order mid order' : List String} (h : Puts deps [c] order mid) (hmid : c ∈ mid)
    (hfirst : DepsFirst deps mid) (hnd : order'.Nodup) (h' : Puts deps cs mid order') : Puts deps (c :: cs) order order' := by
  obtain ⟨new, rfl, hleads, hearlier⟩ := h
  obtain ⟨new', rfl, hleads', hearlier'⟩ := h'
  have hfound {x : String} (hx : x ∈ new') : ¬LeadsTo deps c x := by
    intro hcx
    have hold := hfirst.mem_of_leadsTo hmid hcx
    exact (List.nodup_append.mp hnd).2.2 x hold x hx rfl
  have hown {x : String} (hx : x ∈ new) : LeadsTo deps c x := by simpa using hleads x hx
  refine ⟨new ++ new', by simp, ?_, ?_⟩
  · intro x hx
    rcases List.mem_append.mp hx with hx | hx
    · exact ⟨c, List.mem_cons_self, hown hx⟩
    · obtain ⟨c', hc', hleads'⟩ := hleads' x hx
      exact ⟨c', List.mem_cons_of_mem _ hc', hleads'⟩
  · intro x y h
    rcases h.of_append with hxy | hxy | ⟨hx, hy⟩
    · cases hearlier x y hxy with
      | skip hx _ _ => exact absurd (hown hxy.mem.1) hx
      | apart hx hy => exact absurd (hown hxy.mem.2) hy
      | last hx hne => exact .last hx hne
      | within hx hy hnx hny below => exact .within hx hy hnx hny below
    · exact .skip (hfound hxy.mem.1) (hfound hxy.mem.2) (hearlier' x y hxy)
    · exact .apart (hown hx) (hfound hy)

/-- What is put by the visits of all that a node needs, and then the node. -/
theorem Puts.node {id : String} {order mid : List String} (h : Puts deps (deps id) order mid) (hid : id ∉ mid) :
    Puts deps [id] order (mid ++ [id]) := by
  obtain ⟨new, rfl, hleads, hearlier⟩ := h
  have hbelow {x : String} (hx : x ∈ new) : LeadsTo deps id x := by
    obtain ⟨dep, hdep, hleads⟩ := hleads x hx
    exact .head hdep hleads
  have hne {x : String} (hx : x ∈ new) : x ≠ id := fun heq => hid (heq ▸ List.mem_append_right _ hx)
  refine ⟨new ++ [id], by simp, ?_, ?_⟩
  · intro x hx
    rcases List.mem_append.mp hx with hx | hx
    · exact ⟨id, List.mem_cons_self, hbelow hx⟩
    · obtain rfl := List.mem_singleton.mp hx
      exact ⟨x, List.mem_cons_self, .refl⟩
  · intro x y h
    rcases h.of_append with hxy | hxy | ⟨hx, hy⟩
    · obtain ⟨hx, hy⟩ := hxy.mem
      exact .within (hbelow hx) (hbelow hy) (hne hx) (hne hy) (hearlier x y hxy)
    · exact absurd hxy.length_le (by simp)
    · obtain rfl := List.mem_singleton.mp hy
      exact .last (hbelow hx) (hne hx)

/-- Visits that each put their nodes so put all of them so, one after the other. -/
theorem foldlM_puts {visit : List String → String → Except (List String) (List String)} (hv : Visits deps ids path visit)
    (hputs : ∀ order id order', id ∈ ids → Walked deps ids path order → visit order id = .ok order' → Puts deps [id] order order')
    (xs : List String) (hxs : ∀ x ∈ xs, x ∈ ids) (order order' : List String) (hw : Walked deps ids path order)
    (h : xs.foldlM visit order = .ok order') : Puts deps xs order order' := by
  induction xs generalizing order with
  | nil =>
    obtain rfl : order = order' := by simpa [List.foldlM, pure, Except.pure] using h
    exact .refl [] order
  | cons x xs ih =>
    have hwalked := (hv.foldlM (x :: xs) hxs order order' hw h).2.2
    rw [List.foldlM_cons] at h
    cases hx : visit order x with
    | error e => simp [hx, bind, Except.bind] at h
    | ok mid =>
      simp only [hx, bind, Except.bind] at h
      obtain ⟨-, hmem, hmid⟩ := hv order x mid (hxs x (by simp)) hw hx
      exact (hputs order x mid (hxs x (by simp)) hw hx).cons hmem hmid.depsFirst hwalked.nodup
        (ih (fun y hy => hxs y (by simp [hy])) mid hmid h)

/-- A visit puts its node behind what the walk through the dependencies of the node puts. -/
theorem visit_puts (hdeps : ∀ x ∈ ids, ∀ d ∈ deps x, d ∈ ids) (fuel : Nat) (path : List String) (hnd : path.Nodup)
    (hsub : ∀ x ∈ path, x ∈ ids) (hfuel : ids.length < fuel + path.length) {order order' : List String} {id : String}
    (hid : id ∈ ids) (hw : Walked deps ids path order) (h : visit deps fuel path order id = .ok order') :
    Puts deps [id] order order' := by
  induction fuel generalizing path order order' id with
  | zero => exact absurd rfl (fuel_pos hnd hsub hfuel)
  | succ fuel ih =>
    unfold visit at h
    split at h
    · obtain rfl : order = order' := by simpa using h
      exact Puts.refl [id] order
    · rename_i hnew
      split at h
      · cases h
      · rename_i hpath
        have hnd' : (path ++ [id]).Nodup := List.concat_eq_append ▸ hnd.concat (by simpa using hpath)
        have hsub' : ∀ x ∈ path ++ [id], x ∈ ids := by
          intro x hx
          rcases List.mem_append.mp hx with hx | hx
          · exact hsub x hx
          · obtain rfl := List.mem_singleton.mp hx
            exact hid
        have hfuel' : ids.length < fuel + (path ++ [id]).length := by simp; omega
        have hv := visit_visits hdeps fuel (path ++ [id]) hnd' hsub' hfuel'
        cases hd : (deps id).foldlM (visit deps fuel (path ++ [id])) order with
        | error e => simp [hd, bind, Except.bind] at h
        | ok mid =>
          obtain rfl : mid ++ [id] = order' := by simpa [hd, bind, Except.bind, pure, Except.pure] using h
          have henter : Walked deps ids (path ++ [id]) order := hw.enter (by simpa using hnew)
          have hwalked := (hv.foldlM (deps id) (hdeps id hid) order mid henter hd).2.2
          have hputs := foldlM_puts hv (fun _ _ _ hid hw h => ih (path ++ [id]) hnd' hsub' hfuel' hid hw h) (deps id)
            (hdeps id hid) order mid henter hd
          exact hputs.node fun hmem => hwalked.apart id hmem (by simp)

/-- In the order that the walk finds, a node stands before another exactly when the walk comes to it earlier. -/
theorem before_iff_earlier (hdeps : ∀ x ∈ ids, ∀ d ∈ deps x, d ∈ ids) {order : List String} (h : topological ids deps = .ok order)
    {x y : String} (hx : x ∈ ids) (hy : y ∈ ids) : Before order x y ↔ Earlier deps ids x y := by
  have hall := (topological_walked hdeps h).1
  have hv := visit_visits hdeps (ids.length + 1) [] List.nodup_nil (by simp) (by simp)
  obtain ⟨new, heq, -, hearlier⟩ := foldlM_puts hv
    (fun _ _ _ hid hw h => visit_puts hdeps (ids.length + 1) [] List.nodup_nil (by simp) (by simp) hid hw h) ids
    (fun _ h => h) [] order walked_nil h
  obtain rfl : order = new := heq
  refine ⟨hearlier x y, ?_⟩
  intro hxy
  have hne : x ≠ y := by
    rintro rfl
    exact hxy.asymm hxy
  exact (Before.total (hall x hx) (hall y hy) hne).resolve_right fun hyx => hxy.asymm (hearlier y x hyx)

end Runbook.Sort

namespace Runbook

namespace Graph

/-- Of two steps of an accepted definition the one comes first in the order to which the walk comes earlier. Of two steps that depend on
the same, it is the one that is written earlier, unless a step written before both depends on the later one, however indirectly. -/
theorem ties_follow_walk {d : Definition} {g : Graph} (h : Graph.build d = .ok g) {a b : String} (ha : a ∈ d.ids) (hb : b ∈ d.ids) :
    (Before g.order a b ↔ Sort.Earlier g.dependencies d.ids a b) ∧
      ((∀ c, d.DependsOn a c ↔ d.DependsOn b c) → Before d.ids a b →
        (∀ c, Before d.ids c a → ¬Relation.TransGen d.DependsOn c b) → Before g.order a b) := by
  have hw := valid_of_build h
  have hnd : d.ids.Nodup := hw.faultless.nodup
  have hiff : Before g.order a b ↔ Sort.Earlier g.dependencies d.ids a b := by
    obtain ⟨horder, hdeps⟩ := topological_of_build h
    exact Sort.before_iff_earlier (fun _ _ _ hdep => hw.steps_eq ▸ hw.mem_steps_of_dependency hdep) (hdeps ▸ horder) ha hb
  refine ⟨hiff, ?_⟩
  intro hsame hwritten hneeded
  have hleads {x : String} (hne : x ≠ b) (hxb : Sort.LeadsTo g.dependencies x b) : Relation.TransGen d.DependsOn x b := by
    rw [Sort.LeadsTo, needs_dependencies h] at hxb
    exact (Relation.reflTransGen_iff_eq_or_transGen.mp hxb).resolve_left (Ne.symm hne)
  obtain ⟨before, after, hsplit⟩ := List.append_of_mem ha
  rw [hiff, hsplit]
  refine Sort.earlier_of_not_leadsTo ?_ ?_
  · intro c hc hcb
    have hca : Before d.ids c a := before_of_split hsplit hc
    have hne : c ≠ b := by
      rintro rfl
      exact hwritten.asymm hnd hca
    exact hneeded c hca (hleads hne hcb)
  · intro hab
    obtain ⟨c, hac, hcb⟩ := Relation.TransGen.head'_iff.mp (hleads (hnd.forall_sublist hwritten) hab)
    exact acyclic_of_build h b (.head' ((hsame c).mp hac) hcb)

end Graph

/-- A step that depends on two others, which are written behind it and before a fourth. -/
def Definition.sampleTie : Definition :=
  let fetch (id : String) (dependsOn : List String) : Step := { Step.empty with id, tool := "http", dependsOn }
  { Definition.empty with name := "sample", steps := [fetch "sum" ["left", "right"], fetch "right" [], fetch "left" [], fetch "apart" []] }

namespace Graph

/-- The sample with a tie has this order and these dependencies. -/
theorem build_sampleTie : ∃ g, Graph.build .sampleTie = .ok g ∧ g.order = ["left", "right", "sum", "apart"] ∧
    g.dependencies "sum" = ["left", "right"] ∧ g.dependencies "right" = [] ∧ g.dependencies "left" = [] ∧ g.dependencies "apart" = [] := by
  have hviews : (Graph.build .sampleTie).toOption.map (fun g => (g.order, ["sum", "right", "left", "apart"].map g.dependencies)) =
      some (["left", "right", "sum", "apart"], [["left", "right"], [], [], []]) := by decide +kernel
  obtain ⟨g, hg, heq⟩ := Workflow.exists_of_map_toOption hviews
  obtain ⟨horder, hdeps⟩ := Prod.mk.inj heq
  simp only [List.map_cons, List.map_nil, List.cons.injEq, and_true] at hdeps
  exact ⟨g, hg, horder, hdeps⟩

/-- The walk through `sum` comes to `left` before `right`. No step written before `right` needs `apart`, so that one comes later. -/
theorem ties_follow_walk_of_tie : ∃ g, Graph.build .sampleTie = .ok g ∧
    Sort.Earlier g.dependencies Definition.sampleTie.ids "left" "right" ∧ Before g.order "left" "right" ∧
    Before Definition.sampleTie.ids "right" "apart" ∧ Before g.order "right" "apart" := by
  obtain ⟨g, hg, -, hsum, hright, hleft, hapart⟩ := build_sampleTie
  have hend {x y : String} (hx : g.dependencies x = []) (hxy : Sort.LeadsTo g.dependencies x y) : x = y := by
    rcases Relation.ReflTransGen.cases_head hxy with heq | ⟨z, hz, -⟩
    · exact heq
    · rw [Sort.Needs, hx] at hz
      cases hz
  have hleads {x : String} (hx : x ∈ ["left", "right"]) : Sort.LeadsTo g.dependencies "sum" x :=
    .single (hsum ▸ hx : x ∈ g.dependencies "sum")
  have hwalk : Sort.Earlier g.dependencies Definition.sampleTie.ids "left" "right" := by
    refine .within (hleads (by decide)) (hleads (by decide)) (by decide) (by decide) ?_
    rw [hsum]
    exact .apart .refl fun h => absurd (hend hleft h) (by decide)
  have hwritten : Before Definition.sampleTie.ids "right" "apart" := by decide
  refine ⟨g, hg, hwalk, (ties_follow_walk hg (by decide) (by decide)).1.mpr hwalk, hwritten,
    (ties_follow_walk hg (by decide) (by decide)).2 ?_ hwritten ?_⟩
  · intro c
    rw [← needs_dependencies hg, Sort.Needs, Sort.Needs, hright, hapart]
  · intro c hc hneeded
    obtain rfl : c = "sum" := by simpa [Before, Definition.ids, Definition.sampleTie, List.cons_sublist_cons'] using hc
    rw [← needs_dependencies hg] at hneeded
    obtain ⟨x, hx, hway⟩ := Relation.TransGen.head'_iff.mp hneeded
    rw [Sort.Needs, hsum] at hx
    rcases List.mem_pair.mp hx with rfl | rfl
    · exact absurd (hend hleft hway) (by decide)
    · exact absurd (hend hright hway) (by decide)

/-- Two steps that depend on nothing stand in the order of their names, against the order in which they are written. -/
theorem tie_against_writing : ∃ g, Graph.build .sampleTie = .ok g ∧
    (∀ c, Definition.sampleTie.DependsOn "right" c ↔ Definition.sampleTie.DependsOn "left" c) ∧
    Before Definition.sampleTie.ids "right" "left" ∧ ¬Before g.order "right" "left" := by
  obtain ⟨g, hg, horder, -, hright, hleft, -⟩ := build_sampleTie
  refine ⟨g, hg, ?_, by decide, ?_⟩
  · intro c
    rw [← needs_dependencies hg, Sort.Needs, Sort.Needs, hright, hleft]
  · rw [horder]
    decide

end Graph

end Runbook
