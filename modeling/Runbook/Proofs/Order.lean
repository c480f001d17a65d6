import Mathlib.Data.List.Induction
import Mathlib.Data.List.Nodup
import Mathlib.Data.List.Perm.Subperm
import Runbook.Graph.Sort

/-!
# The order of execution

A walk that ends well has put every node behind everything that it depends on, each node once. The order grows at its end only, and
never by a node that is still being visited.
-/

namespace Runbook.Sort

variable {deps : String → List String} {ids : List String}

/-- Everything that a node depends on comes before it. -/
def DepsFirst (deps : String → List String) (order : List String) : Prop :=
  ∀ before x after, order = before ++ x :: after → ∀ d ∈ deps x, d ∈ before

theorem depsFirst_nil : DepsFirst deps [] := by
  intro before x after h
  simp at h

/-- What holds of a node once it holds of everything that the node depends on holds of all nodes. -/
theorem DepsFirst.induction {order : List String} (h : DepsFirst deps order) {P : String → Prop}
    (hstep : ∀ x ∈ order, (∀ d ∈ deps x, P d) → P x) : ∀ x ∈ order, P x := by
  have hprefix (before after : List String) (heq : order = before ++ after) : ∀ x ∈ before, P x := by
    induction before using List.reverseRecOn generalizing after with
    | nil => exact nofun
    | append_singleton before y ih =>
      have heq' : order = before ++ y :: after := by simpa using heq
      have hbefore := ih (y :: after) heq'
      intro x hx
      rcases List.mem_append.mp hx with hx | hx
      · exact hbefore x hx
      · obtain rfl := List.mem_singleton.mp hx
        exact hstep x (heq' ▸ by simp) fun d hd => hbefore d (h before x after heq' d hd)
  exact hprefix order [] (by simp)

/-- A node may be put behind everything that it depends on. -/
theorem DepsFirst.snoc {order : List String} (h : DepsFirst deps order) {id : String} (hid : ∀ d ∈ deps id, d ∈ order) :
    DepsFirst deps (order ++ [id]) := by
  intro before x after heq d hd
  rcases List.eq_nil_or_concat after with rfl | ⟨after', y, rfl⟩
  · obtain ⟨rfl, hx⟩ := List.append_inj' heq rfl
    obtain rfl : id = x := by simpa using hx
    exact hid d hd
  · have heq' : order ++ [id] = (before ++ x :: after') ++ [y] := by simpa using heq
    obtain ⟨rfl, -⟩ := List.append_inj' heq' rfl
    exact h before x after' rfl d hd

/-- What a walk keeps: nodes of the graph, each once and behind what it depends on, none of which is still being visited. -/
structure Walked (deps : String → List String) (ids path order : List String) : Prop where
  nodup : order.Nodup
  depsFirst : DepsFirst deps order
  known : ∀ x ∈ order, x ∈ ids
  apart : ∀ x ∈ order, x ∉ path

theorem walked_nil : Walked deps ids [] [] :=
  ⟨List.nodup_nil, depsFirst_nil, by simp, by simp⟩

/-- A node that is not in the order may be visited next. -/
theorem Walked.enter {path order : List String} {id : String} (hw : Walked deps ids path order) (hnew : id ∉ order) :
    Walked deps ids (path ++ [id]) order := by
  refine ⟨hw.nodup, hw.depsFirst, hw.known, ?_⟩
  intro x hx hxp
  rcases List.mem_append.mp hxp with hxp | hxp
  · exact hw.apart x hx hxp
  · obtain rfl := List.mem_singleton.mp hxp
    exact hnew hx

/-- A node whose dependencies are in the order is put behind them. -/
theorem Walked.leave {path order : List String} {id : String} (hw : Walked deps ids (path ++ [id]) order) (hid : id ∈ ids)
    (hpath : id ∉ path) (hdeps : ∀ d ∈ deps id, d ∈ order) : Walked deps ids path (order ++ [id]) := by
  have hnew : id ∉ order := fun hmem => hw.apart id hmem (by simp)
  refine ⟨List.concat_eq_append ▸ hw.nodup.concat hnew, hw.depsFirst.snoc hdeps, ?_, ?_⟩
  · intro x hx
    rcases List.mem_append.mp hx with hx | hx
    · exact hw.known x hx
    · obtain rfl := List.mem_singleton.mp hx
      exact hid
  · intro x hx hxp
    rcases List.mem_append.mp hx with hx | hx
    · exact hw.apart x hx (by simp [hxp])
    · obtain rfl := List.mem_singleton.mp hx
      exact hpath hxp

/-- What one visit has to give. -/
def Visits (deps : String → List String) (ids path : List String)
    (visit : List String → String → Except (List String) (List String)) : Prop :=
  ∀ order id order', id ∈ ids → Walked deps ids path order → visit order id = .ok order' →
    order <+: order' ∧ id ∈ order' ∧ Walked deps ids path order'

/-- Visits one after the other reach all of their nodes. -/
theorem Visits.foldlM {path : List String} {visit : List String → String → Except (List String) (List String)}
    (hv : Visits deps ids path visit) (xs : List String) (hxs : ∀ x ∈ xs, x ∈ ids) (order order' : List String)
    (hw : Walked deps ids path order) (h : xs.foldlM visit order = .ok order') :
    order <+: order' ∧ (∀ x ∈ xs, x ∈ order') ∧ Walked deps ids path order' := by
  induction xs generalizing order with
  | nil =>
    obtain rfl : order = order' := by simpa [List.foldlM, pure, Except.pure] using h
    exact ⟨List.prefix_refl _, by simp, hw⟩
  | cons x xs ih =>
    rw [List.foldlM_cons] at h
    cases hx : visit order x with
    | error e => simp [hx, bind, Except.bind] at h
    | ok mid =>
      simp only [hx, bind, Except.bind] at h
      obtain ⟨hpre, hmem, hw'⟩ := hv order x mid (hxs x (by simp)) hw hx
      obtain ⟨hpre', hmem', hw''⟩ := ih (fun y hy => hxs y (by simp [hy])) mid hw' h
      refine ⟨hpre.trans hpre', ?_, hw''⟩
      intro y hy
      rcases List.mem_cons.mp hy with rfl | hy
      · exact hpre'.subset hmem
      · exact hmem' y hy

/-- The nodes being visited are different nodes of the graph, so a path with room for more fuel than that is never cut off. -/
theorem fuel_pos {fuel : Nat} {path : List String} (hnd : path.Nodup) (hsub : ∀ x ∈ path, x ∈ ids)
    (hfuel : ids.length < fuel + path.length) : fuel ≠ 0 := by
  have := (hnd.subperm hsub).length_le
  omega

/-- A visit puts its node into the order, behind everything that it depends on. -/
theorem visit_visits (hdeps : ∀ x ∈ ids, ∀ d ∈ deps x, d ∈ ids) (fuel : Nat) (path : List String) (hnd : path.Nodup)
    (hsub : ∀ x ∈ path, x ∈ ids) (hfuel : ids.length < fuel + path.length) : Visits deps ids path (visit deps fuel path) := by
  induction fuel generalizing path with
  | zero => exact absurd rfl (fuel_pos hnd hsub hfuel)
  | succ fuel ih =>
    intro order id order' hid hw h
    unfold visit at h
    split at h
    · rename_i hmem
      obtain rfl : order = order' := by simpa using h
      exact ⟨List.prefix_refl _, by simpa using hmem, hw⟩
    · rename_i hnew
      split at h
      · simp at h
      · rename_i hpath
        have hid' : id ∉ path := by simpa using hpath
        have hsub' : ∀ x ∈ path ++ [id], x ∈ ids := by
          intro x hx
          rcases List.mem_append.mp hx with hx | hx
          · exact hsub x hx
          · obtain rfl := List.mem_singleton.mp hx
            exact hid
        have hv := ih (path ++ [id]) (List.concat_eq_append ▸ hnd.concat hid') hsub' (by simp; omega)
        cases hd : (deps id).foldlM (visit deps fuel (path ++ [id])) order with
        | error e => simp [hd, bind, Except.bind] at h
        | ok mid =>
          obtain rfl : mid ++ [id] = order' := by simpa [hd, bind, Except.bind, pure, Except.pure] using h
          obtain ⟨hpre, hmem, hw'⟩ := hv.foldlM (deps id) (hdeps id hid) order mid (hw.enter (by simpa using hnew)) hd
          exact ⟨hpre.trans (List.prefix_append _ _), by simp, hw'.leave hid hid' hmem⟩

/-- A walk that ends well has been to all nodes of the graph. -/
theorem topological_walked (hdeps : ∀ x ∈ ids, ∀ d ∈ deps x, d ∈ ids) {order : List String} (h : topological ids deps = .ok order) :
    (∀ x ∈ ids, x ∈ order) ∧ Walked deps ids [] order := by
  have hv := visit_visits hdeps (ids.length + 1) [] List.nodup_nil (by simp) (by simp)
  exact (hv.foldlM ids (fun x hx => hx) [] order walked_nil h).2

/-- An order holds the nodes of the graph, each once and behind everything that it depends on. -/
theorem topological_ok (hids : ids.Nodup) (hdeps : ∀ x ∈ ids, ∀ d ∈ deps x, d ∈ ids) {order : List String}
    (h : topological ids deps = .ok order) : order.Perm ids ∧ DepsFirst deps order := by
  obtain ⟨hmem, hw⟩ := topological_walked hdeps h
  exact ⟨(List.perm_ext_iff_of_nodup hw.nodup hids).mpr fun x => ⟨hw.known x, hmem x⟩, hw.depsFirst⟩

end Runbook.Sort
