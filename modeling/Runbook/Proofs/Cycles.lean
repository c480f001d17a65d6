import Mathlib.Data.List.Chain
import Runbook.Proofs.Order

/-!
# Cycles

The walk gives up only at a node that it is still visiting. The nodes that it visits depend each on the next, so what it reports is a
cycle, from that node on to itself. And where there is an order there is no cycle: nothing depends on itself, however indirectly.
-/

namespace Runbook.Sort

variable {deps : String → List String} {ids : List String}

/-- The first node depends on the second. -/
def Needs (deps : String → List String) (a b : String) : Prop := b ∈ deps a

/-- Nodes that depend each on the next, from a node to the same node, with no other node twice. -/
def IsCycle (deps : String → List String) (steps : List String) : Prop :=
  ∃ id inner, steps = id :: (inner ++ [id]) ∧ (id :: inner).Nodup ∧ steps.IsChain (Needs deps)

/-- Nothing depends on itself, not even indirectly. -/
def Acyclic (deps : String → List String) : Prop := ∀ id, ¬Relation.TransGen (Needs deps) id id

/-- The node that a cycle starts and ends with depends on itself. -/
theorem IsCycle.exists_transGen {steps : List String} (h : IsCycle deps steps) :
    ∃ id ∈ steps, Relation.TransGen (Needs deps) id id := by
  obtain ⟨id, inner, rfl, -, hlinked⟩ := h
  obtain ⟨next, rest, hrest⟩ := List.exists_cons_of_ne_nil (List.append_ne_nil_of_right_ne_nil inner (List.cons_ne_nil id []))
  have hlast : (next :: rest).getLast (List.cons_ne_nil _ _) = id := by simp [← hrest]
  refine ⟨id, List.mem_cons_self, ?_⟩
  rw [hrest, List.isChain_cons_cons] at hlinked
  have hway := List.relationReflTransGen_of_exists_isChain _ hlinked.2 (List.cons_ne_nil next rest)
  rw [hlast] at hway
  exact .head' hlinked.1 hway

/-- Where there is a cycle, not every step comes after its dependencies. -/
theorem IsCycle.not_acyclic {steps : List String} (h : IsCycle deps steps) : ¬Acyclic deps := by
  obtain ⟨id, -, hself⟩ := h.exists_transGen
  exact fun hacyclic => hacyclic id hself

/-! ## What the walk reports -/

/-- Visits one after the other fail only where one of them does. -/
theorem exists_error_of_foldlM {visit : β → α → Except ε β} {xs : List α} {b : β} {err : ε}
    (h : xs.foldlM visit b = .error err) : ∃ x ∈ xs, ∃ b', visit b' x = .error err := by
  induction xs generalizing b with
  | nil => cases h
  | cons x xs ih =>
    rw [List.foldlM_cons] at h
    cases hx : visit b x with
    | error err' =>
      rw [hx] at h
      obtain rfl := Except.error.inj h
      exact ⟨x, List.mem_cons_self, b, hx⟩
    | ok b' =>
      rw [hx] at h
      obtain ⟨y, hy, hvisit⟩ := ih h
      exact ⟨y, List.mem_cons_of_mem _ hy, hvisit⟩

/-- A visit fails with a cycle when the nodes being visited depend each on the next, the last of them on the node to be visited. -/
theorem visit_error {fuel : Nat} {path order : List String} {id : String} {steps : List String} (hnd : path.Nodup)
    (hlinked : (path ++ [id]).IsChain (Needs deps)) (h : visit deps fuel path order id = .error steps) : IsCycle deps steps := by
  induction fuel generalizing path order id with
  | zero => cases h
  | succ fuel ih =>
    unfold visit at h
    split at h
    · cases h
    · split at h
      · rename_i hmem
        obtain rfl := Except.error.inj h
        obtain ⟨before, after, rfl, hbefore⟩ := List.eq_append_cons_of_mem (List.contains_iff_mem.mp hmem)
        have hdrop : (before ++ id :: after).dropWhile (· != id) = id :: after := by
          rw [List.dropWhile_append_of_pos (by simpa using fun x hx => ne_of_mem_of_not_mem hx hbefore)]
          simp
        rw [hdrop]
        rw [List.append_assoc] at hlinked
        exact ⟨id, after, rfl, (List.nodup_append.mp hnd).2.1, hlinked.right_of_append⟩
      · rename_i hpath
        cases hd : (deps id).foldlM (visit deps fuel (path ++ [id])) order with
        | ok mid => simp [hd, bind, Except.bind, pure, Except.pure] at h
        | error err =>
          obtain rfl : err = steps := by simpa [hd, bind, Except.bind] using h
          obtain ⟨dep, hdep, order', hvisit⟩ := exists_error_of_foldlM hd
          refine ih (List.concat_eq_append ▸ hnd.concat (by simpa using hpath)) ?_ hvisit
          refine List.isChain_append.mpr ⟨hlinked, List.isChain_singleton _, ?_⟩
          simpa [Needs] using hdep

/-- What is reported in place of an order is a cycle. -/
theorem topological_error {steps : List String} (h : topological ids deps = .error steps) : IsCycle deps steps := by
  obtain ⟨id, -, order, hvisit⟩ := exists_error_of_foldlM h
  exact visit_error List.nodup_nil (List.isChain_singleton id) hvisit

/-- A walk through a graph that is closed under its dependencies reports nodes of that graph. -/
theorem visit_error_known (hdeps : ∀ x ∈ ids, ∀ d ∈ deps x, d ∈ ids) {fuel : Nat} {path order : List String} {id : String}
    {steps : List String} (hpath : ∀ x ∈ path, x ∈ ids) (hid : id ∈ ids) (h : visit deps fuel path order id = .error steps) :
    ∀ x ∈ steps, x ∈ ids := by
  induction fuel generalizing path order id with
  | zero => cases h
  | succ fuel ih =>
    have hpath' : ∀ x ∈ path ++ [id], x ∈ ids := by
      intro x hx
      rcases List.mem_append.mp hx with hx | hx
      · exact hpath x hx
      · obtain rfl := List.mem_singleton.mp hx
        exact hid
    unfold visit at h
    split at h
    · cases h
    · split at h
      · obtain rfl := Except.error.inj h
        intro x hx
        refine hpath' x (List.mem_append.mpr ((List.mem_append.mp hx).imp_left ?_))
        exact fun hx => (List.dropWhile_sublist _).subset hx
      · cases hd : (deps id).foldlM (visit deps fuel (path ++ [id])) order with
        | ok mid => simp [hd, bind, Except.bind, pure, Except.pure] at h
        | error err =>
          obtain rfl : err = steps := by simpa [hd, bind, Except.bind] using h
          obtain ⟨dep, hdep, order', hvisit⟩ := exists_error_of_foldlM hd
          exact ih hpath' (hdeps id hid dep hdep) hvisit

/-! ## What an order excludes -/

/-- Nothing that is reached from below is below itself. -/
theorem not_self_of_acc {r : α → α → Prop} {x : α} (h : Acc r x) : ¬r x x := by
  induction h with
  | intro x _ ih => exact fun hself => ih x hself hself

/-- Nothing that is in an order depends on itself. -/
theorem DepsFirst.not_transGen {order : List String} (h : DepsFirst deps order) :
    ∀ id ∈ order, ¬Relation.TransGen (Needs deps) id id := by
  have hacc : ∀ x ∈ order, Acc (Function.swap (Needs deps)) x := h.induction fun x _ hdeps => ⟨x, hdeps⟩
  intro id hmem hcycle
  exact not_self_of_acc (hacc id hmem).transGen (Relation.transGen_swap.mpr hcycle)

/-- Where everything that depends on something is in an order, there is no cycle. -/
theorem DepsFirst.acyclic {order : List String} (h : DepsFirst deps order) (hall : ∀ x, deps x ≠ [] → x ∈ order) : Acyclic deps := by
  intro id hcycle
  obtain ⟨next, hnext, -⟩ := Relation.TransGen.head'_iff.mp hcycle
  exact h.not_transGen id (hall id (List.ne_nil_of_mem hnext)) hcycle

/-- There is an order exactly when there is no cycle. -/
theorem topological_ok_iff (hids : ids.Nodup) (hdeps : ∀ x ∈ ids, ∀ d ∈ deps x, d ∈ ids) (hall : ∀ x, deps x ≠ [] → x ∈ ids) :
    (∃ order, topological ids deps = .ok order) ↔ Acyclic deps := by
  constructor
  · rintro ⟨order, h⟩
    obtain ⟨hperm, hfirst⟩ := topological_ok hids hdeps h
    exact hfirst.acyclic fun x hx => hperm.mem_iff.mpr (hall x hx)
  · intro hacyclic
    cases h : topological ids deps with
    | ok order => exact ⟨order, rfl⟩
    | error steps => exact absurd hacyclic (topological_error h).not_acyclic

/-! ## When a cycle is reported -/

/-- A walk through a graph that is closed under its dependencies reports a cycle exactly when one of the nodes depends on itself,
however indirectly, and what it reports is a cycle among the nodes. -/
theorem cycle_reported_iff (hdeps : ∀ x ∈ ids, ∀ d ∈ deps x, d ∈ ids) :
    ((∃ steps, topological ids deps = .error steps) ↔ ∃ id ∈ ids, Relation.TransGen (Needs deps) id id) ∧
      ∀ steps, topological ids deps = .error steps → IsCycle deps steps ∧ ∀ x ∈ steps, x ∈ ids := by
  have htrue (steps : List String) (h : topological ids deps = .error steps) : IsCycle deps steps ∧ ∀ x ∈ steps, x ∈ ids := by
    obtain ⟨id, hid, order, hvisit⟩ := exists_error_of_foldlM h
    exact ⟨topological_error h, visit_error_known hdeps (by simp) hid hvisit⟩
  refine ⟨⟨?_, ?_⟩, htrue⟩
  · rintro ⟨steps, h⟩
    obtain ⟨hcycle, hknown⟩ := htrue steps h
    obtain ⟨id, hid, hself⟩ := hcycle.exists_transGen
    exact ⟨id, hknown id hid, hself⟩
  · rintro ⟨id, hid, hself⟩
    cases h : topological ids deps with
    | error steps => exact ⟨steps, rfl⟩
    | ok order =>
      obtain ⟨hall, hfirst⟩ := topological_walked hdeps h
      exact absurd hself (hfirst.depsFirst.not_transGen id (hall id hid))

/-- Steps of which two need each other, behind others that need them. -/
def entangled (id : String) : List String :=
  if id = "send" then ["list", "sum"]
  else if id = "sum" then ["fetch", "list"]
  else if id = "fetch" then ["sum"]
  else []

/-- The walk from the first step comes to a knot that this step is no part of, and reports no more than the knot. -/
theorem cycle_reported_of_entangled :
    (∀ x ∈ ["send", "list", "fetch", "sum"], ∀ d ∈ entangled x, d ∈ ["send", "list", "fetch", "sum"]) ∧
      topological ["send", "list", "fetch", "sum"] entangled = .error ["sum", "fetch", "sum"] ∧
        (∃ id ∈ ["send", "list", "fetch", "sum"], Relation.TransGen (Needs entangled) id id) ∧
          IsCycle entangled ["sum", "fetch", "sum"] := by
  have hdeps : ∀ x ∈ ["send", "list", "fetch", "sum"], ∀ d ∈ entangled x, d ∈ ["send", "list", "fetch", "sum"] := by decide
  have hreported : topological ["send", "list", "fetch", "sum"] entangled = .error ["sum", "fetch", "sum"] := by rfl
  obtain ⟨hiff, htrue⟩ := cycle_reported_iff hdeps
  exact ⟨hdeps, hreported, hiff.mp ⟨_, hreported⟩, (htrue _ hreported).1⟩

end Runbook.Sort
