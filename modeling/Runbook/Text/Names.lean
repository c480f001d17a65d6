/-!
# Sets of names

A set of names is the list of its members in their order, each once.
-/

namespace Runbook

abbrev Names := List String

namespace Names

/-- Adds a name at its place in the order. -/
def insert (name : String) : Names → Names
  | [] => [name]
  | n :: ns => if name = n then n :: ns else if name < n then name :: n :: ns else n :: insert name ns

def ofList (names : List String) : Names := names.foldr insert []

def union (a b : Names) : Names := a.foldr insert b

@[simp] theorem mem_insert {a name : String} {ns : Names} : a ∈ insert name ns ↔ a = name ∨ a ∈ ns := by
  induction ns with
  | nil => simp [insert]
  | cons n ns ih =>
    unfold insert
    split
    · simp_all
    · split
      · simp
      · simp only [List.mem_cons, ih]
        grind

@[simp] theorem mem_ofList {a : String} {names : List String} : a ∈ ofList names ↔ a ∈ names := by
  induction names with
  | nil => simp [ofList]
  | cons n ns ih =>
    rw [show ofList (n :: ns) = insert n (ofList ns) from rfl, mem_insert, ih, List.mem_cons]

@[simp] theorem mem_union {a : String} {ns ms : Names} : a ∈ union ns ms ↔ a ∈ ns ∨ a ∈ ms := by
  induction ns with
  | nil => simp [union]
  | cons n ns ih =>
    rw [show union (n :: ns) ms = insert n (union ns ms) from rfl, mem_insert, ih, List.mem_cons, or_assoc]

end Names

end Runbook
