/-!
# Entries in the order of their keys

The fields of an object and similar tables: each key once, smaller keys first. `insert` keeps both.
-/

namespace Runbook

/-- Entries in the order of their keys. -/
abbrev Keyed (α : Type) := List (String × α)

namespace Keyed

/-- The entry of a key. -/
def get? (entries : Keyed α) (key : String) : Option α := (entries.find? (·.1 == key)).map (·.2)

/-- Sets the entry of a key, at its place in the order. -/
def insert (entries : Keyed α) (key : String) (a : α) : Keyed α :=
  match entries with
  | [] => [(key, a)]
  | (k, b) :: rest =>
    if key = k then (key, a) :: rest
    else if key < k then (key, a) :: (k, b) :: rest
    else (k, b) :: insert rest key a

/-- The entries in order, of which a later one replaces an earlier one of the same key. -/
def ofList (entries : List (String × α)) : Keyed α := entries.foldl (fun es (k, a) => insert es k a) []

/-- The entries without a key. -/
def erase (entries : Keyed α) (key : String) : Keyed α := entries.filter (·.1 != key)

/-- Changes the entry of a key, if there is one. -/
def modify (entries : Keyed α) (key : String) (f : α → α) : Keyed α :=
  entries.map fun (k, a) => if k = key then (k, f a) else (k, a)

def keys (entries : Keyed α) : List String := entries.map (·.1)

/-- What an entry is after one is set. -/
theorem get?_insert (entries : Keyed α) (key k : String) (a : α) :
    get? (insert entries key a) k = if key = k then some a else get? entries k := by
  induction entries with
  | nil => by_cases h : key = k <;> simp [insert, get?, h]
  | cons e es ih =>
    obtain ⟨l, b⟩ := e
    have hcons (l : String) (b : α) (es : Keyed α) : get? ((l, b) :: es) k = if l = k then some b else get? es k := by
      by_cases h : l = k <;> simp [get?, h]
    unfold insert
    split
    · rename_i h
      subst h
      by_cases h : key = k <;> simp [hcons, h]
    · split
      · by_cases h : key = k <;> simp [hcons, h]
      · rw [hcons, hcons, ih]
        grind

end Keyed

end Runbook
