import Runbook.Json.Document

/-!
# Depth of values and documents

The number of containers inside each other. A document is as deep as the value it was made from, and a value read from a
document is at most as deep; recursion into data that is read again from its parts ends by this measure.
-/

namespace Runbook

namespace Value

mutual

/-- The most containers inside each other. -/
def depth : Value → Nat
  | .arr items => depthItems items + 1
  | .obj fields => depthFields fields + 1
  | .null | .bool _ | .num _ | .str _ => 0

def depthItems : List Value → Nat
  | [] => 0
  | v :: vs => max (depth v) (depthItems vs)

def depthFields : List (String × Value) → Nat
  | [] => 0
  | (_, v) :: fs => max (depth v) (depthFields fs)

end

/-- A field is no deeper than the fields of its object. -/
theorem depth_le_of_get? {v : Value} {fields : Fields} {key : String} (h : Keyed.get? fields key = some v) :
    v.depth ≤ depthFields fields := by
  induction fields with
  | nil => simp [Keyed.get?] at h
  | cons f fs ih =>
    obtain ⟨k, w⟩ := f
    rw [depthFields]
    by_cases hk : k = key
    · simp only [Keyed.get?, hk, List.find?_cons, beq_self_eq_true, Option.map_some, Option.some.injEq] at h
      subst h
      omega
    · have : Keyed.get? fs key = some v := by simpa [Keyed.get?, hk] using h
      have := ih this
      omega

/-- Fields are no deeper with one more than the deeper of it and them. -/
theorem depthFields_insert_le (fields : Fields) (key : String) (v : Value) :
    depthFields (Keyed.insert fields key v) ≤ max v.depth (depthFields fields) := by
  induction fields with
  | nil => simp [Keyed.insert, depthFields]
  | cons f fs ih =>
    obtain ⟨k, w⟩ := f
    unfold Keyed.insert
    split
    · simp only [depthFields]; omega
    · split
      · simp only [depthFields]; omega
      · simp only [depthFields]; omega

/-- Sorting entries by their keys makes nothing deeper. -/
theorem depthFields_ofList_le (entries : List (String × Value)) : depthFields (Keyed.ofList entries) ≤ depthFields entries := by
  suffices h : ∀ (entries : List (String × Value)) (start : Fields),
      depthFields (entries.foldl (fun es (k, a) => Keyed.insert es k a) start) ≤ max (depthFields start) (depthFields entries) by
    have := h entries []
    simpa [Keyed.ofList, depthFields] using this
  intro entries
  induction entries with
  | nil => intro start; simp [depthFields]
  | cons e es ih =>
    intro start
    obtain ⟨k, v⟩ := e
    have h1 := ih (Keyed.insert start k v)
    have h2 := depthFields_insert_le start k v
    simp only [List.foldl_cons, depthFields] at h1 ⊢
    omega

/-- A part of an object is less deep. -/
theorem depth_lt_of_get? {v w : Value} {key : String} (h : v.get? key = some w) : w.depth < v.depth := by
  cases v <;> simp [get?, fields?] at h
  have := depth_le_of_get? h
  simp only [depth]
  omega

end Value

namespace Document

mutual

/-- The most containers inside each other. -/
def depth : Document → Nat
  | .arr items _ => depthItems items + 1
  | .obj fields _ => depthFields fields + 1
  | .broken | .null | .bool _ | .num _ | .nonFinite | .str _ => 0

def depthItems : List Document → Nat
  | [] => 0
  | d :: ds => max (depth d) (depthItems ds)

def depthFields : List (String × Document) → Nat
  | [] => 0
  | (_, d) :: fs => max (depth d) (depthFields fs)

end

/-- An item is no deeper than all items. -/
theorem depth_le_of_mem {d : Document} {items : List Document} (h : d ∈ items) : d.depth ≤ depthItems items := by
  induction items with
  | nil => cases h
  | cons w ws ih =>
    rw [depthItems]
    cases h with
    | head => omega
    | tail _ h => have := ih h; omega

/-- A field of a document is no deeper than all of its fields. -/
theorem depth_le_of_mem_fields {d : Document} {key : String} {fields : List (String × Document)} (h : (key, d) ∈ fields) :
    d.depth ≤ depthFields fields := by
  induction fields with
  | nil => cases h
  | cons f fs ih =>
    obtain ⟨k, w⟩ := f
    rw [depthFields]
    cases h with
    | head => omega
    | tail _ h => have := ih h; omega

mutual

/-- The document of a value is as deep as the value. -/
theorem depth_ofValue : (v : Value) → (ofValue v).depth = v.depth
  | .null | .bool _ | .num _ | .str _ => rfl
  | .arr items => by simp [ofValue, depth, Value.depth, depthItems_ofItems items]
  | .obj fields => by simp [ofValue, depth, Value.depth, depthFields_ofFields fields]

theorem depthItems_ofItems : (items : List Value) → depthItems (ofItems items) = Value.depthItems items
  | [] => rfl
  | v :: vs => by simp [ofItems, depthItems, Value.depthItems, depth_ofValue v, depthItems_ofItems vs]

theorem depthFields_ofFields : (fields : List (String × Value)) →
    depthFields (ofFields fields) = Value.depthFields fields
  | [] => rfl
  | (_, v) :: fs => by simp [ofFields, depthFields, Value.depthFields, depth_ofValue v, depthFields_ofFields fs]

end

mutual

/-- A value is at most as deep as the document it is read from. -/
theorem depth_value?_le : (d : Document) → (v : Value) → d.value? = some v → v.depth ≤ d.depth
  | .broken, _, h => by simp [value?] at h
  | .null, _, h | .bool _, _, h | .num _, _, h | .nonFinite, _, h | .str _, _, h => by
    simp only [value?, Option.some.injEq] at h
    subst h
    simp [Value.depth]
  | .arr items closed, v, h => by
    simp only [value?] at h
    split at h
    · rename_i vs hvs
      split at h <;> simp at h
      subst h
      have := depthItems_value?_le items vs hvs
      simp only [Value.depth, depth]
      omega
    · simp at h
  | .obj fields closed, v, h => by
    simp only [value?] at h
    split at h
    · rename_i fs hfs
      split at h <;> simp at h
      subst h
      have h1 := depthFields_value?_le fields fs hfs
      have h2 := Value.depthFields_ofList_le fs
      simp only [Value.depth, Value.ofFields, depth]
      omega
    · simp at h

/-- Items that are read as values are as deep as the documents at most. -/
theorem depthItems_value?_le : (items : List Document) → (vs : List Value) → valueItems? items = some vs →
    Value.depthItems vs ≤ depthItems items
  | [], vs, h => by
    simp only [valueItems?, Option.some.injEq] at h
    subst h
    simp [Value.depthItems]
  | d :: ds, vs, h => by
    simp only [valueItems?] at h
    split at h
    · rename_i v ws hv hws
      simp only [Option.some.injEq] at h
      subst h
      have h1 := depth_value?_le d v hv
      have h2 := depthItems_value?_le ds ws hws
      simp only [Value.depthItems, depthItems]
      omega
    · simp at h

/-- Fields that are read as values are as deep as the documents at most. -/
theorem depthFields_value?_le : (fields : List (String × Document)) → (fs : List (String × Value)) →
    valueFields? fields = some fs → Value.depthFields fs ≤ depthFields fields
  | [], fs, h => by
    simp only [valueFields?, Option.some.injEq] at h
    subst h
    simp [Value.depthFields]
  | (k, d) :: ds, fs, h => by
    simp only [valueFields?] at h
    split at h
    · rename_i v gs hv hgs
      simp only [Option.some.injEq] at h
      subst h
      have h1 := depth_value?_le d v hv
      have h2 := depthFields_value?_le ds gs hgs
      simp only [Value.depthFields, depthFields]
      omega
    · simp at h

end

end Document

end Runbook
