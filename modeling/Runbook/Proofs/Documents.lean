import Runbook.Proofs.Numerals
import Runbook.Proofs.Tables

/-!
# Values that a document can hold

A document holds signed and unsigned integers of 64 bits, finite floats, and objects with their fields in the order of the keys. Whatever
a text spells is such a value, and every such value is that of a document.
-/

namespace Runbook

namespace Keyed

/-- An entry with a key behind all others stands at the end. -/
theorem insert_of_lt {entries : Keyed α} {key : String} (h : ∀ k ∈ Keyed.keys entries, k < key) (a : α) :
    Keyed.insert entries key a = entries ++ [(key, a)] := by
  induction entries with
  | nil => rfl
  | cons e es ih =>
    obtain ⟨k, b⟩ := e
    have hk : k < key := h k List.mem_cons_self
    unfold Keyed.insert
    rw [if_neg (ne_of_gt hk), if_neg (not_lt.mpr hk.le), ih fun l hl => h l (List.mem_cons_of_mem _ hl)]
    rfl

/-- Entries in the order of their keys stay as they are. -/
theorem Sorted.ofList_eq {entries : List (String × α)} (h : Keyed.Sorted entries) : Keyed.ofList entries = entries := by
  induction entries using List.reverseRecOn with
  | nil => rfl
  | append_singleton es e ih =>
    have hkeys : (es.map (·.1) ++ [e.1]).Pairwise (· < ·) := by simpa [Keyed.Sorted, Names.Sorted, Keyed.keys] using h
    obtain ⟨hes, -, hlt⟩ := List.pairwise_append.mp hkeys
    rw [ofList_append_singleton es e.1 e.2, ih hes]
    exact insert_of_lt (fun k hk => hlt k hk e.1 (by simp)) e.2

/-- An insertion brings in nothing but its own entry. -/
theorem mem_of_mem_insert {entries : Keyed α} {key : String} {a : α} {e : String × α} (h : e ∈ Keyed.insert entries key a) :
    e = (key, a) ∨ e ∈ entries := by
  induction entries with
  | nil => simpa [Keyed.insert] using h
  | cons e' es ih =>
    obtain ⟨k, b⟩ := e'
    unfold Keyed.insert at h
    split_ifs at h with hk hlt
    · rcases List.mem_cons.mp h with rfl | h
      · exact Or.inl rfl
      · exact Or.inr (List.mem_cons_of_mem _ h)
    · exact List.mem_cons.mp h
    · rcases List.mem_cons.mp h with rfl | h
      · exact Or.inr List.mem_cons_self
      · exact (ih h).imp_right (List.mem_cons_of_mem _)

/-- Sorting entries by their keys adds none. -/
theorem mem_of_mem_ofList {entries : List (String × α)} {e : String × α} (h : e ∈ Keyed.ofList entries) : e ∈ entries := by
  induction entries using List.reverseRecOn with
  | nil => exact h
  | append_singleton es e' ih =>
    rw [Keyed.ofList_append_singleton es e'.1 e'.2] at h
    rcases mem_of_mem_insert h with rfl | h
    · simp
    · exact List.mem_append_left _ (ih h)

end Keyed

namespace Value

mutual

/-- A value that a document can hold: its numbers are, and its objects have their fields in the order of the keys. -/
def Held : Value → Prop
  | .num n => n.Held
  | .arr items => HeldItems items
  | .obj fields => Keyed.Sorted fields ∧ HeldFields fields
  | .null | .bool _ | .str _ => True

def HeldItems : List Value → Prop
  | [] => True
  | v :: vs => v.Held ∧ HeldItems vs

def HeldFields : List (String × Value) → Prop
  | [] => True
  | (_, v) :: fs => v.Held ∧ HeldFields fs

end

/-- Items can be held exactly if each of them can. -/
theorem heldItems_iff {items : List Value} : HeldItems items ↔ ∀ v ∈ items, v.Held := by
  induction items with
  | nil => simp [HeldItems]
  | cons v vs ih => simp [HeldItems, ih]

/-- Fields can be held exactly if the value of each of them can. -/
theorem heldFields_iff {fields : List (String × Value)} : HeldFields fields ↔ ∀ f ∈ fields, f.2.Held := by
  induction fields with
  | nil => simp [HeldFields]
  | cons f fs ih => simp [HeldFields, ih]

end Value

namespace Document

mutual

/-- The document of a value that a document can hold has this value. -/
theorem value?_ofValue : (v : Value) → v.Held → (ofValue v).value? = some v
  | .null, _ | .bool _, _ | .num _, _ | .str _, _ => rfl
  | .arr items, h => by
    rw [ofValue, value?, valueItems?_ofItems items h]
    rfl
  | .obj fields, h => by
    rw [ofValue, value?, valueFields?_ofFields fields h.2]
    simp [Value.ofFields, h.1.ofList_eq]

/-- Items that can be held are read back from their documents. -/
theorem valueItems?_ofItems : (items : List Value) → Value.HeldItems items → valueItems? (ofItems items) = some items
  | [], _ => rfl
  | v :: vs, h => by rw [ofItems, valueItems?, value?_ofValue v h.1, valueItems?_ofItems vs h.2]

/-- Fields that can be held are read back from their documents. -/
theorem valueFields?_ofFields : (fields : List (String × Value)) → Value.HeldFields fields →
    valueFields? (ofFields fields) = some fields
  | [], _ => rfl
  | (_, v) :: fs, h => by rw [ofFields, valueFields?, value?_ofValue v h.1, valueFields?_ofFields fs h.2]

end

mutual

/-- A document whose numbers a document can hold. -/
def Held : Document → Prop
  | .num n => n.Held
  | .arr items _ => HeldItems items
  | .obj fields _ => HeldFields fields
  | .broken | .null | .bool _ | .nonFinite | .str _ => True

def HeldItems : List Document → Prop
  | [] => True
  | d :: ds => d.Held ∧ HeldItems ds

def HeldFields : List (String × Document) → Prop
  | [] => True
  | (_, d) :: fs => d.Held ∧ HeldFields fs

end

mutual

/-- The value of a document whose numbers a document can hold is one that a document can hold. -/
theorem held_value? : (d : Document) → d.Held → (v : Value) → d.value? = some v → v.Held
  | .broken, _, _, h => by cases h
  | .null, _, _, h | .bool _, _, _, h | .nonFinite, _, _, h | .str _, _, _, h => by
    cases h
    trivial
  | .num n, hd, _, h => by
    cases h
    exact hd
  | .arr items closed, hd, v, h => by
    rw [value?] at h
    split at h
    · rename_i vs hvs
      split at h
      · cases h
        exact held_valueItems? items hd vs hvs
      · cases h
    · cases h
  | .obj fields closed, hd, v, h => by
    rw [value?] at h
    split at h
    · rename_i fs hfs
      split at h
      · cases h
        refine ⟨Keyed.sorted_ofList fs, Value.heldFields_iff.mpr fun f hf => ?_⟩
        exact Value.heldFields_iff.mp (held_valueFields? fields hd fs hfs) f (Keyed.mem_of_mem_ofList hf)
      · cases h
    · cases h

/-- Items that are read from documents that can be held can be held. -/
theorem held_valueItems? : (ds : List Document) → HeldItems ds → (vs : List Value) → valueItems? ds = some vs → Value.HeldItems vs
  | [], _, vs, h => by
    cases h
    trivial
  | d :: ds, hd, vs, h => by
    rw [valueItems?] at h
    split at h
    · rename_i v ws hv hws
      cases h
      exact ⟨held_value? d hd.1 v hv, held_valueItems? ds hd.2 ws hws⟩
    · cases h

/-- Fields that are read from documents that can be held can be held. -/
theorem held_valueFields? : (ds : List (String × Document)) → HeldFields ds → (fs : List (String × Value)) →
    valueFields? ds = some fs → Value.HeldFields fs
  | [], _, fs, h => by
    cases h
    trivial
  | (key, d) :: ds, hd, fs, h => by
    rw [valueFields?] at h
    split at h
    · rename_i v gs hv hgs
      cases h
      exact ⟨held_value? d hd.1 v hv, held_valueFields? ds hd.2 gs hgs⟩
    · cases h

end

/-- Documents of items can be held exactly if each of them can. -/
theorem heldItems_iff {items : List Document} : HeldItems items ↔ ∀ d ∈ items, d.Held := by
  induction items with
  | nil => simp [HeldItems]
  | cons d ds ih => simp [HeldItems, ih]

/-- Documents of fields can be held exactly if each of them can. -/
theorem heldFields_iff {fields : List (String × Document)} : HeldFields fields ↔ ∀ f ∈ fields, f.2.Held := by
  induction fields with
  | nil => simp [HeldFields]
  | cons f fs ih => simp [HeldFields, ih]

/-- A document that JSON spells: every number in it is finite and one that a document can hold. -/
inductive OfJson : Document → Prop
  | broken : OfJson .broken
  | null : OfJson .null
  | bool (b : Bool) : OfJson (.bool b)
  | num {n : Number} (h : n.Held) : OfJson (.num n)
  | str (s : String) : OfJson (.str s)
  | arr {items : List Document} {closed : Bool} (h : ∀ d ∈ items, OfJson d) : OfJson (.arr items closed)
  | obj {fields : List (String × Document)} {closed : Bool} (h : ∀ f ∈ fields, OfJson f.2) : OfJson (.obj fields closed)

/-- A document of JSON can be held. -/
theorem OfJson.held {d : Document} (h : d.OfJson) : d.Held := by
  induction h with
  | broken | null | bool | str => trivial
  | num h => exact h
  | arr _ ih => exact heldItems_iff.mpr ih
  | obj _ ih => exact heldFields_iff.mpr ih

/-- Nothing but null has the value null. -/
theorem OfJson.eq_null {d : Document} (h : d.OfJson) (hnull : d.value? = some .null) : d = .null := by
  cases h with
  | null => rfl
  | broken | bool | num | str => cases hnull
  | arr =>
    rw [value?] at hnull
    split at hnull
    · split at hnull <;> cases hnull
    · cases hnull
  | obj =>
    rw [value?] at hnull
    split at hnull
    · split at hnull <;> cases hnull
    · cases hnull

mutual

/-- The document of a value that can be held is one of JSON. -/
theorem ofJson_ofValue : (v : Value) → v.Held → (ofValue v).OfJson
  | .null, _ => .null
  | .bool b, _ => .bool b
  | .num _, h => .num h
  | .str s, _ => .str s
  | .arr items, h => .arr (ofJson_ofItems items h)
  | .obj fields, h => .obj (ofJson_ofFields fields h.2)

/-- The documents of items that can be held are documents of JSON. -/
theorem ofJson_ofItems : (items : List Value) → Value.HeldItems items → ∀ d ∈ ofItems items, d.OfJson
  | [], _ => List.forall_mem_nil _
  | v :: vs, h => List.forall_mem_cons.mpr ⟨ofJson_ofValue v h.1, ofJson_ofItems vs h.2⟩

/-- The documents of fields that can be held are documents of JSON. -/
theorem ofJson_ofFields : (fields : List (String × Value)) → Value.HeldFields fields → ∀ f ∈ ofFields fields, f.2.OfJson
  | [], _ => List.forall_mem_nil _
  | (_, v) :: fs, h => List.forall_mem_cons.mpr ⟨ofJson_ofValue v h.1, ofJson_ofFields fs h.2⟩

end

end Document

namespace Json

/-- A text that spells a value is read to a document with this value. -/
theorem exists_read {text : String} {v : Value} (h : parse? text = some v) :
    ∃ d, (readValue maxDepth text.toList).1 = d ∧ d.value? = some v := by
  refine ⟨_, rfl, ?_⟩
  unfold parse? parseWithin? read at h
  split at h
  · rename_i heq
    split at heq
    · rename_i hread
      rw [hread]
      exact (Prod.mk.inj heq).1 ▸ h
    · cases heq
  · cases h

/-- A floating-point numeral is read as a number that a document can hold. -/
theorem held_float? {negative : Bool} {whole fraction : List Char} {exponent : Int} {n : Number}
    (h : float? negative whole fraction exponent = some n) : n.Held := by
  unfold float? signed? at h
  split at h
  · obtain ⟨x, -, rfl⟩ := Option.map_eq_some_iff.mp h
    trivial
  · cases h
  · cases h

/-- A whole numeral is read as a number that a document can hold. -/
theorem held_integer? {negative : Bool} {digits : List Char} {n : Number} (h : integer? negative digits = some n) : n.Held := by
  unfold integer? at h
  extract_lets k i at h
  by_cases hrange : (Number.inRange i && !(negative && k = 0)) = true
  · rw [if_pos hrange] at h
    exact Option.some.inj h ▸ (Bool.and_eq_true_iff.mp hrange).1
  · rw [if_neg hrange] at h
    exact held_float? h

/-- Every numeral is read as a number that a document can hold. -/
theorem held_readNumber {s rest : List Char} {n : Number} (h : readNumber s = some (n, rest)) : n.Held := by
  rw [readNumber_eq] at h
  dsimp only at h
  split at h
  · cases h
  · split at h
    · cases h
    · cases h
    · obtain ⟨m, hm, heq⟩ := Option.map_eq_some_iff.mp h
      obtain rfl := (Prod.mk.inj heq).1
      split at hm
      · exact held_integer? hm
      · exact held_float? hm

/-- The items that are read are documents of JSON if what reads one of them gives these only. -/
theorem ofJson_readItems {item : List Char → Json.Step Document} (hitem : ∀ s, (item s).1.OfJson) (fuel : Nat) (s : List Char) :
    ∀ d ∈ (readItems item fuel s).1, d.OfJson := by
  induction fuel generalizing s with
  | zero => exact List.forall_mem_nil _
  | succ fuel ih =>
    have hfirst := hitem s
    unfold readItems
    split
    · rename_i hread
      rw [hread] at hfirst
      exact List.forall_mem_singleton.mpr hfirst
    · rename_i hread
      rw [hread] at hfirst
      split
      · exact List.forall_mem_cons.mpr ⟨hfirst, ih _⟩
      · exact List.forall_mem_singleton.mpr hfirst
      · exact List.forall_mem_singleton.mpr hfirst

/-- The fields that are read are documents of JSON if what reads a value gives these only. -/
theorem ofJson_readFields {item : List Char → Json.Step Document} (hitem : ∀ s, (item s).1.OfJson) (fuel : Nat) (s : List Char) :
    ∀ f ∈ (readFields item fuel s).1, f.2.OfJson := by
  induction fuel generalizing s with
  | zero => exact List.forall_mem_nil _
  | succ fuel ih =>
    unfold readFields
    split
    · split
      · exact List.forall_mem_nil _
      · rename_i s' key rest _
        dsimp only
        split
        · rename_i s hcolon
          have hfirst := hitem s
          split
          · rename_i hread
            rw [hread] at hfirst
            exact List.forall_mem_singleton.mpr hfirst
          · rename_i hread
            rw [hread] at hfirst
            split
            · exact List.forall_mem_cons.mpr ⟨hfirst, ih _⟩
            · exact List.forall_mem_singleton.mpr hfirst
            · exact List.forall_mem_singleton.mpr hfirst
        · exact List.forall_mem_singleton.mpr .broken
    · exact List.forall_mem_nil _

/-- Every value that is read is a document of JSON. -/
theorem ofJson_readValue (depth : Nat) (s : List Char) : (readValue depth s).1.OfJson := by
  induction depth using Nat.strongRecOn generalizing s with
  | ind depth ih =>
    unfold readValue
    split
    case h_1 => exact .null
    case h_2 | h_3 => exact .bool _
    case h_4 =>
      split
      · exact .str _
      · exact .broken
    case h_5 =>
      split
      · exact .arr (List.forall_mem_nil _)
      · dsimp only
        split
        · exact .arr (List.forall_mem_nil _)
        · exact .arr (ofJson_readItems (ih _ (Nat.lt_succ_self _)) _ _)
    case h_6 =>
      split
      · exact .obj (List.forall_mem_nil _)
      · dsimp only
        split
        · exact .obj (List.forall_mem_nil _)
        · exact .obj (ofJson_readFields (ih _ (Nat.lt_succ_self _)) _ _)
    case h_7 =>
      split
      · rename_i hread
        exact .num (held_readNumber hread)
      · exact .broken

/-- Every text that is read is a document of JSON. -/
theorem ofJson_read (depth : Nat) (text : String) : (read depth text).1.OfJson := by
  have h := ofJson_readValue depth text.toList
  unfold read
  split
  all_goals
    rename_i hread
    rw [hread] at h
    exact h

end Json

end Runbook
