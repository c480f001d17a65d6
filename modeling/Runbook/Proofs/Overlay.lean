import Runbook.Config.Layers
import Runbook.Proofs.Tables

/-!
# Documents over documents

Of documents that are laid over each other, tables are joined key by key, so that each stays visible where no later one has the key. A
document of another form hides all that is below it and is hidden by whatever comes after it.
-/

namespace Runbook.Document

open Keyed

/-- A document laid over what is there: two tables are joined, otherwise the document alone is left. -/
def laidOver (below : Option Document) (d : Document) : Document :=
  match below, d with
  | some (.obj fields _), .obj above closed => .obj (overlayFields fields above) closed
  | _, d => d

/-- What is left of documents that are laid over each other in turn. -/
def laid (ds : List Document) : Option Document := ds.foldl (fun below d => some (laidOver below d)) none

/-- Tables, and nothing else, are joined. -/
def isTable : Document → Bool
  | .obj _ _ => true
  | _ => false

/-- The documents that are not hidden by a later one: the last one, and if it is a table, those before it back to the last one that is no
table. -/
def standing : List Document → List Document
  | [] => []
  | d :: later => if later.isEmpty || (d :: later).all isTable then d :: later else standing later

/-- The fields of tables that are joined in turn. -/
def joined (tables : List (List (String × Document))) : List (String × Document) := tables.foldl overlayFields []

/-- What is no table replaces all that it is laid over. -/
theorem laidOver_of_not_isTable {d : Document} (h : d.isTable = false) (below : Option Document) : laidOver below d = d := by
  unfold laidOver
  split
  · cases h
  · rfl

theorem laidOver_none (d : Document) : laidOver none d = d := by cases d <;> rfl

/-- A document that is no table is hidden by whatever is laid over it. -/
theorem laidOver_some_of_not_isTable {b : Document} (h : b.isTable = false) (d : Document) : laidOver (some b) d = d := by
  cases b with
  | obj fields closed => cases h
  | _ => rfl

/-- What is laid over something is a table exactly if it was one. -/
theorem isTable_laidOver (below : Option Document) (d : Document) : (laidOver below d).isTable = d.isTable := by
  unfold laidOver
  split <;> rfl

/-! ## Fields over fields -/

/-- A field that is set is there, and the others are as they were. -/
theorem get?_setField (fields : List (String × Document)) (key k : String) (d : Document) :
    get? (setField fields key d) k = if key = k then some d else get? fields k := by
  induction fields with
  | nil => rw [setField, get?_cons]
  | cons e rest ih =>
    obtain ⟨l, e⟩ := e
    unfold setField
    split
    · rename_i hl
      subst hl
      rw [get?_cons, get?_cons]
      split <;> rfl
    · rename_i hl
      rw [get?_cons, get?_cons, ih]
      by_cases hk : l = k
      · rw [if_pos hk, if_pos hk, if_neg fun h => hl (hk.trans h.symm)]
      · rw [if_neg hk, if_neg hk]

/-- To set a field adds its key and no other. -/
theorem mem_keys_setField {fields : List (String × Document)} {key k : String} {d : Document} :
    k ∈ keys (setField fields key d) ↔ k = key ∨ k ∈ keys fields := by
  rw [← get?_isSome, ← get?_isSome, get?_setField]
  by_cases h : key = k
  · simp [h]
  · simp [h, Ne.symm h]

/-- To set a field doubles no key. -/
theorem nodup_setField {fields : List (String × Document)} (h : (keys fields).Nodup) (key : String) (d : Document) :
    (keys (setField fields key d)).Nodup := by
  induction fields with
  | nil => exact List.nodup_singleton key
  | cons e rest ih =>
    obtain ⟨l, e⟩ := e
    obtain ⟨hl, hrest⟩ := List.nodup_cons.mp h
    unfold setField
    split
    · rename_i heq
      exact heq ▸ h
    · rename_i hne
      refine List.nodup_cons.mpr ⟨fun hmem => ?_, ih hrest⟩
      exact (mem_keys_setField.mp hmem).elim hne hl

/-- A field that is new comes last. -/
theorem setField_of_not_mem {fields : List (String × Document)} {key : String} (h : key ∉ keys fields) (d : Document) :
    setField fields key d = fields ++ [(key, d)] := by
  induction fields with
  | nil => rfl
  | cons e rest ih =>
    obtain ⟨l, e⟩ := e
    rw [keys, List.map_cons, List.mem_cons, not_or] at h
    rw [setField, if_neg (Ne.symm h.1), ih h.2, List.cons_append]

/-- A field is laid over what its key has. -/
theorem overlayField_eq (base : List (String × Document)) (key : String) (d : Document) :
    overlayField base key d = setField base key (laidOver (get? base key) d) := by
  cases d with
  | obj fields closed =>
    rw [overlayField, get?]
    cases base.find? (·.1 == key) with
    | none => rfl
    | some e =>
      obtain ⟨k, e⟩ := e
      cases e <;> rfl
  | _ =>
    rw [laidOver_of_not_isTable (by rfl)]
    simp only [overlayField]

/-- To lay fields over others doubles no key. -/
theorem nodup_overlayFields {base : List (String × Document)} (h : (keys base).Nodup) (fields : List (String × Document)) :
    (keys (overlayFields base fields)).Nodup := by
  induction fields generalizing base with
  | nil => rwa [overlayFields]
  | cons e rest ih =>
    obtain ⟨key, d⟩ := e
    rw [overlayFields, overlayField_eq]
    exact ih (nodup_setField h _ _)

/-- What a key has after fields are laid over those of a table: what it had, with its field laid over it. -/
theorem get?_overlayFields {fields : List (String × Document)} (h : (keys fields).Nodup) (base : List (String × Document)) (k : String) :
    get? (overlayFields base fields) k = match get? fields k with
      | some d => some (laidOver (get? base k) d)
      | none => get? base k := by
  induction fields generalizing base with
  | nil => rw [overlayFields, get?_nil]
  | cons e rest ih =>
    obtain ⟨key, d⟩ := e
    obtain ⟨hkey, hrest⟩ := List.nodup_cons.mp h
    rw [overlayFields, ih hrest, overlayField_eq, get?_setField, get?_cons]
    by_cases hk : key = k
    · subst hk
      rw [get?_eq_none.mpr hkey, if_pos rfl, if_pos rfl]
    · rw [if_neg hk, if_neg hk]

/-- Fields of other keys are put behind those of a table. -/
theorem overlayFields_eq_append {base fields : List (String × Document)} (h : (keys (base ++ fields)).Nodup) :
    overlayFields base fields = base ++ fields := by
  induction fields generalizing base with
  | nil => rw [overlayFields, List.append_nil]
  | cons e rest ih =>
    obtain ⟨key, d⟩ := e
    have hkey : key ∉ keys base := fun hmem => by
      rw [keys, List.map_append, List.map_cons, List.nodup_middle, List.nodup_cons] at h
      exact h.1 (List.mem_append_left _ hmem)
    rw [overlayFields, overlayField_eq, get?_eq_none.mpr hkey, laidOver_none, setField_of_not_mem hkey, ih (by simpa using h),
      List.append_assoc, List.singleton_append]

/-! ## Tables over tables -/

variable {tables : List (List (String × Document))}

/-- To lay tables one over the other doubles no key. -/
theorem foldl_overlayFields_nodup {base : List (String × Document)} (h : (keys base).Nodup) :
    (keys (tables.foldl overlayFields base)).Nodup := by
  induction tables generalizing base with
  | nil => exact h
  | cons t ts ih => exact ih (nodup_overlayFields h t)

/-- Joined tables have each key once. -/
theorem nodup_joined : (keys (joined tables)).Nodup := foldl_overlayFields_nodup List.nodup_nil

/-- A field of tables laid one over the other is what they have under its key, laid one over the other. -/
theorem get?_foldl_overlayFields (h : ∀ t ∈ tables, (keys t).Nodup) (base : List (String × Document)) (k : String) :
    get? (tables.foldl overlayFields base) k =
      (tables.filterMap (get? · k)).foldl (fun below d => some (laidOver below d)) (get? base k) := by
  induction tables generalizing base with
  | nil => rfl
  | cons t ts ih =>
    rw [List.foldl_cons, ih (fun t ht => h t (List.mem_cons_of_mem _ ht)), get?_overlayFields (h t List.mem_cons_self)]
    cases hk : get? t k with
    | none => simp only [List.filterMap_cons, hk]
    | some d => simp only [List.filterMap_cons, hk, List.foldl_cons]

/-- A key of joined tables has what they have under it, laid over each other. -/
theorem get?_joined (h : ∀ t ∈ tables, (keys t).Nodup) (k : String) : get? (joined tables) k = laid (tables.filterMap (get? · k)) :=
  get?_foldl_overlayFields h [] k

/-- Where there are documents, something is laid. -/
theorem laid_cons_ne_none (d : Document) (ds : List Document) : laid (d :: ds) ≠ none := by
  rw [laid, List.foldl_cons]
  generalize laidOver none d = b
  induction ds generalizing b with
  | nil => exact Option.some_ne_none b
  | cons d ds ih => exact ih _

/-- Nothing is laid exactly if there is no document. -/
theorem laid_eq_none {ds : List Document} : laid ds = none ↔ ds = [] := by
  cases ds with
  | nil => simp [laid]
  | cons d ds => simp [laid_cons_ne_none]

/-- The keys of joined tables are those of each of them. -/
theorem mem_keys_joined (h : ∀ t ∈ tables, (keys t).Nodup) {k : String} : k ∈ keys (joined tables) ↔ ∃ t ∈ tables, k ∈ keys t := by
  rw [← get?_isSome, get?_joined h, Option.isSome_iff_ne_none, ne_eq, laid_eq_none, List.filterMap_eq_nil_iff]
  push Not
  simp only [← get?_isSome, Option.isSome_iff_ne_none]

/-- Tables that are laid over each other are joined. -/
theorem laid_tables (h : ∀ t ∈ tables, (keys t).Nodup) (hne : tables ≠ []) :
    laid (tables.map (.obj · true)) = some (.obj (joined tables) true) := by
  cases tables with
  | nil => exact absurd rfl hne
  | cons t ts =>
    have hfold (base : List (String × Document)) :
        (ts.map (.obj · true)).foldl (fun below d => some (laidOver below d)) (some (.obj base true)) =
          some (.obj (ts.foldl overlayFields base) true) := by
      induction ts generalizing base with
      | nil => rfl
      | cons u us ih => exact ih (fun t ht => h t (by grind)) (List.cons_ne_nil _ _) _
    have hfirst : overlayFields [] t = t := overlayFields_eq_append (h t List.mem_cons_self)
    rw [laid, List.map_cons, List.foldl_cons, laidOver_none, hfold, joined, List.foldl_cons, hfirst]

/-! ## What stands -/

variable {ds : List Document}

/-- The documents that stand are the last ones. -/
theorem standing_suffix (ds : List Document) : standing ds <:+ ds := by
  induction ds with
  | nil => exact List.suffix_rfl
  | cons d later ih =>
    unfold standing
    split
    · exact List.suffix_rfl
    · exact ih.trans (List.suffix_cons d later)

/-- What stands ends with the last document. -/
theorem getLast?_standing (ds : List Document) : (standing ds).getLast? = ds.getLast? := by
  induction ds with
  | nil => rfl
  | cons d later ih =>
    unfold standing
    split
    · rfl
    · rename_i hhidden
      cases later with
      | nil => exact absurd rfl hhidden
      | cons e rest => rw [ih, List.getLast?_cons_cons]

/-- What stands is nothing, one document, or tables only. -/
theorem standing_cases (ds : List Document) : (∃ d, standing ds = [d]) ∨ ∀ d ∈ standing ds, d.isTable = true := by
  induction ds with
  | nil => exact Or.inr fun d hd => absurd hd List.not_mem_nil
  | cons d later ih =>
    unfold standing
    split
    · rename_i hall
      rcases Bool.or_eq_true_iff.mp hall with hnil | htables
      · rw [List.isEmpty_iff.mp hnil]
        exact Or.inl ⟨d, rfl⟩
      · exact Or.inr (List.all_eq_true.mp htables)
    · exact ih

/-- All tables stand. -/
theorem standing_of_tables (h : ∀ d ∈ ds, d.isTable = true) : standing ds = ds := by
  cases ds with
  | nil => rfl
  | cons d later => rw [standing, if_pos (Bool.or_eq_true_iff.mpr (Or.inr (List.all_eq_true.mpr h)))]

/-- A document that a later one hides leaves no trace: what it is joined to on the way is hidden as well. -/
theorem foldl_laidOver_hidden {b : Document} (hne : ds ≠ []) (h : (b :: ds).all isTable = false) :
    ds.foldl (fun below d => some (laidOver below d)) (some b) = laid ds := by
  induction ds generalizing b with
  | nil => exact absurd rfl hne
  | cons d ds ih =>
    rw [laid, List.foldl_cons, List.foldl_cons, laidOver_none]
    by_cases hrest : (d :: ds).all isTable = true
    · have hb : b.isTable = false := by simpa [hrest] using h
      rw [laidOver_some_of_not_isTable hb]
    · have hrest' := Bool.eq_false_iff.mpr hrest
      rcases hd : d.isTable with _ | _
      · rw [laidOver_of_not_isTable hd]
      · have hds : ds ≠ [] := by
          rintro rfl
          simp [hd] at hrest
        rw [ih hds hrest', ih hds (by rw [List.all_cons, isTable_laidOver, ← List.all_cons]; exact hrest')]

/-- What is hidden does not matter. -/
theorem laid_standing (ds : List Document) : laid (standing ds) = laid ds := by
  induction ds with
  | nil => rfl
  | cons d later ih =>
    unfold standing
    split
    · rfl
    · rename_i hhidden
      rw [Bool.not_eq_true, Bool.or_eq_false_iff] at hhidden
      rw [ih]
      exact (foldl_laidOver_hidden (fun h => by simp [h] at hhidden) hhidden.2).symm

/-- Of documents that are no tables, the last one is left. -/
theorem laid_eq_getLast? (h : ∀ d ∈ ds, d.isTable = false) : laid ds = ds.getLast? := by
  induction ds using List.reverseRecOn with
  | nil => rfl
  | append_singleton ds d _ =>
    rw [laid, List.foldl_append, List.foldl_cons, List.foldl_nil, laidOver_of_not_isTable (h d (by simp)), List.getLast?_concat]

end Runbook.Document
