import Mathlib.Data.List.Induction
import Mathlib.Data.List.Nodup
import Mathlib.Data.String.Basic
import Runbook.Text.Names
import Runbook.Value.Keyed

/-!
# Items with keys, sets of names and tables

An item among items with keys of their own is found by its key. A set of names is sorted, so it holds each name once. A table is
sorted by its keys, so it is known by its keys and by what each of them stands for.
-/

namespace Runbook

/-! ## Items with keys -/

/-- Where no two items have the same key, an item is the one that its key finds. -/
theorem find?_of_nodup {items : List α} (key : α → String) (hnd : (items.map key).Nodup) {x : α} (hx : x ∈ items) :
    items.find? (key · == key x) = some x := by
  induction items with
  | nil => simp at hx
  | cons y ys ih =>
    obtain ⟨hy, hys⟩ := List.nodup_cons.mp hnd
    rcases List.mem_cons.mp hx with rfl | hx
    · simp
    · have hne : key y ≠ key x := fun h => hy (h ▸ List.mem_map_of_mem hx)
      rw [List.find?_cons_of_neg (by simpa using hne)]
      exact ih hys hx

/-- Where no two items have the same key, an item stands alone among the others. -/
theorem split_of_nodup {κ : Type} [DecidableEq κ] {items : List α} (key : α → κ) (hnd : (items.map key).Nodup) {x : α}
    (hx : x ∈ items) :
    ∃ before after, items = before ++ x :: after ∧ items.filter (key · ≠ key x) = before ++ after ∧
      ∀ f : α → α, (items.map fun y => if key y = key x then f y else y) = before ++ f x :: after := by
  obtain ⟨before, after, hsplit⟩ := List.append_of_mem hx
  rw [hsplit, List.map_append, List.map_cons, List.nodup_append, List.nodup_cons] at hnd
  obtain ⟨-, ⟨hafter, -⟩, hbefore⟩ := hnd
  have hb : ∀ y ∈ before, key y ≠ key x := fun y hy h => hbefore (key y) (List.mem_map_of_mem hy) (key x) (by simp) h
  have ha : ∀ y ∈ after, key y ≠ key x := fun y hy h => hafter (h ▸ List.mem_map_of_mem hy)
  refine ⟨before, after, hsplit, ?_, ?_⟩
  · rw [hsplit, List.filter_append, List.filter_cons_of_neg (by simp), List.filter_eq_self.mpr (by simpa using hb),
      List.filter_eq_self.mpr (by simpa using ha)]
  · intro f
    have hothers {ys : List α} (hys : ∀ y ∈ ys, key y ≠ key x) : (ys.map fun y => if key y = key x then f y else y) = ys := by
      conv_rhs => rw [← List.map_id ys]
      exact List.map_congr_left fun y hy => if_neg (hys y hy)
    rw [hsplit, List.map_append, List.map_cons, if_pos rfl, hothers hb, hothers ha]

/-- Where every item has one of the keys, it stands with the items of its key. -/
theorem perm_flatMap_filter {items : List α} {keys : List String} (key : α → Option String) (hnd : keys.Nodup)
    (h : ∀ x ∈ items, ∃ k ∈ keys, key x = some k) : items.Perm (keys.flatMap fun k => items.filter (key · = some k)) := by
  induction items with
  | nil => simp
  | cons x items ih =>
    obtain ⟨k, hk, hx⟩ := h x (by simp)
    have ih := ih fun y hy => h y (List.mem_cons_of_mem _ hy)
    obtain ⟨before, after, rfl⟩ := List.append_of_mem hk
    have hnk : k ∉ before ++ after := (List.nodup_cons.mp (List.nodup_middle.mp hnd)).1
    have hothers {ks : List String} (hks : ∀ l ∈ ks, l ∈ before ++ after) :
        (ks.flatMap fun l => (x :: items).filter (key · = some l)) = ks.flatMap fun l => items.filter (key · = some l) := by
      refine List.flatMap_congr fun l hl => List.filter_cons_of_neg ?_
      have hne : k ≠ l := fun heq => hnk (heq ▸ hks l hl)
      simpa [hx] using hne
    rw [List.flatMap_append, List.flatMap_cons] at ih ⊢
    rw [hothers fun l hl => List.mem_append_left _ hl, hothers fun l hl => List.mem_append_right _ hl,
      List.filter_cons_of_pos (by simp [hx]), List.cons_append]
    exact (ih.cons x).trans List.perm_middle.symm

/-! ## Sets of names -/

namespace Names

/-- Smaller names come first, each once. -/
def Sorted (ns : Names) : Prop := ns.Pairwise (· < ·)

theorem Sorted.nodup {ns : Names} (h : ns.Sorted) : ns.Nodup := h.imp ne_of_lt

theorem Sorted.filter {ns : Names} (h : ns.Sorted) (p : String → Bool) : Sorted (ns.filter p) := List.Pairwise.filter p h

/-- Sorted names are still sorted when one is inserted. -/
theorem Sorted.insert {ns : Names} (h : ns.Sorted) (name : String) : Sorted (Names.insert name ns) := by
  induction ns with
  | nil => simp [Names.insert, Sorted]
  | cons n ns ih =>
    obtain ⟨hn, hns⟩ := List.pairwise_cons.mp h
    unfold Names.insert
    split
    · exact h
    · split
      · rename_i hlt
        refine List.pairwise_cons.mpr ⟨?_, h⟩
        intro m hm
        rcases List.mem_cons.mp hm with rfl | hm
        · exact hlt
        · exact lt_trans hlt (hn m hm)
      · rename_i hne hnlt
        refine List.pairwise_cons.mpr ⟨?_, ih hns⟩
        intro m hm
        rcases Names.mem_insert.mp hm with rfl | hm
        · exact lt_of_le_of_ne (not_lt.mp hnlt) (Ne.symm hne)
        · exact hn m hm

/-- The names of a list are sorted. -/
theorem sorted_ofList (names : List String) : Sorted (Names.ofList names) := by
  induction names with
  | nil => exact List.Pairwise.nil
  | cons n ns ih => exact ih.insert n

/-- Sorted names are still sorted when others are added. -/
theorem Sorted.union {ms : Names} (h : ms.Sorted) (ns : Names) : Sorted (Names.union ns ms) := by
  induction ns with
  | nil => exact h
  | cons n ns ih => exact ih.insert n

end Names

/-! ## Tables -/

namespace Keyed

theorem get?_cons (k key : String) (a : α) (entries : Keyed α) :
    Keyed.get? ((k, a) :: entries) key = if k = key then some a else Keyed.get? entries key := by
  by_cases h : k = key <;> simp [Keyed.get?, h]

@[simp] theorem get?_nil (key : String) : Keyed.get? ([] : Keyed α) key = none := rfl

/-- Something is found exactly under the keys. -/
theorem get?_isSome {entries : Keyed α} {key : String} : (Keyed.get? entries key).isSome ↔ key ∈ Keyed.keys entries := by
  induction entries with
  | nil => simp [Keyed.keys]
  | cons e es ih =>
    obtain ⟨k, a⟩ := e
    rw [get?_cons]
    by_cases h : k = key
    · simp [h, Keyed.keys]
    · simp only [h, if_false, ih, Keyed.keys, List.map_cons, List.mem_cons]
      exact ⟨Or.inr, fun h' => h'.resolve_left (Ne.symm h)⟩

/-- Nothing is found exactly under what is no key. -/
theorem get?_eq_none {entries : Keyed α} {key : String} : Keyed.get? entries key = none ↔ key ∉ Keyed.keys entries := by
  rw [← get?_isSome, Option.not_isSome_iff_eq_none]

/-- What a key finds stands in an entry with this key. -/
theorem mem_of_get? {entries : Keyed α} {key : String} {a : α} (h : Keyed.get? entries key = some a) : (key, a) ∈ entries := by
  obtain ⟨⟨k, b⟩, hfind, rfl⟩ := Option.map_eq_some_iff.mp h
  obtain rfl : k = key := by simpa using List.find?_some hfind
  exact List.mem_of_find?_eq_some hfind

/-- A change of one entry leaves the others as they are. -/
theorem get?_modify (entries : Keyed α) (key k : String) (f : α → α) :
    Keyed.get? (Keyed.modify entries key f) k = if k = key then (Keyed.get? entries k).map f else Keyed.get? entries k := by
  induction entries with
  | nil => simp [Keyed.modify]
  | cons e es ih =>
    obtain ⟨l, a⟩ := e
    have hcons : Keyed.modify ((l, a) :: es) key f = (if l = key then (l, f a) else (l, a)) :: Keyed.modify es key f := rfl
    rw [hcons]
    by_cases hl : l = key
    · rw [if_pos hl, get?_cons, get?_cons, ih]
      grind
    · rw [if_neg hl, get?_cons, get?_cons, ih]
      grind

/-- A change of all entries. -/
theorem get?_map (entries : Keyed α) (key : String) (f : α → β) :
    Keyed.get? (entries.map fun (k, a) => (k, f a)) key = (Keyed.get? entries key).map f := by
  induction entries with
  | nil => rfl
  | cons e es ih =>
    obtain ⟨k, a⟩ := e
    rw [List.map_cons, get?_cons, get?_cons, ih]
    split <;> rfl

/-- A change of each of several entries. -/
theorem get?_foldl_modify {keys : List String} (hnd : keys.Nodup) (entries : Keyed α) (k : String) (f : α → α) :
    Keyed.get? (keys.foldl (fun entries key => Keyed.modify entries key f) entries) k =
      if k ∈ keys then (Keyed.get? entries k).map f else Keyed.get? entries k := by
  induction keys generalizing entries with
  | nil => simp
  | cons key keys ih =>
    obtain ⟨hkey, hkeys⟩ := List.nodup_cons.mp hnd
    rw [List.foldl_cons, ih hkeys, get?_modify]
    by_cases hk : k = key
    · subst hk
      simp [hkey]
    · simp [hk]

@[simp] theorem keys_modify (entries : Keyed α) (key : String) (f : α → α) :
    Keyed.keys (Keyed.modify entries key f) = Keyed.keys entries := by
  simp only [Keyed.keys, Keyed.modify, List.map_map]
  refine List.map_congr_left ?_
  intro e _
  simp only [Function.comp_apply]
  split <;> rfl

/-- To insert an entry adds its key and no other. -/
theorem mem_keys_insert (entries : Keyed α) (key k : String) (a : α) :
    k ∈ Keyed.keys (Keyed.insert entries key a) ↔ k = key ∨ k ∈ Keyed.keys entries := by
  rw [← get?_isSome, Keyed.get?_insert, ← get?_isSome]
  by_cases h : key = k
  · simp [h]
  · simp [h, Ne.symm h]

/-- Smaller keys come first, each once. -/
def Sorted (entries : Keyed α) : Prop := Names.Sorted (Keyed.keys entries)

/-- Every entry is the one that its key finds. -/
theorem Sorted.get?_of_mem {entries : Keyed α} (h : Keyed.Sorted entries) {key : String} {a : α} (hmem : (key, a) ∈ entries) :
    Keyed.get? entries key = some a := by
  induction entries with
  | nil => cases hmem
  | cons e es ih =>
    obtain ⟨k, b⟩ := e
    obtain ⟨hk, hes⟩ := List.pairwise_cons.mp h
    rw [get?_cons]
    rcases List.mem_cons.mp hmem with heq | hmem
    · obtain ⟨rfl, rfl⟩ := Prod.mk.inj heq
      rw [if_pos rfl]
    · have hne : k ≠ key := ne_of_lt (hk key (List.mem_map_of_mem hmem))
      rw [if_neg hne, ih hes hmem]

/-- Sorted entries are still sorted when one is inserted. -/
theorem Sorted.insert {entries : Keyed α} (h : Keyed.Sorted entries) (key : String) (a : α) :
    Keyed.Sorted (Keyed.insert entries key a) := by
  induction entries with
  | nil => simp [Keyed.insert, Keyed.Sorted, Keyed.keys, Names.Sorted]
  | cons e es ih =>
    obtain ⟨k, b⟩ := e
    obtain ⟨hk, hes⟩ := List.pairwise_cons.mp h
    unfold Keyed.insert
    split
    · rename_i heq
      subst heq
      exact h
    · split
      · rename_i hlt
        refine List.pairwise_cons.mpr ⟨?_, h⟩
        intro m hm
        rcases List.mem_cons.mp hm with rfl | hm
        · exact hlt
        · exact lt_trans hlt (hk m hm)
      · rename_i hne hnlt
        refine List.pairwise_cons.mpr ⟨?_, ih hes⟩
        intro m hm
        rcases (mem_keys_insert es key m a).mp hm with rfl | hm
        · exact lt_of_le_of_ne (not_lt.mp hnlt) (Ne.symm hne)
        · exact hk m hm

/-- The last entry of a list is inserted last. -/
theorem ofList_append_singleton (entries : List (String × α)) (key : String) (a : α) :
    Keyed.ofList (entries ++ [(key, a)]) = Keyed.insert (Keyed.ofList entries) key a := by
  simp [Keyed.ofList]

/-- The entries of a list are sorted. -/
theorem sorted_ofList (entries : List (String × α)) : Keyed.Sorted (Keyed.ofList entries) := by
  induction entries using List.reverseRecOn with
  | nil => exact List.Pairwise.nil
  | append_singleton es e ih => exact ofList_append_singleton es e.1 e.2 ▸ ih.insert e.1 e.2

/-- The keys of a list are those of its entries. -/
theorem mem_keys_ofList (entries : List (String × α)) (key : String) :
    key ∈ Keyed.keys (Keyed.ofList entries) ↔ key ∈ entries.map (·.1) := by
  induction entries using List.reverseRecOn with
  | nil => rfl
  | append_singleton es e ih =>
    rw [ofList_append_singleton es e.1 e.2, mem_keys_insert, ih]
    simp [or_comm]

/-- In a table made from entries that all keep to a rule, every key stands for what the rule says. -/
theorem get?_ofList {entries : List (String × α)} {f : String → α} (h : ∀ e ∈ entries, e.2 = f e.1) (key : String) :
    Keyed.get? (Keyed.ofList entries) key = if key ∈ entries.map (·.1) then some (f key) else none := by
  induction entries using List.reverseRecOn with
  | nil => rfl
  | append_singleton es e ih =>
    rw [ofList_append_singleton es e.1 e.2, Keyed.get?_insert, ih fun e' he' => h e' (by simp [he'])]
    have he := h e (by simp)
    by_cases hk : e.1 = key
    · simp [hk, he]
    · have hmem : key ∈ (es ++ [e]).map (·.1) ↔ key ∈ es.map (·.1) := by simp [Ne.symm hk]
      simp only [hk, if_false, hmem]

/-- Tables with the same keys in which every key stands for the same are the same. -/
theorem ext_of_sorted {entries entries' : Keyed α} (hs : Keyed.Sorted entries) (hk : Keyed.keys entries = Keyed.keys entries')
    (hg : ∀ key ∈ Keyed.keys entries, Keyed.get? entries key = Keyed.get? entries' key) : entries = entries' := by
  induction entries generalizing entries' with
  | nil =>
    cases entries' with
    | nil => rfl
    | cons => simp [Keyed.keys] at hk
  | cons e es ih =>
    cases entries' with
    | nil => simp [Keyed.keys] at hk
    | cons e' es' =>
      obtain ⟨k, a⟩ := e
      obtain ⟨k', a'⟩ := e'
      obtain ⟨rfl, hkeys⟩ : k = k' ∧ Keyed.keys es = Keyed.keys es' := by simpa [Keyed.keys] using hk
      obtain ⟨hlt, hes⟩ := List.pairwise_cons.mp hs
      have ha : some a = some a' := by simpa [get?_cons] using hg k (by simp [Keyed.keys])
      obtain rfl := Option.some.inj ha
      rw [ih hes hkeys fun key hkey => ?_]
      have hne : k ≠ key := ne_of_lt (hlt key hkey)
      simpa [get?_cons, hne] using hg key (by simp [Keyed.keys] at hkey ⊢; exact Or.inr hkey)

end Keyed

end Runbook
