import Runbook.Proofs.Settings

/-!
# Records read from documents over documents

A setting of a record that is read from documents laid over each other is what the last of them writes, among those that are not hidden. It
cannot be read only where tables are joined that say different things of it.
-/

namespace Runbook

open Keyed Document

/-! ## Readings of documents that are laid over each other -/

namespace Decoder

variable {α : Type} {item : Decoder α} {ds : List Document}

/-- Two documents are joined, but are not read as the same. -/
def Conflict (item : Decoder α) (ds : List Document) : Prop := ∃ d ∈ standing ds, ∃ e ∈ standing ds, item d ≠ item e

/-- Readable documents that are laid over each other can be read unless they are in conflict, and are then read as the last one is. -/
structure Joins (item : Decoder α) : Prop where
  conflict : ∀ ds, (∀ d ∈ ds, item.Reads d) → item.Conflict ds → ∀ d, laid ds = some d → ¬item.Reads d
  last : ∀ ds, (∀ d ∈ ds, item.Reads d) → ¬item.Conflict ds → ∀ d, laid ds = some d → ∃ e, ds.getLast? = some e ∧ item d = item e

/-- Documents that are no tables are in no conflict: the last one hides the others. -/
theorem not_conflict_of_not_isTable (h : ∀ d ∈ ds, d.isTable = false) : ¬item.Conflict ds := by
  rintro ⟨d, hd, e, he, hne⟩
  rcases standing_cases ds with ⟨f, hf⟩ | htables
  · rw [hf, List.mem_singleton] at hd he
    exact hne (by rw [hd, he])
  · exact Bool.false_ne_true ((h d ((standing_suffix ds).subset hd)).symm.trans (htables d hd))

/-- The decoder reads no table. -/
def Flat (item : Decoder α) : Prop := ∀ fields closed, ∃ e, item (.obj fields closed) = .error e

/-- A flat item reads no table. -/
theorem Flat.isTable (h : item.Flat) {d : Document} (hd : item.Reads d) : d.isTable = false := by
  obtain ⟨v, hv⟩ := hd
  cases d with
  | obj fields closed =>
    obtain ⟨e, he⟩ := h fields closed
    rw [he] at hv
    cases hv
  | _ => rfl

/-- There is no conflict about a flat item. -/
theorem Flat.not_conflict (h : item.Flat) (hds : ∀ d ∈ ds, item.Reads d) : ¬item.Conflict ds :=
  not_conflict_of_not_isTable fun d hd => h.isTable (hds d hd)

/-- Without tables, the last document is read. -/
theorem Flat.joins (h : item.Flat) : item.Joins where
  conflict _ hds hconflict := absurd hconflict (h.not_conflict hds)
  last _ hds _ d hd := ⟨d, (laid_eq_getLast? fun d hd => h.isTable (hds d hd)).symm.trans hd, rfl⟩

end Decoder

/-- What documents write of a setting, in those that are not hidden by later ones. -/
def Setting.written {α : Type} (x : Setting α) (place : Nat) (ds : List Document) : List Document :=
  (standing ds).filterMap (part? x.name place)

/-- Every document of a list is the table of some fields with a property. -/
theorem exists_tables {P : List (String × Document) → Prop} {ds : List Document} (h : ∀ d ∈ ds, ∃ t, d = .obj t true ∧ P t) :
    ∃ tables : List (List (String × Document)), ds = tables.map (.obj · true) ∧ ∀ t ∈ tables, P t := by
  induction ds with
  | nil => exact ⟨[], rfl, fun t ht => absurd ht List.not_mem_nil⟩
  | cons d ds ih =>
    obtain ⟨⟨t, rfl, ht⟩, hds⟩ := List.forall_mem_cons.mp h
    obtain ⟨tables, rfl, htables⟩ := ih hds
    exact ⟨t :: tables, rfl, List.forall_mem_cons.mpr ⟨ht, htables⟩⟩

namespace Schema.Has

variable {α : Type} {s : Schema α} {settings : List (Setting α)} {x : Setting α} {tables : List (List (String × Document))}
  {ds : List Document}

/-- Joined tables can be read exactly if what they have of each setting can be, laid over each other. -/
theorem readable_joined_iff (h : s.Has settings) (ht : ∀ t ∈ tables, Readable settings t) :
    Readable settings (joined tables) ↔ ∀ x ∈ settings, ∀ d, laid (tables.filterMap (get? · x.name)) = some d → x.item.Reads d := by
  have hnodup : ∀ t ∈ tables, (keys t).Nodup := fun t htable => (ht t htable).nodup
  constructor
  · intro hjoined x hx d hd
    rw [← get?_joined hnodup] at hd
    obtain ⟨y, hy, hname, hreads⟩ := hjoined.reads _ (mem_of_get? hd)
    rwa [h.eq_of_name hy hx hname] at hreads
  · intro hreads
    refine ⟨nodup_joined, fun e he => ?_⟩
    obtain ⟨t, htable, hkey⟩ := (mem_keys_joined hnodup).mp (List.mem_map_of_mem he)
    obtain ⟨f, hf, hname⟩ := List.mem_map.mp hkey
    obtain ⟨x, hx, hxname, -⟩ := (ht t htable).reads f hf
    have hfind := find?_of_nodup Prod.fst nodup_joined he
    refine ⟨x, hx, hxname.trans hname, hreads x hx e.2 ?_⟩
    rw [← get?_joined hnodup, hxname, hname, get?]
    exact congrArg (Option.map Prod.snd) hfind

/-- What a record is read from can be read for each setting. -/
theorem reads_part (h : s.Has settings) {d : Document} {r : α} (hr : s.decode d = .ok r) {i : Nat} (hx : settings[i]? = some x)
    {e : Document} (he : d.part? x.name i = some e) : x.item.Reads e := by
  have hshows := h.shows_of_decode hr hx
  rw [he] at hshows
  exact ⟨_, hshows⟩

/-- All that is written for a setting is read for it. -/
theorem reads_written (h : s.Has settings) (hds : ∀ d ∈ ds, ∃ r, s.decode d = .ok r) {i : Nat} (hx : settings[i]? = some x) :
    ∀ e ∈ x.written i ds, x.item.Reads e := by
  intro e he
  obtain ⟨d, hd, hpart⟩ := List.mem_filterMap.mp he
  obtain ⟨r, hr⟩ := hds d ((standing_suffix ds).subset hd)
  exact h.reads_part hr hx hpart

/-- A record that is read from documents laid over each other shows what they write of each setting, laid over each other, and it can be read
exactly if this can be. -/
theorem decode_laid (h : s.Has settings) (hds : ∀ d ∈ ds, ∃ r, s.decode d = .ok r) {d : Document} (hd : laid ds = some d) :
    ((∃ r, s.decode d = .ok r) ↔
      ∀ (i : Nat) (x : Setting α), settings[i]? = some x → ∀ e, laid (x.written i ds) = some e → x.item.Reads e) ∧
    ∀ r, s.decode d = .ok r → ∀ (i : Nat) (x : Setting α), settings[i]? = some x → x.Shows s.initial (laid (x.written i ds)) r := by
  have hstanding : ∀ e ∈ standing ds, ∃ r, s.decode e = .ok r := fun e he => hds e ((standing_suffix ds).subset he)
  rw [← laid_standing] at hd
  unfold Setting.written
  rcases standing_cases ds with ⟨e, he⟩ | htables
  · rw [he] at hd hstanding ⊢
    obtain rfl : e = d := by simpa [laid, laidOver_none] using hd
    obtain ⟨r, hr⟩ := hstanding e (List.mem_singleton_self e)
    have hpart (name : String) (i : Nat) : laid ([e].filterMap (part? name i)) = e.part? name i := by
      cases hp : e.part? name i with
      | none => simp [hp, laid]
      | some f => simp [hp, laid, laidOver_none]
    simp only [hpart]
    exact ⟨⟨fun _ i x hx f hf => h.reads_part hr hx hf, fun _ => ⟨r, hr⟩⟩, fun r hr i x hx => h.shows_of_decode hr hx⟩
  · have hobj : ∀ e ∈ standing ds, ∃ t, e = .obj t true ∧ Readable settings t := by
      intro e he
      obtain ⟨r, hr⟩ := hstanding e he
      have htable := htables e he
      cases e with
      | obj t closed =>
        obtain ⟨rfl, hreadable, -⟩ := h.decode_obj hr
        exact ⟨t, rfl, hreadable⟩
      | _ => cases htable
    obtain ⟨tables, heq, hreadable⟩ := exists_tables hobj
    have hne : tables ≠ [] := by
      rintro rfl
      rw [heq] at hd
      cases hd
    have hnodup : ∀ t ∈ tables, (keys t).Nodup := fun t ht => (hreadable t ht).nodup
    rw [heq, laid_tables hnodup hne, Option.some.injEq] at hd
    subst hd
    have hpart (name : String) (i : Nat) : (tables.map (.obj · true)).filterMap (part? name i) = tables.filterMap (get? · name) := by
      rw [List.filterMap_map]
      rfl
    simp only [heq, hpart]
    constructor
    · rw [h.decode_obj_iff, h.readable_joined_iff hreadable]
      exact ⟨fun hall i x hx => hall x (List.mem_of_getElem? hx), fun hall x hx =>
        (List.getElem?_of_mem hx).elim fun i hi => hall i x hi⟩
    · intro r hr i x hx
      have hshows := (h.decode_obj hr).2.2 x (List.mem_of_getElem? hx)
      rwa [get?_joined hnodup] at hshows

/-- Where all settings join, documents laid over each other can be read unless they are in conflict about a setting, and each setting is then
what the last of them writes. -/
theorem decode_laid_last (h : s.Has settings) (hjoins : ∀ x ∈ settings, x.item.Joins) (hds : ∀ d ∈ ds, ∃ r, s.decode d = .ok r)
    {d : Document} (hd : laid ds = some d) :
    ((∃ r, s.decode d = .ok r) ↔ ∀ (i : Nat) (x : Setting α), settings[i]? = some x → ¬x.item.Conflict (x.written i ds)) ∧
    ∀ r, s.decode d = .ok r → ∀ (i : Nat) (x : Setting α), settings[i]? = some x → x.Shows s.initial (x.written i ds).getLast? r := by
  obtain ⟨hiff, hshows⟩ := h.decode_laid hds hd
  have hok : (∃ r, s.decode d = .ok r) ↔ ∀ (i : Nat) (x : Setting α), settings[i]? = some x → ¬x.item.Conflict (x.written i ds) := by
    rw [hiff]
    refine forall_congr' fun i => forall_congr' fun x => forall_congr' fun hx => ?_
    have hj := hjoins x (List.mem_of_getElem? hx)
    constructor
    · intro hall hconflict
      obtain ⟨e, he⟩ : ∃ e, laid (x.written i ds) = some e := by
        obtain ⟨f, hf, -⟩ := hconflict
        refine Option.ne_none_iff_exists'.mp fun hnone => ?_
        rw [laid_eq_none.mp hnone] at hf
        exact List.not_mem_nil hf
      exact hj.conflict _ (h.reads_written hds hx) hconflict e he (hall e he)
    · intro hconflict e he
      obtain ⟨f, hf, hsame⟩ := hj.last _ (h.reads_written hds hx) hconflict e he
      obtain ⟨v, hv⟩ := h.reads_written hds hx f (List.mem_of_getLast? hf)
      exact ⟨v, hsame.trans hv⟩
  refine ⟨hok, fun r hr i x hx => ?_⟩
  have hx' := hshows r hr i x hx
  cases he : laid (x.written i ds) with
  | none =>
    rw [he] at hx'
    rw [laid_eq_none.mp he]
    exact hx'
  | some e =>
    rw [he] at hx'
    obtain ⟨f, hf, hsame⟩ := (hjoins x (List.mem_of_getElem? hx)).last _ (h.reads_written hds hx) (hok.mp ⟨r, hr⟩ i x hx) e he
    rw [hf]
    exact hsame.symm.trans hx'

end Schema.Has

/-! ## Names that are written as texts or as tables -/

namespace Decoder

variable {α : Type} {choices : List (String × α)} {ds : List Document} {tables : List (List (String × Document))}

/-- What is vacant is an empty list or an empty table. -/
theorem vacant_eq_ok {d : Document} : vacant d = .ok () ↔ d = .arr [] true ∨ d = .obj [] true := by
  constructor
  · intro h
    unfold vacant at h
    split at h
    · exact Or.inl rfl
    · exact Or.inr rfl
    · unfold mismatch at h
      split at h <;> cases h
  · rintro (rfl | rfl) <;> rfl

/-- A document without content has none when it is laid over another one. -/
theorem vacant_laidOver {b d : Document} (hb : vacant b = .ok ()) (hd : vacant d = .ok ()) : vacant (laidOver (some b) d) = .ok () := by
  rcases vacant_eq_ok.mp hb with rfl | rfl <;> rcases vacant_eq_ok.mp hd with rfl | rfl <;> rfl

/-- A name, as a text or as a table that holds nothing under it. -/
inductive Spells (name : String) : Document → Prop
  | text : Spells name (.str name)
  | table {d : Document} (h : vacant d = .ok ()) : Spells name (.obj [(name, d)] true)

/-- A document that spells a name is read as the choice of that name. -/
theorem variant_eq_of_spells {d : Document} {name : String} (h : Spells name d) :
    variant vacant choices d = variant.choose choices name := by
  cases h with
  | text => rfl
  | table h =>
    rw [variant, h]
    cases variant.choose choices name <;> rfl

/-- A document that is read as a variant spells the name of a choice. -/
theorem spells_of_variant {d : Document} {a : α} (h : variant vacant choices d = .ok a) :
    ∃ name, Spells name d ∧ variant.choose choices name = .ok a := by
  suffices hspells : ∃ name, Spells name d by
    obtain ⟨name, hspells⟩ := hspells
    exact ⟨name, hspells, (variant_eq_of_spells hspells).symm.trans h⟩
  unfold variant at h
  split at h
  · exact ⟨_, .text⟩
  · rename_i name d
    cases hc : variant.choose choices name with
    | error e => rw [hc] at h; cases h
    | ok b =>
      rw [hc] at h
      cases hv : vacant d with
      | error e => rw [hv] at h; cases h
      | ok u => exact ⟨name, .table hv⟩
  · cases h
  · unfold mismatch at h
    split at h <;> cases h

/-- What a name chooses has this name. -/
theorem mem_of_choose {name : String} {a : α} (h : variant.choose choices name = .ok a) : (name, a) ∈ choices := by
  unfold variant.choose at h
  split at h
  · rename_i k b hfind
    cases h
    obtain rfl : k = name := by simpa using List.find?_some hfind
    exact List.mem_of_find?_eq_some hfind
  · cases h

/-- Names that are tables one and all, and the table to which they are joined. -/
theorem exists_tables_of_variant (hds : ∀ d ∈ ds, (variant vacant choices).Reads d) (htables : ∀ d ∈ standing ds, d.isTable = true)
    {d : Document} (hd : laid ds = some d) : ∃ tables : List (List (String × Document)),
      standing ds = tables.map (.obj · true) ∧ d = .obj (joined tables) true ∧ tables ≠ [] ∧
      ∀ t ∈ tables, ∃ name e, t = [(name, e)] ∧ vacant e = .ok () := by
  have hform : ∀ d ∈ standing ds, ∃ t, d = .obj t true ∧ ∃ name e, t = [(name, e)] ∧ vacant e = .ok () := by
    intro d hd
    obtain ⟨a, ha⟩ := hds d ((standing_suffix ds).subset hd)
    obtain ⟨name, hspells, -⟩ := spells_of_variant ha
    cases hspells with
    | text => cases htables _ hd
    | table h => exact ⟨_, rfl, name, _, rfl, h⟩
  obtain ⟨tables, heq, hsingle⟩ := exists_tables hform
  have hnodup : ∀ t ∈ tables, (keys t).Nodup := by
    intro t ht
    obtain ⟨name, e, rfl, -⟩ := hsingle t ht
    exact List.nodup_singleton name
  have hne : tables ≠ [] := by
    rintro rfl
    rw [← laid_standing, heq] at hd
    cases hd
  rw [← laid_standing, heq, laid_tables hnodup hne, Option.some.injEq] at hd
  exact ⟨tables, heq, hd.symm, hne, hsingle⟩

/-- Tables that hold nothing under one name are joined to one. -/
theorem exists_joined {name : String} (hne : tables ≠ []) (h : ∀ t ∈ tables, ∃ e, t = [(name, e)] ∧ vacant e = .ok ()) :
    ∃ e, joined tables = [(name, e)] ∧ vacant e = .ok () := by
  have hfold {tables : List (List (String × Document))} (h : ∀ t ∈ tables, ∃ e, t = [(name, e)] ∧ vacant e = .ok ()) (b : Document)
      (hb : vacant b = .ok ()) : ∃ e, tables.foldl overlayFields [(name, b)] = [(name, e)] ∧ vacant e = .ok () := by
    induction tables generalizing b with
    | nil => exact ⟨b, rfl, hb⟩
    | cons t ts ih =>
      obtain ⟨⟨e, rfl, he⟩, hts⟩ := List.forall_mem_cons.mp h
      have hlaid : overlayFields [(name, b)] [(name, e)] = [(name, laidOver (some b) e)] := by
        rw [overlayFields, overlayFields, overlayField_eq, get?_cons, if_pos rfl, setField, if_pos rfl]
      rw [List.foldl_cons, hlaid]
      exact ih hts _ (vacant_laidOver hb he)
  cases tables with
  | nil => exact absurd rfl hne
  | cons t ts =>
    obtain ⟨⟨e, rfl, he⟩, hts⟩ := List.forall_mem_cons.mp h
    have hfirst : overlayFields [] [(name, e)] = [(name, e)] := overlayFields_eq_append (List.nodup_singleton name)
    rw [joined, List.foldl_cons, hfirst]
    exact hfold hts e he

/-- Names of different things are in conflict as tables, since they are joined to a table with a field for each of them. -/
theorem joins_variant (hchoices : ∀ c ∈ choices, ∀ e ∈ choices, c.2 = e.2 → c.1 = e.1) : (variant vacant choices).Joins where
  conflict := by
    rintro ds hds ⟨f, hf, g, hg, hne⟩ d hd ⟨a, ha⟩
    rcases standing_cases ds with ⟨e, he⟩ | htables
    · rw [he, List.mem_singleton] at hf hg
      exact hne (by rw [hf, hg])
    · obtain ⟨tables, heq, rfl, -, hsingle⟩ := exists_tables_of_variant hds htables hd
      have hnodup : ∀ t ∈ tables, (keys t).Nodup := by
        intro t ht
        obtain ⟨name, e, rfl, -⟩ := hsingle t ht
        exact List.nodup_singleton name
      obtain ⟨name, hspells, -⟩ := spells_of_variant ha
      have hname : ∀ k ∈ keys (joined tables), k = name := by
        generalize joined tables = t at hspells
        cases hspells with
        | table _ => exact fun k hk => List.mem_singleton.mp hk
      have hsame : ∀ e ∈ standing ds, variant vacant choices e = variant.choose choices name := by
        intro e he
        rw [heq] at he
        obtain ⟨t, ht, rfl⟩ := List.mem_map.mp he
        obtain ⟨k, e, rfl, hvacant⟩ := hsingle t ht
        obtain rfl := hname k ((mem_keys_joined hnodup).mpr ⟨_, ht, List.mem_singleton_self k⟩)
        exact variant_eq_of_spells (.table hvacant)
      exact hne ((hsame f hf).trans (hsame g hg).symm)
  last := by
    intro ds hds hno d hd
    rcases standing_cases ds with ⟨e, he⟩ | htables
    · rw [← laid_standing, he] at hd
      obtain rfl : e = d := by simpa [laid, laidOver_none] using hd
      exact ⟨e, by rw [← getLast?_standing, he]; rfl, rfl⟩
    · obtain ⟨tables, heq, rfl, hne, hsingle⟩ := exists_tables_of_variant hds htables hd
      have hlast := List.getLast?_eq_some_getLast hne
      obtain ⟨name, e, ht, he⟩ := hsingle _ (List.getLast_mem hne)
      have hmem : Document.obj [(name, e)] true ∈ standing ds := by
        rw [heq, ← ht]
        exact List.mem_map_of_mem (List.getLast_mem hne)
      obtain ⟨a, ha⟩ := hds _ ((standing_suffix ds).subset hmem)
      rw [variant_eq_of_spells (.table he)] at ha
      have hsame : ∀ t ∈ tables, ∃ e, t = [(name, e)] ∧ vacant e = .ok () := by
        intro t ht
        obtain ⟨k, f, rfl, hf⟩ := hsingle t ht
        have hmem' : Document.obj [(k, f)] true ∈ standing ds := heq ▸ List.mem_map_of_mem ht
        have hitem : variant vacant choices (.obj [(k, f)] true) = variant vacant choices (.obj [(name, e)] true) := by
          by_contra hdiffer
          exact hno ⟨_, hmem', _, hmem, hdiffer⟩
        rw [variant_eq_of_spells (.table hf), variant_eq_of_spells (.table he), ha] at hitem
        obtain rfl : k = name := hchoices _ (mem_of_choose hitem) _ (mem_of_choose ha) rfl
        exact ⟨f, rfl, hf⟩
      obtain ⟨f, hjoined, hf⟩ := exists_joined hne hsame
      refine ⟨.obj [(name, e)] true, ?_, ?_⟩
      · rw [← getLast?_standing, heq, List.getLast?_map, hlast, ht, Option.map_some]
      · rw [hjoined, variant_eq_of_spells (.table hf), variant_eq_of_spells (.table he)]

end Decoder

end Runbook
