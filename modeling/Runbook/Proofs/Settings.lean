import Mathlib.Data.List.Pairwise
import Runbook.Json.SchemaLemmas
import Runbook.Proofs.Overlay

/-!
# The settings of records

The fields of a record are read from a document and shown by the record. Where each field changes what it shows and nothing else, a record
that is read shows of each field what the document has under its name, or at its place, and otherwise its default.
-/

namespace Runbook

open Keyed

/-- The decoder can read a document. -/
def Decoder.Reads (item : Decoder α) (d : Document) : Prop := ∃ v, item d = .ok v

/-- A field of a record, with what the record shows of it. -/
structure Setting (α : Type) where
  name : String
  presence : Presence
  {Content : Type}
  item : Decoder Content
  set : Content → α → α
  get : α → Content
  get_set : ∀ v a, get (set v a) = v

namespace Setting

variable {α : Type}

def field (x : Setting α) : Field α := .of x.name x.presence x.item x.set

/-- Two settings with names of their own, neither of which changes the other. -/
structure Apart (x y : Setting α) : Prop where
  name : x.name ≠ y.name
  left : ∀ v a, x.get (y.set v a) = x.get a
  right : ∀ v a, y.get (x.set v a) = y.get a

theorem Apart.symm {x y : Setting α} (h : x.Apart y) : y.Apart x := ⟨h.name.symm, h.right, h.left⟩

instance : Std.Symm (Apart (α := α)) := ⟨fun _ _ => Apart.symm⟩

/-- A record shows what a document says of a setting, or, without a document, what another record shows. -/
def Shows (x : Setting α) (otherwise : α) (d : Option Document) (a : α) : Prop :=
  match d with
  | some d => x.item d = .ok (x.get a)
  | none => x.get a = x.get otherwise

/-- What shows the same document has the same setting. -/
theorem Shows.get_eq {x : Setting α} {otherwise a b : α} {d : Option Document} (ha : x.Shows otherwise d a) (hb : x.Shows otherwise d b) :
    x.get a = x.get b := by
  cases d with
  | some d => exact Except.ok.inj (ha.symm.trans hb)
  | none => exact ha.trans hb.symm

/-- Only what the other record shows of the setting matters. -/
theorem Shows.congr {x : Setting α} {b c a : α} {d : Option Document} (h : x.Shows b d a) (heq : x.get b = x.get c) : x.Shows c d a := by
  cases d with
  | some d => exact h
  | none => exact h.trans heq

end Setting

/-- What a record has under a name, or at a place, if it is written as an array. -/
def Document.part? (name : String) (place : Nat) : Document → Option Document
  | .obj fields _ => get? fields name
  | .arr items _ => items[place]?
  | _ => none

namespace Schema

/-- The fields of a kind of record are these settings. Each of them changes nothing but what it shows. -/
structure Has (s : Schema α) (settings : List (Setting α)) : Prop where
  fields : s.fields = settings.map Setting.field
  apart : settings.Pairwise Setting.Apart
  absent : ∀ x ∈ settings, x.presence ≠ .required

/-- Every field of a table is a setting that can be read, and none is there twice. -/
structure Readable (settings : List (Setting α)) (fields : List (String × Document)) : Prop where
  nodup : (keys fields).Nodup
  reads : ∀ e ∈ fields, ∃ x ∈ settings, x.name = e.1 ∧ x.item.Reads e.2

namespace Has

variable {s : Schema α} {settings : List (Setting α)} {x y : Setting α}

/-- Different settings of a schema are apart. -/
theorem apart_of_ne (h : s.Has settings) (hx : x ∈ settings) (hy : y ∈ settings) (hne : x ≠ y) : x.Apart y := h.apart.forall hx hy hne

/-- The settings of a schema have different names. -/
theorem eq_of_name (h : s.Has settings) (hx : x ∈ settings) (hy : y ∈ settings) (hname : x.name = y.name) : x = y := by
  by_contra hne
  exact (h.apart_of_ne hx hy hne).name hname

/-- The setting with a name is that of the field with the name. -/
theorem field?_eq (h : s.Has settings) (key : String) : s.field? key = (settings.find? (·.name == key)).map Setting.field := by
  rw [field?, h.fields, List.find?_map]
  rfl

/-- The field of a name is that of the setting with the name. -/
theorem field?_name (h : s.Has settings) (hx : x ∈ settings) : s.field? x.name = some x.field := by
  rw [h.field?_eq]
  cases hfind : settings.find? (·.name == x.name) with
  | none => exact absurd (List.find?_eq_none.mp hfind x hx) (by simp)
  | some y => rw [h.eq_of_name (List.mem_of_find?_eq_some hfind) hx (by simpa using List.find?_some hfind), Option.map_some]

/-- Every field is that of a setting. -/
theorem exists_of_field? (h : s.Has settings) {key : String} {f : Field α} (hf : s.field? key = some f) :
    ∃ x ∈ settings, x.name = key ∧ f = x.field := by
  rw [h.field?_eq, Option.map_eq_some_iff] at hf
  obtain ⟨x, hfind, rfl⟩ := hf
  exact ⟨x, List.mem_of_find?_eq_some hfind, by simpa using List.find?_some hfind, rfl⟩

/-! ## Records written as tables -/

/-- Fields that are read can be read one by one, none of them twice, and show in what they are read into. -/
theorem readFields_ok (h : s.Has settings) {fields : List (String × Document)} {seen seen' : List String} {a r : α}
    (hr : s.readFields seen a fields = .ok (seen', r)) :
    Readable settings fields ∧ (∀ k ∈ keys fields, k ∉ seen) ∧ ∀ x ∈ settings, x.Shows a (get? fields x.name) r := by
  induction fields generalizing seen a with
  | nil =>
    cases hr
    exact ⟨⟨List.nodup_nil, fun e he => absurd he List.not_mem_nil⟩, fun k hk => absurd hk List.not_mem_nil, fun x _ => rfl⟩
  | cons e rest ih =>
    obtain ⟨key, d⟩ := e
    rw [readFields] at hr
    split at hr
    · cases hr
    · rename_i f hf
      obtain ⟨x, hx, hname, rfl⟩ := h.exists_of_field? hf
      split at hr
      · cases hr
      · rename_i hseen
        cases hread : x.field.read d a with
        | error e => rw [hread] at hr; cases hr
        | ok a' =>
          rw [hread] at hr
          obtain ⟨v, hv, rfl⟩ := Field.of_read_ok hread
          obtain ⟨hrest, hnew, hshows⟩ := ih hr
          have hkey : key ∉ keys rest := fun hmem => hnew key hmem List.mem_cons_self
          refine ⟨⟨List.nodup_cons.mpr ⟨hkey, hrest.nodup⟩, ?_⟩, ?_, fun y hy => ?_⟩
          · exact List.forall_mem_cons.mpr ⟨⟨x, hx, hname, v, hv⟩, hrest.reads⟩
          · refine List.forall_mem_cons.mpr ⟨by simpa using hseen, fun k hk hmem => hnew k hk (List.mem_cons_of_mem _ hmem)⟩
          · have hy' := hshows y hy
            rw [get?_cons]
            split
            · rename_i hyname
              obtain rfl : x = y := h.eq_of_name hx hy (hname.trans hyname)
              rw [get?_eq_none.mpr (hname ▸ hkey)] at hy'
              exact hv.trans (congrArg Except.ok ((x.get_set v a).symm.trans hy'.symm))
            · rename_i hyname
              exact hy'.congr ((h.apart_of_ne hx hy fun heq => hyname (hname.symm.trans (congrArg _ heq))).right v a)

/-- Fields that can be read one by one, none of them twice, are read. -/
theorem exists_readFields (h : s.Has settings) {fields : List (String × Document)} (hf : Readable settings fields) {seen : List String}
    (hseen : ∀ k ∈ keys fields, k ∉ seen) (a : α) : ∃ out, s.readFields seen a fields = .ok out := by
  induction fields generalizing seen a with
  | nil => exact ⟨_, rfl⟩
  | cons e rest ih =>
    obtain ⟨key, d⟩ := e
    obtain ⟨⟨x, hx, rfl, v, hv⟩, hreads⟩ := List.forall_mem_cons.mp hf.reads
    obtain ⟨hkey, hnodup⟩ := List.nodup_cons.mp hf.nodup
    obtain ⟨hnew, hseen⟩ := List.forall_mem_cons.mp hseen
    have hread : x.field.read d a = .ok (x.set v a) := by
      rw [Setting.field, Field.of]
      simp only [hv, Functor.map, Except.map]
    have hseen' : ∀ k ∈ keys rest, k ∉ x.name :: seen := fun k hk hmem =>
      (List.mem_cons.mp hmem).elim (fun heq => hkey (heq ▸ hk)) (hseen k hk)
    obtain ⟨out, hout⟩ := ih ⟨hnodup, hreads⟩ hseen' (x.set v a)
    refine ⟨out, ?_⟩
    simp only [readFields, h.field?_name hx, List.contains_eq_mem, hnew, decide_false, Bool.false_eq_true, if_false, hread]
    exact hout

/-- A record that is read is closed, and its fields show in it. -/
theorem decode_obj (h : s.Has settings) {fields : List (String × Document)} {closed : Bool} {r : α}
    (hr : s.decode (.obj fields closed) = .ok r) :
    closed = true ∧ Readable settings fields ∧ ∀ x ∈ settings, x.Shows s.initial (get? fields x.name) r := by
  rw [decode] at hr
  cases hread : s.readFields [] s.initial fields with
  | error e => rw [hread] at hr; cases hr
  | ok out =>
    obtain ⟨seen, a⟩ := out
    rw [hread] at hr
    obtain ⟨hreadable, -, hshows⟩ := h.readFields_ok hread
    simp only [bind, Except.bind] at hr
    split at hr
    · cases hr
    · rename_i hclosed
      split at hr
      · cases hr
      · cases hr
        exact ⟨by simpa using hclosed, hreadable, hshows⟩

/-- A table is a record exactly if its fields can be read: none is required. -/
theorem decode_obj_iff (h : s.Has settings) {fields : List (String × Document)} :
    (∃ r, s.decode (.obj fields true) = .ok r) ↔ Readable settings fields := by
  constructor
  · rintro ⟨r, hr⟩
    exact (h.decode_obj hr).2.1
  · intro hf
    have hseen : ∀ k ∈ keys fields, k ∉ ([] : List String) := fun k _ => List.not_mem_nil
    obtain ⟨⟨seen, r⟩, hread⟩ := h.exists_readFields hf hseen s.initial
    have hmissing : s.missing? seen = none := by
      rw [missing?, h.fields, Option.map_eq_none_iff, List.find?_eq_none]
      intro f hf
      obtain ⟨x, hx, rfl⟩ := List.mem_map.mp hf
      have := h.absent x hx
      simp [Setting.field, Field.of, this]
    refine ⟨r, ?_⟩
    rw [decode, hread]
    simp [bind, Except.bind, hmissing, pure, Except.pure]

/-! ## Records written as arrays -/

/-- A record that is written as a list shows its items in their order, and leaves all else. -/
theorem readItems_ok {closed : Bool} {xs : List (Setting α)} (hxs : xs.Pairwise Setting.Apart) {items rest : List Document} {count : Nat}
    {a r : α} (hr : s.readItems closed count a (xs.map Setting.field) items = .ok (r, rest)) :
    (∀ (i : Nat) (x : Setting α), xs[i]? = some x → x.Shows a items[i]? r) ∧
      ∀ y : Setting α, (∀ x ∈ xs, x.Apart y) → y.get r = y.get a := by
  induction xs generalizing items count a with
  | nil =>
    rw [List.map_nil, readItems] at hr
    cases hr
    exact ⟨fun i x hx => by simp at hx, fun y _ => rfl⟩
  | cons x xs ih =>
    obtain ⟨hx, hxs⟩ := List.pairwise_cons.mp hxs
    cases items with
    | nil =>
      rw [List.map_cons, readItems] at hr
      split at hr
      · cases hr
      · split at hr
        · cases hr
        · obtain ⟨hshows, hkeeps⟩ := ih hxs hr
          refine ⟨fun i y hy => ?_, fun y hy => hkeeps y fun z hz => hy z (List.mem_cons_of_mem _ hz)⟩
          cases i with
          | zero =>
            obtain rfl : x = y := by simpa using hy
            exact hkeeps x fun z hz => (hx z hz).symm
          | succ i => simpa using hshows i y (by simpa using hy)
    | cons d items =>
      rw [List.map_cons, readItems] at hr
      cases hread : x.field.read d a with
      | error e => rw [hread] at hr; cases hr
      | ok a' =>
        rw [hread] at hr
        obtain ⟨v, hv, rfl⟩ := Field.of_read_ok hread
        obtain ⟨hshows, hkeeps⟩ := ih hxs hr
        refine ⟨fun i y hy => ?_, fun y hy => ?_⟩
        · cases i with
          | zero =>
            obtain rfl : x = y := by simpa using hy
            have hkept : x.get r = v := (hkeeps x fun z hz => (hx z hz).symm).trans (x.get_set v a)
            exact hv.trans (congrArg Except.ok hkept.symm)
          | succ i =>
            have hy : xs[i]? = some y := by simpa using hy
            exact (hshows i y hy).congr ((hx y (List.mem_of_getElem? hy)).right v a)
        · exact (hkeeps y fun z hz => hy z (List.mem_cons_of_mem _ hz)).trans ((hy x List.mem_cons_self).right v a)

/-- A record shows what its document says, under the name of each setting or at its place. -/
theorem shows_of_decode (h : s.Has settings) {d : Document} {r : α} (hr : s.decode d = .ok r) {i : Nat} (hx : settings[i]? = some x) :
    x.Shows s.initial (d.part? x.name i) r := by
  cases d with
  | obj fields closed => exact (h.decode_obj hr).2.2 x (List.mem_of_getElem? hx)
  | arr items closed =>
    rw [decode, h.fields] at hr
    cases hread : s.readItems closed 0 s.initial (settings.map Setting.field) items with
    | error e => rw [hread] at hr; cases hr
    | ok out =>
      obtain ⟨a, rest⟩ := out
      rw [hread] at hr
      simp only [bind, Except.bind] at hr
      split at hr
      · cases hr
      · split at hr
        · cases hr
          exact (readItems_ok h.apart hread).1 i x hx
        · cases hr
  | _ => cases hr

end Has

end Schema

end Runbook
