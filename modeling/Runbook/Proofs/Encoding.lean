import Runbook.Definition.Decode
import Runbook.Definition.Encode
import Runbook.Json.SchemaLemmas
import Runbook.Proofs.Documents

/-!
# Definitions written and read again

What is read from a document that JSON spells are records whose values a document can hold. Each record is written as the fields of an
object, in the order of their names, and these are read one after the other until the record is there again. A field that is not written is
one for which the record has its default.
-/

namespace Runbook

/-! ## Fields read one after the other -/

namespace Schema

variable {s : Schema α} {a b c : α} {names names' : List String} {fields rest : List (String × Value)}

/-- The fields have some of the names, in their order, and values that a document can hold; reading them changes one record into another. -/
inductive Reads (s : Schema α) : List String → α → List (String × Value) → α → Prop
  | nil {a : α} : s.Reads [] a [] a
  | skip {name : String} {names : List String} {a b : α} {fields : List (String × Value)} (h : s.Reads names a fields b) :
      s.Reads (name :: names) a fields b
  | cons {key : String} {names : List String} {f : Field α} {v : Value} {a b c : α} {rest : List (String × Value)}
      (hf : s.field? key = some f) (hv : v.Held) (hread : f.read (.ofValue v) a = .ok b) (hrest : s.Reads names b rest c) :
      s.Reads (key :: names) a ((key, v) :: rest) c

namespace Reads

/-- The record that fields are read into may be written in another way. -/
theorem trans_eq (h : s.Reads names a fields b) (hb : b = c) : s.Reads names a fields c := hb ▸ h

/-- Fields that are read one after the other are read together. -/
theorem append (h : s.Reads names a fields b) (hrest : s.Reads names' b rest c) : s.Reads (names ++ names') a (fields ++ rest) c := by
  induction h with
  | nil => exact hrest
  | skip _ ih => exact .skip (ih hrest)
  | cons hf hv hread _ ih => exact .cons hf hv hread (ih hrest)

/-- The keys of fields that are read are names of the schema, in its order. -/
theorem sublist (h : s.Reads names a fields b) : (Keyed.keys fields).Sublist names := by
  induction h with
  | nil => exact .slnil
  | skip _ ih => exact ih.cons _
  | cons _ _ _ _ ih => exact ih.cons_cons _

/-- Fields that are read can be held. -/
theorem held (h : s.Reads names a fields b) : Value.HeldFields fields := by
  induction h with
  | nil => trivial
  | skip _ ih => exact ih
  | cons _ hv _ _ ih => exact ⟨hv, ih⟩

/-- Fields without a key twice are read into the record that they are read into one by one. -/
theorem readFields (h : s.Reads names a fields b) {seen : List String} (hnodup : (Keyed.keys fields).Nodup)
    (hnew : ∀ key ∈ Keyed.keys fields, key ∉ seen) :
    s.readFields seen a (Document.ofFields fields) = .ok ((Keyed.keys fields).reverse ++ seen, b) := by
  induction h generalizing seen with
  | nil => rfl
  | skip _ ih => exact ih hnodup hnew
  | @cons key _ f v a b c rest hf _ hread _ ih =>
    obtain ⟨hkey, hnodup⟩ := List.nodup_cons.mp hnodup
    obtain ⟨hseen, hnew⟩ := List.forall_mem_cons.mp hnew
    have hnew' : ∀ k ∈ Keyed.keys rest, k ∉ key :: seen := fun k hk hmem =>
      (List.mem_cons.mp hmem).elim (fun heq => hkey (heq ▸ hk)) (hnew k hk)
    simp only [Document.ofFields, Schema.readFields, hf, List.contains_eq_mem, hseen, decide_false, Bool.false_eq_true, if_false, hread]
    refine (ih hnodup hnew').trans ?_
    simp [Keyed.keys]

section

variable {key : String} {presence : Presence} {β : Type} {item : Decoder β}

/-- A field that is always written. -/
theorem field {set : β → α → α} {v : Value} {x : β} (hf : s.field? key = some (.of key presence item set)) (hv : v.Held)
    (hitem : item (.ofValue v) = .ok x) (hrest : s.Reads names (set x a) rest b) : s.Reads (key :: names) a ((key, v) :: rest) b := by
  refine .cons hf hv ?_ hrest
  simp only [Field.of, hitem]
  rfl

/-- A field that is written only when there is something to write. -/
theorem optional {set : Option β → α → α} {encode : β → Value} {x : Option β}
    (hf : s.field? key = some (.of key presence (Decoder.option item) set))
    (hitem : ∀ y, x = some y → (encode y).Held ∧ Decoder.option item (.ofValue (encode y)) = .ok (some y)) (hnone : set none a = a) :
    s.Reads [key] a (optionalField key encode x) (set x a) := by
  cases x with
  | none => exact hnone.symm ▸ .skip .nil
  | some y => exact field hf (hitem y rfl).1 (hitem y rfl).2 .nil

/-- A text that is written only when it is there. -/
theorem text {set : Option String → α → α} {x : Option String}
    (hf : s.field? key = some (.of key presence (Decoder.option Decoder.string) set)) (hnone : set none a = a) :
    s.Reads [key] a (optionalField key .str x) (set x a) := optional hf (fun _ _ => ⟨trivial, rfl⟩) hnone

/-- A list that is written only when it is not empty. -/
theorem items {item : Decoder (List β)} {set : List β → α → α} {xs : List β} {v : Value}
    (hf : s.field? key = some (.of key presence item set)) (hv : v.Held) (hitem : item (.ofValue v) = .ok xs) (hnone : set [] a = a) :
    s.Reads [key] a (if xs.isEmpty then [] else [(key, v)]) (set xs a) := by
  cases xs with
  | nil => exact hnone.symm ▸ .skip .nil
  | cons x xs => exact field hf hv hitem .nil

end

end Reads

/-- A record is written to a value that a document can hold; it is read from it again, and written to it again. -/
structure ReadsBack (s : Schema α) (encode : α → Value) (a : α) : Prop where
  held : (encode a).Held
  read : s.decode (.ofValue (encode a)) = .ok a
  written : encode <$> s.decode (.ofValue (encode a)) = .ok (encode a)

/-- Fields in the order of their names, none of the required ones missing, make up the record that they are read to. -/
theorem Reads.readsBack {encode : α → Value} (hencode : encode a = .obj fields) (h : s.Reads names s.initial fields a)
    (hnames : names.Pairwise (· < ·)) (hrequired : ∀ f ∈ s.fields, f.presence = .required → f.name ∈ Keyed.keys fields) :
    s.ReadsBack encode a := by
  have hsorted : Keyed.Sorted fields := hnames.sublist h.sublist
  have hmissing : s.missing? ((Keyed.keys fields).reverse ++ []) = none := by
    rw [missing?, Option.map_eq_none_iff, List.find?_eq_none]
    intro f hf hmiss
    simp only [Bool.and_eq_true, decide_eq_true_eq, Bool.not_eq_true', List.append_nil, List.contains_eq_mem, List.mem_reverse,
      decide_eq_false_iff_not] at hmiss
    exact hmiss.2 (hrequired f hf hmiss.1)
  have hread : s.decode (.ofValue (encode a)) = .ok a := by
    rw [hencode, Document.ofValue, decode, h.readFields hsorted.nodup fun key _ => List.not_mem_nil]
    simp only [bind, Except.bind, hmissing]
    rfl
  exact ⟨hencode ▸ ⟨hsorted, h.held⟩, hread, by rw [hread]; rfl⟩

end Schema

/-! ## Items read again -/

namespace Document

/-- The documents of items are those of each of them. -/
theorem ofItems_eq (items : List Value) : ofItems items = items.map ofValue := by
  induction items with
  | nil => rfl
  | cons v vs ih => rw [ofItems, ih, List.map_cons]

/-- The documents of fields are those of their values, under the same keys. -/
theorem ofFields_eq (fields : List (String × Value)) : ofFields fields = fields.map fun f => (f.1, ofValue f.2) := by
  induction fields with
  | nil => rfl
  | cons f fs ih => rw [ofFields, ih, List.map_cons]

/-- Only the document of null is null. -/
theorem ofValue_ne_null {v : Value} (h : v ≠ .null) : ofValue v ≠ .null := by
  cases v with
  | null => exact absurd rfl h
  | bool | num | str | arr | obj => nofun

end Document

namespace Value

/-- A number of 64 bits can be held. -/
theorem held_ofNat {n : Nat} (h : n < 2 ^ 64) : (ofNat n).Held := by
  have hbound : (n : Int) < (2 ^ 64 : Nat) := by exact_mod_cast h
  simp only [ofNat, Held, Number.Held, Number.inRange, Bool.and_eq_true, decide_eq_true_eq]
  omega

/-- A list of values that can be held can be held. -/
theorem held_items {f : α → Value} {as : List α} (h : ∀ a ∈ as, (f a).Held) : (arr (as.map f)).Held :=
  heldItems_iff.mpr (List.forall_mem_map.mpr h)

/-- A list of texts can be held. -/
theorem held_ofStrings (texts : List String) : (ofStrings texts).Held := held_items fun _ _ => trivial

/-- The values of a table can be changed under their keys. -/
theorem held_map {f : α → Value} {entries : List (String × α)} (hsorted : Keyed.Sorted entries) (h : ∀ e ∈ entries, (f e.2).Held) :
    (Value.obj (entries.map fun e => (e.1, f e.2))).Held := by
  refine ⟨?_, heldFields_iff.mpr (List.forall_mem_map.mpr h)⟩
  simpa [Keyed.Sorted, Keyed.keys, Function.comp_def] using hsorted

end Value

namespace Decoder

/-- A value that can be held is read back from its document. -/
theorem value_ofValue {v : Value} (h : v.Held) : value (.ofValue v) = .ok v := by
  rw [value, Document.value?_ofValue v h]

/-- A number of 64 bits is read back from its document. -/
theorem u64_ofNat {n : Nat} (h : n < 2 ^ 64) : u64 (.ofValue (.ofNat n)) = .ok n := by
  have hbound : (n : Int) < (2 ^ 64 : Nat) := by exact_mod_cast h
  simp only [u64, Value.ofNat, Document.ofValue, natBelow]
  rw [if_pos (by simpa using hbound)]
  simp

/-- What is not null is read as something. -/
theorem option_of_ne_null {item : Decoder α} {d : Document} {a : α} (hd : d ≠ .null) (h : item d = .ok a) :
    option item d = .ok (some a) := by
  unfold option
  split
  · exact absurd rfl hd
  · rw [h]
    rfl

/-- A list is read back if every item of it is. -/
theorem mapM_ok {f : β → Except DecodeError α} {g : α → β} {as : List α} (h : ∀ a ∈ as, f (g a) = .ok a) :
    (as.map g).mapM f = .ok as := by
  induction as with
  | nil => rfl
  | cons a as ih =>
    obtain ⟨ha, has⟩ := List.forall_mem_cons.mp h
    rw [List.map_cons, List.mapM_cons, ha, ih has]
    rfl

/-- A list is read again when its items are. -/
theorem list_ofValue {item : Decoder α} {encode : α → Value} {as : List α} (h : ∀ a ∈ as, item (.ofValue (encode a)) = .ok a) :
    list item (.ofValue (.arr (as.map encode))) = .ok as := by
  have hitems : (as.map (Document.ofValue ∘ encode)).mapM item = .ok as := mapM_ok h
  rw [Document.ofValue, Document.ofItems_eq, List.map_map]
  simp only [list]
  rw [hitems]
  rfl

/-- A list of texts is read back from its document. -/
theorem list_string (texts : List String) : list string (.ofValue (.ofStrings texts)) = .ok texts := list_ofValue fun _ _ => rfl

/-- A table is read again when its entries are. -/
theorem entries_ofValue {item : Decoder α} {encode : α → Value} {as : List (String × α)}
    (h : ∀ a ∈ as, item (.ofValue (encode a.2)) = .ok a.2) :
    entries item (.ofValue (.obj (as.map fun a => (a.1, encode a.2)))) = .ok as := by
  rw [Document.ofValue, Document.ofFields_eq, List.map_map]
  simp only [entries]
  rw [mapM_ok]
  · rfl
  · intro a ha
    simp only [Function.comp, h a ha]
    rfl

/-- Fields that can be held are read back from the document of their object. -/
theorem entries_value {fields : List (String × Value)} (h : Value.HeldFields fields) :
    entries value (.ofValue (.obj fields)) = .ok fields := by
  have hentries : entries value (.ofValue (.obj (fields.map fun f => (f.1, id f.2)))) = .ok fields :=
    entries_ofValue fun f hf => value_ofValue (Value.heldFields_iff.mp h f hf)
  simpa using hentries

end Decoder

/-! ## Records read again -/

/-- The default of an input is a value that a document can hold, other than null. -/
structure InputDef.Held (d : InputDef) : Prop where
  default : ∀ v, d.default = some v → v.Held ∧ v ≠ .null

/-- The inputs of a step are a value that a document can hold, and so are its numbers. -/
structure Step.Held (s : Step) : Prop where
  inputs : s.inputs.Held
  maxIterations : ∀ n, s.maxIterations = some n → n < 2 ^ 64
  timeoutMs : ∀ n, s.timeoutMs = some n → n < 2 ^ 64

/-- The tables of a definition have each key once, in the order of the keys, and all values in it are those that a document can hold. -/
structure Definition.Held (d : Definition) : Prop where
  sorted_inputs : Keyed.Sorted d.inputs
  inputs : ∀ e ∈ d.inputs, e.2.Held
  sorted_defaults : Keyed.Sorted d.defaults
  defaults : ∀ e ∈ d.defaults, e.2.Held
  steps : ∀ s ∈ d.steps, s.Held

/-- An input definition is read back: each of its fields, in the order in which they are written, changes the record that those before it
make up. -/
theorem InputDef.Held.readsBack {d : InputDef} (h : d.Held) : schema.ReadsBack InputDef.encode d := by
  have hdefault : ∀ v, d.default = some v → v.Held ∧ Decoder.option Decoder.value (.ofValue v) = .ok (some v) := by
    intro v hv
    obtain ⟨hheld, hne⟩ := h.default v hv
    exact ⟨hheld, Decoder.option_of_ne_null (Document.ofValue_ne_null hne) (Decoder.value_ofValue hheld)⟩
  refine Schema.Reads.readsBack rfl (.trans_eq (.append (.append (.append
    (.optional rfl hdefault rfl)
    (.text rfl rfl))
    (.field rfl trivial rfl .nil))
    (.text rfl rfl)) rfl) (by decide) ?_
  simp [schema, Field.of]

/-- A step that can be held is read back from what it is written as. -/
theorem Step.Held.readsBack {s : Step} (h : s.Held) : schema.ReadsBack Step.encode s := by
  have hnat : ∀ n, n < 2 ^ 64 → (Value.ofNat n).Held ∧ Decoder.option Decoder.u64 (.ofValue (.ofNat n)) = .ok (some n) := fun n hn =>
    ⟨Value.held_ofNat hn, Decoder.option_of_ne_null (by nofun) (Decoder.u64_ofNat hn)⟩
  refine Schema.Reads.readsBack rfl (.trans_eq (.append (.append (.append (.append (.append (.append (.append (.append (.append (.append
    (.field rfl trivial rfl .nil)
    (.text rfl rfl))
    (.field rfl trivial rfl .nil))
    (.items rfl (Value.held_ofStrings _) (Decoder.list_string _) rfl))
    (.text rfl rfl))
    (.text rfl rfl))
    (.field rfl trivial rfl (.field rfl h.inputs (Decoder.value_ofValue h.inputs) .nil)))
    (.optional rfl (fun n hn => hnat n (h.maxIterations n hn)) rfl))
    (.text rfl rfl))
    (.optional rfl (fun n hn => hnat n (h.timeoutMs n hn)) rfl))
    (.field rfl trivial rfl .nil)) rfl) (by decide) ?_
  simp [schema, Field.of, Keyed.keys]

/-- A definition is read back. Its version is not read as a text, but whatever it is read as is a text or nothing. -/
theorem Definition.Held.readsBack {d : Definition} (h : d.Held) : schema.ReadsBack Definition.encode d := by
  have hdefaults := Value.heldFields_iff.mpr h.defaults
  have hinputs := Decoder.entries_ofValue fun e he => (h.inputs e he).readsBack.read
  have hsteps := Decoder.list_ofValue fun s hs => (h.steps s hs).readsBack.read
  have hversion : ∀ a : Definition, a.version = none →
      schema.Reads ["version"] a (optionalField "version" .str d.version) { a with version := d.version } := by
    intro a ha
    cases d.version with
    | none => exact .trans_eq (.skip .nil) (by rw [← ha])
    | some v => exact .field rfl trivial (Decoder.value_ofValue trivial) .nil
  refine Schema.Reads.readsBack rfl (.trans_eq (.append (.append (.append
    (.field rfl ⟨h.sorted_defaults, hdefaults⟩ (Decoder.entries_value hdefaults) .nil)
    (.text rfl rfl))
    (.field rfl (Value.held_map h.sorted_inputs fun e he => (h.inputs e he).readsBack.held) hinputs
      (.field rfl trivial rfl (.field rfl (Value.held_items fun s hs => (h.steps s hs).readsBack.held) hsteps .nil))))
    (hversion _ rfl)) ?_) (by decide) ?_
  · show { d with inputs := Keyed.ofList d.inputs, defaults := Keyed.ofList d.defaults } = d
    rw [h.sorted_inputs.ofList_eq, h.sorted_defaults.ofList_eq]
  · simp [schema, Field.of, Keyed.keys]

/-! ## Records read from documents -/

/-- A property that the fields of a record keep holds of the record that is read from a document that JSON spells. -/
theorem Schema.induction_ofJson {s : Schema α} {P : α → Prop}
    (hf : ∀ f ∈ s.fields, ∀ d a a', d.OfJson → P a → f.read d a = .ok a' → P a') (hinit : P s.initial) {doc : Document} (hdoc : doc.OfJson)
    {a : α} (h : s.decode doc = .ok a) : P a := by
  refine decode_induction hf hinit ?_ ?_ h
  · rintro items closed rfl
    cases hdoc with
    | arr hitems => exact hitems
  · rintro fields closed rfl
    cases hdoc with
    | obj hfields => exact fun k e he => hfields (k, e) he

namespace Decoder

/-- What is read as a value from a document of JSON can be held. -/
theorem held_value {d : Document} (hd : d.OfJson) {v : Value} (h : value d = .ok v) : v.Held :=
  Document.held_value? d hd.held v (value_ok h)

/-- What a list has was read from documents that JSON spells. -/
theorem list_ofJson {item : Decoder α} {d : Document} (hd : d.OfJson) {as : List α} (h : list item d = .ok as) :
    ∀ a ∈ as, ∃ e : Document, e.OfJson ∧ item e = .ok a := by
  obtain ⟨items, closed, rfl, has⟩ := list_ok h
  cases hd with
  | arr hitems => exact fun a ha => (has a ha).imp fun e he => ⟨hitems e he.1, he.2⟩

/-- What a table has was read from documents that JSON spells. -/
theorem entries_ofJson {item : Decoder α} {d : Document} (hd : d.OfJson) {as : List (String × α)} (h : entries item d = .ok as) :
    ∀ a ∈ Keyed.ofList as, ∃ e : Document, e.OfJson ∧ item e = .ok a.2 := by
  obtain ⟨fields, closed, rfl, has⟩ := entries_ok h
  cases hd with
  | obj hfields => exact fun a ha => (has a (Keyed.mem_of_mem_ofList ha)).imp fun e he => ⟨hfields _ he.1, he.2⟩

/-- What is read as a number of 64 bits is one. -/
theorem u64_lt {d : Document} {n : Nat} (h : u64 d = .ok n) : n < 2 ^ 64 := by
  unfold u64 natBelow at h
  split at h
  · split at h
    · rename_i hbound
      cases h
      simp only [Bool.and_eq_true, decide_eq_true_eq] at hbound
      omega
    · cases h
  · unfold mismatch at h
    split at h <;> cases h

end Decoder

section

variable {doc : Document} (hdoc : doc.OfJson)

include hdoc

/-- The definition of an input that is read from JSON can be held. -/
theorem InputDef.held_of_decode {d : InputDef} (h : schema.decode doc = .ok d) : d.Held := by
  refine Schema.induction_ofJson ?_ ⟨nofun⟩ hdoc h
  intro f hf e a a' he ha hread
  simp only [schema, List.mem_cons, List.not_mem_nil, or_false] at hf
  rcases hf with rfl | rfl | rfl | rfl
  case inr.inr.inl =>
    obtain ⟨b, hb, rfl⟩ := Field.of_read_ok hread
    refine ⟨?_⟩
    rintro v rfl
    obtain ⟨hne, hv⟩ := Decoder.option_ok hb
    refine ⟨Decoder.held_value he hv, ?_⟩
    rintro rfl
    exact hne (he.eq_null (Decoder.value_ok hv))
  all_goals
    obtain ⟨b, _, rfl⟩ := Field.of_read_ok hread
    exact ⟨ha.default⟩

/-- A step that is read from JSON can be held. -/
theorem Step.held_of_decode {s : Step} (h : schema.decode doc = .ok s) : s.Held := by
  refine Schema.induction_ofJson ?_ ⟨⟨List.Pairwise.nil, trivial⟩, nofun, nofun⟩ hdoc h
  intro f hf e a a' he ha hread
  simp only [schema, List.mem_cons, List.not_mem_nil, or_false] at hf
  rcases hf with rfl | rfl | rfl | rfl | rfl | rfl | rfl | rfl | rfl | rfl | rfl | rfl
  case inr.inr.inr.inr.inl =>
    obtain ⟨b, hb, rfl⟩ := Field.of_read_ok hread
    exact ⟨Decoder.held_value he hb, ha.maxIterations, ha.timeoutMs⟩
  case inr.inr.inr.inr.inr.inr.inr.inl =>
    obtain ⟨b, hb, rfl⟩ := Field.of_read_ok hread
    refine ⟨ha.inputs, ?_, ha.timeoutMs⟩
    rintro n rfl
    exact Decoder.u64_lt (Decoder.option_ok hb).2
  case inr.inr.inr.inr.inr.inr.inr.inr.inr.inr.inr =>
    obtain ⟨b, hb, rfl⟩ := Field.of_read_ok hread
    refine ⟨ha.inputs, ha.maxIterations, ?_⟩
    rintro n rfl
    exact Decoder.u64_lt (Decoder.option_ok hb).2
  all_goals
    obtain ⟨b, _, rfl⟩ := Field.of_read_ok hread
    exact ⟨ha.inputs, ha.maxIterations, ha.timeoutMs⟩

/-- All steps of a list that is read from JSON can be held. -/
theorem Step.held_of_list {steps : List Step} (h : Decoder.list schema.decode doc = .ok steps) : ∀ s ∈ steps, s.Held := by
  intro s hs
  obtain ⟨e, he, hread⟩ := Decoder.list_ofJson hdoc h s hs
  exact held_of_decode he hread

/-- A definition that is read from JSON can be held. -/
theorem Definition.held_of_decode {d : Definition} (h : schema.decode doc = .ok d) : d.Held := by
  refine Schema.induction_ofJson ?_ ⟨List.Pairwise.nil, nofun, List.Pairwise.nil, nofun, nofun⟩ hdoc h
  intro f hf e a a' he ha hread
  simp only [schema, List.mem_cons, List.not_mem_nil, or_false] at hf
  rcases hf with rfl | rfl | rfl | rfl | rfl | rfl
  case inr.inr.inr.inl =>
    obtain ⟨b, hb, rfl⟩ := Field.of_read_ok hread
    refine ⟨Keyed.sorted_ofList b, ?_, ha.sorted_defaults, ha.defaults, ha.steps⟩
    intro x hx
    obtain ⟨e, he, hx⟩ := Decoder.entries_ofJson he hb x hx
    exact InputDef.held_of_decode he hx
  case inr.inr.inr.inr.inl =>
    obtain ⟨b, hb, rfl⟩ := Field.of_read_ok hread
    refine ⟨ha.sorted_inputs, ha.inputs, Keyed.sorted_ofList b, ?_, ha.steps⟩
    intro x hx
    obtain ⟨e, he, hx⟩ := Decoder.entries_ofJson he hb x hx
    exact Decoder.held_value he hx
  case inr.inr.inr.inr.inr =>
    obtain ⟨b, hb, rfl⟩ := Field.of_read_ok hread
    exact ⟨ha.sorted_inputs, ha.inputs, ha.sorted_defaults, ha.defaults, Step.held_of_list he hb⟩
  all_goals
    obtain ⟨b, _, rfl⟩ := Field.of_read_ok hread
    exact ⟨ha.sorted_inputs, ha.inputs, ha.sorted_defaults, ha.defaults, ha.steps⟩

end

/-! ## Steps inside of steps -/

/-- The steps in a step: the step itself, and those in the steps to which the body in its inputs is decoded, whatever its tool is. -/
inductive Step.Contains : Step → Step → Prop
  | self {s : Step} : s.Contains s
  | body {s t u : Step} {steps : List Step} (decoded : s.loopBody? = some (.ok steps)) (ht : t ∈ steps) (h : t.Contains u) : s.Contains u

/-- A field of a value that can be held can be held. -/
theorem Value.Held.get? {v w : Value} (h : v.Held) {key : String} (hw : v.get? key = some w) : w.Held := by
  obtain ⟨fields, hfields, hget⟩ := Option.bind_eq_some_iff.mp hw
  cases v with
  | obj fields' =>
    obtain rfl := Option.some.inj hfields
    exact heldFields_iff.mp h.2 _ (Keyed.mem_of_get? hget)
  | null | bool | num | str | arr => cases hfields

/-- The steps of a body that can be held can be held. -/
theorem Step.held_of_body {v : Value} (hv : v.Held) {steps : List Step} (h : decodeBody v = .ok steps) : ∀ s ∈ steps, s.Held :=
  held_of_list (Document.ofJson_ofValue v hv) h

/-- Each step in a step has been read from a value that a document can hold. -/
theorem Step.Held.contains {s t : Step} (hs : s.Held) (h : s.Contains t) : t.Held := by
  induction h with
  | self => exact hs
  | body decoded ht _ ih =>
    obtain ⟨v, hv, hbody⟩ := Option.map_eq_some_iff.mp decoded
    exact ih (held_of_body (hs.inputs.get? hv) hbody _ ht)

/-- Values and texts are documents that JSON spells. A definition that is read from such a document, each of its steps and each step in these
are written to documents from which they are read again; so are all steps that hold what a document can, and whole bodies of loops. -/
theorem definitions_read_back :
    ((∀ v : Value, v.Held → (Document.ofValue v).OfJson) ∧ ∀ depth text, (Json.read depth text).1.OfJson) ∧
    (∀ doc d, doc.OfJson → Definition.schema.decode doc = .ok d → Definition.schema.ReadsBack Definition.encode d ∧
      ∀ s ∈ d.steps, ∀ t, s.Contains t → Step.schema.ReadsBack Step.encode t) ∧
    (∀ doc s, doc.OfJson → Step.schema.decode doc = .ok s → ∀ t, s.Contains t → Step.schema.ReadsBack Step.encode t) ∧
    (∀ s : Step, s.Held → ∀ t, s.Contains t → Step.schema.ReadsBack Step.encode t) ∧
    ∀ v steps, v.Held → Step.decodeBody v = .ok steps → Step.decodeBody (.arr (steps.map Step.encode)) = .ok steps := by
  have hstep : ∀ s : Step, s.Held → ∀ t, s.Contains t → Step.schema.ReadsBack Step.encode t := fun s hs t ht =>
    (hs.contains ht).readsBack
  refine ⟨⟨Document.ofJson_ofValue, Json.ofJson_read⟩, ?_, ?_, hstep, ?_⟩
  · intro doc d hdoc hd
    have hheld := Definition.held_of_decode hdoc hd
    exact ⟨hheld.readsBack, fun s hs => hstep s (hheld.steps s hs)⟩
  · intro doc s hdoc hs
    exact hstep s (Step.held_of_decode hdoc hs)
  · intro v steps hv hsteps
    exact Decoder.list_ofValue fun s hs => (Step.held_of_body hv hsteps s hs).readsBack.read

/-- A definition that is written as an array, as are one of its inputs and the step in the body of its loop; its version is a number. -/
def Value.sampleArrays : Value :=
  .arr [.str "listing", .ofNat 2, .null,
    .obj [("limit", .obj [("default", .ofNat 5), ("description", .null)]), ("query", .arr [.str "string", .bool true, .null])], .obj [],
    .arr [.obj [("id", .str "each"), ("inputs", .obj [("steps", .arr [.arr [.str "inner", .null, .null, .str "embed"]])]), ("timeoutMs", .null),
      ("tool", .str "loop")]]]

/-- The definition that it is, which is written with names. -/
def Definition.sampleNamed : Definition where
  name := "listing"
  version := some "2"
  description := none
  inputs := [("limit", { InputDef.empty with default := some (.ofNat 5) }),
    ("query", { InputDef.empty with kind := some "string", required := true })]
  defaults := []
  steps := [{ Step.empty with
    id := "each"
    tool := "loop"
    inputs := .obj [("steps", .arr [.arr [.str "inner", .null, .null, .str "embed"]])] }]

/-- The definition is read again from what it is written to, where its version is a text, and so is the step in the body of its loop. -/
theorem definitions_read_back_of_arrays :
    Definition.schema.decode (.ofValue .sampleArrays) = .ok .sampleNamed ∧
    Definition.schema.ReadsBack Definition.encode .sampleNamed ∧
    Step.schema.ReadsBack Step.encode { Step.empty with id := "inner", tool := "embed" } := by
  have hheld : Value.sampleArrays.Held := by
    simp only [Value.sampleArrays, Value.Held, Value.HeldItems, Value.HeldFields, Value.ofNat, Number.Held, Keyed.Sorted, Names.Sorted]
    decide
  have hdecode : Definition.schema.decode (.ofValue .sampleArrays) = .ok .sampleNamed := by rfl
  obtain ⟨⟨hvalues, -⟩, hdefinitions, -⟩ := definitions_read_back
  obtain ⟨hback, hsteps⟩ := hdefinitions _ _ (hvalues _ hheld) hdecode
  exact ⟨hdecode, hback, hsteps _ List.mem_cons_self _ (.body rfl List.mem_cons_self .self)⟩

end Runbook
