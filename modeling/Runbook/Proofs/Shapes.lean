import Runbook.Proofs.Tiling

/-!
# The shape of a value

Resolving a value puts something else in the place of the texts with fragments in it, and leaves everything else where and as it is: an
array keeps its items, each in its place, and an object its keys. A text that is one fragment and comes to nothing leaves null behind, or,
as a field, goes with its key. A value without fragments stays as it is.
-/

namespace Runbook

namespace Value

/-! ## Parts -/

/-- A part of a value, at a path of indices and keys. -/
inductive Part : Value → List Segment → Value → Prop
  | whole {v : Value} : Part v [] v
  | item {items : List Value} {i : Nat} {v part : Value} {path : List Segment} (hv : items[i]? = some v) (h : Part v path part) :
    Part (.arr items) (.index i :: path) part
  | field {fields : List (String × Value)} {key : String} {v part : Value} {path : List Segment} (hv : (key, v) ∈ fields)
    (h : Part v path part) : Part (.obj fields) (.key key :: path) part

/-- The path of a field. -/
def EndsInKey (path : List Segment) : Prop := ∃ key, path.getLast? = some (.key key)

/-- A result stands at a path. Nothing leaves null there, unless it is the path of a field. -/
def Lands (whole : Value) (path : List Segment) : Option Value → Prop
  | some v => Part whole path v
  | none => Part whole path .null ∨ EndsInKey path

/-- A text without fragments, or no text, array or object at all. -/
def Plain : Value → Prop
  | .null | .bool _ | .num _ => True
  | .str s => (Template.ofString s).hasFragment = false
  | .arr _ | .obj _ => False

/-- A text that is one fragment, with an expression that is undefined. -/
def Vanishes (scope : Scope) (v : Value) : Prop :=
  ∃ s inner e, v = .str s ∧ (Template.ofString s).lone? = some inner ∧ Expr.parse (Text.trim (String.ofList inner)) = .ok e ∧
    e.eval scope = none

/-- Where a part of what a value resolves to comes from: from a text with fragments, at the path of the part or on the way to it, or from
the same path, where the same is, or another array or object. -/
inductive ComesFrom (v : Value) (path : List Segment) (part : Value) : Prop
  | fragments {start : List Segment} {s : String} (hstart : start <+: path) (hs : Part v start (.str s))
    (h : (Template.ofString s).hasFragment = true)
  | same (hplain : part.Plain) (h : Part v path part)
  | array {items items' : List Value} (hpart : part = .arr items') (h : Part v path (.arr items))
  | object {fields fields' : List (String × Value)} (hpart : part = .obj fields') (h : Part v path (.obj fields))

/-- A value and what it resolves to have the same shape. Arrays have the same length; of an object those keys are left out whose value
vanishes, and no others; a text with fragments gives way to what it resolves to; all else is the same at the same path. And there is
nothing but this and what is inside of the values that have taken the places of texts. -/
structure KeepsShape (scope : Scope) (v out : Value) : Prop where
  array : ∀ path items, Part v path (.arr items) → ∃ items', Part out path (.arr items') ∧ items'.length = items.length
  object : ∀ path fields, Part v path (.obj fields) → ∃ fields', Part out path (.obj fields') ∧
    (Keyed.keys fields').Sublist (Keyed.keys fields) ∧
    ∀ key, key ∈ Keyed.keys fields' ↔ ∃ field, (key, field) ∈ fields ∧ ¬Vanishes scope field
  text : ∀ path s, Part v path (.str s) → (Template.ofString s).hasFragment = true →
    ∃ r, (Template.ofString s).resolve scope = .ok r ∧ Lands out path r
  plain : ∀ path part, Part v path part → part.Plain → Part out path part
  origin : ∀ path part, Part out path part → ComesFrom v path part

/-! ## One level -/

variable {scope : Scope}

/-- Every item has its place. -/
theorem resolveItems_eq_ok {items items' : List Value} (h : resolveItems scope items = .ok items') :
    items'.length = items.length ∧
      ∀ (i : Nat) (v : Value), items[i]? = some v → ∃ r, v.resolveNode scope = .ok r ∧ items'[i]? = some (ofOption r) := by
  induction items generalizing items' with
  | nil =>
    obtain rfl := Except.ok.inj h
    exact ⟨rfl, nofun⟩
  | cons v vs ih =>
    unfold resolveItems at h
    cases hv : v.resolveNode scope with
    | error err => rw [hv] at h; cases h
    | ok r =>
      cases hvs : resolveItems scope vs with
      | error err => rw [hv, hvs] at h; cases h
      | ok vs' =>
        rw [hv, hvs] at h
        obtain rfl := Except.ok.inj h
        obtain ⟨hlength, hitems⟩ := ih hvs
        refine ⟨congrArg Nat.succ hlength, ?_⟩
        intro i u hu
        cases i with
        | zero => exact ⟨r, Option.some.inj hu ▸ hv, rfl⟩
        | succ i => exact hitems i u hu

/-- A field that comes to something keeps its key, and there are no other fields. -/
theorem resolveFields_eq_ok {fields fields' : List (String × Value)} (h : resolveFields scope fields = .ok fields') :
    (Keyed.keys fields').Sublist (Keyed.keys fields) ∧
    (∀ key v, (key, v) ∈ fields → ∃ r, v.resolveNode scope = .ok r ∧ ∀ w, r = some w → (key, w) ∈ fields') ∧
    ∀ key w, (key, w) ∈ fields' → ∃ v, (key, v) ∈ fields ∧ v.resolveNode scope = .ok (some w) := by
  induction fields generalizing fields' with
  | nil =>
    obtain rfl := Except.ok.inj h
    exact ⟨.slnil, nofun, nofun⟩
  | cons f fs ih =>
    obtain ⟨k, v⟩ := f
    unfold resolveFields at h
    cases hv : v.resolveNode scope with
    | error err => rw [hv] at h; cases h
    | ok r =>
      cases hfs : resolveFields scope fs with
      | error err => rw [hv, hfs] at h; cases h
      | ok fs' =>
        rw [hv, hfs] at h
        obtain rfl := Except.ok.inj h
        obtain ⟨hkeys, hkept, horigin⟩ := ih hfs
        cases r with
        | none =>
          refine ⟨hkeys.cons k, ?_, fun key w hw => ?_⟩
          · rintro key u hu
            rcases List.mem_cons.mp hu with heq | hu
            · obtain ⟨rfl, rfl⟩ := Prod.mk.inj heq
              exact ⟨none, hv, nofun⟩
            · exact hkept key u hu
          · obtain ⟨u, hu, hresolved⟩ := horigin key w hw
            exact ⟨u, List.mem_cons_of_mem _ hu, hresolved⟩
        | some w =>
          refine ⟨hkeys.cons_cons k, ?_, ?_⟩
          · intro key u hu
            rcases List.mem_cons.mp hu with heq | hu
            · obtain ⟨rfl, rfl⟩ := Prod.mk.inj heq
              exact ⟨some w, hv, fun w' hw' => Option.some.inj hw' ▸ List.mem_cons_self⟩
            · obtain ⟨r, hr, hlands⟩ := hkept key u hu
              exact ⟨r, hr, fun w' hw' => List.mem_cons_of_mem _ (hlands w' hw')⟩
          · intro key w' hw'
            rcases List.mem_cons.mp hw' with heq | hw'
            · obtain ⟨rfl, rfl⟩ := Prod.mk.inj heq
              exact ⟨v, List.mem_cons_self, hv⟩
            · obtain ⟨u, hu, hresolved⟩ := horigin key w' hw'
              exact ⟨u, List.mem_cons_of_mem _ hu, hresolved⟩

/-- A plain value is resolved to itself. -/
theorem resolveNode_plain {v : Value} (h : v.Plain) : v.resolveNode scope = .ok (some v) := by
  cases v with
  | null | bool b | num n => rfl
  | str s =>
    have hnone : (Template.ofString s).hasFragment = false := h
    unfold resolveNode
    simp [hnone]
  | arr items => cases h
  | obj fields => cases h

/-- A text with fragments is resolved as its template. -/
theorem resolveNode_fragments {s : String} (h : (Template.ofString s).hasFragment = true) :
    (Value.str s).resolveNode scope = (Template.ofString s).resolve scope := by
  unfold resolveNode
  simp [h]

/-- What becomes of a value: a plain one stays, a text with fragments is resolved, and of an array or object the parts are. -/
theorem resolveNode_cases {v : Value} {r : Option Value} (h : v.resolveNode scope = .ok r) :
    (v.Plain ∧ r = some v) ∨
    (∃ s, v = .str s ∧ (Template.ofString s).hasFragment = true ∧ (Template.ofString s).resolve scope = .ok r) ∨
    (∃ items items', v = .arr items ∧ r = some (.arr items') ∧ resolveItems scope items = .ok items') ∨
    ∃ fields fields', v = .obj fields ∧ r = some (.obj fields') ∧ resolveFields scope fields = .ok fields' := by
  by_cases hplain : v.Plain
  · exact Or.inl ⟨hplain, Except.ok.inj (h.symm.trans (resolveNode_plain hplain))⟩
  · refine Or.inr ?_
    cases v with
    | null | bool b | num n => exact absurd trivial hplain
    | str s =>
      have hfragment : (Template.ofString s).hasFragment = true := by simpa [Plain] using hplain
      exact Or.inl ⟨s, rfl, hfragment, resolveNode_fragments hfragment ▸ h⟩
    | arr items =>
      unfold resolveNode at h
      cases hitems : resolveItems scope items with
      | error err => rw [hitems] at h; cases h
      | ok items' =>
        rw [hitems] at h
        exact Or.inr (Or.inl ⟨items, items', rfl, (Except.ok.inj h).symm, hitems⟩)
    | obj fields =>
      unfold resolveNode at h
      cases hfields : resolveFields scope fields with
      | error err => rw [hfields] at h; cases h
      | ok fields' =>
        rw [hfields] at h
        exact Or.inr (Or.inr ⟨fields, fields', rfl, (Except.ok.inj h).symm, hfields⟩)

/-- What an array resolves to. -/
theorem resolveNode_arr {items : List Value} {r : Option Value} (h : (Value.arr items).resolveNode scope = .ok r) :
    ∃ items', r = some (.arr items') ∧ resolveItems scope items = .ok items' := by
  rcases resolveNode_cases h with ⟨hplain, -⟩ | ⟨_, ⟨⟩, -⟩ | ⟨_, items', ⟨⟩, rfl, hitems⟩ | ⟨_, _, ⟨⟩, -⟩
  · exact absurd hplain id
  · exact ⟨items', rfl, hitems⟩

/-- What an object resolves to. -/
theorem resolveNode_obj {fields : List (String × Value)} {r : Option Value} (h : (Value.obj fields).resolveNode scope = .ok r) :
    ∃ fields', r = some (.obj fields') ∧ resolveFields scope fields = .ok fields' := by
  rcases resolveNode_cases h with ⟨hplain, -⟩ | ⟨_, ⟨⟩, -⟩ | ⟨_, _, ⟨⟩, -⟩ | ⟨_, fields', ⟨⟩, rfl, hfields⟩
  · exact absurd hplain id
  · exact ⟨fields', rfl, hfields⟩

end Value

namespace Template

/-- Only a lone fragment can come to nothing. -/
theorem resolve_eq_none {t : Template} {scope : Scope} : t.resolve scope = .ok none ↔
    ∃ inner e, t.lone? = some inner ∧ Expr.parse (Text.trim (String.ofList inner)) = .ok e ∧ e.eval scope = none := by
  cases hlone : t.lone? with
  | none =>
    refine ⟨fun h => ?_, nofun⟩
    rw [resolve, hlone] at h
    dsimp only at h
    cases hfill : fill scope t.rest t.spans with
    | error err => rw [hfill] at h; cases h
    | ok text => rw [hfill] at h; cases h
  | some inner =>
    rw [resolve_of_lone hlone]
    constructor
    · intro h
      cases hparse : Expr.parse (Text.trim (String.ofList inner)) with
      | error err => rw [hparse] at h; cases h
      | ok e =>
        rw [hparse] at h
        exact ⟨inner, e, rfl, hparse, Except.ok.inj h⟩
    · rintro ⟨_, e, ⟨⟩, hparse, hvalue⟩
      rw [hparse]
      exact congrArg Except.ok hvalue

end Template

namespace Value

variable {scope : Scope}

/-- A value comes to nothing exactly when it vanishes. -/
theorem resolveNode_eq_none {v : Value} : v.resolveNode scope = .ok none ↔ Vanishes scope v := by
  constructor
  · intro h
    rcases resolveNode_cases h with ⟨-, ⟨⟩⟩ | ⟨s, rfl, -, hresolve⟩ | ⟨_, _, -, ⟨⟩, -⟩ | ⟨_, _, -, ⟨⟩, -⟩
    obtain ⟨inner, e, hvanishes⟩ := Template.resolve_eq_none.mp hresolve
    exact ⟨s, inner, e, rfl, hvanishes⟩
  · rintro ⟨s, inner, e, rfl, hlone, hvalue⟩
    rw [resolveNode_fragments (Template.hasFragment_of_lone hlone)]
    exact Template.resolve_eq_none.mpr ⟨inner, e, hlone, hvalue⟩

/-! ## All levels -/

/-- A path ends in a key if the end of it does. -/
theorem endsInKey_cons {path : List Segment} (h : EndsInKey path) (segment : Segment) : EndsInKey (segment :: path) := by
  obtain ⟨key, hkey⟩ := h
  exact ⟨key, by simp [List.getLast?_cons, hkey]⟩

/-- A path lands below an item where it lands in it. -/
theorem Lands.item {items : List Value} {i : Nat} {v : Value} {path : List Segment} {r : Option Value} (hv : items[i]? = some v)
    (h : Lands v path r) : Lands (.arr items) (.index i :: path) r := by
  cases r with
  | some w => exact Part.item hv h
  | none => exact h.imp (Part.item hv) (endsInKey_cons · _)

/-- A path lands below a field where it lands in it. -/
theorem Lands.field {fields : List (String × Value)} {key : String} {v : Value} {path : List Segment} {r : Option Value}
    (hv : (key, v) ∈ fields) (h : Lands v path r) : Lands (.obj fields) (.key key :: path) r := by
  cases r with
  | some w => exact Part.field hv h
  | none => exact h.imp (Part.field hv) (endsInKey_cons · _)

/-- What a part resolves to stands where the part has been. A field that comes to nothing is a text, which has no parts but itself. -/
theorem Part.lands {v part : Value} {path : List Segment} (h : Part v path part) {r : Option Value} (hr : v.resolveNode scope = .ok r) :
    ∃ r', part.resolveNode scope = .ok r' ∧ Lands (ofOption r) path r' := by
  induction h generalizing r with
  | whole =>
    refine ⟨r, hr, ?_⟩
    cases r with
    | some w => exact .whole
    | none => exact Or.inl .whole
  | item hv _ ih =>
    obtain ⟨items', rfl, hitems⟩ := resolveNode_arr hr
    obtain ⟨r₀, hr₀, hplace⟩ := (resolveItems_eq_ok hitems).2 _ _ hv
    obtain ⟨r', hr', hlands⟩ := ih hr₀
    exact ⟨r', hr', hlands.item hplace⟩
  | @field fields key v part path hv hpart ih =>
    obtain ⟨fields', rfl, hfields⟩ := resolveNode_obj hr
    obtain ⟨r₀, hr₀, hplace⟩ := (resolveFields_eq_ok hfields).2.1 _ _ hv
    obtain ⟨r', hr', hlands⟩ := ih hr₀
    refine ⟨r', hr', ?_⟩
    cases r₀ with
    | some w => exact hlands.field (hplace w rfl)
    | none =>
      obtain ⟨s, -, -, rfl, -⟩ := resolveNode_eq_none.mp hr₀
      cases hpart
      obtain rfl := Except.ok.inj (hr₀.symm.trans hr')
      exact Or.inr ⟨key, rfl⟩

/-- What comes from a part of an item comes from a part of the list. -/
theorem ComesFrom.item {items : List Value} {i : Nat} {v part : Value} {path : List Segment} (hv : items[i]? = some v)
    (h : ComesFrom v path part) : ComesFrom (.arr items) (.index i :: path) part := by
  cases h with
  | fragments hstart hs h => exact .fragments (List.cons_prefix_cons.mpr ⟨rfl, hstart⟩) (.item hv hs) h
  | same hplain h => exact .same hplain (.item hv h)
  | array hpart h => exact .array hpart (.item hv h)
  | object hpart h => exact .object hpart (.item hv h)

/-- What comes from a part of a field comes from a part of the object. -/
theorem ComesFrom.field {fields : List (String × Value)} {key : String} {v part : Value} {path : List Segment}
    (hv : (key, v) ∈ fields) (h : ComesFrom v path part) : ComesFrom (.obj fields) (.key key :: path) part := by
  cases h with
  | fragments hstart hs h => exact .fragments (List.cons_prefix_cons.mpr ⟨rfl, hstart⟩) (.field hv hs) h
  | same hplain h => exact .same hplain (.field hv h)
  | array hpart h => exact .array hpart (.field hv h)
  | object hpart h => exact .object hpart (.field hv h)

/-- Everything in a resolved value comes from somewhere in the value. -/
theorem Part.comesFrom {out part : Value} {path : List Segment} (h : Part out path part) {v : Value} {r : Option Value}
    (hr : v.resolveNode scope = .ok r) (hout : out = ofOption r) : ComesFrom v path part := by
  induction h generalizing v r with
  | whole =>
    rcases resolveNode_cases hr with ⟨hplain, rfl⟩ | ⟨s, rfl, hs, -⟩ | ⟨items, items', rfl, rfl, -⟩ | ⟨fields, fields', rfl, rfl, -⟩
    · obtain rfl := hout
      exact .same hplain .whole
    · exact .fragments (List.nil_prefix) .whole hs
    · exact .array hout .whole
    · exact .object hout .whole
  | @item outs i out part path hv _ ih =>
    rcases resolveNode_cases hr with ⟨hplain, rfl⟩ | ⟨s, rfl, hs, -⟩ | ⟨items, items', rfl, rfl, hitems⟩ | ⟨_, _, -, rfl, -⟩
    · obtain rfl := hout
      cases hplain
    · exact .fragments (List.nil_prefix) .whole hs
    · cases hout
      obtain ⟨hlength, hplaces⟩ := resolveItems_eq_ok hitems
      obtain ⟨hi, -⟩ := List.getElem?_eq_some_iff.mp hv
      obtain ⟨v₀, hitem⟩ : ∃ v₀, items[i]? = some v₀ := ⟨_, List.getElem?_eq_getElem (hlength ▸ hi)⟩
      obtain ⟨r₀, hr₀, hplace⟩ := hplaces i v₀ hitem
      exact (ih hr₀ (Option.some.inj (hv.symm.trans hplace))).item hitem
    · cases hout
  | field hv _ ih =>
    rcases resolveNode_cases hr with ⟨hplain, rfl⟩ | ⟨s, rfl, hs, -⟩ | ⟨_, _, -, rfl, -⟩ | ⟨fields, fields', rfl, rfl, hfields⟩
    · obtain rfl := hout
      cases hplain
    · exact .fragments (List.nil_prefix) .whole hs
    · cases hout
    · cases hout
      obtain ⟨v₀, hv₀, hr₀⟩ := (resolveFields_eq_ok hfields).2.2 _ _ hv
      exact (ih hr₀ rfl).field hv₀

/-- Of an object the keys of those fields are left that do not vanish. -/
theorem mem_keys_of_resolveFields {fields fields' : List (String × Value)} (h : resolveFields scope fields = .ok fields') {key : String} :
    key ∈ Keyed.keys fields' ↔ ∃ v, (key, v) ∈ fields ∧ ¬Vanishes scope v := by
  obtain ⟨-, hkept, horigin⟩ := resolveFields_eq_ok h
  constructor
  · intro hkey
    obtain ⟨⟨k, w⟩, hw, rfl⟩ := List.mem_map.mp hkey
    obtain ⟨v, hv, hr⟩ := horigin k w hw
    refine ⟨v, hv, fun hvanishes => ?_⟩
    cases hr.symm.trans (resolveNode_eq_none.mpr hvanishes)
  · rintro ⟨v, hv, hstays⟩
    obtain ⟨r, hr, hplace⟩ := hkept key v hv
    cases r with
    | none => exact absurd (resolveNode_eq_none.mp hr) hstays
    | some w => exact List.mem_map_of_mem (hplace w rfl)

/-- What a value is resolved to keeps its shape. -/
theorem keepsShape_of_resolveNode {v : Value} {r : Option Value} (h : v.resolveNode scope = .ok r) : KeepsShape scope v (ofOption r) where
  array path items hpart := by
    obtain ⟨r', hr', hlands⟩ := hpart.lands h
    obtain ⟨items', rfl, hitems⟩ := resolveNode_arr hr'
    exact ⟨items', hlands, (resolveItems_eq_ok hitems).1⟩
  object path fields hpart := by
    obtain ⟨r', hr', hlands⟩ := hpart.lands h
    obtain ⟨fields', rfl, hfields⟩ := resolveNode_obj hr'
    exact ⟨fields', hlands, (resolveFields_eq_ok hfields).1, fun key => mem_keys_of_resolveFields hfields⟩
  text path s hpart hs := by
    obtain ⟨r', hr', hlands⟩ := hpart.lands h
    exact ⟨r', resolveNode_fragments hs ▸ hr', hlands⟩
  plain path part hpart hplain := by
    obtain ⟨r', hr', hlands⟩ := hpart.lands h
    obtain rfl := Except.ok.inj (hr'.symm.trans (resolveNode_plain hplain))
    exact hlands
  origin path part hpart := hpart.comesFrom h rfl

/-! ## Values without fragments -/

mutual

/-- A value without fragments comes to itself. -/
theorem resolveNode_self (scope : Scope) : (v : Value) → (∀ path s, Part v path (.str s) → (Template.ofString s).hasFragment = false) →
    v.resolveNode scope = .ok (some v)
  | .null, _ | .bool _, _ | .num _, _ => rfl
  | .str s, h => resolveNode_plain (v := .str s) (h [] s .whole)
  | .arr items, h => by
    unfold resolveNode
    rw [resolveItems_self scope items fun v hv path s hpart => ?_]
    · rfl
    · obtain ⟨i, hi⟩ := List.mem_iff_getElem?.mp hv
      exact h _ s (.item hi hpart)
  | .obj fields, h => by
    unfold resolveNode
    rw [resolveFields_self scope fields fun f hf path s hpart => h _ s (.field hf hpart)]
    rfl

/-- Items without fragments are resolved to themselves. -/
theorem resolveItems_self (scope : Scope) : (items : List Value) →
    (∀ v ∈ items, ∀ path s, Part v path (.str s) → (Template.ofString s).hasFragment = false) → resolveItems scope items = .ok items
  | [], _ => rfl
  | v :: vs, h => by
    rw [resolveItems, resolveNode_self scope v (h v List.mem_cons_self),
      resolveItems_self scope vs fun u hu => h u (List.mem_cons_of_mem _ hu)]
    rfl

/-- Fields without fragments are resolved to themselves. -/
theorem resolveFields_self (scope : Scope) : (fields : List (String × Value)) →
    (∀ f ∈ fields, ∀ path s, Part f.2 path (.str s) → (Template.ofString s).hasFragment = false) →
    resolveFields scope fields = .ok fields
  | [], _ => rfl
  | (k, v) :: fs, h => by
    rw [resolveFields, resolveNode_self scope v (h (k, v) List.mem_cons_self),
      resolveFields_self scope fs fun f hf => h f (List.mem_cons_of_mem _ hf)]
    rfl

end

/-- A valid value resolves, in every scope, to one of the same shape, and to itself if it has no fragments. -/
theorem shape_kept (v : Value) (scope : Scope) :
    (v.validate = .ok () → ∃ out, v.resolve scope = .ok out ∧ KeepsShape scope v out) ∧
    ((∀ path s, Part v path (.str s) → (Template.ofString s).hasFragment = false) → v.resolve scope = .ok v) := by
  constructor
  · intro hvalid
    obtain ⟨r, hr⟩ := Except.exists_of_forget ((forget_resolveNode scope v).trans hvalid)
    exact ⟨ofOption r, by rw [resolve, hr]; rfl, keepsShape_of_resolveNode hr⟩
  · intro hplain
    rw [resolve, resolveNode_self scope v hplain]
    rfl

/-- A field that vanishes, an item that does, a text around a fragment, and texts without one. -/
def sampleShape : Value :=
  .obj [("gone", .str "\x7b\x7b missing \x7d\x7d"),
    ("kept", .arr [.str "\x7b\x7b missing \x7d\x7d", .str "\x7b\x7bx\x7d\x7d!", .bool true]), ("plain", .str "\x7d\x7d \x7b\x7b")]

/-- The field is left out, the item is null, and the last field alone, without fragments, stays as it is. -/
theorem shape_kept_of_sample : ∃ fields, sampleShape.resolve (Scope.ofValue (.obj [("x", .ofNat 1)])) = .ok (.obj fields) ∧
    "gone" ∉ Keyed.keys fields ∧ Part (.obj fields) [.key "kept", .index 0] .null ∧
    Part (.obj fields) [.key "kept", .index 1] (.str "1!") ∧
    (Value.str "\x7d\x7d \x7b\x7b").resolve (Scope.ofValue (.obj [("x", .ofNat 1)])) = .ok (.str "\x7d\x7d \x7b\x7b") := by
  obtain ⟨out, hout, hshape⟩ := (shape_kept sampleShape (Scope.ofValue (.obj [("x", .ofNat 1)]))).1 (by cbv)
  obtain ⟨fields, hfields, -, hkeys⟩ := hshape.object [] _ .whole
  cases hfields
  refine ⟨fields, hout, ?_, ?_, ?_, (shape_kept _ _).2 ?_⟩
  · rw [hkeys]
    rintro ⟨field, hfield, hstays⟩
    obtain rfl : field = .str "\x7b\x7b missing \x7d\x7d" := by simpa using hfield
    exact hstays ⟨_, " missing ".toList, .path ⟨"missing", []⟩, rfl, by cbv, by cbv, by cbv⟩
  · obtain ⟨r, hr, hlands⟩ := hshape.text [.key "kept", .index 0] "\x7b\x7b missing \x7d\x7d"
      (.field (.tail _ (.head _)) (.item rfl .whole)) (by cbv)
    have hnone : (Template.ofString "\x7b\x7b missing \x7d\x7d").resolve (Scope.ofValue (.obj [("x", .ofNat 1)])) = .ok none := by cbv
    obtain rfl := Except.ok.inj (hnone.symm.trans hr)
    refine hlands.resolve_right ?_
    rintro ⟨key, hkey⟩
    simp at hkey
  · obtain ⟨r, hr, hlands⟩ := hshape.text [.key "kept", .index 1] "\x7b\x7bx\x7d\x7d!"
      (.field (.tail _ (.head _)) (.item rfl .whole)) (by cbv)
    have hsome : (Template.ofString "\x7b\x7bx\x7d\x7d!").resolve (Scope.ofValue (.obj [("x", .ofNat 1)])) = .ok (some (.str "1!")) := by
      cbv
    obtain rfl := Except.ok.inj (hsome.symm.trans hr)
    exact hlands
  · intro path s hpart
    cases hpart
    cbv

end Value

end Runbook
