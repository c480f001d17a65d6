import Runbook.Json.Depth
import Runbook.Json.Printer
import Runbook.Proofs.Documents
import Runbook.Text.Blank

/-!
# Values read back

The compact text of a value is read as the document of this value, up to its floating-point numbers, which may come back as neighbours.
It is refused where there are more containers inside each other than the reader admits, and where a number comes back out of range.
-/

namespace Runbook

namespace Value

mutual

/-- The value that the text of a value is read as by a reader that admits so many containers inside each other. -/
def reread? : Value → Nat → Option Value
  | .null, _ => some .null
  | .bool b, _ => some (.bool b)
  | .num n, _ => n.reread?.map .num
  | .str s, _ => some (.str s)
  | .arr _, 0 | .obj _, 0 => none
  | .arr items, depth + 1 => (rereadItems? items depth).map .arr
  | .obj fields, depth + 1 => (rereadFields? fields depth).map .obj

def rereadItems? : List Value → Nat → Option (List Value)
  | [], _ => some []
  | v :: vs, depth => do return (← v.reread? depth) :: (← rereadItems? vs depth)

def rereadFields? : List (String × Value) → Nat → Option (List (String × Value))
  | [], _ => some []
  | (key, v) :: fs, depth => do return (key, ← v.reread? depth) :: (← rereadFields? fs depth)

end

mutual

/-- The numbers within a value. -/
def numbers : Value → List Number
  | .num n => [n]
  | .arr items => numbersOfItems items
  | .obj fields => numbersOfFields fields
  | .null | .bool _ | .str _ => []

def numbersOfItems : List Value → List Number
  | [] => []
  | v :: vs => v.numbers ++ numbersOfItems vs

def numbersOfFields : List (String × Value) → List Number
  | [] => []
  | (_, v) :: fs => v.numbers ++ numbersOfFields fs

end

variable {v w : Value} {vs ws : List Value} {fs gs : List (String × Value)} {key : String} {depth : Nat}

/-- Items are read again exactly if the first of them and the others are. -/
theorem rereadItems?_cons_eq_some : rereadItems? (v :: vs) depth = some ws ↔
    ∃ u us, v.reread? depth = some u ∧ rereadItems? vs depth = some us ∧ u :: us = ws := by
  cases hv : v.reread? depth <;> cases hvs : rereadItems? vs depth <;> simp [rereadItems?, hv, hvs]

/-- Items are not read again exactly if the first of them or the others are not. -/
theorem rereadItems?_cons_eq_none : rereadItems? (v :: vs) depth = none ↔
    v.reread? depth = none ∨ ∃ u, v.reread? depth = some u ∧ rereadItems? vs depth = none := by
  cases hv : v.reread? depth <;> cases hvs : rereadItems? vs depth <;> simp [rereadItems?, hv, hvs]

/-- Fields are read again exactly if the first of them and the others are. -/
theorem rereadFields?_cons_eq_some : rereadFields? ((key, v) :: fs) depth = some gs ↔
    ∃ u us, v.reread? depth = some u ∧ rereadFields? fs depth = some us ∧ (key, u) :: us = gs := by
  cases hv : v.reread? depth <;> cases hfs : rereadFields? fs depth <;> simp [rereadFields?, hv, hfs]

/-- Fields are not read again exactly if the first of them or the others are not. -/
theorem rereadFields?_cons_eq_none : rereadFields? ((key, v) :: fs) depth = none ↔
    v.reread? depth = none ∨ ∃ u, v.reread? depth = some u ∧ rereadFields? fs depth = none := by
  cases hv : v.reread? depth <;> cases hfs : rereadFields? fs depth <;> simp [rereadFields?, hv, hfs]

mutual

/-- A value comes back from its text exactly if it is not too deep and its numbers come back from theirs. -/
theorem reread?_eq_some_self : (v : Value) → (depth : Nat) →
    (v.reread? depth = some v ↔ v.depth ≤ depth ∧ ∀ n ∈ v.numbers, n.reread? = some n)
  | .null, _ | .bool _, _ | .str _, _ => by simp [reread?, Value.depth, numbers]
  | .num n, _ => by simp [reread?, Value.depth, numbers]
  | .arr _, 0 | .obj _, 0 => by simp [reread?, Value.depth]
  | .arr items, depth + 1 => by
    have h := rereadItems?_eq_some_self items depth
    simp [reread?, Value.depth, numbers, h]
  | .obj fields, depth + 1 => by
    have h := rereadFields?_eq_some_self fields depth
    simp [reread?, Value.depth, numbers, h]

/-- Items are read again as they are exactly if they are not too deep and all numbers in them are read again as they
are. -/
theorem rereadItems?_eq_some_self : (items : List Value) → (depth : Nat) →
    (rereadItems? items depth = some items ↔ depthItems items ≤ depth ∧ ∀ n ∈ numbersOfItems items, n.reread? = some n)
  | [], _ => by simp [rereadItems?, depthItems, numbersOfItems]
  | v :: vs, depth => by
    have hv := reread?_eq_some_self v depth
    have hvs := rereadItems?_eq_some_self vs depth
    simp only [rereadItems?_cons_eq_some, List.cons.injEq, depthItems, numbersOfItems, List.mem_append, max_le_iff, or_imp,
      forall_and]
    constructor
    · rintro ⟨u, us, hu, hus, rfl, rfl⟩
      exact ⟨⟨(hv.mp hu).1, (hvs.mp hus).1⟩, (hv.mp hu).2, (hvs.mp hus).2⟩
    · rintro ⟨⟨hdepth, hdepths⟩, hn, hns⟩
      exact ⟨v, vs, hv.mpr ⟨hdepth, hn⟩, hvs.mpr ⟨hdepths, hns⟩, rfl, rfl⟩

/-- Fields are read again as they are exactly if they are not too deep and all numbers in them are read again as they
are. -/
theorem rereadFields?_eq_some_self : (fields : List (String × Value)) → (depth : Nat) →
    (rereadFields? fields depth = some fields ↔ depthFields fields ≤ depth ∧ ∀ n ∈ numbersOfFields fields, n.reread? = some n)
  | [], _ => by simp [rereadFields?, depthFields, numbersOfFields]
  | (key, v) :: fs, depth => by
    have hv := reread?_eq_some_self v depth
    have hfs := rereadFields?_eq_some_self fs depth
    simp only [rereadFields?_cons_eq_some, List.cons.injEq, Prod.mk.injEq, depthFields, numbersOfFields, List.mem_append, max_le_iff,
      or_imp, forall_and, true_and]
    constructor
    · rintro ⟨u, us, hu, hus, rfl, rfl⟩
      exact ⟨⟨(hv.mp hu).1, (hfs.mp hus).1⟩, (hv.mp hu).2, (hfs.mp hus).2⟩
    · rintro ⟨⟨hdepth, hdepths⟩, hn, hns⟩
      exact ⟨v, fs, hv.mpr ⟨hdepth, hn⟩, hfs.mpr ⟨hdepths, hns⟩, rfl, rfl⟩

end

/-- Fields keep their keys when they are read again. -/
theorem keys_rereadFields? (h : rereadFields? fs depth = some gs) : Keyed.keys gs = Keyed.keys fs := by
  induction fs generalizing gs with
  | nil =>
    cases h
    rfl
  | cons f fs ih =>
    obtain ⟨u, us, -, hus, rfl⟩ := rereadFields?_cons_eq_some.mp h
    exact congrArg (f.1 :: ·) (ih hus)

mutual

/-- What comes back is a value that a document can hold. -/
theorem held_reread? : (v : Value) → v.Held → (depth : Nat) → (u : Value) → v.reread? depth = some u → u.Held
  | .null, _, _, _, h | .bool _, _, _, _, h | .str _, _, _, _, h => by
    cases h
    trivial
  | .num n, _, _, _, h => by
    obtain ⟨m, hm, rfl⟩ := Option.map_eq_some_iff.mp h
    obtain ⟨r, hr, rfl⟩ := Option.map_eq_some_iff.mp hm
    exact Json.held_readNumber hr
  | .arr _, _, 0, _, h | .obj _, _, 0, _, h => by cases h
  | .arr items, hv, depth + 1, _, h => by
    obtain ⟨us, hus, rfl⟩ := Option.map_eq_some_iff.mp h
    exact held_rereadItems? items hv depth us hus
  | .obj fields, hv, depth + 1, _, h => by
    obtain ⟨gs, hgs, rfl⟩ := Option.map_eq_some_iff.mp h
    refine ⟨?_, held_rereadFields? fields hv.2 depth gs hgs⟩
    rw [Keyed.Sorted, keys_rereadFields? hgs]
    exact hv.1

/-- Items that can be held can still be held when they are read again. -/
theorem held_rereadItems? : (items : List Value) → HeldItems items → (depth : Nat) → (us : List Value) →
    rereadItems? items depth = some us → HeldItems us
  | [], _, _, _, h => by
    cases h
    trivial
  | v :: vs, hv, depth, _, h => by
    obtain ⟨u, us, hu, hus, rfl⟩ := rereadItems?_cons_eq_some.mp h
    exact ⟨held_reread? v hv.1 depth u hu, held_rereadItems? vs hv.2 depth us hus⟩

/-- Fields that can be held can still be held when they are read again. -/
theorem held_rereadFields? : (fields : List (String × Value)) → HeldFields fields → (depth : Nat) → (gs : List (String × Value)) →
    rereadFields? fields depth = some gs → HeldFields gs
  | [], _, _, _, h => by
    cases h
    trivial
  | (_, v) :: fs, hv, depth, _, h => by
    obtain ⟨u, us, hu, hus, rfl⟩ := rereadFields?_cons_eq_some.mp h
    exact ⟨held_reread? v hv.1 depth u hu, held_rereadFields? fs hv.2 depth us hus⟩

end

end Value

namespace Json

/-! ## Texts -/

/-- A hexadecimal digit is read back as what it stands for. -/
theorem hexValue?_hexDigit : ∀ n < 16, hexValue? (hexDigit n) = some n := by decide

/-- A character is read back as it is written inside quotes. -/
theorem readString_escape (seen : List Char) (c : Char) (rest : List Char) :
    readString seen (escape c ++ rest) = readString (c :: seen) rest := by
  unfold escape
  split
  · rfl
  · rfl
  · rfl
  · rfl
  · rfl
  · rename_i hquote hbackslash _ _ _
    split
    · rename_i h
      show readString (Char.ofNat 8 :: seen) rest = _
      rw [← h, Char.ofNat_toNat]
    · split
      · rename_i h
        show readString (Char.ofNat 12 :: seen) rest = _
        rw [← h, Char.ofNat_toNat]
      · split
        · rename_i h
          have hunit : hexUnit? '0' '0' (hexDigit (c.toNat / 16)) (hexDigit (c.toNat % 16)) = some c.toNat := by
            have hzero : hexValue? '0' = some 0 := by decide
            simp only [hexUnit?, hzero, hexValue?_hexDigit (c.toNat / 16) (by omega), hexValue?_hexDigit (c.toNat % 16) (by omega),
              Option.bind_eq_bind, Option.bind_some, Option.pure_def, Option.some.injEq]
            omega
          simp only [List.cons_append, List.nil_append]
          rw [readString, hunit]
          dsimp only
          rw [if_neg (by simp; omega), if_neg (by simp; omega), Char.ofNat_toNat]
        · rename_i hcontrol
          rw [List.singleton_append, readString, if_neg hcontrol]
          · exact hquote
          · exact fun _ _ _ _ _ h _ => hbackslash h
          · exact fun _ _ h _ => hbackslash h

/-- A text is read back from between its quotes. -/
theorem readString_flatMap (seen s rest : List Char) :
    readString seen (s.flatMap escape ++ '"' :: rest) = some (seen.reverse ++ s, rest) := by
  induction s generalizing seen with
  | nil => simp [readString]
  | cons c s ih => rw [List.flatMap_cons, List.append_assoc, readString_escape, ih, List.reverse_cons, List.append_assoc, List.singleton_append]

/-! ## Values -/

/-- Nothing is skipped before a character that is no space. -/
theorem skipSpace_cons {c : Char} (hc : isSpace c = false) (s : List Char) : skipSpace (c :: s) = c :: s := by
  rw [skipSpace, List.dropWhile_cons_of_neg (by simp [hc])]

/-- A numeral begins with nothing but a minus sign or a digit. -/
theorem numeral_head_ne {c d : Char} (hc : c = '-' ∨ c.isDigit = true) (hd : d ≠ '-' ∧ d.isDigit = false) : c ≠ d := by
  rintro rfl
  rcases hc with rfl | hdigit
  · exact hd.1 rfl
  · rw [hdigit] at hd
    cases hd.2

/-- The spaces between the tokens of a document are blanks. -/
theorem isSpace_of_not_blank {c : Char} (hc : Text.isBlank c = false) : isSpace c = false := by
  by_contra hspace
  simp only [Bool.not_eq_false, isSpace, Bool.or_eq_true, decide_eq_true_eq] at hspace
  rcases hspace with ((rfl | rfl) | rfl) | rfl <;> exact absurd hc (by decide)

/-- A numeral begins with no blank. -/
theorem isBlank_numeral_head {c : Char} (hc : c = '-' ∨ c.isDigit = true) : Text.isBlank c = false := by
  rcases hc with rfl | hdigit
  · decide
  · simp only [Char.isDigit, Bool.and_eq_true, decide_eq_true_eq, ge_iff_le, UInt32.le_iff_toNat_le] at hdigit
    change 48 ≤ c.toNat ∧ c.toNat ≤ 57 at hdigit
    by_contra hblank
    simp only [Bool.not_eq_false, Text.isBlank, Bool.or_eq_true, Bool.and_eq_true, decide_eq_true_eq, beq_iff_eq] at hblank
    omega

/-- A numeral begins with no space. -/
theorem isSpace_numeral_head {c : Char} (hc : c = '-' ∨ c.isDigit = true) : isSpace c = false :=
  isSpace_of_not_blank (isBlank_numeral_head hc)

/-- The text of a value begins with a character that is neither a space nor a closing bracket. -/
theorem render_head (v : Value) : ∃ c s, (render v).toList = c :: s ∧ isSpace c = false ∧ c ≠ ']' := by
  cases v with
  | null => exact ⟨_, _, rfl, by decide, by decide⟩
  | bool b => cases b <;> exact ⟨_, _, rfl, by decide, by decide⟩
  | num n =>
    obtain ⟨c, s, htext, hc⟩ := text_head n
    exact ⟨c, s, by rw [render, htext], isSpace_numeral_head hc, numeral_head_ne hc (by decide)⟩
  | str s => exact ⟨'"', s.toList.flatMap escape ++ ['"'], by rw [render, quote, String.toList_ofList]; rfl, by decide, by decide⟩
  | arr items => exact ⟨'[', _, by rw [render, String.toList_append, String.toList_append]; rfl, by decide, by decide⟩
  | obj fields => exact ⟨'\x7b', _, by rw [render, String.toList_append, String.toList_append]; rfl, by decide, by decide⟩

/-- What begins as a numeral is read as a number. -/
theorem readValue_number (depth : Nat) {c : Char} (hc : c = '-' ∨ c.isDigit = true) (s : List Char) :
    readValue depth (c :: s) = match readNumber (c :: s) with
      | some (n, rest) => (.num n, some rest)
      | none => (.broken, none) := by
  have hne {d : Char} {t : List Char} (hd : d ≠ '-' ∧ d.isDigit = false) : c :: s ≠ d :: t :=
    fun heq => numeral_head_ne hc hd (List.cons.inj heq).1
  unfold readValue
  rw [skipSpace_cons (isSpace_numeral_head hc)]
  split
  · rename_i heq
    exact absurd heq (hne (by decide))
  · rename_i heq
    exact absurd heq (hne (by decide))
  · rename_i heq
    exact absurd heq (hne (by decide))
  · rename_i heq
    exact absurd heq (hne (by decide))
  · rename_i heq
    exact absurd heq (hne (by decide))
  · rename_i heq
    exact absurd heq (hne (by decide))
  · rfl

/-- What a reader does with the text of a value: it reads the value that comes back, and stops if there is none. -/
def ReadsBack (depth : Nat) (v : Value) : Prop :=
  ∀ rest, EndsNumeral rest →
    (∀ u, v.reread? depth = some u → readValue depth ((render v).toList ++ rest) = (.ofValue u, some rest)) ∧
      (v.reread? depth = none → (readValue depth ((render v).toList ++ rest)).2 = none)

/-- What begins with no part of a numeral ends one. -/
theorem endsNumeral_cons {c : Char} (hc : c.isDigit = false ∧ c ∉ ['.', 'e', 'E']) (rest : List Char) : EndsNumeral (c :: rest) := by
  rintro _ ⟨⟩
  exact hc

/-- A value that is not read again stops the reading. -/
theorem ReadsBack.stop {depth : Nat} {v : Value} (h : ReadsBack depth v) {rest : List Char} (hrest : EndsNumeral rest)
    (hnone : v.reread? depth = none) : ∃ d, readValue depth ((render v).toList ++ rest) = (d, none) :=
  ⟨_, Prod.ext rfl ((h rest hrest).2 hnone)⟩

/-! ### Items -/

/-- The texts of items with commas between them. -/
def itemsText (items : List Value) : List Char := (",".intercalate (renderItems items)).toList

theorem itemsText_singleton (v : Value) : itemsText [v] = (render v).toList := by simp [itemsText, renderItems]

/-- Items are written with a comma between them. -/
theorem itemsText_cons_cons (v w : Value) (ws : List Value) :
    itemsText (v :: w :: ws) = (render v).toList ++ ',' :: itemsText (w :: ws) := by
  simp [itemsText, renderItems]

/-- The text of items begins with no space and no bracket. -/
theorem itemsText_head (v : Value) (vs : List Value) : ∃ c s, itemsText (v :: vs) = c :: s ∧ isSpace c = false ∧ c ≠ ']' := by
  obtain ⟨c, s, htext, hc⟩ := render_head v
  cases vs with
  | nil => exact ⟨c, s, by rw [itemsText_singleton, htext], hc⟩
  | cons w ws => exact ⟨c, _, by rw [itemsText_cons_cons, htext, List.cons_append], hc⟩

/-- No item is without a text. -/
theorem length_itemsText (v : Value) (vs : List Value) : vs.length < (itemsText (v :: vs)).length := by
  induction vs generalizing v with
  | nil =>
    obtain ⟨c, s, htext, -⟩ := itemsText_head v []
    rw [htext]
    exact Nat.succ_pos _
  | cons w ws ih =>
    have hlt := ih w
    rw [itemsText_cons_cons, List.length_append, List.length_cons, List.length_cons]
    omega

/-- Items that are each read back are read back together, up to the closing bracket. -/
theorem readItems_itemsText {depth fuel : Nat} {v : Value} {vs : List Value} (h : ∀ w ∈ v :: vs, ReadsBack depth w)
    (hfuel : vs.length < fuel) (rest : List Char) :
    (∀ us, Value.rereadItems? (v :: vs) depth = some us →
        readItems (readValue depth) fuel (itemsText (v :: vs) ++ ']' :: rest) = (Document.ofItems us, some rest)) ∧
      (Value.rereadItems? (v :: vs) depth = none → (readItems (readValue depth) fuel (itemsText (v :: vs) ++ ']' :: rest)).2 = none) := by
  induction vs generalizing v fuel with
  | nil =>
    obtain ⟨fuel, rfl⟩ := Nat.exists_eq_add_one_of_ne_zero (Nat.ne_zero_of_lt hfuel)
    have hv := h v List.mem_cons_self
    have hend : EndsNumeral (']' :: rest) := endsNumeral_cons (by decide) rest
    rw [itemsText_singleton]
    constructor
    · intro us hus
      obtain ⟨u, _, hu, hnil, rfl⟩ := Value.rereadItems?_cons_eq_some.mp hus
      cases hnil
      rw [readItems, (hv _ hend).1 u hu]
      rfl
    · intro hnone
      rcases Value.rereadItems?_cons_eq_none.mp hnone with hfirst | ⟨u, -, hnil⟩
      · obtain ⟨d, hstop⟩ := hv.stop hend hfirst
        rw [readItems, hstop]
      · cases hnil
  | cons w ws ih =>
    obtain ⟨fuel, rfl⟩ := Nat.exists_eq_add_one_of_ne_zero (Nat.ne_zero_of_lt hfuel)
    have hv := h v List.mem_cons_self
    have hend : EndsNumeral (',' :: (itemsText (w :: ws) ++ ']' :: rest)) := endsNumeral_cons (by decide) _
    obtain ⟨hread, hstop⟩ := ih (fun u hu => h u (List.mem_cons_of_mem _ hu)) (Nat.lt_of_succ_lt_succ hfuel)
    have hstep {u : Value} (hu : v.reread? depth = some u) :
        readItems (readValue depth) (fuel + 1) ((render v).toList ++ ',' :: (itemsText (w :: ws) ++ ']' :: rest)) =
          (.ofValue u :: (readItems (readValue depth) fuel (itemsText (w :: ws) ++ ']' :: rest)).1,
            (readItems (readValue depth) fuel (itemsText (w :: ws) ++ ']' :: rest)).2) := by
      rw [readItems, (hv _ hend).1 u hu]
      rfl
    rw [itemsText_cons_cons, List.append_assoc, List.cons_append]
    constructor
    · intro us hus
      obtain ⟨u, us, hu, hws, rfl⟩ := Value.rereadItems?_cons_eq_some.mp hus
      rw [hstep hu, hread us hws]
      rfl
    · intro hnone
      rcases Value.rereadItems?_cons_eq_none.mp hnone with hfirst | ⟨u, hu, hws⟩
      · obtain ⟨d, hstop⟩ := hv.stop hend hfirst
        rw [readItems, hstop]
      · rw [hstep hu]
        exact hstop hws

/-! ### Fields -/

/-- The texts of fields with commas between them. -/
def fieldsText (fields : List (String × Value)) : List Char := (",".intercalate (renderFields fields)).toList

/-- The text of a field. -/
def fieldText (key : String) (v : Value) : List Char := '"' :: (key.toList.flatMap escape ++ '"' :: ':' :: (render v).toList)

theorem fieldsText_singleton (key : String) (v : Value) : fieldsText [(key, v)] = fieldText key v := by
  simp [fieldsText, renderFields, fieldText, quote]

/-- Fields are written with a comma between them. -/
theorem fieldsText_cons_cons (key : String) (v : Value) (f : String × Value) (fs : List (String × Value)) :
    fieldsText ((key, v) :: f :: fs) = fieldText key v ++ ',' :: fieldsText (f :: fs) := by
  obtain ⟨k, w⟩ := f
  simp [fieldsText, renderFields, fieldText, quote]

/-- The text of fields begins with a quote. -/
theorem fieldsText_head (f : String × Value) (fs : List (String × Value)) : ∃ s, fieldsText (f :: fs) = '"' :: s := by
  obtain ⟨key, v⟩ := f
  cases fs with
  | nil => exact ⟨_, by rw [fieldsText_singleton, fieldText]⟩
  | cons g gs => exact ⟨_, by rw [fieldsText_cons_cons, fieldText, List.cons_append]⟩

/-- No field is without a text. -/
theorem length_fieldsText (f : String × Value) (fs : List (String × Value)) : fs.length < (fieldsText (f :: fs)).length := by
  induction fs generalizing f with
  | nil =>
    obtain ⟨s, htext⟩ := fieldsText_head f []
    rw [htext]
    exact Nat.succ_pos _
  | cons g gs ih =>
    have hlt := ih g
    rw [fieldsText_cons_cons, List.length_append, List.length_cons, List.length_cons]
    omega

/-- What the reader of fields makes of the value of a field and of what is behind it. -/
def behindKey (item : List Char → Json.Step Document) (fuel : Nat) (key : String) : Json.Step Document → Json.Step (List (String × Document))
  | (d, none) => ([(key, d)], none)
  | (d, some rest) =>
    match skipSpace rest with
    | ',' :: rest => ((key, d) :: (readFields item fuel rest).1, (readFields item fuel rest).2)
    | '\x7d' :: rest => ([(key, d)], some rest)
    | _ => ([(key, d)], none)

/-- A field is read by its key and its value. -/
theorem readFields_fieldText (item : List Char → Json.Step Document) (fuel : Nat) (key : String) (v : Value) (rest : List Char) :
    readFields item (fuel + 1) (fieldText key v ++ rest) = behindKey item fuel key (item ((render v).toList ++ rest)) := by
  have htext : fieldText key v ++ rest = '"' :: (key.toList.flatMap escape ++ '"' :: (':' :: ((render v).toList ++ rest))) := by
    simp [fieldText]
  have hkey := readString_flatMap [] key.toList (':' :: ((render v).toList ++ rest))
  rw [htext, readFields, skipSpace_cons (by decide)]
  simp only [hkey, skipSpace_cons (by decide : isSpace ':' = false), List.reverse_nil, List.nil_append, String.ofList_toList]
  rfl

/-- Fields whose values are each read back are read back together, up to the closing brace. -/
theorem readFields_fieldsText {depth fuel : Nat} {key : String} {v : Value} {fs : List (String × Value)}
    (h : ∀ f ∈ (key, v) :: fs, ReadsBack depth f.2) (hfuel : fs.length < fuel) (rest : List Char) :
    (∀ gs, Value.rereadFields? ((key, v) :: fs) depth = some gs →
        readFields (readValue depth) fuel (fieldsText ((key, v) :: fs) ++ '\x7d' :: rest) = (Document.ofFields gs, some rest)) ∧
      (Value.rereadFields? ((key, v) :: fs) depth = none →
        (readFields (readValue depth) fuel (fieldsText ((key, v) :: fs) ++ '\x7d' :: rest)).2 = none) := by
  induction fs generalizing key v fuel with
  | nil =>
    obtain ⟨fuel, rfl⟩ := Nat.exists_eq_add_one_of_ne_zero (Nat.ne_zero_of_lt hfuel)
    have hv := h (key, v) List.mem_cons_self
    have hend : EndsNumeral ('\x7d' :: rest) := endsNumeral_cons (by decide) rest
    rw [fieldsText_singleton, readFields_fieldText]
    constructor
    · intro gs hgs
      obtain ⟨u, _, hu, hnil, rfl⟩ := Value.rereadFields?_cons_eq_some.mp hgs
      cases hnil
      rw [(hv _ hend).1 u hu]
      rfl
    · intro hnone
      rcases Value.rereadFields?_cons_eq_none.mp hnone with hfirst | ⟨u, -, hnil⟩
      · obtain ⟨d, hstop⟩ := hv.stop hend hfirst
        rw [hstop]
        rfl
      · cases hnil
  | cons f fs ih =>
    obtain ⟨fuel, rfl⟩ := Nat.exists_eq_add_one_of_ne_zero (Nat.ne_zero_of_lt hfuel)
    have hv := h (key, v) List.mem_cons_self
    have hend : EndsNumeral (',' :: (fieldsText (f :: fs) ++ '\x7d' :: rest)) := endsNumeral_cons (by decide) _
    have hrest : ∀ g ∈ (f.1, f.2) :: fs, ReadsBack depth g.2 := fun g hg => h g (List.mem_cons_of_mem _ hg)
    obtain ⟨hread, hstop⟩ := ih hrest (Nat.lt_of_succ_lt_succ hfuel)
    have hstep {u : Value} (hu : v.reread? depth = some u) :
        readFields (readValue depth) (fuel + 1) (fieldText key v ++ ',' :: (fieldsText (f :: fs) ++ '\x7d' :: rest)) =
          ((key, .ofValue u) :: (readFields (readValue depth) fuel (fieldsText (f :: fs) ++ '\x7d' :: rest)).1,
            (readFields (readValue depth) fuel (fieldsText (f :: fs) ++ '\x7d' :: rest)).2) := by
      rw [readFields_fieldText, (hv _ hend).1 u hu]
      rfl
    rw [fieldsText_cons_cons, List.append_assoc, List.cons_append]
    constructor
    · intro gs hgs
      obtain ⟨u, us, hu, hfs, rfl⟩ := Value.rereadFields?_cons_eq_some.mp hgs
      rw [hstep hu, hread us hfs]
      rfl
    · intro hnone
      rcases Value.rereadFields?_cons_eq_none.mp hnone with hfirst | ⟨u, hu, hfs⟩
      · obtain ⟨d, hstop⟩ := hv.stop hend hfirst
        rw [readFields_fieldText, hstop]
        rfl
      · rw [hstep hu]
        exact hstop hfs

/-! ### All values -/

/-- An array with items is read by its items. -/
theorem readValue_array (depth : Nat) {c : Char} (hc : isSpace c = false) (hne : c ≠ ']') (s : List Char) :
    readValue (depth + 1) ('[' :: c :: s) = (.arr (readItems (readValue depth) (c :: s).length (c :: s)).1
      (readItems (readValue depth) (c :: s).length (c :: s)).2.isSome, (readItems (readValue depth) (c :: s).length (c :: s)).2) := by
  rw [readValue, skipSpace_cons (by decide)]
  simp only
  rw [skipSpace_cons hc]
  split
  · rename_i heq
    exact absurd (List.cons.inj heq).1 hne
  · rfl

/-- A list is read back if its items are. -/
theorem readsBack_arr {depth : Nat} {v : Value} {vs : List Value} (h : ∀ w ∈ v :: vs, ReadsBack depth w) :
    ReadsBack (depth + 1) (.arr (v :: vs)) := by
  intro rest _
  obtain ⟨c, s, htext, hspace, hne⟩ := itemsText_head v vs
  have hwhole : (render (.arr (v :: vs))).toList ++ rest = '[' :: c :: (s ++ ']' :: rest) := by
    rw [← List.cons_append, ← htext]
    simp [render, itemsText]
  have hfuel : vs.length < (c :: (s ++ ']' :: rest)).length := by
    have hlt := length_itemsText v vs
    rw [htext] at hlt
    simp only [List.length_cons, List.length_append] at hlt ⊢
    omega
  obtain ⟨hread, hstop⟩ := readItems_itemsText h hfuel rest
  rw [htext, List.cons_append] at hread hstop
  rw [hwhole, readValue_array depth hspace hne]
  constructor
  · intro u hu
    obtain ⟨us, hus, rfl⟩ := Option.map_eq_some_iff.mp hu
    rw [hread us hus]
    rfl
  · intro hnone
    exact hstop (Option.map_eq_none_iff.mp hnone)

/-- An object with fields is read by its fields. -/
theorem readValue_object (depth : Nat) (s : List Char) :
    readValue (depth + 1) ('\x7b' :: '"' :: s) = (.obj (readFields (readValue depth) ('"' :: s).length ('"' :: s)).1
      (readFields (readValue depth) ('"' :: s).length ('"' :: s)).2.isSome, (readFields (readValue depth) ('"' :: s).length ('"' :: s)).2) := by
  rw [readValue, skipSpace_cons (by decide)]
  simp only
  rw [skipSpace_cons (by decide)]
  rfl

/-- An object is read back if its fields are. -/
theorem readsBack_obj {depth : Nat} {f : String × Value} {fs : List (String × Value)} (h : ∀ g ∈ f :: fs, ReadsBack depth g.2) :
    ReadsBack (depth + 1) (.obj (f :: fs)) := by
  intro rest _
  obtain ⟨s, htext⟩ := fieldsText_head f fs
  have hwhole : (render (.obj (f :: fs))).toList ++ rest = '\x7b' :: '"' :: (s ++ '\x7d' :: rest) := by
    rw [← List.cons_append, ← htext]
    simp [render, fieldsText]
  have hfuel : fs.length < ('"' :: (s ++ '\x7d' :: rest)).length := by
    have hlt := length_fieldsText f fs
    rw [htext] at hlt
    simp only [List.length_cons, List.length_append] at hlt ⊢
    omega
  have hfields : ∀ g ∈ (f.1, f.2) :: fs, ReadsBack depth g.2 := h
  obtain ⟨hread, hstop⟩ := readFields_fieldsText hfields hfuel rest
  rw [show (f.1, f.2) = f from rfl, htext, List.cons_append] at hread hstop
  rw [hwhole, readValue_object depth]
  constructor
  · intro u hu
    obtain ⟨gs, hgs, rfl⟩ := Option.map_eq_some_iff.mp hu
    rw [hread gs hgs]
    rfl
  · intro hnone
    exact hstop (Option.map_eq_none_iff.mp hnone)

mutual

/-- The text of a value that a document can hold is read as the value that comes back. -/
theorem readsBack : (v : Value) → v.Held → (depth : Nat) → ReadsBack depth v
  | .null, _, depth => by
    refine fun rest _ => ⟨fun u hu => ?_, nofun⟩
    cases hu
    show readValue depth ('n' :: 'u' :: 'l' :: 'l' :: rest) = _
    unfold readValue
    rfl
  | .bool b, _, depth => by
    refine fun rest _ => ⟨fun u hu => ?_, nofun⟩
    cases hu
    cases b with
    | true =>
      show readValue depth ('t' :: 'r' :: 'u' :: 'e' :: rest) = _
      unfold readValue
      rfl
    | false =>
      show readValue depth ('f' :: 'a' :: 'l' :: 's' :: 'e' :: rest) = _
      unfold readValue
      rfl
  | .num n, h, depth => by
    intro rest hrest
    obtain ⟨c, s, htext, hc⟩ := text_head n
    have hread := readNumber_text (n := n) h hrest
    rw [render]
    rw [htext] at hread ⊢
    rw [List.cons_append, readValue_number depth hc, ← List.cons_append, hread, Value.reread?]
    cases n.reread? with
    | none => exact ⟨nofun, fun _ => rfl⟩
    | some m =>
      refine ⟨fun u hu => ?_, nofun⟩
      cases hu
      rfl
  | .str s, _, depth => by
    refine fun rest _ => ⟨fun u hu => ?_, nofun⟩
    cases hu
    have hread := readString_flatMap [] s.toList rest
    have htext : (render (.str s)).toList ++ rest = '"' :: (s.toList.flatMap escape ++ '"' :: rest) := by simp [render, quote]
    rw [htext, readValue, skipSpace_cons (by decide)]
    simp only [hread, List.reverse_nil, List.nil_append, String.ofList_toList]
    rfl
  | .arr items, h, 0 => by
    refine fun rest _ => ⟨nofun, fun _ => ?_⟩
    have htext : (render (.arr items)).toList ++ rest = '[' :: (itemsText items ++ ']' :: rest) := by simp [render, itemsText]
    rw [htext, readValue, skipSpace_cons (by decide)]
    rfl
  | .arr [], _, depth + 1 => by
    refine fun rest _ => ⟨fun u hu => ?_, nofun⟩
    cases hu
    show readValue (depth + 1) ('[' :: ']' :: rest) = _
    unfold readValue
    rfl
  | .arr (v :: vs), h, depth + 1 => readsBack_arr (readsBackItems (v :: vs) h depth)
  | .obj fields, h, 0 => by
    refine fun rest _ => ⟨nofun, fun _ => ?_⟩
    have htext : (render (.obj fields)).toList ++ rest = '\x7b' :: (fieldsText fields ++ '\x7d' :: rest) := by simp [render, fieldsText]
    rw [htext, readValue, skipSpace_cons (by decide)]
    rfl
  | .obj [], _, depth + 1 => by
    refine fun rest _ => ⟨fun u hu => ?_, nofun⟩
    cases hu
    show readValue (depth + 1) ('\x7b' :: '\x7d' :: rest) = _
    unfold readValue
    rfl
  | .obj (f :: fs), h, depth + 1 => readsBack_obj (readsBackFields (f :: fs) h.2 depth)

/-- Items that can be held are read back, each of them. -/
theorem readsBackItems : (items : List Value) → Value.HeldItems items → (depth : Nat) → ∀ v ∈ items, ReadsBack depth v
  | [], _, _ => by simp
  | v :: vs, h, depth => by
    intro w hw
    rcases List.mem_cons.mp hw with heq | hw
    · exact heq ▸ readsBack v h.1 depth
    · exact readsBackItems vs h.2 depth w hw

/-- Fields that can be held are read back, each of them. -/
theorem readsBackFields : (fields : List (String × Value)) → Value.HeldFields fields → (depth : Nat) →
    ∀ f ∈ fields, ReadsBack depth f.2
  | [], _, _ => by simp
  | (key, v) :: fs, h, depth => by
    intro f hf
    rcases List.mem_cons.mp hf with heq | hf
    · exact heq ▸ readsBack v h.1 depth
    · exact readsBackFields fs h.2 depth f hf

end

/-- The text of a value that a document can hold spells the value that comes back. -/
theorem parse?_render {v : Value} (h : v.Held) : parse? (render v) = v.reread? maxDepth := by
  have hback := readsBack v h maxDepth [] endsNumeral_nil
  rw [List.append_nil] at hback
  unfold parse? parseWithin? read
  cases hu : v.reread? maxDepth with
  | some u =>
    rw [hback.1 u hu]
    simp [skipSpace, Document.value?_ofValue u (Value.held_reread? v h maxDepth u hu)]
  | none =>
    obtain ⟨d, hd⟩ : ∃ d, readValue maxDepth (render v).toList = (d, none) := ⟨_, Prod.ext rfl (hback.2 hu)⟩
    rw [hd]

end Json

end Runbook
