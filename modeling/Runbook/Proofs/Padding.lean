import Runbook.Engine.Execution
import Runbook.Proofs.Complements
import Runbook.Proofs.Printing
import Runbook.Proofs.Scaling

/-!
# Blanks around a fragment

A fragment alone keeps the type of its value, and with blanks around it the value is put into a text. As a condition, this text
says `false` only for the value `false` and for texts that read so, and as a source of items it spells an array only for texts and for
arrays, whose floating-point numbers may come back as neighbours.
-/

namespace Runbook

/-! ## Texts that spell an array -/

namespace Text

/-- A text that begins with no blank is trimmed at its end only. -/
theorem trimChars_cons {c : Char} (hc : isBlank c = false) (s : List Char) : trimChars (c :: s) = c :: dropEndWhile isBlank s := by
  rw [trimChars, List.dropWhile_cons_of_neg (by simp [hc]), dropEndWhile, List.reverse_cons, List.dropWhile_append]
  split
  · rename_i hblank
    rw [dropEndWhile, List.isEmpty_iff.mp hblank, List.dropWhile_cons_of_neg (by simp [hc])]
    rfl
  · rw [dropEndWhile, List.reverse_append, List.reverse_singleton, List.singleton_append]

end Text

namespace Json

/-- Nothing but an opening bracket begins an array. -/
theorem head_of_readValue_arr {depth : Nat} {s : List Char} {items : List Document} {closed : Bool}
    (h : (readValue depth s).1 = .arr items closed) : ∃ r, skipSpace s = '[' :: r := by
  unfold readValue at h
  split at h
  · cases h
  · cases h
  · cases h
  · split at h <;> cases h
  · rename_i r hspace
    exact ⟨r, hspace⟩
  · split at h
    · cases h
    · split at h <;> cases h
  · split at h <;> cases h

/-- Only a text that begins with an opening bracket spells an array. -/
theorem head_of_parse?_arr {text : String} {items : List Value} (h : parse? text = some (.arr items)) :
    ∃ r, skipSpace text.toList = '[' :: r := by
  obtain ⟨d, hread, hvalue⟩ := exists_read h
  cases d with
  | arr ds closed => exact head_of_readValue_arr hread
  | obj fields closed =>
    unfold Document.value? at hvalue
    split at hvalue
    · split at hvalue <;> cases hvalue
    · cases hvalue
  | broken | null | bool | num | nonFinite | str => cases hvalue

end Json

/-! ## What the text of a value says -/

/-- The plain text of a number is the text of some number. -/
theorem Number.plainText_eq_text (n : Number) : ∃ m : Number, n.plainText = m.text := by
  unfold Number.plainText
  split
  · split
    · rename_i i _
      exact ⟨.int i, rfl⟩
    · exact ⟨_, rfl⟩
  · exact ⟨n, rfl⟩

namespace Template

/-- The first character in the place of a value that is no text tells an array, and it tells `false`. -/
theorem substitute_head {v : Value} (h : v.str? = none) : ∃ c s, (substitute (some v)).toList = c :: s ∧ Text.isBlank c = false ∧
    (c = '[' → ∃ items, v = .arr items) ∧ (c = 'f' → v = .bool false) := by
  cases v with
  | null => exact ⟨_, _, rfl, by decide, nofun, nofun⟩
  | bool b =>
    cases b with
    | false => exact ⟨_, _, rfl, by decide, nofun, fun _ => rfl⟩
    | true => exact ⟨_, _, rfl, by decide, nofun, nofun⟩
  | num n =>
    obtain ⟨m, hm⟩ := n.plainText_eq_text
    obtain ⟨c, s, htext, hc⟩ := Json.text_head m
    refine ⟨c, s, by rw [← htext, ← hm]; rfl, Json.isBlank_numeral_head hc, ?_, ?_⟩
    · exact fun heq => absurd heq (Json.numeral_head_ne hc (by decide))
    · exact fun heq => absurd heq (Json.numeral_head_ne hc (by decide))
  | str s => cases h
  | arr items =>
    refine ⟨'[', Json.itemsText items ++ [']'], ?_, by decide, fun _ => ⟨items, rfl⟩, nofun⟩
    simp [substitute, Value.toText, Json.render, Json.itemsText]
  | obj fields =>
    refine ⟨'\x7b', Json.fieldsText fields ++ ['\x7d'], ?_, by decide, nofun, nofun⟩
    simp [substitute, Value.toText, Json.render, Json.fieldsText]

/-- The text of a value reads `false` for the value `false` and for a text that does. -/
theorem trim_substitute {v : Option Value} : Text.trim (substitute v) = "false" ↔ v = some (.bool false) ∨ Value.ReadsFalse v := by
  constructor
  · intro h
    rcases v with _ | v
    · exact absurd h (by decide)
    cases hstr : v.str? with
    | none =>
      obtain ⟨c, s, htext, hc, -, hfalse⟩ := substitute_head hstr
      rw [Text.trim, htext, Text.trimChars_cons hc, ← String.toList_inj, String.toList_ofList] at h
      exact Or.inl (congrArg some (hfalse (List.cons.inj h).1))
    | some s =>
      cases v <;> cases hstr
      exact Or.inr ⟨s, rfl, h⟩
  · rintro (rfl | ⟨s, rfl, h⟩)
    · decide
    · exact h

/-- The text of a value spells an array only if it is the text of an array or of a text. -/
theorem parse?_substitute {v : Option Value} {items : List Value} (h : Json.parse? (Text.trim (substitute v)) = some (.arr items)) :
    (∃ s, v = some (.str s)) ∨ ∃ own, v = some (.arr own) := by
  obtain ⟨r, hr⟩ := Json.head_of_parse?_arr h
  rcases v with _ | v
  · cases hr
  cases hstr : v.str? with
  | some s =>
    cases v <;> cases hstr
    exact Or.inl ⟨s, rfl⟩
  | none =>
    obtain ⟨c, s, htext, hc, harr, -⟩ := substitute_head hstr
    rw [Text.trim, htext, Text.trimChars_cons hc, String.toList_ofList, Json.skipSpace_cons (Json.isSpace_of_not_blank hc)] at hr
    obtain ⟨own, hown⟩ := harr (List.cons.inj hr).1
    exact Or.inr ⟨own, congrArg some hown⟩

/-- Around the text of an array there are no blanks to cut off. -/
theorem trim_substitute_arr (items : List Value) : Text.trim (substitute (some (.arr items))) = Json.render (.arr items) := by
  have htext : (Json.render (.arr items)).toList = '[' :: (Json.itemsText items ++ [']']) := by simp [Json.render, Json.itemsText]
  show Text.trim (Json.render (.arr items)) = _
  rw [← String.toList_inj, Text.trim, String.toList_ofList, htext, Text.trimChars_eq_self (by decide) (by decide)]

end Template

/-! ## Padded values -/

namespace Value

/-- The values that a condition does not take for true although their text does not read `false`: undefined, null, zero and the
empty text. -/
def faint : Option Value → Bool
  | none | some .null => true
  | some (.num n) => n.order = 0
  | some (.str s) => s = ""
  | some (.bool _) | some (.arr _) | some (.obj _) => false

/-- The values whose text spells the items that they have themselves: texts, and arrays that are not too deep to be read and whose
numbers come back from their texts. -/
def keepsItems : Option Value → Bool
  | some (.str _) => true
  | some (.arr items) =>
    (Value.arr items).depth ≤ Json.maxDepth && (Value.arr items).numbers.all fun n => n.reread? = some n
  | none | some .null | some (.bool _) | some (.num _) | some (.obj _) => false

/-- A value is faint exactly if it is not truthy and not false itself. -/
theorem faint_eq_true {v : Option Value} : faint v = true ↔ truthy v = false ∧ v ≠ some (.bool false) := by
  rcases v with _ | _ | b | n | s | items | fields <;> simp [faint, truthy]

end Value

namespace Step

/-- Blanks at the ends of a text change nothing about its items. -/
theorem items_of_trim_eq {s t : String} (h : Text.trim s = Text.trim t) : items (some (.str s)) = items (some (.str t)) := by
  simp only [items, h]

/-- A text that is a list of JSON is iterated as the list. -/
theorem items_of_parse? {s : String} {own : List Value} (h : Json.parse? (Text.trim s) = some (.arr own)) :
    items (some (.str s)) = .ok own := by
  rw [items, h]

/-- A text that is no list of JSON is not iterated. -/
theorem items_refused {s : String} (h : ∀ items, Json.parse? (Text.trim s) ≠ some (.arr items)) :
    items (some (.str s)) = .error (.notIterable .string) := by
  rw [items]
  split
  · rename_i heq
    exact absurd heq (h _)
  · rfl

/-- The items that the text of a value spells: a text has its own, an array those that come back from its text, and the text of anything
else is refused. -/
def spelledItems : Option Value → Except StepError (List Value)
  | some (.str s) => items (some (.str s))
  | some (.arr own) => match Value.rereadItems? own (Json.maxDepth - 1) with
    | some back => .ok back
    | none => .error (.notIterable .string)
  | none | some .null | some (.bool _) | some (.num _) | some (.obj _) => .error (.notIterable .string)

/-- The text of a value has the items that it spells. -/
theorem items_substitute {v : Option Value} (hv : ∀ own, v = some (.arr own) → (Value.arr own).Held) :
    items (some (.str (Template.substitute v))) = spelledItems v := by
  have hrefused (hstr : ∀ s, v ≠ some (.str s)) (harr : ∀ own, v ≠ some (.arr own)) :
      items (some (.str (Template.substitute v))) = .error (.notIterable .string) := by
    refine items_refused fun items hparse => ?_
    rcases Template.parse?_substitute hparse with ⟨s, rfl⟩ | ⟨own, rfl⟩
    · exact hstr s rfl
    · exact harr own rfl
  rcases v with _ | _ | b | n | s | own | fields
  case str => rfl
  case arr =>
    have hback := Json.parse?_render (hv own rfl)
    rw [← Template.trim_substitute_arr] at hback
    have hreread : (Value.arr own).reread? Json.maxDepth = (Value.rereadItems? own (Json.maxDepth - 1)).map .arr := rfl
    rw [hreread] at hback
    rw [spelledItems]
    cases hitems : Value.rereadItems? own (Json.maxDepth - 1) with
    | some back =>
      rw [hitems] at hback
      exact items_of_parse? hback
    | none =>
      rw [hitems] at hback
      refine items_refused fun items hparse => ?_
      rw [hback] at hparse
      cases hparse
  all_goals exact hrefused nofun nofun

/-- A value whose text spells items spells its own exactly if it keeps them. -/
theorem spelledItems_eq_items {v : Option Value} : spelledItems v = items v ↔ Value.keepsItems v = true := by
  rcases v with _ | _ | b | n | s | own | fields
  case str => exact ⟨fun _ => rfl, fun _ => rfl⟩
  case arr =>
    have hself := Value.rereadItems?_eq_some_self own (Json.maxDepth - 1)
    have hkeeps : Value.keepsItems (some (.arr own)) = true ↔ Value.rereadItems? own (Json.maxDepth - 1) = some own := by
      rw [hself, Value.keepsItems, Value.depth, Value.numbers, Bool.and_eq_true, decide_eq_true_eq, List.all_eq_true,
        Nat.le_sub_one_iff_lt (by decide), Nat.succ_le_iff]
      simp
    rw [hkeeps, spelledItems]
    cases Value.rereadItems? own (Json.maxDepth - 1) <;> simp [items]
  all_goals simp [spelledItems, items, Value.keepsItems]

end Step

/-- As a condition, a value between blanks is refused only if its text reads `false`. -/
theorem Source.accepts_padded {w w' : String} (hw : Text.Blank w.toList) (hw' : Text.Blank w'.toList) (hpadded : w ++ w' ≠ "")
    (v : Option Value) : accepts (some (.str (w ++ (Template.substitute v ++ w')))) = (accepts v || Value.faint v) := by
  have hne : w ++ (Template.substitute v ++ w') ≠ "" := by
    simp only [ne_eq, String.append_eq_empty_iff, not_and] at hpadded ⊢
    exact fun h _ => hpadded h
  have htext : accepts (some (.str (w ++ (Template.substitute v ++ w')))) = true ↔ ¬(v = some (.bool false) ∨ Value.ReadsFalse v) := by
    rw [← Template.trim_substitute, ← Text.trim_append hw hw']
    simp [accepts, Value.truthy, hne]
  rw [Bool.eq_iff_iff, htext, Bool.or_eq_true, accepts_eq_true, Value.faint_eq_true, not_or]
  constructor
  · rintro ⟨hbool, hfalse⟩
    cases htruthy : Value.truthy v with
    | true => exact Or.inl ⟨rfl, hfalse⟩
    | false => exact Or.inr ⟨rfl, hbool⟩
  · rintro (⟨htruthy, hfalse⟩ | ⟨htruthy, hbool⟩)
    · refine ⟨?_, hfalse⟩
      rintro rfl
      cases htruthy
    · refine ⟨hbool, fun hfalse => ?_⟩
      rw [hfalse.truthy] at htruthy
      cases htruthy

/-! ## Arrays come from the scope -/

namespace Value

/-- An array that a path leads to is part of the value where the path begins. -/
theorem Held.follow_arr {v : Value} (h : v.Held) {path : List Segment} {items : List Value}
    (hfollow : v.follow path = some (.arr items)) : (Value.arr items).Held := by
  fun_induction follow v path with
  | case1 v => exact Option.some.inj hfollow ▸ h
  | case2 name rest fields w hget ih =>
    obtain ⟨f, hfind, rfl⟩ := Option.map_eq_some_iff.mp hget
    exact ih (heldFields_iff.mp h.2 f (List.mem_of_find?_eq_some hfind)) hfollow
  | case9 i rest own w hget ih => exact ih (heldItems_iff.mp h w (List.mem_of_getElem? hget)) hfollow
  | _ => cases hfollow

end Value

/-- A scope with values that a document can hold. -/
def Scope.Held (scope : Scope) : Prop := ∀ name v, scope name = some v → v.Held

/-- The scope of a value that can be held can be held. -/
theorem Scope.held_ofValue {v : Value} (h : v.Held) : (Scope.ofValue v).Held := by
  intro name w hw
  obtain ⟨fields, hfields, hget⟩ := Option.bind_eq_some_iff.mp hw
  obtain ⟨f, hfind, rfl⟩ := Option.map_eq_some_iff.mp hget
  cases v <;> cases hfields
  exact Value.heldFields_iff.mp h.2 f (List.mem_of_find?_eq_some hfind)

/-- No literal spells an array, so an array that an expression evaluates to is part of a value in the scope. -/
theorem Expr.Spelled.held_arr {level : Level} {ts : List Token} {e : Expr} (h : Expr.Spelled level ts e) {scope : Scope}
    (hscope : scope.Held) {items : List Value} (heval : e.eval scope = some (.arr items)) : (Value.arr items).Held := by
  induction h with
  | number | text | true | false | null | undefined | not => cases heval
  | path name rest =>
    obtain ⟨v, hv, hfollow⟩ := Option.bind_eq_some_iff.mp heval
    exact (hscope _ v hv).follow_arr hfollow
  | group _ ih | primary _ ih | operand _ ih => exact ih heval
  | chain before operator behind ihbefore ihbehind =>
    cases operator with
    | or =>
      simp only [Expr.eval] at heval
      split at heval
      · exact ihbefore heval
      · exact ihbehind heval
    | and =>
      simp only [Expr.eval] at heval
      split at heval
      · exact ihbehind heval
      · exact ihbefore heval
    | _ => cases heval

/-! ## Padded sources -/

namespace Step

variable {s : Step} {source : String} {scope : Scope}

/-- A step whose source fails has no sequence. -/
theorem sequence_of_error (hs : s.forEach = some source) {err : ExprError} (h : (Source.ofString source).evaluate scope = .error err) :
    s.sequence scope = .error (.expression err) := by
  simp only [sequence, hs, h]
  rfl

/-- A step whose source has a value has the items of the value. -/
theorem sequence_of_value (hs : s.forEach = some source) {v : Option Value} (h : (Source.ofString source).evaluate scope = .ok v) :
    s.sequence scope = items v := by
  simp only [sequence, hs, h]
  rfl

end Step

namespace Source

/-- A condition that fails does not hold, nor does it not. -/
theorem holds_of_error {source : Source} {scope : Scope} {err : ExprError} (h : source.evaluate scope = .error err) :
    source.holds scope = .error err := by
  rw [holds, h]
  rfl

/-- A condition that has a value holds if the value is accepted. -/
theorem holds_of_value {source : Source} {scope : Scope} {v : Option Value} (h : source.evaluate scope = .ok v) :
    source.holds scope = .ok (accepts v) := by
  rw [holds, h]
  rfl

/-- A faint value is not accepted. -/
theorem accepts_of_faint {v : Option Value} (h : Value.faint v = true) : accepts v = false := by
  by_contra haccepts
  have htruthy := (accepts_eq_true.mp (Bool.not_eq_false _ ▸ haccepts)).1
  rw [(Value.faint_eq_true.mp h).1] at htruthy
  cases htruthy

/-- Blanks around a fragment turn its value into a text and keep its errors. -/
theorem evaluate_between_blanks {f w w' : String} (hf : FragmentText f) (hw : Text.Blank w.toList) (hw' : Text.Blank w'.toList)
    (hpadded : w ++ w' ≠ "") (scope : Scope) :
    (ofString (w ++ fragment f ++ w')).evaluate scope =
      (fun v => some (.str (w ++ (Template.substitute v ++ w')))) <$> (ofString (fragment f)).evaluate scope := by
  have hne : w ≠ "" ∨ w' ≠ "" := by
    by_contra hempty
    obtain ⟨rfl, rfl⟩ := by simpa using hempty
    exact hpadded rfl
  rw [String.append_assoc, evaluate_padded hw hw' hf hne, evaluate_fragment hf]
  cases Expr.parse (Text.trim f) with
  | error err => rfl
  | ok e => rfl

/-- An array that a fragment evaluates to is one that a document can hold. -/
theorem held_of_evaluate_fragment {f : String} (hf : FragmentText f) {scope : Scope} (hscope : scope.Held) {items : List Value}
    (h : (ofString (fragment f)).evaluate scope = .ok (some (.arr items))) : (Value.arr items).Held := by
  rw [evaluate_fragment hf] at h
  cases hparse : Expr.parse (Text.trim f) with
  | error err =>
    rw [hparse] at h
    cases h
  | ok e =>
    rw [hparse] at h
    obtain ⟨ts, hts, hparsed⟩ := Expr.parse_eq_ok.mp hparse
    exact (Parser.spelled_of_parseTokens (tokenize_fits hts) hparsed).held_arr hscope (Except.ok.inj h)

def half : Binary64 := ⟨false, 1022 * 2 ^ 52, by decide⟩

/-- A number, a text, nothing and a half. -/
def sampleItems : List Value := [.num (.int 1), .str "two", .null, .num (.float half)]

/-- Blanks around a fragment keep its errors. They make a condition hold for a faint value that it does not hold for alone. They leave a
source of items those that the text of its value spells: everything but texts and arrays is refused, as a text, and an array stays the same
exactly if it is not too deep to be read back and its numbers come back. -/
theorem padding_kept {f w w' : String} (hf : FragmentText f) (hw : Text.Blank w.toList) (hw' : Text.Blank w'.toList)
    {scope : Scope} (hscope : scope.Held) {s t : Step} (hs : s.forEach = some (fragment f))
    (ht : t.forEach = some (w ++ fragment f ++ w')) :
    (∀ err, (ofString (fragment f)).evaluate scope = .error err →
      (ofString (fragment f)).holds scope = .error err ∧ (ofString (w ++ fragment f ++ w')).holds scope = .error err ∧
        s.sequence scope = .error (.expression err) ∧ t.sequence scope = .error (.expression err)) ∧
    ∀ v, (ofString (fragment f)).evaluate scope = .ok v →
      (ofString (fragment f)).holds scope = .ok (accepts v) ∧ s.sequence scope = Step.items v ∧
        (w ++ w' ≠ "" → (ofString (w ++ fragment f ++ w')).holds scope = .ok (accepts v || Value.faint v) ∧
          t.sequence scope = Step.spelledItems v) ∧
        ((ofString (w ++ fragment f ++ w')).holds scope = (ofString (fragment f)).holds scope ↔ w ++ w' = "" ∨ Value.faint v = false) ∧
        (t.sequence scope = s.sequence scope ↔ w ++ w' = "" ∨ Value.keepsItems v = true) := by
  by_cases hpadded : w ++ w' = ""
  · obtain ⟨rfl, rfl⟩ := String.append_eq_empty_iff.mp hpadded
    rw [String.empty_append, String.append_empty] at ht ⊢
    have hsame : t.sequence scope = s.sequence scope := by rw [Step.sequence, Step.sequence, hs, ht]
    refine ⟨fun err h => ?_, fun v h => ?_⟩
    · have hrefused := Step.sequence_of_error hs h
      exact ⟨holds_of_error h, holds_of_error h, hrefused, hsame.trans hrefused⟩
    · exact ⟨holds_of_value h, Step.sequence_of_value hs h, fun hne => absurd rfl hne, by simp, by simp [hsame]⟩
  · have hpad := evaluate_between_blanks hf hw hw' hpadded scope
    refine ⟨fun err h => ?_, fun v h => ?_⟩
    · rw [h] at hpad
      exact ⟨holds_of_error h, holds_of_error hpad, Step.sequence_of_error hs h, Step.sequence_of_error ht hpad⟩
    · rw [h] at hpad
      have hholds := holds_of_value hpad
      have hitems := Step.sequence_of_value ht hpad
      rw [accepts_padded hw hw' hpadded] at hholds
      rw [Step.items_of_trim_eq (Text.trim_append hw hw' _),
        Step.items_substitute fun own hown => held_of_evaluate_fragment hf hscope (hown ▸ h)] at hitems
      refine ⟨holds_of_value h, Step.sequence_of_value hs h, fun _ => ⟨hholds, hitems⟩, ?_, ?_⟩
      · rw [hholds, holds_of_value h]
        cases hfaint : Value.faint v with
        | true => simp [accepts_of_faint hfaint, hpadded]
        | false => simp
      · rw [hitems, Step.sequence_of_value hs h, Step.spelledItems_eq_items]
        simp [hpadded]

/-- A half has few digits. -/
theorem reread?_half : (Number.float half).reread? = some (.float half) :=
  Number.reread?_of_few (by decide) ⟨by decide +kernel, by decide +kernel⟩

/-- Blanks on both sides of the name of these items change neither that a condition holds nor the items. -/
theorem padding_kept_of_items :
    (ofString (" " ++ fragment " xs " ++ "\n")).holds (Scope.ofValue (.obj [("xs", .arr sampleItems)])) = .ok true ∧
      { Step.empty with forEach := some (" " ++ fragment " xs " ++ "\n") }.sequence
        (Scope.ofValue (.obj [("xs", .arr sampleItems)])) = .ok sampleItems := by
  have hheld : (Value.obj [("xs", .arr sampleItems)]).Held :=
    ⟨by simp [Keyed.Sorted, Names.Sorted, Keyed.keys], ⟨⟨rfl, trivial, trivial, trivial, trivial⟩, trivial⟩⟩
  have hkept := (padding_kept (by decide) (by decide) (by decide) (Scope.held_ofValue hheld)
    (s := { Step.empty with forEach := some (fragment " xs ") })
    (t := { Step.empty with forEach := some (" " ++ fragment " xs " ++ "\n") }) rfl rfl).2
  have hvalue : (ofString (fragment " xs ")).evaluate (Scope.ofValue (.obj [("xs", .arr sampleItems)])) =
      .ok (some (.arr sampleItems)) := by
    cbv
  obtain ⟨-, -, hpadded, -⟩ := hkept _ hvalue
  obtain ⟨hholds, hitems⟩ := hpadded (by decide)
  have hkeeps : Value.keepsItems (some (.arr sampleItems)) = true := by
    simp [Value.keepsItems, sampleItems, Value.depth, Value.depthItems, Value.numbers, Value.numbersOfItems, reread?_half,
      Json.reread?_int, Number.inRange, Json.maxDepth]
  exact ⟨hholds, hitems.trans (Step.spelledItems_eq_items.mpr hkeeps)⟩

/-- A condition on a name without a value does not hold, and there are no items; with a blank before it, the condition holds and the items
are refused. -/
theorem padding_of_missing :
    (ofString (fragment " missing ")).holds (Scope.ofValue (.obj [])) = .ok false ∧
      (ofString (" " ++ fragment " missing ")).holds (Scope.ofValue (.obj [])) = .ok true ∧
      { Step.empty with forEach := some (fragment " missing ") }.sequence (Scope.ofValue (.obj [])) = .ok [] ∧
      { Step.empty with forEach := some (" " ++ fragment " missing ") }.sequence (Scope.ofValue (.obj [])) =
        .error (.notIterable .string) :=
  ⟨by cbv, by cbv, by cbv, by cbv⟩

end Source

end Runbook
