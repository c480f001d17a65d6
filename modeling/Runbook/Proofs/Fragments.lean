import Mathlib.Data.List.Infix
import Mathlib.Data.List.Count
import Runbook.Proofs.Acceptance
import Runbook.Proofs.Resolving

/-!
# A text with one fragment

Between an opening pair of braces and the first closing pair stands a fragment. With nothing around it, it is the whole source and its
value keeps its type; with anything around it, the source is a text that has the value put in.
-/

namespace Runbook

namespace Text

/-! ## Blanks at the ends -/

/-- A text of blanks only. -/
def Blank (s : List Char) : Prop := ∀ c ∈ s, isBlank c = true

instance (s : List Char) : Decidable (Blank s) := List.decidableBAll _ s

/-- Cuts off the first characters that pass one test, and the last ones that pass another. -/
def dropEnds (front back : Char → Bool) (s : List Char) : List Char := dropEndWhile back (s.dropWhile front)

/-- What is to be cut from the end does not show once it is cut. -/
theorem dropEndWhile_append {p : Char → Bool} {w : List Char} (hw : ∀ c ∈ w, p c = true) (s : List Char) :
    dropEndWhile p (s ++ w) = dropEndWhile p s := by
  unfold dropEndWhile
  rw [List.reverse_append, List.dropWhile_append_of_pos fun c hc => hw c (List.mem_reverse.mp hc)]

/-- What would be cut off is cut off with what is cut off anyway. -/
theorem dropEnds_append {front back : Char → Bool} {w w' : List Char} (hw : ∀ c ∈ w, front c = true)
    (hw' : ∀ c ∈ w', front c = true ∧ back c = true) (s : List Char) :
    dropEnds front back (w ++ (s ++ w')) = dropEnds front back s := by
  rw [dropEnds, List.dropWhile_append_of_pos hw, List.dropWhile_append]
  split
  · rename_i hfront
    rw [List.dropWhile_eq_nil_iff.mpr fun c hc => (hw' c hc).1, dropEnds, List.isEmpty_iff.mp hfront]
  · rw [dropEndWhile_append fun c hc => (hw' c hc).2, dropEnds]

/-- A text is what is left of it, between what was cut off. -/
theorem exists_dropEnds (front back : Char → Bool) (s : List Char) :
    ∃ w w', (∀ c ∈ w, front c = true) ∧ (∀ c ∈ w', back c = true) ∧ s = w ++ (dropEnds front back s ++ w') := by
  have hlast (s : List Char) : dropEndWhile back s ++ (s.reverse.takeWhile back).reverse = s := by
    rw [dropEndWhile, ← List.reverse_append, List.takeWhile_append_dropWhile, List.reverse_reverse]
  refine ⟨s.takeWhile front, ((s.dropWhile front).reverse.takeWhile back).reverse, fun c hc => List.mem_takeWhile_imp hc, ?_, ?_⟩
  · exact fun c hc => List.mem_takeWhile_imp (List.mem_reverse.mp hc)
  · rw [dropEnds, hlast, List.takeWhile_append_dropWhile]

/-- Blanks at the ends of a text are cut off with those that it has there. -/
theorem trimChars_append {w w' : List Char} (hw : Blank w) (hw' : Blank w') (s : List Char) : trimChars (w ++ (s ++ w')) = trimChars s :=
  dropEnds_append hw (fun c hc => ⟨hw' c hc, hw' c hc⟩) s

/-- Blanks on both sides of a text do not show once it is trimmed. -/
theorem trim_append {w w' : String} (hw : Blank w.toList) (hw' : Blank w'.toList) (s : String) : trim (w ++ (s ++ w')) = trim s := by
  rw [trim, String.toList_append, String.toList_append, trimChars_append hw hw', trim]

/-- Nothing is cut off a text that neither begins nor ends with a blank. -/
theorem trimChars_eq_self {first last : Char} {s : List Char} (hfirst : isBlank first = false) (hlast : isBlank last = false) :
    trimChars (first :: (s ++ [last])) = first :: (s ++ [last]) := by
  rw [trimChars, List.dropWhile_cons_of_neg (by simp [hfirst]), dropEndWhile, ← List.cons_append, List.reverse_append,
    List.reverse_singleton, List.singleton_append, List.dropWhile_cons_of_neg (by simp [hlast]), List.reverse_cons, List.reverse_reverse]

/-- A text is what is left of it, between blanks. -/
theorem exists_trimChars (s : List Char) : ∃ w w', Blank w ∧ Blank w' ∧ s = w ++ (trimChars s ++ w') := exists_dropEnds isBlank isBlank s

end Text

/-- A text as a fragment. -/
def fragment (inner : String) : String := "\x7b\x7b" ++ inner ++ "\x7d\x7d"

/-- A text that can stand in a fragment: there is no closing pair before that of the fragment. -/
def FragmentText (inner : String) : Prop := ¬['\x7d', '\x7d'] <:+: inner.toList ++ ['\x7d']

instance (inner : String) : Decidable (FragmentText inner) :=
  inferInstanceAs (Decidable (¬['\x7d', '\x7d'] <:+: inner.toList ++ ['\x7d']))

namespace Template

/-! ## Cutting -/

/-- A text without a character is not cut at a pair of it. -/
theorem cutAtPair_of_not_mem {c : Char} {s : List Char} (h : c ∉ s) : cutAtPair c s = none := by
  fun_induction cutAtPair c s with
  | case1 a b rest hc => exact absurd hc.1 fun heq => h (heq ▸ List.mem_cons_self)
  | case2 a b rest _ before after hcut ih => rw [ih fun hmem => h (List.mem_cons_of_mem _ hmem)] at hcut; cases hcut
  | case3 => rfl
  | case4 => rfl

/-- A text is cut at a pair with no pair before it, not even one that begins where this one does. -/
theorem cutAtPair_append {c : Char} {s : List Char} (h : ¬[c, c] <:+: s ++ [c]) (after : List Char) :
    cutAtPair c (s ++ c :: c :: after) = some (s, after) := by
  induction s with
  | nil => simp [cutAtPair]
  | cons a s ih =>
    have hcut := ih fun hpair => h (hpair.trans (List.suffix_cons a (s ++ [c])).isInfix)
    obtain ⟨b, rest, hrest, hb⟩ : ∃ b rest, s ++ c :: c :: after = b :: rest ∧ (s ++ [c]).head? = some b := by
      cases s with
      | nil => exact ⟨c, c :: after, rfl, rfl⟩
      | cons b s => exact ⟨b, s ++ c :: c :: after, rfl, rfl⟩
    have hpair : ¬(a = c ∧ b = c) := by
      rintro ⟨rfl, rfl⟩
      obtain ⟨tail, htail⟩ := List.head?_eq_some_iff.mp hb
      exact h ⟨[], tail, by rw [List.cons_append, htail]; rfl⟩
    rw [List.cons_append, hrest, cutAtPair, if_neg hpair, ← hrest, hcut]

theorem no_pair_of_not_mem {c : Char} {s : List Char} (h : c ∉ s) : ¬[c, c] <:+: s ++ [c] := by
  intro hpair
  have hcount := hpair.sublist.count_le c
  simp [List.count_eq_zero_of_not_mem h] at hcount

/-- Texts without a pair have none together if something else stands between them. -/
theorem no_pair_between {c x : Char} {s t : List Char} (hx : x ≠ c) (hs : ¬[c, c] <:+: s) (ht : ¬[c, c] <:+: t) :
    ¬[c, c] <:+: s ++ x :: t := by
  induction s with
  | nil =>
    intro h
    rcases List.infix_cons_iff.mp h with h | h
    · exact hx (List.cons_prefix_cons.mp h).1.symm
    · exact ht h
  | cons a s ih =>
    intro h
    rcases List.infix_cons_iff.mp h with h | h
    · obtain ⟨rfl, hrest⟩ := List.cons_prefix_cons.mp h
      cases s with
      | nil => exact hx (List.cons_prefix_cons.mp hrest).1.symm
      | cons b s =>
        obtain ⟨rfl, -⟩ := List.cons_prefix_cons.mp hrest
        exact hs ⟨[], s, rfl⟩
    · exact ih (fun hpair => hs (hpair.trans (List.suffix_cons a s).isInfix)) h

/-- The only fragment of a text with no other opening brace. -/
theorem scan_fragment {before inner after : List Char} (hbefore : '\x7b' ∉ before) (hafter : '\x7b' ∉ after)
    (hinner : ¬['\x7d', '\x7d'] <:+: inner ++ ['\x7d']) :
    scan (before ++ '\x7b' :: '\x7b' :: (inner ++ '\x7d' :: '\x7d' :: after)) = ⟨[⟨before, inner⟩], after⟩ := by
  have hcut : cutFragment (before ++ '\x7b' :: '\x7b' :: (inner ++ '\x7d' :: '\x7d' :: after)) = some (before, inner, after) := by
    rw [cutFragment, cutAtPair_append (no_pair_of_not_mem hbefore)]
    simp only [cutAtPair_append hinner]
  have hend : scan after = ⟨[], after⟩ := by
    rw [scan]
    split
    · rfl
    · rename_i h
      rw [cutFragment, cutAtPair_of_not_mem hafter] at h
      cases h
  rw [scan]
  split
  · rename_i h
    rw [hcut] at h
    cases h
  · rename_i h
    obtain ⟨rfl, rfl, rfl⟩ : _ = before ∧ _ = inner ∧ _ = after := by simpa [hcut] using h.symm
    rw [hend]

/-- A fragment between blanks is a template of this one fragment. -/
theorem ofString_fragment {before inner after : String} (hbefore : Text.Blank before.toList) (hafter : Text.Blank after.toList)
    (hinner : FragmentText inner) :
    ofString (before ++ (fragment inner ++ after)) = ⟨[⟨before.toList, inner.toList⟩], after.toList⟩ := by
  have hopen {s : List Char} (hs : Text.Blank s) : '\x7b' ∉ s := fun hmem => absurd (hs _ hmem) (by decide)
  rw [ofString, ← scan_fragment (hopen hbefore) (hopen hafter) hinner]
  simp [fragment]

end Template

namespace Source

/-- A fragment alone has the value of its expression. -/
theorem evaluate_fragment {inner : String} (h : FragmentText inner) (scope : Scope) :
    (ofString (fragment inner)).evaluate scope = (·.eval scope) <$> Expr.parse (Text.trim inner) := by
  have htemplate : Template.ofString ("" ++ (fragment inner ++ "")) = ⟨[⟨[], inner.toList⟩], []⟩ :=
    Template.ofString_fragment nofun nofun h
  rw [String.empty_append, String.append_empty] at htemplate
  rw [ofString, htemplate]
  rfl

/-- A fragment is valid exactly if its inner text is an expression. -/
theorem validate_fragment {inner : String} (h : FragmentText inner) :
    (ofString (fragment inner)).validate = .ok () ↔ ∃ e, Expr.parse (Text.trim inner) = .ok e := by
  rw [← forget_evaluate fun _ => none, evaluate_fragment h]
  cases Expr.parse (Text.trim inner) with
  | error err => simp [Functor.map, Except.map]
  | ok e => simp [Functor.map, Except.map]

/-- With anything around it, a fragment is replaced by the text of its value. -/
theorem evaluate_padded {before inner after : String} (hbefore : Text.Blank before.toList) (hafter : Text.Blank after.toList)
    (h : FragmentText inner) (hpadded : before ≠ "" ∨ after ≠ "") (scope : Scope) :
    (ofString (before ++ (fragment inner ++ after))).evaluate scope =
      (fun e => some (.str (before ++ (Template.substitute (e.eval scope) ++ after)))) <$> Expr.parse (Text.trim inner) := by
  have hlone : Template.lone? ⟨[⟨before.toList, inner.toList⟩], after.toList⟩ = none := by
    unfold Template.lone?
    split
    · rename_i heq
      simp_all
    · rfl
  rw [ofString, Template.ofString_fragment hbefore hafter h]
  simp only [Template.hasFragment, List.isEmpty_cons, Bool.not_false, if_true, evaluate, Template.resolve, hlone, Template.fill,
    Span.expression, String.ofList_toList]
  rw [Text.trim]
  cases Expr.parse (String.ofList (Text.trimChars inner.toList)) with
  | error err => rfl
  | ok e => rfl

end Source

end Runbook
