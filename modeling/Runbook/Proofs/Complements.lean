import Runbook.Proofs.Lexing

/-!
# A condition and its negation

In front of an expression in parentheses `!` negates it, whatever the expression is. A condition and its negation therefore never hold
together. One of them holds unless the value is a text that reads `false`, which no condition takes as true and `!` does not take as false.
-/

namespace Runbook

/-! ## Parsing a negation -/

namespace Lexer

/-- The words of a text in parentheses behind `!`. -/
theorem lexes_negation {s : List Char} {offset : Nat} {ts : List Spanned} (h : tokensFrom offset (Text.trimChars s) = .ok ts) :
    Lexes ('!' :: '(' :: (s ++ [')'])) (.symbol .not :: .symbol .openParen :: (words ts ++ [.symbol .closeParen])) := by
  obtain ⟨w, w', hw, hw', hs⟩ := Text.exists_trimChars s
  have hclose : Lexes (w' ++ [')']) [.symbol .closeParen] := lexes_blank hw' (lexes_symbol (by decide) rfl lexes_nil)
  have hinner : Lexes (s ++ [')']) (words ts ++ [.symbol .closeParen]) := by
    have hall := lexes_blank hw (lexes_append h (breaks_blank hw' (breaks_closeParen [])) hclose)
    rw [hs]
    simpa using hall
  exact lexes_symbol (by decide) rfl (lexes_symbol (by decide) rfl hinner)

end Lexer

/-- Behind `!`, an expression in parentheses is parsed to its negation. -/
theorem Expr.parse_negation {src : String} {e e' : Expr} (h : Expr.parse (Text.trim src) = .ok e)
    (h' : Expr.parse ("!(" ++ src ++ ")") = .ok e') : e' = .not e := by
  obtain ⟨ts, hts, hparsed⟩ := Expr.parse_eq_ok.mp h
  obtain ⟨ts', hts', hparsed'⟩ := Expr.parse_eq_ok.mp h'
  have hspelled := Parser.spelled_of_parseTokens (tokenize_fits hts) hparsed
  have hspelled' := Parser.spelled_of_parseTokens (tokenize_fits hts') hparsed'
  have hwords : words ts' = .symbol .not :: .symbol .openParen :: (words ts ++ [.symbol .closeParen]) := by
    rw [tokenize_eq_ok, Text.trim, String.toList_ofList] at hts
    obtain ⟨us, hus, hwords⟩ := Lexer.lexes_negation hts 0
    have htext : ("!(" ++ src ++ ")").toList = '!' :: '(' :: (src.toList ++ [')']) := by simp
    rw [tokenize_eq_ok, htext, hus] at hts'
    rw [← Except.ok.inj hts', hwords]
  refine Parser.spelled_unique hspelled' ?_
  rw [hwords]
  exact Parser.spelled_rung (.not (.primary (.group hspelled))) .disjunction

/-! ## A condition and its negation -/

/-- A text that reads `false`. -/
def Value.ReadsFalse (v : Option Value) : Prop := ∃ s, v = some (.str s) ∧ Text.trim s = "false"

/-- A text that reads `false` counts as true in an expression. -/
theorem Value.ReadsFalse.truthy {v : Option Value} (h : Value.ReadsFalse v) : Value.truthy v = true := by
  obtain ⟨s, rfl, hs⟩ := h
  have hne : s ≠ "" := by
    rintro rfl
    exact absurd hs (by decide)
  simpa [Value.truthy] using hne

/-- A condition takes a value for true if it counts as true and is no text that reads `false`. -/
theorem Source.accepts_eq_true {v : Option Value} : Source.accepts v = true ↔ Value.truthy v = true ∧ ¬Value.ReadsFalse v := by
  unfold Source.accepts
  split
  · rename_i s
    by_cases hs : Text.trim s = "false"
    · have hfalse : Value.ReadsFalse (some (.str s)) := ⟨s, rfl, hs⟩
      simp [hs, hfalse]
    · have hfalse : ¬Value.ReadsFalse (some (.str s)) := by
        rintro ⟨_, ⟨⟩, h⟩
        exact hs h
      simp [hs, hfalse]
  · rename_i hstr
    have hfalse : ¬Value.ReadsFalse v := fun ⟨s, hv, _⟩ => hstr s hv
    simp [hfalse]

/-- Blanks around a text do not show once it is trimmed. -/
theorem Text.trim_spaced (src : String) : Text.trim (" " ++ src ++ " ") = Text.trim src := by
  rw [String.append_assoc, Text.trim_append (by decide) (by decide)]

/-- The expression of a negation is what stands between the blanks of its fragment. -/
theorem Text.trim_negation (src : String) : Text.trim (" !(" ++ src ++ ") ") = "!(" ++ src ++ ")" := by
  have hspaced : " !(" ++ src ++ ") " = " " ++ ("!(" ++ src ++ ")") ++ " " := by
    rw [← String.toList_inj]
    simp
  have hself : ("!(" ++ src ++ ")").toList = '!' :: (('(' :: src.toList) ++ [')']) := by simp
  rw [hspaced, Text.trim_spaced, Text.trim, hself, Text.trimChars_eq_self (by decide) (by decide), ← hself, String.ofList_toList]

/-- Between blanks, a text without a closing pair can stand in a fragment, and so can the negation of it. -/
theorem FragmentText.of_free {e : String} (h : ¬['\x7d', '\x7d'] <:+: e.toList) :
    FragmentText (" " ++ e ++ " ") ∧ FragmentText (" !(" ++ e ++ ") ") := by
  have hend : ¬['\x7d', '\x7d'] <:+: [' ', '\x7d'] := by decide
  have hcondition := Template.no_pair_between (s := []) (x := ' ') (by decide) (by decide)
    (Template.no_pair_between (x := ' ') (by decide) h (by decide : ¬['\x7d', '\x7d'] <:+: ['\x7d']))
  have hnegation := Template.no_pair_between (s := [' ', '!']) (x := '(') (by decide) (by decide)
    (Template.no_pair_between (x := ')') (by decide) h hend)
  exact ⟨by simpa [FragmentText] using hcondition, by simpa [FragmentText] using hnegation⟩

/-- A condition and its negation do not hold together, and neither do the steps with these conditions run together. One of the two holds
unless the value is a text that reads `false`. -/
theorem Source.one_of_complements_holds {e : String} (hfree : ¬['\x7d', '\x7d'] <:+: e.toList)
    (hcondition : (Source.ofString (fragment (" " ++ e ++ " "))).validate = .ok ())
    (hnegation : (Source.ofString (fragment (" !(" ++ e ++ ") "))).validate = .ok ()) (scope : Scope) :
    ∃ v p n, (Source.ofString (fragment (" " ++ e ++ " "))).evaluate scope = .ok v ∧
      (Source.ofString (fragment (" " ++ e ++ " "))).holds scope = .ok p ∧
      (Source.ofString (fragment (" !(" ++ e ++ ") "))).holds scope = .ok n ∧
      n = !Value.truthy v ∧ ¬(p = true ∧ n = true) ∧ ((p = true ∨ n = true) ↔ ¬Value.ReadsFalse v) ∧
      ∀ s t : Step, s.condition = some (fragment (" " ++ e ++ " ")) → t.condition = some (fragment (" !(" ++ e ++ ") ")) →
        s.admits scope = .ok p ∧ t.admits scope = .ok n := by
  obtain ⟨hinner, hinner'⟩ := FragmentText.of_free hfree
  obtain ⟨x, hx⟩ := (validate_fragment hinner).mp hcondition
  obtain ⟨y, hy⟩ := (validate_fragment hinner').mp hnegation
  rw [Text.trim_spaced] at hx
  rw [Text.trim_negation] at hy
  obtain rfl := Expr.parse_negation hx hy
  have hvalue : (Source.ofString (fragment (" " ++ e ++ " "))).evaluate scope = .ok (x.eval scope) := by
    rw [evaluate_fragment hinner, Text.trim_spaced, hx]
    rfl
  have hholds : (Source.ofString (fragment (" " ++ e ++ " "))).holds scope = .ok (accepts (x.eval scope)) := by
    rw [holds, hvalue]
    rfl
  have hholds' : (Source.ofString (fragment (" !(" ++ e ++ ") "))).holds scope = .ok (!Value.truthy (x.eval scope)) := by
    rw [holds, evaluate_fragment hinner', Text.trim_negation, hy]
    rfl
  refine ⟨x.eval scope, accepts (x.eval scope), !Value.truthy (x.eval scope), hvalue, hholds, hholds', rfl, ?_, ?_, ?_⟩
  · rintro ⟨hp, hn⟩
    have htrue := (accepts_eq_true.mp hp).1
    rw [htrue] at hn
    cases hn
  · constructor
    · rintro (hp | hn)
      · exact (accepts_eq_true.mp hp).2
      · intro hfalse
        rw [hfalse.truthy] at hn
        cases hn
    · intro hfalse
      cases htrue : Value.truthy (x.eval scope) with
      | true => exact Or.inl (accepts_eq_true.mpr ⟨htrue, hfalse⟩)
      | false => exact Or.inr rfl
  · intro s t hs ht
    simp [Step.admits, hs, ht, hholds, hholds', Except.mapError]

/-- A name as a condition and negated: with a text for its value, the condition holds. -/
theorem Source.one_of_complements_holds_of_name : ∃ v p n,
    (Source.ofString (fragment " x ")).evaluate (Scope.ofValue (.obj [("x", .str "no")])) = .ok v ∧
      (Source.ofString (fragment " x ")).holds (Scope.ofValue (.obj [("x", .str "no")])) = .ok p ∧
      (Source.ofString (fragment " !(x) ")).holds (Scope.ofValue (.obj [("x", .str "no")])) = .ok n ∧
      n = !Value.truthy v ∧ ¬(p = true ∧ n = true) ∧ (p = true ∨ n = true) := by
  obtain ⟨v, p, n, hv, hp, hn, heq, hboth, hone, -⟩ := Source.one_of_complements_holds (e := "x") (by decide)
    (by cbv) (by cbv) (Scope.ofValue (.obj [("x", .str "no")]))
  have hvalue : (Source.ofString (fragment " x ")).evaluate (Scope.ofValue (.obj [("x", .str "no")])) = .ok (some (.str "no")) := by cbv
  refine ⟨v, p, n, hv, hp, hn, heq, hboth, hone.mpr ?_⟩
  obtain rfl := Except.ok.inj (hvalue.symm.trans hv)
  rintro ⟨_, ⟨⟩, hfalse⟩
  exact absurd hfalse (by decide)

/-- With a text that reads `false` for its value, neither the name nor its negation holds as a condition. -/
theorem Source.neither_of_false_text :
    (Source.ofString (fragment " x ")).validate = .ok () ∧ (Source.ofString (fragment " !(x) ")).validate = .ok () ∧
      (Source.ofString (fragment " x ")).holds (Scope.ofValue (.obj [("x", .str "false")])) = .ok false ∧
      (Source.ofString (fragment " !(x) ")).holds (Scope.ofValue (.obj [("x", .str "false")])) = .ok false :=
  ⟨by cbv, by cbv, by cbv, by cbv⟩

end Runbook
