import Runbook.Proofs.Fragments
import Runbook.Proofs.Nesting

/-!
# Tokens of texts one behind the other

A text that tokenizes has the same tokens wherever it begins and whatever is behind it, as long as this does not go on with the last of
them. So the tokens of two texts, one behind the other, are those of the one and then those of the other.
-/

namespace Runbook.Lexer

/-- What is behind a token begins with nothing that a token can go on with. -/
def Breaks (more : List Char) : Prop := ∀ c ∈ more.head?, isNameChar c = false ∧ c ∉ ['.', '=', '|', '&']

theorem breaks_closeParen (more : List Char) : Breaks (')' :: more) := by
  rintro _ ⟨⟩
  decide

/-- A blank is no part of a name or of an operator. -/
theorem isNameChar_of_isBlank {c : Char} (h : Text.isBlank c = true) : isNameChar c = false ∧ c ∉ ['.', '=', '|', '&'] := by
  constructor
  · by_contra hname
    simp only [isNameChar, Char.isAlphanum, Char.isAlpha, Char.isUpper, Char.isLower, Char.isDigit, Bool.not_eq_false, Bool.or_eq_true,
      Bool.and_eq_true, decide_eq_true_eq, ge_iff_le, UInt32.le_iff_toNat_le] at hname
    change ((((((65 ≤ c.toNat ∧ c.toNat ≤ 90) ∨ (97 ≤ c.toNat ∧ c.toNat ≤ 122)) ∨ (48 ≤ c.toNat ∧ c.toNat ≤ 57)) ∨
      c = '_') ∨ c = '$') ∨ c = '-') at hname
    simp only [Text.isBlank, Bool.or_eq_true, Bool.and_eq_true, decide_eq_true_eq, beq_iff_eq] at h
    rcases hname with ((hname | rfl) | rfl) | rfl
    · omega
    · exact absurd h (by decide)
    · exact absurd h (by decide)
    · exact absurd h (by decide)
  · intro hmem
    simp only [List.mem_cons, List.not_mem_nil, or_false] at hmem
    rcases hmem with rfl | rfl | rfl | rfl <;> exact absurd h (by decide)

/-- Blanks end the token before them if what follows does. -/
theorem breaks_blank {w more : List Char} (hw : Text.Blank w) (hmore : Breaks more) : Breaks (w ++ more) := by
  cases w with
  | nil => exact hmore
  | cons c w =>
    rintro _ ⟨⟩
    exact isNameChar_of_isBlank (hw c List.mem_cons_self)

namespace Breaks

variable {more : List Char}

/-- What ends a token begins with no digit. -/
theorem isDigit (h : Breaks more) : ∀ c ∈ more.head?, c.isDigit = false := by
  intro c hc
  have hname := (h c hc).1
  simp only [isNameChar, Char.isAlphanum, Bool.or_eq_false_iff] at hname
  exact hname.1.1.1.2

/-- The first characters that pass a test are those of the first text if what is behind it begins with none. -/
theorem takeWhile {p : Char → Bool} (h : ∀ c ∈ more.head?, p c = false) (s : List Char) :
    (s ++ more).takeWhile p = s.takeWhile p ∧ (s ++ more).dropWhile p = s.dropWhile p ++ more := by
  induction s with
  | nil =>
    cases more with
    | nil => exact ⟨rfl, rfl⟩
    | cons c more => simp [h c rfl]
  | cons c s ih =>
    cases hc : p c with
    | true => simpa [hc] using ih
    | false => simp [hc]

end Breaks

/-! ## One token -/

/-- What is behind a text does not make it begin with anything that it would have to go on with. -/
theorem isPrefixOf_append {p more : List Char} (h : ∀ c ∈ more.head?, c ∉ p) (s : List Char) :
    p.isPrefixOf (s ++ more) = p.isPrefixOf s := by
  induction p generalizing s with
  | nil => rfl
  | cons a p ih =>
    cases s with
    | cons b s => simp [List.isPrefixOf, ih fun c hc hmem => h c hc (List.mem_cons_of_mem _ hmem)]
    | nil =>
      cases more with
      | nil => rfl
      | cons b more =>
        have hne : a ≠ b := fun heq => h b rfl (heq ▸ List.mem_cons_self)
        simp [List.isPrefixOf, hne]

/-- The closing quote is found whatever is behind it. -/
theorem quoted?_append {quote : Char} (hquote : quote ≠ '\\') {s text : List Char} {n : Nat} (h : quoted? quote s = some (text, n))
    (more : List Char) : quoted? quote (s ++ more) = some (text, n) ∧ n ≤ s.length := by
  fun_induction quoted? quote s generalizing text n with
  | case1 => cases h
  | case2 c rest ih =>
    obtain ⟨⟨text', n'⟩, hrest, heq⟩ := Option.map_eq_some_iff.mp h
    obtain ⟨rfl, rfl⟩ := Prod.mk.inj heq
    obtain ⟨hmore, hle⟩ := ih hrest
    rw [List.cons_append, List.cons_append, quoted?, hmore]
    exact ⟨rfl, by simpa using hle⟩
  | case3 rest hescape =>
    obtain ⟨rfl, rfl⟩ := Prod.mk.inj (Option.some.inj h)
    rw [List.cons_append, quoted?.eq_3 _ _ _ (by rintro c' rest' rfl; exact absurd rfl hquote), if_pos rfl]
    exact ⟨rfl, by simp⟩
  | case4 => cases h
  | case5 c rest hescape hne hbackslash ih =>
    obtain ⟨⟨text', n'⟩, hrest, heq⟩ := Option.map_eq_some_iff.mp h
    obtain ⟨rfl, rfl⟩ := Prod.mk.inj heq
    obtain ⟨hmore, hle⟩ := ih hrest
    rw [List.cons_append, quoted?.eq_3 _ _ _ (by rintro c' rest' rfl; exact absurd rfl hbackslash), if_neg hne, if_neg hbackslash, hmore]
    exact ⟨rfl, by simpa using hle⟩

/-- A symbol is not longer than the text that it is read from. -/
theorem length_symbol_le {c : Char} {s : List Char} {symbol : Symbol} (h : symbol? (c :: s) = some symbol) :
    symbol.spelling.length - 1 ≤ s.length := by
  rw [symbol?] at h
  have hprefix := List.find?_some h
  have hlength := (List.isPrefixOf_iff_prefix.mp hprefix).length_le
  simpa using hlength

/-- A point and the digits behind it are part of the text. -/
theorem length_fraction_le (s : List Char) : (if (fraction s).isEmpty then 0 else (fraction s).length + 1) ≤ s.length := by
  unfold fraction
  split
  · rename_i r
    have hle := (List.takeWhile_prefix (p := Char.isDigit) (l := r)).length_le
    split
    · exact Nat.zero_le _
    · exact Nat.succ_le_succ hle
  · exact Nat.zero_le _

section

variable {c : Char} {s more : List Char} (hmore : Breaks more)

include hmore

/-- The symbol at the beginning of a text does not depend on what follows the text. -/
theorem symbol?_append : symbol? (c :: (s ++ more)) = symbol? (c :: s) := by
  unfold symbol?
  refine List.find?_congr fun symbol _ => ?_
  have htail : ∀ c ∈ more.head?, c ∉ symbol.spelling.tail := by
    intro c hc hmem
    have hbreaks := (hmore c hc).2
    cases symbol <;> simp_all [Symbol.spelling]
  cases hspelling : symbol.spelling with
  | nil => rfl
  | cons a p =>
    rw [List.isPrefixOf, List.isPrefixOf, isPrefixOf_append (by rwa [hspelling] at htail)]

/-- The fraction at the beginning of a text does not depend on what follows the text. -/
theorem fraction_append : fraction (s ++ more) = fraction s := by
  cases s with
  | cons a s =>
    unfold fraction
    split
    · rename_i r heq
      obtain ⟨rfl, rfl⟩ := List.cons.inj heq
      exact ((Breaks.takeWhile hmore.isDigit s).1)
    · rename_i hpoint
      split
      · rename_i r heq
        obtain ⟨rfl, rfl⟩ := List.cons.inj heq
        exact absurd rfl (hpoint (s ++ more))
      · rfl
  | nil =>
    cases more with
    | nil => rfl
    | cons a more =>
      have hpoint : a ≠ '.' := fun heq => (hmore a rfl).2 (heq ▸ List.mem_cons_self)
      unfold fraction
      split
      · rename_i r heq
        exact absurd (List.cons.inj heq).1 hpoint
      · rfl

/-- The token at the beginning of a text is there whatever is behind the text. -/
theorem lexeme_append {token : Token} {n : Nat} (h : lexeme c s = .ok (token, n)) :
    lexeme c (s ++ more) = .ok (token, n) ∧ n ≤ s.length := by
  have hdigits := Breaks.takeWhile hmore.isDigit s
  have hname := Breaks.takeWhile (fun c hc => (hmore c hc).1) s
  unfold lexeme at h ⊢
  rw [symbol?_append hmore, hdigits.1, hdigits.2, hname.1, fraction_append hmore]
  cases hsymbol : symbol? (c :: s) with
  | some symbol =>
    rw [hsymbol] at h
    obtain ⟨rfl, rfl⟩ := Prod.mk.inj (Except.ok.inj h)
    exact ⟨rfl, length_symbol_le hsymbol⟩
  | none =>
    rw [hsymbol] at h
    dsimp only at h ⊢
    by_cases hquote : (decide (c = '\'') || decide (c = '"')) = true
    · rw [if_pos hquote] at h ⊢
      have hescape : c ≠ '\\' := by
        rintro rfl
        exact absurd hquote (by decide)
      cases hquoted : quoted? c s with
      | none =>
        rw [hquoted] at h
        cases h
      | some found =>
        obtain ⟨text, width⟩ := found
        rw [hquoted] at h
        obtain ⟨happend, hle⟩ := quoted?_append hescape hquoted more
        rw [happend]
        obtain ⟨-, rfl⟩ := Prod.mk.inj (Except.ok.inj h)
        exact ⟨h, hle⟩
    · rw [if_neg hquote] at h ⊢
      refine ⟨h, ?_⟩
      split at h
      · split at h
        · obtain ⟨-, rfl⟩ := Prod.mk.inj (Except.ok.inj h)
          have hle := length_fraction_le (s.dropWhile Char.isDigit)
          have hsplit := congrArg List.length (List.takeWhile_append_dropWhile (p := Char.isDigit) (l := s))
          rw [List.length_append] at hsplit
          omega
        · cases h
      · split at h
        · obtain ⟨-, rfl⟩ := Prod.mk.inj (Except.ok.inj h)
          exact (List.takeWhile_prefix isNameChar).length_le
        · split at h
          · cases h
          · split at h
            · cases h
            · cases h

end

/-! ## All tokens -/

/-- Wherever a text begins, its tokens are these words. -/
def Lexes (s : List Char) (ws : List Token) : Prop := ∀ offset, ∃ ts, tokensFrom offset s = .ok ts ∧ words ts = ws

theorem lexes_nil : Lexes [] [] := fun offset => ⟨[], by rw [tokensFrom], rfl⟩

/-- Blanks before a text have no tokens. -/
theorem lexes_blank {w s : List Char} {ws : List Token} (hw : Text.Blank w) (h : Lexes s ws) : Lexes (w ++ s) ws := by
  intro offset
  induction w generalizing offset with
  | nil => exact h offset
  | cons c w ih =>
    obtain ⟨ts, hts, hws⟩ := ih (fun c hc => hw c (List.mem_cons_of_mem _ hc)) (offset + c.utf8Size)
    exact ⟨ts, by rw [List.cons_append, tokensFrom, if_pos (hw c List.mem_cons_self), hts], hws⟩

/-- A token that ends where a text begins. -/
theorem lexes_token {c : Char} {spelling s : List Char} {token : Token} {ws : List Token} (hblank : Text.isBlank c = false)
    (hlexeme : lexeme c (spelling ++ s) = .ok (token, spelling.length)) (h : Lexes s ws) :
    Lexes (c :: (spelling ++ s)) (token :: ws) := by
  intro offset
  obtain ⟨ts, hts, hws⟩ := h (offset + Text.byteLength (c :: spelling))
  refine ⟨⟨token, offset⟩ :: ts, tokensFrom_lexeme hblank hlexeme ?_, by rw [words_cons, hws]⟩
  rw [List.take_left, List.drop_left, hts]

/-- A character may be a token by itself. -/
theorem lexes_symbol {c : Char} {s : List Char} {token : Token} {ws : List Token} (hblank : Text.isBlank c = false)
    (hlexeme : lexeme c s = .ok (token, 0)) (h : Lexes s ws) : Lexes (c :: s) (token :: ws) := by
  have htoken : Lexes (c :: ([] ++ s)) (token :: ws) := lexes_token hblank hlexeme h
  exact htoken

/-- The tokens of two texts are those of the one and then those of the other. -/
theorem lexes_append {offset : Nat} {s more : List Char} {ts : List Spanned} {ws : List Token} (h : tokensFrom offset s = .ok ts)
    (hmore : Breaks more) (hws : Lexes more ws) : Lexes (s ++ more) (words ts ++ ws) := by
  fun_induction tokensFrom offset s generalizing ts with
  | case1 =>
    obtain rfl := Except.ok.inj h
    exact hws
  | case2 offset c rest hblank ih => exact lexes_blank (w := [c]) (by simpa [Text.Blank] using hblank) (ih h)
  | case3 => cases h
  | case4 offset c rest hblank token n hlexeme tokens htokens ih =>
    obtain rfl := Except.ok.inj h
    obtain ⟨happend, hle⟩ := lexeme_append hmore hlexeme
    have hlength : (rest.take n).length = n := List.length_take_of_le hle
    have hsplit : rest ++ more = rest.take n ++ (rest.drop n ++ more) := by rw [← List.append_assoc, List.take_append_drop]
    rw [List.cons_append, hsplit]
    refine lexes_token (by simpa using hblank) ?_ (ih htokens)
    rw [← hsplit, happend, hlength]
  | case5 => cases h

end Runbook.Lexer

namespace Runbook

/-- The tokens of an expression are those of its text from the beginning. -/
theorem tokenize_eq_ok {src : String} {ts : List Spanned} : tokenize src = .ok ts ↔ Lexer.tokensFrom 0 src.toList = .ok ts := by
  unfold tokenize
  cases Lexer.tokensFrom 0 src.toList with
  | error flaw => exact ⟨nofun, nofun⟩
  | ok ts' => simp [Except.mapError]

end Runbook
