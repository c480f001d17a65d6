import Runbook.Proofs.Embedding
import Runbook.Proofs.Numerals

/-!
# Spelling and tokenizing

Tokens spelled one after the other, with blanks between them, are read back, each where its spelling begins. Every text that has tokens is
made of pieces like this, though the gaps between them may be empty: nothing but blanks stands outside of the pieces, and each of them has
its own token when it is read alone.
-/

namespace Runbook

namespace Lexer

/-! ## Tokens that are read alone -/

/-- A token is all of a text: the text begins with no blank and the token takes all of it. -/
def Reads (token : Token) (text : List Char) : Prop :=
  ∃ c s, text = c :: s ∧ Text.isBlank c = false ∧ lexeme c s = .ok (token, s.length)

/-- No token is read from nothing. -/
theorem Reads.ne_nil {token : Token} {text : List Char} (h : Reads token text) : text ≠ [] := by
  obtain ⟨c, s, rfl, -⟩ := h
  exact List.cons_ne_nil c s

/-- A token is read wherever it stands, and then what is behind it. -/
theorem tokensFrom_append {token : Token} {text rest : List Char} {gap : List Char} {offset : Nat} {ts : List Spanned}
    (hgap : Text.Blank gap) (h : Reads token text) (hrest : Breaks rest)
    (hts : tokensFrom (offset + Text.byteLength gap + Text.byteLength text) rest = .ok ts) :
    tokensFrom offset (gap ++ (text ++ rest)) = .ok (⟨token, offset + Text.byteLength gap⟩ :: ts) := by
  obtain ⟨c, s, rfl, hblank, hlexeme⟩ := h
  rw [tokensFrom_blank hgap, List.cons_append]
  refine tokensFrom_lexeme hblank (lexeme_append hrest hlexeme).1 ?_
  rw [List.take_left, List.drop_left, hts]

/-- The text of a token is tokenized to this token. -/
theorem Reads.tokenize {token : Token} {text : List Char} (h : Reads token text) :
    tokenize (String.ofList text) = .ok [⟨token, 0⟩] := by
  have hend : Breaks [] := nofun
  have halone : tokensFrom 0 ([] ++ (text ++ [])) = .ok [⟨token, 0 + Text.byteLength []⟩] :=
    tokensFrom_append nofun h hend (by rw [tokensFrom])
  rw [tokenize_eq_ok, String.toList_ofList]
  simpa using halone

/-! ## Spellings -/

/-- A character of a text between quotes: a backslash stands before the quote and before a backslash. -/
def escape (quote c : Char) : List Char := if c = quote ∨ c = '\\' then ['\\', c] else [c]

/-- How a token may be spelled: names and symbols as they are, integers of 63 bits in decimal, and texts in quotes of either kind. -/
inductive Spells : Token → List Char → Prop
  | name {c : Char} {s : List Char} (hc : isNameStart c = true) (hs : ∀ d ∈ s, isNameChar d = true) :
      Spells (.ident (String.ofList (c :: s))) (c :: s)
  | integer {n : Nat} (hn : n < 2 ^ 63) : Spells (.number (.int n)) (Nat.toDigits 10 n)
  | text {quote : Char} (hquote : quote = '\'' ∨ quote = '"') (s : String) :
      Spells (.text s) (quote :: (s.toList.flatMap (escape quote) ++ [quote]))
  | symbol (s : Symbol) : Spells (.symbol s) s.spelling

/-- What a name may start with may be in one. -/
theorem isNameChar_of_isNameStart {c : Char} (h : isNameStart c = true) : isNameChar c = true := by
  simp only [isNameStart, Bool.or_eq_true] at h
  simp only [isNameChar, Char.isAlphanum, Bool.or_eq_true]
  rcases h with (h | h) | h
  · exact .inl (.inl (.inl (.inl h)))
  · exact .inl (.inl (.inr h))
  · exact .inl (.inr h)

/-- A digit may be in a name. -/
theorem isNameChar_of_isDigit {c : Char} (h : c.isDigit = true) : isNameChar c = true := by
  simp [isNameChar, Char.isAlphanum, h]

/-- No name starts with a digit. -/
theorem not_isDigit_of_isNameStart {c : Char} (h : isNameStart c = true) : c.isDigit = false := by
  by_contra hdigit
  simp only [isNameStart, Char.isAlpha, Char.isUpper, Char.isLower, Bool.or_eq_true, Bool.and_eq_true, decide_eq_true_eq, ge_iff_le,
    UInt32.le_iff_toNat_le] at h
  simp only [Char.isDigit, Bool.not_eq_false, Bool.and_eq_true, decide_eq_true_eq, ge_iff_le, UInt32.le_iff_toNat_le] at hdigit
  change (((65 ≤ c.toNat ∧ c.toNat ≤ 90) ∨ (97 ≤ c.toNat ∧ c.toNat ≤ 122)) ∨ c = '_') ∨ c = '$' at h
  change 48 ≤ c.toNat ∧ c.toNat ≤ 57 at hdigit
  rcases h with (h | rfl) | rfl
  · omega
  · exact absurd hdigit (by decide)
  · exact absurd hdigit (by decide)

/-- No quote may be in a name. -/
theorem not_quote_of_isNameChar {c : Char} (h : isNameChar c = true) : (decide (c = '\'') || decide (c = '"')) = false := by
  by_contra hquote
  rw [Bool.not_eq_false, Bool.or_eq_true, decide_eq_true_iff, decide_eq_true_iff] at hquote
  rcases hquote with rfl | rfl <;> cases h

/-- No blank may be in a name. -/
theorem not_isBlank_of_isNameChar {c : Char} (h : isNameChar c = true) : Text.isBlank c = false := by
  cases hblank : Text.isBlank c with
  | false => rfl
  | true => exact absurd h (Bool.eq_false_iff.mp (isNameChar_of_isBlank hblank).1)

/-- No symbol begins with a letter or a digit. -/
theorem symbol?_eq_none {c : Char} (h : isNameStart c = true ∨ c.isDigit = true) (s : List Char) : symbol? (c :: s) = none := by
  rw [symbol?, List.find?_eq_none]
  intro symbol _ hprefix
  obtain ⟨first, tail, hspelling, hname, hdigit⟩ : ∃ first tail, symbol.spelling = first :: tail ∧
      isNameStart first = false ∧ first.isDigit = false := by
    cases symbol <;> exact ⟨_, _, rfl, rfl, rfl⟩
  rw [hspelling] at hprefix
  obtain ⟨rfl, -⟩ := List.cons_prefix_cons.mp (List.isPrefixOf_iff_prefix.mp hprefix)
  rw [hname, hdigit] at h
  rcases h with h | h <;> cases h

/-- A name is read as itself. -/
theorem reads_name {c : Char} {s : List Char} (hc : isNameStart c = true) (hs : ∀ d ∈ s, isNameChar d = true) :
    Reads (.ident (String.ofList (c :: s))) (c :: s) := by
  have hchar := isNameChar_of_isNameStart hc
  refine ⟨c, s, rfl, not_isBlank_of_isNameChar hchar, ?_⟩
  rw [lexeme, symbol?_eq_none (.inl hc)]
  simp only [not_quote_of_isNameChar hchar, not_isDigit_of_isNameStart hc, hc, if_true, Bool.false_eq_true, if_false]
  rw [List.takeWhile_eq_self_iff.mpr hs]

/-- A fraction is read back from its text. -/
theorem fraction_fractionText {places : List Char} (h : Decimal.Digits places) : fraction (Json.fractionText places) = places := by
  cases places with
  | nil => rfl
  | cons d ds => exact List.takeWhile_eq_self_iff.mpr h

/-- A fraction takes its digits and a point. -/
theorem length_fractionText (places : List Char) :
    (Json.fractionText places).length = if places.isEmpty then 0 else places.length + 1 := by
  cases places <;> rfl

/-- Digits, and a point with digits behind it if there are any, are one numeral. -/
theorem reads_number {c : Char} {digits places : List Char} {n : Number} (hc : c.isDigit = true) (hdigits : Decimal.Digits digits)
    (hplaces : Decimal.Digits places) (hn : numberOf? (c :: digits) places = some n) :
    Reads (.number n) (c :: (digits ++ Json.fractionText places)) := by
  have hchar := isNameChar_of_isDigit hc
  have hpoint : ∀ d ∈ (Json.fractionText places).head?, d.isDigit = false := by
    cases places with
    | nil => nofun
    | cons d ds =>
      rintro _ ⟨⟩
      rfl
  obtain ⟨htake, hdrop⟩ := Breaks.takeWhile hpoint digits
  rw [List.takeWhile_eq_self_iff.mpr hdigits] at htake
  rw [List.dropWhile_eq_nil_iff.mpr hdigits, List.nil_append] at hdrop
  refine ⟨c, _, rfl, not_isBlank_of_isNameChar hchar, ?_⟩
  rw [lexeme, symbol?_eq_none (.inr hc)]
  simp only [not_quote_of_isNameChar hchar, hc, if_true, Bool.false_eq_true, if_false]
  rw [htake, hdrop, fraction_fractionText hplaces, hn, List.length_append, length_fractionText]

/-- A whole number in range is read as itself. -/
theorem reads_integer {n : Nat} (hn : n < 2 ^ 63) : Reads (.number (.int n)) (Nat.toDigits 10 n) := by
  have hdigits := Decimal.digits_toDigits n
  have hvalue := Decimal.natOfDigits_toDigits n
  obtain ⟨c, s, htext⟩ := List.exists_cons_of_ne_nil (Nat.toDigits_ne_nil (b := 10) (n := n))
  rw [htext] at hdigits hvalue ⊢
  have hnumber : numberOf? (c :: s) [] = some (.int n) := by
    rw [numberOf?, hvalue]
    simp [hn]
  have hreads := reads_number (hdigits c List.mem_cons_self) (fun d hd => hdigits d (List.mem_cons_of_mem _ hd)) Decimal.digits_nil hnumber
  rwa [Json.fractionText, List.append_nil] at hreads

/-- A text between quotes ends at the first quote without a backslash. -/
theorem quoted?_escape {quote : Char} (hquote : quote = '\'' ∨ quote = '"') (s : List Char) :
    quoted? quote (s.flatMap (escape quote) ++ [quote]) = some (s, (s.flatMap (escape quote) ++ [quote]).length) := by
  have hbackslash : quote ≠ '\\' := by rcases hquote with rfl | rfl <;> decide
  induction s with
  | nil =>
    rw [List.flatMap_nil, List.nil_append, quoted?.eq_3 _ _ _ (by rintro c rest rfl; exact absurd rfl hbackslash), if_pos rfl]
    rfl
  | cons c s ih =>
    rw [List.flatMap_cons, List.append_assoc, escape]
    split
    · rename_i hescape
      have hself : unescape c = c := by
        rcases hescape with rfl | rfl
        · rcases hquote with rfl | rfl <;> rfl
        · rfl
      rw [List.cons_append, List.singleton_append, quoted?, ih, hself]
      rfl
    · rename_i hplain
      obtain ⟨hc, hc'⟩ := not_or.mp hplain
      rw [List.singleton_append, quoted?.eq_3 _ _ _ (by rintro d rest rfl; exact absurd rfl hc'), if_neg hc, if_neg hc', ih]
      rfl

/-- A quoted text is read as what is between the quotes. -/
theorem reads_quoted {quote : Char} (hquote : quote = '\'' ∨ quote = '"') {s text : List Char}
    (h : quoted? quote s = some (text, s.length)) : Reads (.text (String.ofList text)) (quote :: s) := by
  refine ⟨quote, s, rfl, by rcases hquote with rfl | rfl <;> decide, ?_⟩
  rw [lexeme_quote hquote, h]

/-- A symbol is read from its spelling. -/
theorem reads_symbol (s : Symbol) : Reads (.symbol s) s.spelling := by
  cases s <;> exact ⟨_, _, rfl, by decide, rfl⟩

/-- A token is read from all that spells it. -/
theorem Spells.reads {token : Token} {text : List Char} (h : Spells token text) : Reads token text := by
  cases h with
  | name hc hs => exact reads_name hc hs
  | integer hn => exact reads_integer hn
  | text hquote s =>
    have hreads := reads_quoted hquote (quoted?_escape hquote s.toList)
    rwa [String.ofList_toList] at hreads
  | symbol s => exact reads_symbol s

/-! ## The text of a token -/

/-- A text between quotes is read from the characters up to the closing quote. -/
theorem exists_quoted? {quote : Char} {s text : List Char} {n : Nat} (h : quoted? quote s = some (text, n)) :
    ∃ inner rest, s = inner ++ rest ∧ inner.length = n ∧ quoted? quote inner = some (text, n) := by
  fun_induction quoted? quote s generalizing text n with
  | case1 => cases h
  | case2 c rest ih =>
    obtain ⟨⟨text', n'⟩, hrest, heq⟩ := Option.map_eq_some_iff.mp h
    obtain ⟨rfl, rfl⟩ := Prod.mk.inj heq
    obtain ⟨inner, behind, rfl, rfl, hinner⟩ := ih hrest
    exact ⟨'\\' :: c :: inner, behind, rfl, rfl, by rw [quoted?, hinner]; rfl⟩
  | case3 rest hescape =>
    obtain ⟨rfl, rfl⟩ := Prod.mk.inj (Option.some.inj h)
    refine ⟨[quote], rest, rfl, rfl, ?_⟩
    rw [quoted?.eq_3 _ _ _ (by rintro c' rest' - h'; cases h'), if_pos rfl]
  | case4 => cases h
  | case5 c rest hescape hne hbackslash ih =>
    obtain ⟨⟨text', n'⟩, hrest, heq⟩ := Option.map_eq_some_iff.mp h
    obtain ⟨rfl, rfl⟩ := Prod.mk.inj heq
    obtain ⟨inner, behind, rfl, rfl, hinner⟩ := ih hrest
    refine ⟨c :: inner, behind, rfl, rfl, ?_⟩
    rw [quoted?.eq_3 _ _ _ (by rintro c' rest' rfl; exact absurd rfl hbackslash), if_neg hne, if_neg hbackslash, hinner]
    rfl

/-- A fraction is a text of digits at the beginning of the rest. -/
theorem exists_fraction (s : List Char) : Decimal.Digits (fraction s) ∧ ∃ rest, s = Json.fractionText (fraction s) ++ rest := by
  unfold fraction
  split
  · rename_i r
    refine ⟨fun c hc => List.mem_takeWhile_imp hc, ?_⟩
    cases hdigits : r.takeWhile Char.isDigit with
    | nil => exact ⟨'.' :: r, rfl⟩
    | cons d ds =>
      refine ⟨r.dropWhile Char.isDigit, ?_⟩
      rw [Json.fractionText, ← hdigits, List.cons_append, List.takeWhile_append_dropWhile]
  · exact ⟨Decimal.digits_nil, s, rfl⟩

/-- The text of a token is the characters that it takes, and it is read alone as well. -/
theorem exists_text {c : Char} {s : List Char} {token : Token} {n : Nat} (hblank : Text.isBlank c = false)
    (h : lexeme c s = .ok (token, n)) :
    ∃ text rest, s = text ++ rest ∧ text.length = n ∧ Reads token (c :: text) := by
  unfold lexeme at h
  split at h
  · rename_i symbol hsymbol
    obtain ⟨rfl, rfl⟩ := Prod.mk.inj (Except.ok.inj h)
    rw [symbol?] at hsymbol
    have hprefix := List.find?_some hsymbol
    obtain ⟨rest, hrest⟩ := List.isPrefixOf_iff_prefix.mp hprefix
    have hreads := reads_symbol symbol
    obtain ⟨first, text, htext⟩ := List.exists_cons_of_ne_nil hreads.ne_nil
    rw [htext] at hrest hreads ⊢
    obtain ⟨rfl, rfl⟩ := List.cons.inj hrest
    exact ⟨text, rest, rfl, rfl, hreads⟩
  · split at h
    · rename_i hquote
      split at h
      · rename_i text width hquoted
        obtain ⟨rfl, rfl⟩ := Prod.mk.inj (Except.ok.inj h)
        obtain ⟨inner, rest, rfl, rfl, hinner⟩ := exists_quoted? hquoted
        exact ⟨inner, rest, rfl, rfl, reads_quoted (by simpa using hquote) hinner⟩
      · cases h
    · dsimp only at h
      split at h
      · rename_i hdigit
        split at h
        · rename_i number hnumber
          obtain ⟨rfl, rfl⟩ := Prod.mk.inj (Except.ok.inj h)
          obtain ⟨hplaces, rest, hrest⟩ := exists_fraction (s.dropWhile Char.isDigit)
          refine ⟨_, rest, ?_, ?_, reads_number hdigit (fun d hd => List.mem_takeWhile_imp hd) hplaces hnumber⟩
          · rw [List.append_assoc, ← hrest, List.takeWhile_append_dropWhile]
          · rw [List.length_append, length_fractionText]
        · cases h
      · split at h
        · rename_i hname
          obtain ⟨rfl, rfl⟩ := Prod.mk.inj (Except.ok.inj h)
          exact ⟨s.takeWhile isNameChar, s.dropWhile isNameChar, List.takeWhile_append_dropWhile.symm, rfl,
            reads_name hname fun d hd => List.mem_takeWhile_imp hd⟩
        · split at h
          · cases h
          · split at h <;> cases h

/-! ## Pieces of a text -/

/-- A token with its spelling, and what stands before it. -/
structure Piece where
  gap : List Char
  text : List Char
  token : Token

/-- The text that is made of pieces, and what is behind the last one. -/
def layout (ps : List Piece) (tail : List Char) : List Char := ps.foldr (fun p s => p.gap ++ (p.text ++ s)) tail

/-- The tokens of pieces, each with the byte offset of its spelling, when the first piece starts at an offset. -/
def placed (offset : Nat) : List Piece → List Spanned
  | [] => []
  | p :: ps =>
    let start := offset + Text.byteLength p.gap
    ⟨p.token, start⟩ :: placed (start + Text.byteLength p.text) ps

/-- Tokens with gaps between them break where they should. -/
theorem breaks_layout {ps : List Piece} {tail : List Char} (hblank : ∀ p ∈ ps, Text.Blank p.gap) (hgap : ∀ p ∈ ps, p.gap ≠ [])
    (htail : Text.Blank tail) : Breaks (layout ps tail) := by
  cases ps with
  | nil => exact fun c hc => isNameChar_of_isBlank (htail c (List.mem_of_mem_head? hc))
  | cons p ps =>
    obtain ⟨c, gap, heq⟩ := List.exists_cons_of_ne_nil (hgap p List.mem_cons_self)
    intro d hd
    rw [layout, List.foldr_cons, heq] at hd
    obtain rfl := Option.some.inj hd
    exact isNameChar_of_isBlank (hblank p List.mem_cons_self _ (heq ▸ List.mem_cons_self))

/-- Pieces with blanks between them are read back. -/
theorem tokensFrom_layout {ps : List Piece} {tail : List Char} (hps : ∀ p ∈ ps, Text.Blank p.gap ∧ Reads p.token p.text)
    (hgaps : ∀ p ∈ ps.tail, p.gap ≠ []) (htail : Text.Blank tail) (offset : Nat) :
    tokensFrom offset (layout ps tail) = .ok (placed offset ps) := by
  induction ps generalizing offset with
  | nil =>
    have hend : tokensFrom offset (tail ++ []) = .ok [] := by
      rw [tokensFrom_blank htail, tokensFrom]
    rwa [List.append_nil] at hend
  | cons p ps ih =>
    obtain ⟨hp, hps⟩ := List.forall_mem_cons.mp hps
    exact tokensFrom_append hp.1 hp.2 (breaks_layout (fun q hq => (hps q hq).1) hgaps htail)
      (ih hps (fun q hq => hgaps q (List.mem_of_mem_tail hq)) _)

/-- A text that has tokens is made of pieces that have these tokens, with nothing but blanks between them. A blank belongs to the gap of the
piece behind it, or to what is behind all of them. -/
theorem exists_layout {offset : Nat} {s : List Char} {ts : List Spanned} (h : tokensFrom offset s = .ok ts) :
    ∃ ps tail, s = layout ps tail ∧ ts = placed offset ps ∧ Text.Blank tail ∧ ∀ p ∈ ps, Text.Blank p.gap ∧ Reads p.token p.text := by
  fun_induction tokensFrom offset s generalizing ts with
  | case1 =>
    obtain rfl := Except.ok.inj h
    exact ⟨[], [], rfl, rfl, List.forall_mem_nil _, List.forall_mem_nil _⟩
  | case2 offset c rest hblank ih =>
    obtain ⟨ps, tail, rfl, rfl, htail, hps⟩ := ih h
    cases ps with
    | nil => exact ⟨[], c :: tail, rfl, rfl, List.forall_mem_cons.mpr ⟨hblank, htail⟩, List.forall_mem_nil _⟩
    | cons p ps =>
      obtain ⟨hp, hps⟩ := List.forall_mem_cons.mp hps
      refine ⟨⟨c :: p.gap, p.text, p.token⟩ :: ps, tail, rfl, ?_, htail,
        List.forall_mem_cons.mpr ⟨⟨List.forall_mem_cons.mpr ⟨hblank, hp.1⟩, hp.2⟩, hps⟩⟩
      simp [placed, Nat.add_assoc]
  | case3 => cases h
  | case4 offset c rest hblank token n hlexeme tokens htokens ih =>
    obtain rfl := Except.ok.inj h
    obtain ⟨text, behind, rfl, rfl, hreads⟩ := exists_text (by simpa using hblank) hlexeme
    obtain ⟨ps, tail, hlayout, rfl, htail, hps⟩ := ih htokens
    rw [List.drop_left] at hlayout
    rw [List.take_left]
    exact ⟨⟨[], c :: text, token⟩ :: ps, tail, by rw [hlayout]; rfl, rfl, htail,
      List.forall_mem_cons.mpr ⟨⟨List.forall_mem_nil _, hreads⟩, hps⟩⟩
  | case5 => cases h

/-- Spellings with blanks between them are read back to the tokens that they spell, each at the byte where its spelling begins. And a text
that has tokens is made of pieces with these tokens, each at the byte where its piece begins: outside of the pieces there are blanks only,
and each of them alone has its token and no other. -/
theorem tokens_spelled :
    (∀ ps tail, (∀ p ∈ ps, Text.Blank p.gap ∧ Spells p.token p.text) → (∀ p ∈ ps.tail, p.gap ≠ []) → Text.Blank tail →
      tokenize (String.ofList (layout ps tail)) = .ok (placed 0 ps)) ∧
    ∀ src ts, tokenize src = .ok ts →
      ∃ ps tail, src.toList = layout ps tail ∧ ts = placed 0 ps ∧ Text.Blank tail ∧
        ∀ p ∈ ps, Text.Blank p.gap ∧ p.text ≠ [] ∧ tokenize (String.ofList p.text) = .ok [⟨p.token, 0⟩] := by
  constructor
  · intro ps tail hps hgaps htail
    rw [tokenize_eq_ok, String.toList_ofList]
    exact tokensFrom_layout (fun p hp => ⟨(hps p hp).1, (hps p hp).2.reads⟩) hgaps htail 0
  · intro src ts h
    obtain ⟨ps, tail, hsrc, hts, htail, hps⟩ := exists_layout (tokenize_eq_ok.mp h)
    exact ⟨ps, tail, hsrc, hts, htail, fun p hp => ⟨(hps p hp).1, (hps p hp).2.ne_nil, (hps p hp).2.tokenize⟩⟩

/-- A text with a quote in it, which takes six bytes, an operator, and a name with a hyphen. -/
theorem tokens_spelled_of_quote :
    tokenize "'é\\'' === x-1\n" = .ok [⟨.text "é'", 0⟩, ⟨.symbol .strictEq, 7⟩, ⟨.ident "x-1", 11⟩] := by
  have htokens := tokens_spelled.1
    [⟨[], '\'' :: ("é'".toList.flatMap (escape '\'') ++ ['\'']), .text "é'"⟩, ⟨[' '], Symbol.strictEq.spelling, .symbol .strictEq⟩,
      ⟨[' '], ['x', '-', '1'], .ident (String.ofList ['x', '-', '1'])⟩] ['\n']
    (by
      simp only [List.forall_mem_cons]
      exact ⟨⟨nofun, .text (.inl rfl) _⟩, ⟨List.forall_mem_singleton.mpr rfl, .symbol _⟩,
        ⟨List.forall_mem_singleton.mpr rfl, .name (by decide) (List.forall_mem_cons.mpr ⟨rfl, List.forall_mem_singleton.mpr rfl⟩)⟩, nofun⟩)
    (by simp) (List.forall_mem_singleton.mpr rfl)
  exact htokens

end Lexer

end Runbook
