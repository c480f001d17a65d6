import Runbook.Proofs.Lexing
import Runbook.Proofs.Refusals
import Runbook.Proofs.Tiling

/-!
# Expressions in a fragment

A closing brace stands nowhere in an expression but in a text between quotes. An expression without a closing pair can therefore be put
into a fragment, and is then the same expression. One with a closing pair is cut off there, inside of the quotes, so that the closing quote
is missing and the fragment is no expression.
-/

namespace Runbook

namespace Lexer

/-! ## Texts that are cut off -/

theorem breaks_closeBrace (more : List Char) : Breaks ('\x7d' :: more) := by
  rintro _ ⟨⟩
  decide

/-- The characters of a text in quotes end with the closing quote. -/
theorem exists_of_quoted? {quote : Char} {s text : List Char} {n : Nat} (h : quoted? quote s = some (text, n)) :
    ∃ before, s.take n = before ++ [quote] := by
  fun_induction quoted? quote s generalizing text n with
  | case1 => cases h
  | case2 c rest ih =>
    obtain ⟨⟨text', n'⟩, hrest, heq⟩ := Option.map_eq_some_iff.mp h
    obtain ⟨rfl, rfl⟩ := Prod.mk.inj heq
    obtain ⟨before, hbefore⟩ := ih hrest
    exact ⟨'\\' :: c :: before, by simp [hbefore]⟩
  | case3 rest hescape =>
    obtain ⟨rfl, rfl⟩ := Prod.mk.inj (Option.some.inj h)
    exact ⟨[], rfl⟩
  | case4 => cases h
  | case5 c rest hescape hne hbackslash ih =>
    obtain ⟨⟨text', n'⟩, hrest, heq⟩ := Option.map_eq_some_iff.mp h
    obtain ⟨rfl, rfl⟩ := Prod.mk.inj heq
    obtain ⟨before, hbefore⟩ := ih hrest
    exact ⟨c :: before, by simp [hbefore]⟩

/-- What is no token is none either with more behind it, except that a missing quote may come. -/
theorem lexeme_error_append {c : Char} {s more : List Char} (hmore : Breaks more) {fault : Fault} (h : lexeme c s = .error fault) :
    fault = .unterminatedText ∨ lexeme c (s ++ more) = .error fault := by
  have hdigits := Breaks.takeWhile hmore.isDigit s
  have hname := Breaks.takeWhile (fun c hc => (hmore c hc).1) s
  unfold lexeme at h ⊢
  rw [symbol?_append hmore, hdigits.1, hdigits.2, hname.1, fraction_append hmore]
  cases hsymbol : symbol? (c :: s) with
  | some symbol =>
    rw [hsymbol] at h
    cases h
  | none =>
    rw [hsymbol] at h
    dsimp only at h ⊢
    by_cases hquote : (decide (c = '\'') || decide (c = '"')) = true
    · rw [if_pos hquote] at h
      cases hquoted : quoted? c s with
      | some found =>
        rw [hquoted] at h
        cases h
      | none =>
        rw [hquoted] at h
        exact Or.inl (Except.error.inj h).symm
    · rw [if_neg hquote] at h ⊢
      exact Or.inr h

/-- A token at the beginning of a text that is cut off stays the same, unless a quote is cut off. -/
theorem lexeme_cut {c : Char} {s more : List Char} (hmore : Breaks more) {token : Token} {n : Nat}
    (h : lexeme c (s ++ more) = .ok (token, n)) :
    lexeme c s = .error .unterminatedText ∨ lexeme c s = .ok (token, n) ∧ n ≤ s.length := by
  cases hs : lexeme c s with
  | error fault =>
    rcases lexeme_error_append hmore hs with rfl | herror
    · exact Or.inl rfl
    · rw [h] at herror
      cases herror
  | ok found =>
    obtain ⟨token', n'⟩ := found
    obtain ⟨happend, hle⟩ := lexeme_append hmore hs
    rw [h] at happend
    obtain ⟨rfl, rfl⟩ := Prod.mk.inj (Except.ok.inj happend)
    exact Or.inr ⟨rfl, hle⟩

/-- A closing quote is missed only behind an opening one. -/
theorem quote_of_unterminated {c : Char} {s : List Char} (h : lexeme c s = .error .unterminatedText) : c = '\'' ∨ c = '"' := by
  unfold lexeme at h
  split at h
  · cases h
  · split at h
    · rename_i hquote
      simpa using hquote
    · dsimp only at h
      split at h
      · split at h <;> cases h
      · split at h
        · cases h
        · split at h
          · cases h
          · split at h <;> cases h

/-- A lexeme that begins with a quote is the text up to the next one. -/
theorem lexeme_quote {c : Char} (hc : c = '\'' ∨ c = '"') (s : List Char) :
    lexeme c s = match quoted? c s with
      | some (text, n) => .ok (.text (String.ofList text), n)
      | none => .error .unterminatedText := by
  rcases hc with rfl | rfl <;> rfl

/-- A token that begins with a quote is a text in quotes. -/
theorem quoted?_of_lexeme {c : Char} {s : List Char} (hc : c = '\'' ∨ c = '"') {token : Token} {n : Nat}
    (h : lexeme c s = .ok (token, n)) : ∃ text, quoted? c s = some (text, n) := by
  rw [lexeme_quote hc] at h
  split at h
  · rename_i text n' hquoted
    obtain ⟨-, rfl⟩ := Prod.mk.inj (Except.ok.inj h)
    exact ⟨text, hquoted⟩
  · cases h

/-- Blanks before a text move its tokens. -/
theorem tokensFrom_blank {w : List Char} (hw : Text.Blank w) (offset : Nat) (s : List Char) :
    tokensFrom offset (w ++ s) = tokensFrom (offset + Text.byteLength w) s := by
  induction w generalizing offset with
  | nil => rfl
  | cons c w ih =>
    rw [List.cons_append, tokensFrom, if_pos (hw c List.mem_cons_self), ih fun c hc => hw c (List.mem_cons_of_mem _ hc),
      Text.byteLength_cons, Nat.add_assoc]

/-- No token begins with a closing brace. -/
theorem lexeme_closeBrace (rest : List Char) : lexeme '\x7d' rest = .error (.unexpectedChar '\x7d') := rfl

/-- A token of a text with a closing brace somewhere behind it ends before the blanks before the brace, or is cut off with a quote. -/
theorem lexeme_before_closeBrace {c : Char} {p w r : List Char} (hw : Text.Blank w) {token : Token} {n : Nat}
    (h : lexeme c (p ++ (w ++ '\x7d' :: r)) = .ok (token, n)) :
    lexeme c p = .error .unterminatedText ∨ lexeme c p = .ok (token, n) ∧ n ≤ p.length :=
  lexeme_cut (breaks_blank hw (breaks_closeBrace r)) h

/-- Before any closing brace of a text with tokens a closing quote is missing, wherever the text begins: a brace with nothing but blanks
before it is no token. -/
theorem unterminated_of_tokensFrom {offset : Nat} {p w r : List Char} (hw : Text.Blank w) {ts : List Spanned}
    (h : tokensFrom offset (p ++ (w ++ '\x7d' :: r)) = .ok ts) (start : Nat) :
    ∃ o, tokensFrom start p = .error (.fault o .unterminatedText) := by
  generalize hs : p ++ (w ++ '\x7d' :: r) = s at h
  fun_induction tokensFrom offset s generalizing p w ts start with
  | case1 => simp at hs
  | case2 offset c rest hblank ih =>
    cases p with
    | cons a p =>
      obtain ⟨rfl, hrest⟩ := List.cons.inj hs
      rw [tokensFrom, if_pos hblank]
      exact ih hw (start + a.utf8Size) hrest h
    | nil =>
      cases w with
      | nil =>
        obtain ⟨rfl, -⟩ := List.cons.inj hs
        cases hblank
      | cons b w =>
        obtain ⟨o, ho⟩ := ih (p := []) (fun c hc => hw c (List.mem_cons_of_mem _ hc)) start (List.cons.inj hs).2 h
        rw [tokensFrom] at ho
        cases ho
  | case3 => cases h
  | case4 offset c rest hblank token n hlexeme tokens htokens ih =>
    cases p with
    | cons a p =>
      rw [List.cons_append] at hs
      obtain ⟨rfl, rfl⟩ := List.cons.inj hs
      rcases lexeme_before_closeBrace hw hlexeme with hcut | ⟨hself, hle⟩
      · exact ⟨start, by rw [tokensFrom, if_neg hblank, hcut]⟩
      · rw [List.drop_append_of_le_length hle] at htokens ih
        obtain ⟨o, ho⟩ := ih hw (start + Text.byteLength (a :: p.take n)) rfl htokens
        exact ⟨o, by rw [tokensFrom, if_neg hblank, hself]; simp only [ho]⟩
    | nil =>
      cases w with
      | nil =>
        obtain ⟨rfl, rfl⟩ := List.cons.inj hs
        rw [lexeme_closeBrace] at hlexeme
        cases hlexeme
      | cons b w =>
        obtain ⟨rfl, -⟩ := List.cons.inj hs
        exact absurd (hw b List.mem_cons_self) hblank
  | case5 => cases h

/-- A text with tokens does not end with a closing brace: its last token would be a text that ends with this and not with a quote. -/
theorem not_closeBrace_last {offset : Nat} {p : List Char} {ts : List Spanned} : tokensFrom offset (p ++ ['\x7d']) ≠ .ok ts := by
  intro h
  generalize hs : p ++ ['\x7d'] = s at h
  fun_induction tokensFrom offset s generalizing p ts with
  | case1 => simp at hs
  | case2 offset c rest hblank ih =>
    cases p with
    | nil =>
      obtain ⟨rfl, -⟩ := List.cons.inj hs
      cases hblank
    | cons a p => exact ih (List.cons.inj hs).2 h
  | case3 => cases h
  | case4 offset c rest hblank token n hlexeme tokens htokens ih =>
    cases p with
    | nil =>
      obtain ⟨rfl, rfl⟩ := List.cons.inj hs
      rw [lexeme_closeBrace] at hlexeme
      cases hlexeme
    | cons a p =>
      rw [List.cons_append] at hs
      obtain ⟨rfl, rfl⟩ := List.cons.inj hs
      by_cases hle : n ≤ p.length
      · exact ih (List.drop_append_of_le_length hle).symm htokens
      · rcases lexeme_cut (breaks_closeBrace []) hlexeme with hcut | ⟨-, hle'⟩
        · have hquote := quote_of_unterminated hcut
          obtain ⟨text, htext⟩ := quoted?_of_lexeme hquote hlexeme
          obtain ⟨before, hbefore⟩ := exists_of_quoted? htext
          rw [List.take_of_length_le (by simp; omega)] at hbefore
          obtain rfl := List.singleton_inj.mp (List.append_inj' hbefore rfl).2
          rcases hquote with hquote | hquote <;> cases hquote
        · exact hle hle'
  | case5 => cases h

/-- A text has tokens if it has them without the blanks at its ends. -/
theorem exists_tokensFrom {s : List Char} {ts : List Spanned} (h : tokensFrom 0 (Text.trimChars s) = .ok ts) :
    ∃ ts', tokensFrom 0 s = .ok ts' := by
  obtain ⟨w, w', hw, hw', hs⟩ := Text.exists_trimChars s
  have hbehind : Lexes w' [] := by
    simpa using lexes_blank hw' lexes_nil
  have hend : Breaks [] := nofun
  have hbreaks : Breaks w' := by
    simpa using breaks_blank hw' hend
  obtain ⟨ts', hts', -⟩ := lexes_blank hw (lexes_append h hbreaks hbehind) 0
  exact ⟨ts', hs ▸ hts'⟩

end Lexer

/-! ## Expressions that are cut off -/

namespace Expr

variable {src : String} {e : Expr}

/-- A text whose trimmed form is an expression has tokens. -/
theorem exists_tokensFrom (h : Expr.parse (Text.trim src) = .ok e) : ∃ ts, Lexer.tokensFrom 0 src.toList = .ok ts := by
  obtain ⟨ts, hts, -⟩ := Expr.parse_eq_ok.mp h
  rw [tokenize_eq_ok, Text.trim, String.toList_ofList] at hts
  exact Lexer.exists_tokensFrom hts

/-- What stands before a closing brace of an expression is none: a closing quote is missing. -/
theorem parse_before_closeBrace (h : Expr.parse (Text.trim src) = .ok e) {p r : List Char} (hsrc : src.toList = p ++ '\x7d' :: r) :
    ∃ o, Expr.parse (Text.trim (String.ofList p)) = .error ⟨Text.trim (String.ofList p), .fault o .unterminatedText⟩ := by
  obtain ⟨ts, hts⟩ := exists_tokensFrom h
  obtain ⟨w, w', hw, hw', hp⟩ := Text.exists_trimChars p
  rw [hsrc, hp, List.append_assoc, List.append_assoc, Lexer.tokensFrom_blank hw] at hts
  obtain ⟨o, ho⟩ := Lexer.unterminated_of_tokensFrom hw' hts 0
  refine ⟨o, ?_⟩
  rw [Expr.parse, tokenize, Text.trim, String.toList_ofList, String.toList_ofList, ho]
  rfl

/-- An expression without a closing pair can stand in a fragment. -/
theorem fragmentText (h : Expr.parse (Text.trim src) = .ok e) (hfree : ¬['\x7d', '\x7d'] <:+: src.toList) : FragmentText src := by
  rintro ⟨before, after, hpair⟩
  rcases List.eq_nil_or_concat after with rfl | ⟨after, c, rfl⟩
  · obtain ⟨ts, hts⟩ := exists_tokensFrom h
    have hends : (before ++ ['\x7d']) ++ ['\x7d'] = src.toList ++ ['\x7d'] := by
      simpa using hpair
    rw [← List.append_cancel_right hends] at hts
    exact Lexer.not_closeBrace_last hts
  · refine hfree ⟨before, after, ?_⟩
    have hends : (before ++ ['\x7d', '\x7d'] ++ after) ++ [c] = src.toList ++ ['\x7d'] := by
      simpa using hpair
    exact (List.append_inj' hends rfl).1

end Expr

namespace Template

/-- A text is cut at its first pair whatever is behind it. -/
theorem cutAtPair_append_right {c : Char} {s before after : List Char} (h : cutAtPair c s = some (before, after)) (more : List Char) :
    cutAtPair c (s ++ more) = some (before, after ++ more) := by
  fun_induction cutAtPair c s generalizing before with
  | case1 a b rest hc =>
    obtain ⟨rfl, rfl⟩ := Prod.mk.inj (Option.some.inj h)
    rw [List.cons_append, List.cons_append, cutAtPair, if_pos hc]
  | case2 a b rest hc x y hr ih =>
    obtain ⟨rfl, rfl⟩ := Prod.mk.inj (Option.some.inj h)
    rw [List.cons_append, List.cons_append, cutAtPair, if_neg hc, ← List.cons_append, ih hr]
  | case3 => cases h
  | case4 => cases h

/-- A text with a pair of braces in it is cut there. -/
theorem exists_cutAtPair {c : Char} {s : List Char} (h : [c, c] <:+: s) : ∃ before after, cutAtPair c s = some (before, after) := by
  cases hcut : cutAtPair c s with
  | some parts => exact ⟨parts.1, parts.2, rfl⟩
  | none =>
    obtain ⟨before, after, rfl⟩ := h
    exact absurd (by simp) (no_pair_of_cutAtPair hcut before after)

/-- The fragment of a text with a closing pair ends at this pair, and what is behind it is left over. -/
theorem ofString_fragment_cut {src : String} {inner after : List Char} (h : cutAtPair '\x7d' src.toList = some (inner, after)) :
    (∃ spans rest, ofString (fragment src) = ⟨⟨[], inner⟩ :: spans, rest⟩) ∧ (ofString (fragment src)).lone? = none := by
  have htext : (fragment src).toList = '\x7b' :: '\x7b' :: (src.toList ++ ['\x7d', '\x7d']) := by simp [fragment]
  have hfirst : First (fragment src).toList [] inner (after ++ ['\x7d', '\x7d']) := by
    refine first_of_cutFragment ?_
    rw [cutFragment, htext, cutAtPair, if_pos ⟨rfl, rfl⟩]
    dsimp only
    rw [cutAtPair_append_right h]
  refine ⟨⟨_, _, (tiles_iff.mp (.span hfirst (tiles_scan _))).symm⟩, ?_⟩
  by_contra hlone
  obtain ⟨inner', hinner'⟩ := Option.ne_none_iff_exists'.mp hlone
  have hbehind := (hfirst.unique ((tiles_ofString _).lone?_iff.mp hinner')).2.2
  simp at hbehind

end Template

namespace Source

/-- A text without a closing pair is a bare expression. -/
theorem ofString_bare {src : String} (h : ¬['\x7d', '\x7d'] <:+: src.toList) : ofString src = .bare (Text.trim src) := by
  have hnone : (Template.ofString src).hasFragment = false := by
    rw [← Bool.not_eq_true, (Template.tiles_ofString src).hasFragment_iff]
    rintro ⟨before, inner, after, haround⟩
    exact h ⟨before ++ '\x7b' :: '\x7b' :: inner, after, by rw [haround]; simp⟩
  rw [ofString, hnone]
  rfl

/-- A text with a fragment is read as a template. -/
theorem ofString_template {text : String} {t : Template} (h : Template.ofString text = t) (hspans : t.hasFragment = true) :
    ofString text = .template t := by
  rw [ofString, h, hspans]
  rfl

/-- An expression without a closing pair makes a lone fragment, which is valid, refers to the same names as the expression alone and
resolves to the value of the expression. An expression with a closing pair is cut off at the first one, and its fragment is refused
because the text in quotes in which the pair stands is not closed. -/
theorem expression_in_fragment {src : String} {e : Expr} (h : Expr.parse (Text.trim src) = .ok e) (reserved : List String)
    (scope : Scope) :
    (¬['\x7d', '\x7d'] <:+: src.toList →
      (Template.ofString (fragment src)).lone? = some src.toList ∧
      (ofString (fragment src)).validate = .ok () ∧
      (ofString (fragment src)).references reserved = (ofString src).references reserved ∧
      (Template.ofString (fragment src)).resolve scope = .ok (e.eval scope)) ∧
    (['\x7d', '\x7d'] <:+: src.toList →
      (Template.ofString (fragment src)).lone? = none ∧
      ∃ inner after offset, src.toList = inner.toList ++ '\x7d' :: '\x7d' :: after ∧
        (∀ before behind, src.toList = before ++ '\x7d' :: '\x7d' :: behind → inner.toList.length ≤ before.length) ∧
        (ofString (fragment src)).validate = .error ⟨Text.trim inner, .fault offset .unterminatedText⟩ ∧
        (Template.ofString (fragment src)).resolve scope = .error ⟨Text.trim inner, .fault offset .unterminatedText⟩) := by
  constructor
  · intro hfree
    have hfragment := Expr.fragmentText h hfree
    have htemplate : Template.ofString (fragment src) = ⟨[⟨[], src.toList⟩], []⟩ := by
      have hpadded : Template.ofString ("" ++ (fragment src ++ "")) = ⟨[⟨[], src.toList⟩], []⟩ :=
        Template.ofString_fragment (by decide) (by decide) hfragment
      rwa [String.empty_append, String.append_empty] at hpadded
    refine ⟨by rw [htemplate]; rfl, (validate_fragment hfragment).mpr ⟨e, h⟩, ?_, ?_⟩
    · rw [ofString_bare hfree, ofString_template htemplate rfl]
      rfl
    · rw [htemplate, Template.resolve_of_lone rfl, String.ofList_toList, h]
      rfl
  · intro hpair
    obtain ⟨inner, after, hcut⟩ := Template.exists_cutAtPair hpair
    obtain ⟨⟨spans, rest, htemplate⟩, hlone⟩ := Template.ofString_fragment_cut hcut
    have hsrc := Template.eq_of_cutAtPair hcut
    obtain ⟨offset, herror⟩ := Expr.parse_before_closeBrace h hsrc
    have hfragments : (Template.ofString (fragment src)).fragments = Text.trim (String.ofList inner) :: spans.map Span.expression := by
      rw [htemplate, Text.trim, String.toList_ofList]
      rfl
    have hvalidate : (Template.ofString (fragment src)).validate =
        .error ⟨Text.trim (String.ofList inner), .fault offset .unterminatedText⟩ := by
      rw [Template.validate, hfragments]
      exact check_eq_error.mpr ⟨[], _, _, rfl, List.forall_mem_nil _, herror⟩
    rw [← String.toList_ofList (l := inner)] at hcut hsrc
    refine ⟨hlone, String.ofList inner, after, offset, hsrc, fun _ _ => Template.length_le_of_cutAtPair hcut, ?_, ?_⟩
    · rw [ofString_template rfl (by rw [htemplate]; rfl)]
      exact hvalidate
    · rw [← Except.forget_eq_error, Template.forget_resolve, hvalidate]

/-- Single braces in quotes are kept: the text of the name, put between them. -/
theorem expression_in_fragment_of_braces :
    (Template.ofString (fragment " '\x7b' + x.y + '\x7d' ")).lone? = some " '\x7b' + x.y + '\x7d' ".toList ∧
      (ofString (fragment " '\x7b' + x.y + '\x7d' ")).validate = .ok () ∧
      (ofString (fragment " '\x7b' + x.y + '\x7d' ")).references reservedNames = ["x"] ∧
      (Template.ofString (fragment " '\x7b' + x.y + '\x7d' ")).resolve (Scope.ofValue (.obj [("x", .obj [("y", .ofNat 7)])])) =
        .ok (some (.str "\x7b7\x7d")) := by
  have hparse : Expr.parse (Text.trim " '\x7b' + x.y + '\x7d' ") = .ok (.binary .concat
      (.binary .concat (.literal (.str "\x7b")) (.path ⟨"x", [.key "y"]⟩)) (.literal (.str "\x7d"))) := by
    cbv
  obtain ⟨hlone, hvalid, hreferences, hvalue⟩ := (expression_in_fragment hparse reservedNames
    (Scope.ofValue (.obj [("x", .obj [("y", .ofNat 7)])]))).1 (by decide)
  exact ⟨hlone, hvalid, hreferences.trans (by cbv), hvalue.trans (by cbv)⟩

/-- An expression with a closing pair in quotes, which refers to a name. Its fragment is cut off at the pair: it is refused, and it refers
to nothing. -/
theorem pair_in_quotes_cut :
    Expr.parse (Text.trim "x + '\x7d\x7d'") = .ok (.binary .concat (.path ⟨"x", []⟩) (.literal (.str "\x7d\x7d"))) ∧
      (ofString "x + '\x7d\x7d'").references reservedNames = ["x"] ∧
      (Template.ofString (fragment "x + '\x7d\x7d'")).lone? = none ∧
      (ofString (fragment "x + '\x7d\x7d'")).validate = .error ⟨"x + '", .fault 4 .unterminatedText⟩ ∧
      (ofString (fragment "x + '\x7d\x7d'")).references reservedNames = [] ∧
      (Template.ofString (fragment "x + '\x7d\x7d'")).resolve (Scope.ofValue (.obj [])) =
        .error ⟨"x + '", .fault 4 .unterminatedText⟩ :=
  ⟨by cbv, by cbv, by cbv, by cbv, by cbv, by cbv⟩

end Source

end Runbook
