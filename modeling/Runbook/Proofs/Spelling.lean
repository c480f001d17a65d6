import Mathlib
import Runbook.Proofs.Parsing

/-!
# What is spelled is parsed

Tokens that spell something are parsed to it when there is room for their nesting. So a text that is refused for another reason than
its nesting spells nothing, and no text spells two expressions.
-/

namespace Runbook

namespace Parser

variable {src : List Char}

/-! ## Where expressions end -/

/-- The tokens do not go on with an expression of a level: neither with a segment of a path nor with an operator of the level. -/
def Ends (level : Level) (rest : List Spanned) : Prop :=
  ∀ symbol offset tail, rest = ⟨.symbol symbol, offset⟩ :: tail →
    symbol ≠ .dot ∧ symbol ≠ .openBracket ∧ ∀ r ∈ level.rungs, ∀ op, ¬r.Operator symbol op

theorem ends_nil (level : Level) : Ends level [] := nofun

theorem ends_closeParen (level : Level) (offset : Nat) (rest : List Spanned) :
    Ends level (⟨.symbol .closeParen, offset⟩ :: rest) := by
  intro symbol offset' tail h
  obtain ⟨h, rfl⟩ := List.cons.inj h
  obtain ⟨rfl, rfl⟩ : symbol = .closeParen ∧ offset' = offset := by simpa [eq_comm] using h
  exact ⟨nofun, nofun, fun r _ op hop => nomatch hop⟩

/-- Operands of a rung end at an operator of it. -/
theorem ends_operator {r : Rung} {s : Symbol} {op : BinaryOp} (hop : r.Operator s op) (offset : Nat) (rest : List Spanned) :
    Ends r.operands (⟨.symbol s, offset⟩ :: rest) := by
  intro symbol offset' tail h
  obtain ⟨h, rfl⟩ := List.cons.inj h
  obtain ⟨rfl, rfl⟩ : symbol = s ∧ offset' = offset := by simpa [eq_comm] using h
  refine ⟨?_, ?_, ?_⟩
  · rintro rfl
    cases hop
  · rintro rfl
    cases hop
  · intro r' hr' op' hop'
    obtain rfl := hop.rung_unique hop'
    revert hr'
    cases r <;> decide

/-- What ends a level ends those with fewer rungs. -/
theorem Ends.mono {level level' : Level} {rest : List Spanned} (h : Ends level rest)
    (hrungs : ∀ r ∈ level'.rungs, r ∈ level.rungs) : Ends level' rest := by
  intro symbol offset tail heq
  obtain ⟨hdot, hbracket, hop⟩ := h symbol offset tail heq
  exact ⟨hdot, hbracket, fun r hr => hop r (hrungs r hr)⟩

/-- What ends a rung ends its operands. -/
theorem Ends.operands {r : Rung} {rest : List Spanned} (h : Ends (.rung r) rest) : Ends r.operands rest := by
  refine h.mono ?_
  intro r' hr'
  rw [Level.rungs_operands] at hr'
  exact List.mem_append_left _ hr'

/-- A chain ends where the tokens do not go on with it. -/
theorem Ends.chain {r : Rung} {rest : List Spanned} (h : Ends (.rung r) rest) (room : Nat) (e : Expr) :
    chain src room r e rest = .ok (e, rest) := by
  rcases chain_cases src r rest with ⟨symbol, op, offset, tail, hop, rfl⟩ | hend
  · exact absurd hop ((h symbol offset tail rfl).2.2 r (by simp [Level.rungs]) op)
  · exact hend room e

/-- A path ends where the tokens do not go on with it. -/
theorem Ends.segments {level : Level} {rest : List Spanned} (h : Ends level rest) : segments src rest = .ok ([], rest) := by
  unfold Parser.segments
  split
  · exact absurd rfl (h _ _ _ rfl).1
  · exact absurd rfl (h _ _ _ rfl).1
  · exact absurd rfl (h _ _ _ rfl).1
  · exact absurd rfl (h _ _ _ rfl).2.1
  · exact absurd rfl (h _ _ _ rfl).2.1
  · exact absurd rfl (h _ _ _ rfl).2.1
  · rfl

/-- Segments are read from the tokens that spell them. -/
theorem segments_of_spelled {ts : List Token} {path : List Segment} (h : Segment.Spelled ts path) {taken rest : List Spanned}
    (htaken : words taken = ts) (hrest : Ends .unary rest) : segments src (taken ++ rest) = .ok (path, rest) := by
  induction h generalizing taken with
  | nil =>
    obtain rfl := List.map_eq_nil_iff.mp htaken
    exact hrest.segments
  | key name _ ih =>
    obtain ⟨offset, _, rfl, hname⟩ := words_eq_cons htaken
    obtain ⟨offset', taken, rfl, hpath⟩ := words_eq_cons hname
    show (segments src (taken ++ rest)).bind _ = _
    rw [ih hpath]
    rfl
  | index _ _ ih =>
    obtain ⟨offset, _, rfl, hnumber⟩ := words_eq_cons htaken
    obtain ⟨offset', _, rfl, hclose⟩ := words_eq_cons hnumber
    obtain ⟨offset'', taken, rfl, hpath⟩ := words_eq_cons hclose
    show (segments src (taken ++ rest)).bind _ = _
    rw [ih hpath]
    rfl

/-- A name that is no literal begins a path. -/
theorem leaf_path {name : String} (hname : name ∉ Expr.literalNames) (offset : Nat) (ts : List Spanned) :
    leaf src (⟨.ident name, offset⟩ :: ts) =
      (segments src ts).bind fun (path, rest) => .ok (.path ⟨name, path⟩, rest) := by
  obtain ⟨htrue, hfalse, hnull, hundefined⟩ : name ≠ "true" ∧ name ≠ "false" ∧ name ≠ "null" ∧ name ≠ "undefined" := by
    simpa [Expr.literalNames] using hname
  rw [leaf]
  · rfl
  · exact htrue
  · exact hfalse
  · exact hnull
  · exact hundefined

/-- How a level goes on with an expression of its own: a rung looks for more of its operators. -/
def goOn (src : List Char) (room : Nat) : Level → Expr → List Spanned → Except Flaw (Parsed Expr)
  | .rung r, e, rest => chain src room r e rest
  | .unary, e, rest | .primary, e, rest => .ok (e, rest)

/-- The level behind whose expressions a level looks for operators. -/
def inner : Level → Level
  | .rung r => r.operands
  | .unary | .primary => .unary

/-- What ends a level leaves what has been read of it. -/
theorem Ends.goOn {level : Level} {rest : List Spanned} (h : Ends level rest) (room : Nat) (e : Expr) :
    goOn src room level e rest = .ok (e, rest) := by
  cases level with
  | rung r => exact h.chain room e
  | unary => rfl
  | primary => rfl

/-- What ends a level ends the levels inside. -/
theorem Ends.inner {level : Level} {rest : List Spanned} (h : Ends level rest) : Ends (inner level) rest := by
  cases level with
  | rung r => exact h.operands
  | unary => exact h
  | primary => exact h

/-- A word that begins no negation and no group is parsed as a leaf. -/
theorem atLevel_leaf (src : List Char) (t : Token) (hnot : t ≠ .symbol .not) (hgroup : t ≠ .symbol .openParen) (room offset : Nat)
    (ts : List Spanned) : atLevel src room .primary (⟨t, offset⟩ :: ts) = leaf src (⟨t, offset⟩ :: ts) := by
  have hoperand : operand src room (⟨t, offset⟩ :: ts) = leaf src (⟨t, offset⟩ :: ts) := by
    rcases operand_cases src (⟨t, offset⟩ :: ts) with ⟨_, _, h⟩ | ⟨_, _, h⟩ | hleaf
    · exact absurd (congrArg Spanned.token (List.cons.inj h).1) hnot
    · exact absurd (congrArg Spanned.token (List.cons.inj h).1) hgroup
    · exact hleaf room
  exact (climb_nil ..).trans hoperand

/-- Tokens are parsed to an expression at a level, whatever follows them that does not go on with it, when there is room for them. The
level goes on with what is left of the room: a chain has taken some for each of its operators. -/
def Parses (src : List Char) (level : Level) (ts : List Token) (e : Expr) : Prop :=
  ∀ ⦃taken rest : List Spanned⦄ ⦃room : Nat⦄, words taken = ts → Ends (inner level) rest → nestings ts ≤ room →
    ∃ used ≤ nestings ts, atLevel src room level (taken ++ rest) = goOn src (room - used) level e rest

namespace Parses

variable {level : Level} {r : Rung} {ts us : List Token} {e left right : Expr}

/-- Behind tokens that do not go on with them, the tokens are parsed with nothing left of them. -/
theorem ok (h : Parses src level ts e) {taken rest : List Spanned} {room : Nat} (htaken : words taken = ts) (hends : Ends level rest)
    (hroom : nestings ts ≤ room) : atLevel src room level (taken ++ rest) = .ok (e, rest) := by
  obtain ⟨used, -, hparsed⟩ := h htaken hends.inner hroom
  rwa [hends.goOn] at hparsed

/-- A word that is a leaf whatever follows it. -/
theorem word {t : Token} (hnot : t ≠ .symbol .not) (hgroup : t ≠ .symbol .openParen)
    (h : ∀ offset rest, leaf src (⟨t, offset⟩ :: rest) = .ok (e, rest)) : Parses src .primary [t] e := by
  intro taken rest room htaken _ _
  obtain ⟨offset, none, rfl, hnone⟩ := words_eq_cons htaken
  obtain rfl := List.map_eq_nil_iff.mp hnone
  exact ⟨0, Nat.zero_le _, (atLevel_leaf src t hnot hgroup room offset rest).trans (h offset rest)⟩

/-- A path is parsed from the tokens that spell it. -/
theorem path {root : String} {segments : List Segment} (name : root ∉ Expr.literalNames) (h : Segment.Spelled ts segments) :
    Parses src .primary (.ident root :: ts) (.path ⟨root, segments⟩) := by
  intro taken rest room htaken hrest _
  obtain ⟨offset, taken, rfl, hsegments⟩ := words_eq_cons htaken
  have hleaf := atLevel_leaf src (.ident root) nofun nofun room offset (taken ++ rest)
  rw [leaf_path name, segments_of_spelled h hsegments hrest] at hleaf
  exact ⟨0, Nat.zero_le _, hleaf⟩

/-- A group is parsed if what is in its parentheses is. -/
theorem group (h : Parses src (.rung .disjunction) ts e) :
    Parses src .primary (.symbol .openParen :: (ts ++ [.symbol .closeParen])) e := by
  intro taken rest room htaken _ hroom
  obtain ⟨offset, _, rfl, hinside⟩ := words_eq_cons htaken
  obtain ⟨taken, _, rfl, hinner, hclose⟩ := List.map_eq_append_iff.mp (show List.map _ _ = _ from hinside)
  obtain ⟨offset', _, rfl, hnone⟩ := words_eq_cons hclose
  obtain rfl := List.map_eq_nil_iff.mp hnone
  simp only [nestings_cons, nestings_append, Token.nests, if_true] at hroom
  obtain ⟨less, rfl⟩ : ∃ less, room = less + 1 := Nat.exists_eq_add_of_le' (by omega)
  have hparsed := h.ok hinner (ends_closeParen _ offset' rest) (show nestings ts ≤ less by omega)
  have hgroup := operand_group src less offset (taken ++ ⟨.symbol .closeParen, offset'⟩ :: rest)
  rw [hparsed] at hgroup
  refine ⟨0, Nat.zero_le _, (climb_nil ..).trans ?_⟩
  rw [List.cons_append, List.append_assoc]
  exact hgroup

/-- A negation is parsed if what it negates is. -/
theorem not (h : Parses src .unary ts e) : Parses src .unary (.symbol .not :: ts) (.not e) := by
  intro taken rest room htaken hrest hroom
  obtain ⟨offset, taken, rfl, hinner⟩ := words_eq_cons htaken
  simp only [nestings_cons, Token.nests, if_true] at hroom
  obtain ⟨less, rfl⟩ : ∃ less, room = less + 1 := Nat.exists_eq_add_of_le' (by omega)
  have hnot := operand_not src less offset (taken ++ rest)
  rw [← atLevel_unary, ← atLevel_unary, h.ok hinner hrest (by omega)] at hnot
  exact ⟨0, Nat.zero_le _, hnot⟩

/-- An operand is parsed on the rung that it is an operand of. -/
theorem operand (h : Parses src r.operands ts e) : Parses src (.rung r) ts e := by
  intro taken rest room htaken hrest hroom
  refine ⟨0, Nat.zero_le _, ?_⟩
  rw [atLevel_rung, h.ok htaken hrest hroom]
  rfl

/-- The chain that has come to its operator goes on with the operand behind it. -/
theorem chain {symbol : Symbol} {op : BinaryOp} (hleft : Parses src (.rung r) ts left) (hop : r.Operator symbol op)
    (hright : Parses src r.operands us right) : Parses src (.rung r) (ts ++ .symbol symbol :: us) (.binary op left right) := by
  intro taken rest room htaken hrest hroom
  obtain ⟨before, _, rfl, hbefore, hafter⟩ := List.map_eq_append_iff.mp (show List.map _ _ = _ from htaken)
  obtain ⟨offset, behind, rfl, hbehind⟩ := words_eq_cons hafter
  simp only [nestings_cons, nestings_append, hop.nests, if_true] at hroom ⊢
  obtain ⟨used, hused, hparsed⟩ := hleft hbefore (ends_operator hop offset (behind ++ rest)) (show nestings ts ≤ room by omega)
  obtain ⟨less, hless⟩ : ∃ less, room - used = less + 1 := Nat.exists_eq_add_of_le' (by omega)
  have hparsed' := hright.ok hbehind hrest (show nestings us ≤ less by omega)
  refine ⟨used + 1, by omega, ?_⟩
  obtain rfl : room - (used + 1) = less := by omega
  rw [List.append_assoc, List.cons_append, hparsed, hless]
  show Parser.chain src (room - (used + 1) + 1) r left _ = _
  rw [chain_operator hop, hparsed']
  rfl

end Parses

/-- Tokens that spell an expression at a level are parsed to it. -/
theorem parses_of_spelled (src : List Char) {level : Level} {ts : List Token} {e : Expr} (h : Expr.Spelled level ts e) :
    Parses src level ts e := by
  induction h with
  | number n => exact .word nofun nofun fun _ _ => rfl
  | text s => exact .word nofun nofun fun _ _ => rfl
  | true => exact .word nofun nofun fun _ _ => rfl
  | false => exact .word nofun nofun fun _ _ => rfl
  | null => exact .word nofun nofun fun _ _ => rfl
  | undefined => exact .word nofun nofun fun _ _ => rfl
  | path name segments => exact .path name segments
  | group _ ih => exact .group ih
  | primary _ ih => exact ih
  | not _ ih => exact .not ih
  | operand _ ih => exact .operand ih
  | chain _ hop _ ihleft ihright => exact .chain ihleft hop ihright

/-! ## Whole texts -/

/-- Tokens are parsed on the widest rung, and none of them may be left. -/
theorem parseTokens_eq (t : Spanned) (ts : List Spanned) :
    parseTokens src (t :: ts) = (atLevel src maxNesting (.rung .disjunction) (t :: ts)).bind fun
      | (e, []) => .ok e
      | (_, t :: _) => .error (.fault t.offset (.unexpected t.token)) := rfl

/-- What all of the tokens are parsed to, they spell. -/
theorem spelled_of_parseTokens {ts : List Spanned} {e : Expr} (hfits : Fits ts) (h : parseTokens src ts = .ok e) :
    Expr.Spelled (.rung .disjunction) (words ts) e := by
  cases ts with
  | nil => cases h
  | cons t ts =>
    rw [parseTokens_eq] at h
    obtain ⟨⟨e', rest⟩, hparsed, hrest⟩ := ok_of_bind h
    obtain ⟨taken, htaken, hspelled⟩ := ((sound maxNesting).takes .disjunction).2 _ _ _ hfits hparsed
    split at hrest
    · rename_i e'' hsplit
      obtain ⟨rfl, rfl⟩ := Prod.mk.inj hsplit
      obtain rfl := Except.ok.inj hrest
      rw [htaken, List.append_nil]
      exact hspelled
    · cases hrest

/-- Nothing is spelled by no tokens. -/
theorem ne_nil_of_spelled {level : Level} {ts : List Token} {e : Expr} (h : Expr.Spelled level ts e) : ts ≠ [] := by
  induction h with
  | number | text | true | false | null | undefined | path | group | not => exact List.cons_ne_nil _ _
  | primary _ ih => exact ih
  | operand _ ih => exact ih
  | chain => simp

/-- Tokens that spell an expression are parsed to it, with nothing left, when there is room for them. -/
theorem parsed_of_spelled (src : List Char) {ts : List Spanned} {e : Expr} (h : Expr.Spelled (.rung .disjunction) (words ts) e)
    {room : Nat} (hroom : nestings (words ts) ≤ room) : atLevel src room (.rung .disjunction) ts = .ok (e, []) := by
  have hparsed := (parses_of_spelled src h).ok rfl (ends_nil _) hroom
  rwa [List.append_nil] at hparsed

/-- Tokens spell at most one expression. -/
theorem spelled_unique {ts : List Spanned} {e e' : Expr} (h : Expr.Spelled (.rung .disjunction) (words ts) e)
    (h' : Expr.Spelled (.rung .disjunction) (words ts) e') : e = e' := by
  have hparsed := parsed_of_spelled [] h (Nat.le_refl _)
  have hparsed' := parsed_of_spelled [] h' (Nat.le_refl _)
  exact (Prod.mk.inj (Except.ok.inj (hparsed.symm.trans hparsed'))).1

/-- Tokens that spell an expression are parsed to it, or there is no room for them. -/
theorem parseTokens_of_spelled (src : List Char) {ts : List Spanned} {e : Expr} (h : Expr.Spelled (.rung .disjunction) (words ts) e) :
    parseTokens src ts = .ok e ∨
      (maxNesting < nestings (words ts) ∧ ∃ offset, parseTokens src ts = .error (.fault offset .tooDeep)) := by
  cases ts with
  | nil => exact absurd rfl (ne_nil_of_spelled h)
  | cons t ts =>
    by_cases hroom : nestings (words (t :: ts)) ≤ maxNesting
    · left
      rw [parseTokens_eq, parsed_of_spelled src h hroom]
      rfl
    · have hparsed := parsed_of_spelled src h (Nat.le_refl _)
      rcases atLevel_steady src .disjunction (t :: ts) (Nat.le_of_not_le hroom) with ⟨offset, hdeep⟩ | heq
      · right
        rw [parseTokens_eq, hdeep]
        exact ⟨Nat.lt_of_not_le hroom, offset, rfl⟩
      · left
        rw [parseTokens_eq, ← heq, hparsed]
        rfl

end Parser

/-! ## What tokenizes -/

namespace Lexer

/-- A whole number that is read fits into 64 bits. -/
theorem numberOf?_fits {whole fraction : List Char} {n : Nat} (h : numberOf? whole fraction = some (.int n)) : n < 2 ^ 64 := by
  unfold numberOf? at h
  split at h
  · rename_i hsmall
    obtain ⟨-, hlt⟩ := Bool.and_eq_true_iff.mp hsmall
    have hlt := of_decide_eq_true hlt
    have heq : Decimal.natOfDigits whole = n := Int.ofNat.inj (Number.int.inj (Option.some.inj h))
    omega
  · obtain ⟨x, -, hx⟩ := Option.map_eq_some_iff.mp h
    cases hx

/-- A whole number that is a lexeme fits into 64 bits. -/
theorem lexeme_fits {c : Char} {rest : List Char} {n width : Nat} (h : lexeme c rest = .ok (.number (.int n), width)) :
    n < 2 ^ 64 := by
  unfold lexeme at h
  split at h
  · cases h
  · split at h
    · split at h
      · cases h
      · cases h
    · split at h
      · dsimp only at h
        split at h
        · rename_i n' hnumber
          obtain ⟨hn, -⟩ := Prod.mk.inj (Except.ok.inj h)
          obtain rfl := Token.number.inj hn
          exact numberOf?_fits hnumber
        · cases h
      · split at h
        · cases h
        · split at h
          · cases h
          · split at h
            · cases h
            · cases h

/-- The whole numbers among tokens fit into 64 bits. -/
theorem tokensFrom_fits {offset : Nat} {s : List Char} {ts : List Spanned} (h : tokensFrom offset s = .ok ts) : Fits ts := by
  fun_induction tokensFrom offset s generalizing ts with
  | case1 =>
    obtain rfl := Except.ok.inj h
    exact nofun
  | case2 _ _ _ _ ih => exact ih h
  | case3 => cases h
  | case4 offset c rest _ token n hlexeme tokens htokens ih =>
    obtain rfl := Except.ok.inj h
    intro t ht i hi
    rcases List.mem_cons.mp ht with rfl | ht
    · subst hi
      exact lexeme_fits hlexeme
    · exact ih htokens t ht i hi
  | case5 => cases h

end Lexer

/-- The whole numbers among the tokens of a text fit into 64 bits. -/
theorem tokenize_fits {src : String} {ts : List Spanned} (h : tokenize src = .ok ts) : Fits ts := by
  unfold tokenize at h
  cases htokens : Lexer.tokensFrom 0 src.toList with
  | error flaw =>
    rw [htokens] at h
    cases h
  | ok tokens =>
    rw [htokens] at h
    obtain rfl := Except.ok.inj h
    exact Lexer.tokensFrom_fits htokens

/-- A text that tokenizes is parsed to the expression that its tokens spell. If it is refused, they spell none, unless they are
nested too deeply; with at most 128 opening parentheses, negations and binary operators they are not. No tokens spell two
expressions. -/
theorem Expr.parse_follows_grammar {src : String} {tokens : List Spanned} (h : tokenize src = .ok tokens) :
    (∀ e, Expr.parse src = .ok e → Expr.Spelled (.rung .disjunction) (words tokens) e) ∧
      (∀ err, Expr.parse src = .error err → (∀ offset, err.flaw ≠ .fault offset .tooDeep) →
        ∀ e, ¬Expr.Spelled (.rung .disjunction) (words tokens) e) ∧
      (∀ e, Expr.Spelled (.rung .disjunction) (words tokens) e → nestings (words tokens) ≤ 128 → Expr.parse src = .ok e) ∧
      ∀ e e', Expr.Spelled (.rung .disjunction) (words tokens) e → Expr.Spelled (.rung .disjunction) (words tokens) e' → e = e' := by
  have hparse : Expr.parse src = (Parser.parseTokens src.toList tokens).mapError fun flaw => ⟨src, flaw⟩ := by
    rw [Expr.parse, h]
    rfl
  refine ⟨?_, ?_, ?_, fun e e' => Parser.spelled_unique⟩
  · intro e he
    rw [hparse] at he
    cases hresult : Parser.parseTokens src.toList tokens with
    | error flaw =>
      rw [hresult] at he
      cases he
    | ok e' =>
      rw [hresult] at he
      obtain rfl := Except.ok.inj he
      exact Parser.spelled_of_parseTokens (tokenize_fits h) hresult
  · intro err herr hdeep e he
    rw [hparse] at herr
    rcases Parser.parseTokens_of_spelled src.toList he with hok | ⟨-, offset, hfault⟩
    · rw [hok] at herr
      cases herr
    · rw [hfault] at herr
      obtain rfl := Except.error.inj herr
      exact hdeep offset rfl
  · intro e he hroom
    rw [hparse]
    rcases Parser.parseTokens_of_spelled src.toList he with hok | ⟨hmore, -⟩
    · rw [hok]
      rfl
    · exact absurd hroom (Nat.not_le_of_lt hmore)

/-- Negation is tighter than all operators, a chain associates to the left, and a path may hold a word that is a literal elsewhere. -/
theorem Expr.parse_follows_grammar_of_mixture : ∃ tokens, tokenize "!a.b[0].true + 'x' + 1 == c && d" = .ok tokens ∧
    Expr.Spelled (.rung .disjunction) (words tokens)
      (.binary .and
        (.binary .looseEq
          (.binary .concat
            (.binary .concat (.not (.path ⟨"a", [.key "b", .index 0, .key "true"]⟩)) (.literal (.str "x")))
            (.literal (.num (.int 1))))
          (.path ⟨"c", []⟩))
        (.path ⟨"d", []⟩)) := by
  obtain ⟨tokens, htokens⟩ : ∃ tokens, tokenize "!a.b[0].true + 'x' + 1 == c && d" = .ok tokens := ⟨_, by cbv⟩
  exact ⟨tokens, htokens, (Expr.parse_follows_grammar htokens).1 _ (by cbv)⟩

end Runbook
