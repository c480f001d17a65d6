import Runbook.Proofs.Spelling

/-!
# How deep expressions get

The room for nesting bounds what is nested: no way from the root of a parsed expression to a leaf has more than 128 negations and
right operands. It does not bound the height. The left operand of a chain is parsed with all of the room, and so is the left operand
of every looser chain around it; only a group or a negation leaves less. So each of the five rungs may add the whole room to the
height, and a group adds all of that again with one less, down to nothing: `1 + 5 * (1 + 2 + … + 128)` in all.
-/

namespace Runbook

/-- The most negations and right operands on a way from the root of an expression to a leaf. -/
def Expr.rightHeight : Expr → Nat
  | undefined => 0
  | literal _ => 0
  | path _ => 0
  | not e => e.rightHeight + 1
  | binary _ left right => max left.rightHeight (right.rightHeight + 1)

namespace Parser

variable {src : List Char}

/-- The greatest height of an operand of the tightest operator: a negation, or a group with chains on all rungs in it. -/
def operandHeight : Nat → Nat
  | 0 => 0
  | room + 1 => max (operandHeight room + 1) (operandHeight room + 5 * room)

/-- The greatest height of an expression of a level: every rung adds the room to what its operands may have. -/
def levelHeight (room : Nat) (level : Level) : Nat := operandHeight room + level.rungs.length * room

theorem levelHeight_unary (room : Nat) : levelHeight room .unary = operandHeight room := by simp [levelHeight, Level.rungs]

/-- A rung may be as much higher than its operands as there is room. -/
theorem levelHeight_rung (room : Nat) (r : Rung) : levelHeight room (.rung r) = levelHeight room r.operands + room := by
  have hrungs : (Level.rung r).rungs.length = r.operands.rungs.length + 1 := by
    rw [Level.rungs_operands]
    exact List.length_append
  rw [levelHeight, levelHeight, hrungs, Nat.succ_mul, Nat.add_assoc]

/-- The widest rung may be five times as much higher as there is room. -/
theorem levelHeight_disjunction (room : Nat) : levelHeight room (.rung .disjunction) = operandHeight room + 5 * room := rfl

/-- With more room, expressions may be as high as with less. -/
theorem levelHeight_le_succ (room : Nat) (level : Level) : levelHeight room level ≤ levelHeight (room + 1) level := by
  refine Nat.add_le_add ?_ (Nat.mul_le_mul_left _ (Nat.le_succ room))
  rw [operandHeight]
  omega

/-! ## No expression is higher -/

/-- A leaf has no height. -/
theorem leaf_height {ts rest : List Spanned} {e : Expr} (h : leaf src ts = .ok (e, rest)) : e.height = 0 ∧ e.rightHeight = 0 := by
  have hword {ts : List Spanned} {e' : Expr} (hflat : e'.height = 0 ∧ e'.rightHeight = 0)
      (h : (.ok (e', ts) : Except Flaw (Parsed Expr)) = .ok (e, rest)) : e.height = 0 ∧ e.rightHeight = 0 := by
    obtain ⟨rfl, -⟩ := Prod.mk.inj (Except.ok.inj h)
    exact hflat
  unfold leaf at h
  split at h
  · cases h
  · exact hword ⟨rfl, rfl⟩ h
  · exact hword ⟨rfl, rfl⟩ h
  · exact hword ⟨rfl, rfl⟩ h
  · exact hword ⟨rfl, rfl⟩ h
  · exact hword ⟨rfl, rfl⟩ h
  · exact hword ⟨rfl, rfl⟩ h
  · obtain ⟨_, -, hpath⟩ := ok_of_bind h
    exact hword ⟨rfl, rfl⟩ hpath
  · cases h

/-- What is parsed with some room is no higher than that allows. What a chain begins with may have been parsed with more. -/
structure Low (src : List Char) (room : Nat) : Prop where
  operand : ∀ ts e rest, operand src room ts = .ok (e, rest) → e.height ≤ operandHeight room ∧ e.rightHeight ≤ room
  chain : ∀ r left ts e rest, chain src room r left ts = .ok (e, rest) →
    e.height ≤ max left.height (levelHeight room r.operands) + room ∧ e.rightHeight ≤ max left.rightHeight room

/-- What holds of operands and chains holds of the levels that they make up. -/
theorem Low.atLevel {room : Nat} (hl : Low src room) (r : Rung) :
    (∀ ts e rest, atLevel src room r.operands ts = .ok (e, rest) → e.height ≤ levelHeight room r.operands ∧ e.rightHeight ≤ room) ∧
      ∀ ts e rest, Parser.atLevel src room (.rung r) ts = .ok (e, rest) →
        e.height ≤ levelHeight room (.rung r) ∧ e.rightHeight ≤ room := by
  refine Level.climbing (P := fun level => ∀ ts e rest, Parser.atLevel src room level ts = .ok (e, rest) →
    e.height ≤ levelHeight room level ∧ e.rightHeight ≤ room) ?_ ?_ r
  · intro ts e rest h
    rw [levelHeight_unary]
    exact hl.operand ts e rest (atLevel_unary room ts ▸ h)
  · intro r ih ts e rest h
    rw [atLevel_rung] at h
    obtain ⟨⟨left, rest'⟩, hleft, hchain⟩ := ok_of_bind h
    obtain ⟨hheight, hright⟩ := ih ts left rest' hleft
    obtain ⟨hheight', hright'⟩ := hl.chain r left rest' e rest hchain
    rw [levelHeight_rung]
    omega

/-- What is nested is parsed with less room. -/
theorem Low.of_nested {room : Nat} (hl : ∀ less, room = less + 1 → Low src less) : Low src room := by
  refine ⟨?_, ?_⟩
  · intro ts e rest h
    rcases operand_cases src ts with ⟨offset, ts, rfl⟩ | ⟨offset, ts, rfl⟩ | hleaf
    · cases room with
      | zero =>
        rw [Parser.operand] at h
        cases h
      | succ room =>
        rw [operand_not] at h
        obtain ⟨⟨inner, rest'⟩, hinner, heq⟩ := ok_of_bind h
        obtain ⟨rfl, -⟩ := Prod.mk.inj (Except.ok.inj heq)
        obtain ⟨hheight, hright⟩ := (hl room rfl).operand ts inner rest' hinner
        simp only [Expr.height, Expr.rightHeight, operandHeight]
        omega
    · cases room with
      | zero =>
        rw [Parser.operand] at h
        cases h
      | succ room =>
        rw [operand_group] at h
        obtain ⟨⟨inner, rest'⟩, hinner, heq⟩ := ok_of_bind h
        obtain ⟨hheight, hright⟩ := ((hl room rfl).atLevel .disjunction).2 ts inner rest' hinner
        rw [levelHeight_disjunction] at hheight
        split at heq
        · rename_i hsplit
          obtain ⟨rfl, -⟩ := Prod.mk.inj hsplit
          obtain ⟨rfl, -⟩ := Prod.mk.inj (Except.ok.inj heq)
          simp only [operandHeight]
          omega
        · cases heq
        · cases heq
    · obtain ⟨hheight, hright⟩ := leaf_height (hleaf room ▸ h)
      omega
  · intro r left ts e rest h
    rcases chain_cases src r ts with ⟨symbol, op, offset, ts, hop, rfl⟩ | hend
    · cases room with
      | zero =>
        rw [Parser.chain, Rung.operator?_eq_some.mpr hop] at h
        cases h
      | succ room =>
        rw [chain_operator hop] at h
        obtain ⟨⟨right, rest'⟩, hparsed, hchain⟩ := ok_of_bind h
        obtain ⟨hheight, hright⟩ := ((hl room rfl).atLevel r).1 ts right rest' hparsed
        obtain ⟨hheight', hright'⟩ := (hl room rfl).chain r _ rest' e rest hchain
        have hmore := levelHeight_le_succ room r.operands
        simp only [Expr.height, Expr.rightHeight] at hheight' hright'
        omega
    · obtain ⟨rfl, -⟩ := Prod.mk.inj (Except.ok.inj ((hend room left).symm.trans h))
      omega

/-- With any room, what is parsed is no higher than the room allows. -/
theorem low (room : Nat) : Low src room := by
  induction room with
  | zero => exact .of_nested nofun
  | succ room ih => exact .of_nested fun less h => Nat.succ.inj h ▸ ih

/-- An expression is no higher than the number of tokens in its spelling that nest. -/
theorem height_le_nestings {level : Level} {ts : List Token} {e : Expr} (h : Expr.Spelled level ts e) : e.height ≤ nestings ts := by
  induction h with
  | number | text | true | false | null | undefined | path => exact Nat.zero_le _
  | group _ ih =>
    simp only [nestings_cons, nestings_append]
    omega
  | primary _ ih => exact ih
  | not _ ih =>
    simp only [Expr.height, nestings_cons, Token.nests, if_true]
    omega
  | operand _ ih => exact ih
  | chain _ hop _ ihleft ihright =>
    simp only [Expr.height, nestings_append, nestings_cons, hop.nests, if_true]
    omega

/-! ## Some expression is as high -/

/-- The name that the highest expression is made of. -/
def atom : Expr := .path ⟨"a", []⟩

/-- An operand of the tightest operator is one of all operators. -/
theorem spelled_rung {ts : List Token} {e : Expr} (h : Expr.Spelled .unary ts e) (r : Rung) : Expr.Spelled (.rung r) ts e :=
  (Level.climbing (P := fun level => Expr.Spelled level ts e) h (fun _ h => .operand h) r).2

/-- The atom is spelled on every level as its name. -/
theorem spelled_atom : (level : Level) → Expr.Spelled level [.ident "a"] atom
  | .primary => .path (by decide) .nil
  | .unary => .primary (.path (by decide) .nil)
  | .rung r => spelled_rung (.primary (.path (by decide) .nil)) r

/-- The words of a chain behind its first operand. -/
def chainWords (symbol : Symbol) : Nat → List Token
  | 0 => []
  | n + 1 => .symbol symbol :: .ident "a" :: chainWords symbol n

/-- An expression with a chain behind it. -/
def chained (op : BinaryOp) : Nat → Expr → Expr
  | 0, left => left
  | n + 1, left => chained op n (.binary op left atom)

/-- A chain adds one to the height for every operand. -/
theorem height_chained (op : BinaryOp) (n : Nat) (left : Expr) : (chained op n left).height = left.height + n := by
  induction n generalizing left with
  | zero => rfl
  | succ n ih =>
    rw [chained, ih]
    simp only [Expr.height, atom, Nat.max_zero]
    omega

/-- What comes before a chain ends where the chain begins, or where it ends if it has no operators. -/
theorem ends_chainWords {r : Rung} {symbol : Symbol} {op : BinaryOp} (hop : r.Operator symbol op) {n : Nat} {taken rest : List Spanned}
    (htaken : words taken = chainWords symbol n) (hrest : Ends (.rung r) rest) : Ends r.operands (taken ++ rest) := by
  cases n with
  | zero =>
    obtain rfl := List.map_eq_nil_iff.mp htaken
    exact hrest.operands
  | succ n =>
    obtain ⟨offset, taken, rfl, -⟩ := words_eq_cons htaken
    exact ends_operator hop offset (taken ++ rest)

/-- A chain may have as many operators as there is room. -/
theorem chain_chainWords {r : Rung} {symbol : Symbol} {op : BinaryOp} (hop : r.Operator symbol op) (room : Nat) (left : Expr)
    {taken rest : List Spanned} (htaken : words taken = chainWords symbol room) (hrest : Ends (.rung r) rest) :
    chain src room r left (taken ++ rest) = .ok (chained op room left, rest) := by
  induction room generalizing left taken with
  | zero =>
    obtain rfl := List.map_eq_nil_iff.mp htaken
    exact hrest.chain 0 left
  | succ room ih =>
    obtain ⟨offset, taken, rfl, hoperand⟩ := words_eq_cons htaken
    obtain ⟨offset', taken, rfl, hmore⟩ := words_eq_cons hoperand
    have hword : words [⟨.ident "a", offset'⟩] = [.ident "a"] := rfl
    have hparsed := (parses_of_spelled src (spelled_atom r.operands)).ok hword (ends_chainWords hop hmore hrest) (Nat.zero_le room)
    rw [List.cons_append, List.cons_append, chain_operator hop]
    show Except.bind (atLevel src room r.operands ([⟨.ident "a", offset'⟩] ++ (taken ++ rest))) _ = _
    rw [hparsed]
    exact ih _ hmore

/-- A chain with as many operators as there is room, behind an operand that is parsed as far as the chain. -/
theorem atLevel_chainWords {r : Rung} {symbol : Symbol} {op : BinaryOp} (hop : r.Operator symbol op) {room : Nat} {left : Expr}
    {ts taken rest : List Spanned} (hleft : atLevel src room r.operands ts = .ok (left, taken ++ rest))
    (htaken : words taken = chainWords symbol room) (hrest : Ends (.rung r) rest) :
    atLevel src room (.rung r) ts = .ok (chained op room left, rest) := by
  rw [atLevel_rung, hleft]
  exact chain_chainWords hop room left htaken hrest

/-- A word of which the highest expression is spelled. -/
inductive Plain : Token → Prop
  | atom : Plain (.ident "a")
  | symbol (s : Symbol) : Plain (.symbol s)

/-- With some room, some words are parsed to an expression as high as the room allows. -/
def Reaches (room : Nat) (level : Level) : Prop :=
  ∃ ts e, (∀ t ∈ ts, Plain t) ∧ e.height = levelHeight room level ∧
    ∀ ⦃src taken rest⦄, words taken = ts → Ends level rest → atLevel src room level (taken ++ rest) = .ok (e, rest)

namespace Reaches

/-- A chain with as many operators as there is room makes the most of a rung. -/
theorem rung {room : Nat} {r : Rung} (h : Reaches room r.operands) : Reaches room (.rung r) := by
  obtain ⟨symbol, op, hop⟩ : ∃ symbol op, r.Operator symbol op := by
    cases r with
    | disjunction => exact ⟨_, _, .or⟩
    | conjunction => exact ⟨_, _, .and⟩
    | equality => exact ⟨_, _, .looseEq⟩
    | comparison => exact ⟨_, _, .lt⟩
    | concatenation => exact ⟨_, _, .concat⟩
  have hplain (n : Nat) : ∀ t ∈ chainWords symbol n, Plain t := by
    induction n with
    | zero => exact nofun
    | succ n ih =>
      simp only [chainWords, List.forall_mem_cons]
      exact ⟨.symbol symbol, .atom, ih⟩
  obtain ⟨ts, e, hts, hheight, hparsed⟩ := h
  refine ⟨ts ++ chainWords symbol room, chained op room e, ?_, ?_, ?_⟩
  · exact List.forall_mem_append.mpr ⟨hts, hplain room⟩
  · rw [height_chained, hheight, levelHeight_rung]
  · intro src taken rest htaken hrest
    obtain ⟨first, behind, rfl, hfirst, hbehind⟩ := List.map_eq_append_iff.mp (show List.map _ _ = _ from htaken)
    rw [List.append_assoc]
    exact atLevel_chainWords hop (hparsed hfirst (ends_chainWords hop hbehind hrest)) hbehind hrest

/-- A group makes the most of an operand, unless there is room for nothing but the parentheses or not even for them. -/
theorem unary (room : Nat) (h : ∀ less, room = less + 2 → Reaches (less + 1) (.rung .disjunction)) : Reaches room .unary := by
  match room, h with
  | 0, _ =>
    refine ⟨[.ident "a"], atom, by simpa using .atom, rfl, ?_⟩
    intro src taken rest htaken hrest
    exact (parses_of_spelled src (spelled_atom .unary)).ok htaken hrest (Nat.le_refl _)
  | 1, _ =>
    refine ⟨[.symbol .not, .ident "a"], .not atom, by simpa using ⟨.symbol .not, .atom⟩, rfl, ?_⟩
    intro src taken rest htaken hrest
    exact (parses_of_spelled src (.not (spelled_atom .unary))).ok htaken hrest (Nat.le_refl _)
  | room + 2, h =>
    obtain ⟨ts, e, hts, hheight, hparsed⟩ := h room rfl
    refine ⟨.symbol .openParen :: (ts ++ [.symbol .closeParen]), e, ?_, ?_, ?_⟩
    · simpa [or_imp, forall_and] using ⟨.symbol .openParen, hts, .symbol .closeParen⟩
    · have hgroup : operandHeight (room + 2) = max (operandHeight (room + 1) + 1) (operandHeight (room + 1) + 5 * (room + 1)) := rfl
      rw [hheight, levelHeight_disjunction, levelHeight_unary, hgroup]
      omega
    · intro src taken rest htaken _
      obtain ⟨offset, _, rfl, hinside⟩ := words_eq_cons htaken
      obtain ⟨taken, _, rfl, hinner, hclose⟩ := List.map_eq_append_iff.mp (show List.map _ _ = _ from hinside)
      obtain ⟨offset', _, rfl, hnone⟩ := words_eq_cons hclose
      obtain rfl := List.map_eq_nil_iff.mp hnone
      rw [atLevel_unary, List.cons_append, List.append_assoc, operand_group]
      show Except.bind (atLevel src (room + 1) (.rung .disjunction) (taken ++ ⟨.symbol .closeParen, offset'⟩ :: rest)) _ = _
      rw [hparsed hinner (ends_closeParen _ offset' rest)]
      rfl

/-- Expressions of the widest rung are as high as the room lets them be. -/
theorem disjunction (room : Nat) : Reaches room (.rung .disjunction) := by
  induction room using Nat.strongRecOn with
  | ind room ih => exact (Level.climbing (unary room fun less h => ih (less + 1) (by omega)) (fun _ => rung) .disjunction).2

end Reaches

end Parser

/-! ## Texts of plain words -/

namespace Lexer

/-- A token and those of the text behind it. -/
theorem tokensFrom_lexeme {c : Char} {rest : List Char} {token : Token} {n offset : Nat} {tokens : List Spanned}
    (hblank : Text.isBlank c = false) (hlexeme : lexeme c rest = .ok (token, n))
    (hrest : tokensFrom (offset + Text.byteLength (c :: rest.take n)) (rest.drop n) = .ok tokens) :
    tokensFrom offset (c :: rest) = .ok (⟨token, offset⟩ :: tokens) := by
  rw [tokensFrom, hblank, hlexeme]
  simp only [Bool.false_eq_true, if_false, hrest]

/-- How a plain word is written. -/
def plainText : Token → List Char
  | .symbol s => s.spelling
  | .ident _ | .number _ | .text _ => ['a']

/-- Before a blank, a plain word is the longest token. -/
theorem lexeme_plain {t : Token} (h : Parser.Plain t) (rest : List Char) :
    ∃ c tail, plainText t = c :: tail ∧ Text.isBlank c = false ∧ lexeme c (tail ++ ' ' :: rest) = .ok (t, tail.length) := by
  cases h with
  | atom => exact ⟨'a', [], rfl, by decide, rfl⟩
  | symbol s => cases s <;> exact ⟨_, _, rfl, by decide, rfl⟩

/-- Plain words with a blank behind each are tokenized to these words. -/
theorem tokensFrom_plain {ts : List Token} (h : ∀ t ∈ ts, Parser.Plain t) (offset : Nat) :
    ∃ tokens, tokensFrom offset (ts.flatMap fun t => plainText t ++ [' ']) = .ok tokens ∧ words tokens = ts := by
  induction ts generalizing offset with
  | nil => exact ⟨[], by rw [List.flatMap_nil, tokensFrom], rfl⟩
  | cons t ts ih =>
    obtain ⟨ht, hts⟩ := List.forall_mem_cons.mp h
    obtain ⟨c, tail, htext, hblank, hlexeme⟩ := lexeme_plain ht (ts.flatMap fun t => plainText t ++ [' '])
    obtain ⟨tokens, htokens, hwords⟩ := ih hts (offset + Text.byteLength (c :: tail) + ' '.utf8Size)
    refine ⟨⟨t, offset⟩ :: tokens, ?_, by rw [words_cons, hwords]⟩
    rw [List.flatMap_cons, htext, List.append_assoc, List.cons_append, List.singleton_append]
    refine tokensFrom_lexeme hblank hlexeme ?_
    rw [List.take_left, List.drop_left, tokensFrom, if_pos (by decide), htokens]

/-- A name ends where no more characters of names come. -/
theorem lexeme_atom {rest : List Char} (h : rest.takeWhile isNameChar = []) : lexeme 'a' rest = .ok (.ident "a", 0) := by
  show Except.ok (Token.ident (String.ofList ('a' :: rest.takeWhile isNameChar)), (rest.takeWhile isNameChar).length) = _
  rw [h]
  rfl

/-- The operators of a chain need no blanks around them. -/
theorem tokensFrom_chain (n offset : Nat) :
    ∃ tokens, tokensFrom offset ((List.replicate n "||a").flatMap String.toList) = .ok tokens ∧
      words tokens = Parser.chainWords .or n := by
  induction n generalizing offset with
  | zero => exact ⟨[], by rw [List.replicate_zero, List.flatMap_nil, tokensFrom], rfl⟩
  | succ n ih =>
    have hend : ((List.replicate n "||a").flatMap String.toList).takeWhile isNameChar = [] := by cases n <;> rfl
    obtain ⟨tokens, htokens, hwords⟩ := ih (offset + 2 + 1)
    refine ⟨⟨.symbol .or, offset⟩ :: ⟨.ident "a", offset + 2⟩ :: tokens, ?_, by rw [words_cons, words_cons, hwords, Parser.chainWords]⟩
    exact tokensFrom_lexeme (by decide) rfl (tokensFrom_lexeme (by decide) (lexeme_atom hend) htokens)

end Lexer

/-! ## Whole texts -/

/-- What a text is parsed to is what its tokens are parsed to. -/
theorem Expr.parse_eq_ok {src : String} {e : Expr} : Expr.parse src = .ok e ↔
    ∃ tokens, tokenize src = .ok tokens ∧ Parser.parseTokens src.toList tokens = .ok e := by
  unfold Expr.parse
  cases htokens : tokenize src with
  | error err => simp [bind, Except.bind]
  | ok tokens =>
    cases hresult : Parser.parseTokens src.toList tokens with
    | error flaw => simp [bind, Except.bind, Except.mapError, hresult]
    | ok e' => simp [bind, Except.bind, Except.mapError, hresult]

namespace Parser

/-- All of the tokens are parsed to an expression when the loosest level is, with nothing left. -/
theorem parseTokens_eq_ok {src : List Char} {ts : List Spanned} {e : Expr} :
    parseTokens src ts = .ok e ↔ atLevel src maxNesting (.rung .disjunction) ts = .ok (e, []) := by
  cases ts with
  | nil => exact ⟨nofun, nofun⟩
  | cons t ts =>
    rw [parseTokens_eq]
    cases atLevel src maxNesting (.rung .disjunction) (t :: ts) with
    | error flaw => exact ⟨nofun, nofun⟩
    | ok p =>
      obtain ⟨e', rest⟩ := p
      cases rest with
      | nil => simp [Except.bind]
      | cons t rest => exact ⟨nofun, nofun⟩

end Parser

/-- The greatest height that the room for nesting allows. -/
theorem Parser.levelHeight_maxNesting : levelHeight maxNesting (.rung .disjunction) = 41281 := by decide +kernel

/-- Some text is parsed to an expression that is as high as the room for nesting allows. -/
theorem Expr.highest_parsed : ∃ src e, Expr.parse src = .ok e ∧ e.height = 41281 := by
  obtain ⟨ts, e, hts, hheight, hparsed⟩ := Parser.Reaches.disjunction Parser.maxNesting
  obtain ⟨tokens, htokens, hwords⟩ := Lexer.tokensFrom_plain hts 0
  refine ⟨String.ofList (ts.flatMap fun t => Lexer.plainText t ++ [' ']), e, Expr.parse_eq_ok.mpr ⟨tokens, ?_, ?_⟩,
    hheight.trans Parser.levelHeight_maxNesting⟩
  · rw [tokenize, String.toList_ofList, htokens]
    rfl
  · have hall := @hparsed (String.ofList (ts.flatMap fun t => Lexer.plainText t ++ [' '])).toList tokens [] hwords (Parser.ends_nil _)
    rw [List.append_nil] at hall
    exact Parser.parseTokens_eq_ok.mpr hall

/-- No text is parsed to an expression with more than 128 negations and right operands on a way to a leaf. All negations and operators
on such a way may be 41281, but no more than 128 if the text has no more negations, operators and parentheses in all. -/
theorem Expr.height_of_parsed {src : String} {e : Expr} (h : Expr.parse src = .ok e) :
    e.rightHeight ≤ Parser.maxNesting ∧ e.height ≤ 41281 ∧
      ∀ tokens, tokenize src = .ok tokens → nestings (words tokens) ≤ Parser.maxNesting → e.height ≤ Parser.maxNesting := by
  obtain ⟨tokens, htokens, hparsed⟩ := Expr.parse_eq_ok.mp h
  obtain ⟨hheight, hright⟩ :=
    ((Parser.low Parser.maxNesting).atLevel .disjunction).2 _ _ _ (Parser.parseTokens_eq_ok.mp hparsed)
  refine ⟨hright, Parser.levelHeight_maxNesting ▸ hheight, ?_⟩
  intro tokens' htokens' hfew
  obtain rfl := Except.ok.inj (htokens.symm.trans htokens')
  exact (Parser.height_le_nestings (Parser.spelled_of_parseTokens (tokenize_fits htokens) hparsed)).trans hfew

/-- A short text and its height. -/
theorem Expr.height_of_parsed_of_mixture : ∃ e tokens, Expr.parse "!(a || b) == c && d" = .ok e ∧ e.rightHeight = 2 ∧ e.height = 4 ∧
    tokenize "!(a || b) == c && d" = .ok tokens ∧ nestings (words tokens) = 5 ∧
    e.rightHeight ≤ Parser.maxNesting ∧ e.height ≤ Parser.maxNesting := by
  obtain ⟨e, he⟩ : ∃ e, Expr.parse "!(a || b) == c && d" = .ok e := ⟨_, by cbv⟩
  obtain ⟨tokens, htokens, -⟩ := Expr.parse_eq_ok.mp he
  have hheights : (Expr.parse "!(a || b) == c && d").toOption.map (fun e => (e.rightHeight, e.height)) = some (2, 4) := by
    decide +kernel
  have hnestings : (tokenize "!(a || b) == c && d").toOption.map (fun tokens => nestings (words tokens)) = some 5 := by
    decide +kernel
  rw [he] at hheights
  rw [htokens] at hnestings
  obtain ⟨hright, hheight⟩ := Prod.mk.inj (Option.some.inj hheights)
  have hfive : nestings (words tokens) = 5 := Option.some.inj hnestings
  obtain ⟨hlow, -, hfew⟩ := Expr.height_of_parsed he
  exact ⟨e, tokens, he, hright, hheight, htokens, hfive, hlow, hfew tokens htokens (by rw [hfive]; decide)⟩

/-- A negation in front of a chain of 128 operators gives back the room that it took: the tree is 129 high. -/
theorem Expr.negation_before_chain_too_high : ∃ e, Expr.parse ("!a" ++ String.join (List.replicate 128 "||a")) = .ok e ∧
    Parser.maxNesting = 128 ∧ e.height = 129 := by
  obtain ⟨behind, hbehind, hwords⟩ := Lexer.tokensFrom_chain 128 2
  have htokens : Lexer.tokensFrom 0 ("!a" ++ String.join (List.replicate 128 "||a")).toList =
      .ok (⟨.symbol .not, 0⟩ :: ⟨.ident "a", 1⟩ :: behind) := by
    rw [String.toList_append, String.toList_join]
    exact Lexer.tokensFrom_lexeme (by decide) rfl (Lexer.tokensFrom_lexeme (by decide) (Lexer.lexeme_atom rfl) hbehind)
  have hnegation : Expr.Spelled (.rung .conjunction) [.symbol .not, .ident "a"] (.not Parser.atom) :=
    Parser.spelled_rung (.not (Parser.spelled_atom .unary)) .conjunction
  have hparsed (src : List Char) :
      Parser.atLevel src Parser.maxNesting (.rung .disjunction) (⟨.symbol .not, 0⟩ :: ⟨.ident "a", 1⟩ :: behind) =
        .ok (Parser.chained .or 128 (.not Parser.atom), []) := by
    have hstart : words [⟨.symbol .not, 0⟩, ⟨.ident "a", 1⟩] = [.symbol .not, .ident "a"] := rfl
    have hnone := Parser.ends_nil (.rung .disjunction)
    have hfirst := (Parser.parses_of_spelled src hnegation).ok hstart (Parser.ends_chainWords .or hwords hnone)
      (by decide : nestings [.symbol .not, .ident "a"] ≤ Parser.maxNesting)
    have hall := Parser.atLevel_chainWords .or hfirst hwords hnone
    rw [List.append_nil] at hall
    exact hall
  refine ⟨Parser.chained .or 128 (.not Parser.atom), Expr.parse_eq_ok.mpr ⟨_, ?_, Parser.parseTokens_eq_ok.mpr (hparsed _)⟩, rfl, ?_⟩
  · rw [tokenize, htokens]
    rfl
  · rw [Parser.height_chained]
    rfl

end Runbook
