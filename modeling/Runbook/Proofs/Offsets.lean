import Mathlib
import Runbook.Proofs.Tokens

/-!
# Offsets and boundaries

Offsets are counted in bytes, while a text is read by characters. Every offset of a token or of a fault is the boundary of a character, and
whatever is cut out of a text lies between two boundaries.
-/

namespace Runbook

namespace Text

/-- The length of characters in bytes is that of their text. -/
theorem byteLength_eq (s : List Char) : byteLength s = (String.ofList s).utf8ByteSize := by
  induction s with
  | nil => rfl
  | cons c s ih =>
    rw [byteLength_cons, ih, ← List.singleton_append, String.ofList_append, String.utf8ByteSize_append, ← String.singleton_eq_ofList,
      String.utf8ByteSize_singleton]

/-- The length of a text in bytes is that of its characters. -/
theorem byteLength_toList (s : String) : byteLength s.toList = s.utf8ByteSize := by
  rw [byteLength_eq, String.ofList_toList]

/-- The part of a text between two byte positions, with whole characters before and behind it. -/
def Slice (src : String) (start stop : Nat) (part : String) : Prop :=
  ∃ before after : String, src = before ++ part ++ after ∧ before.utf8ByteSize = start ∧ start + part.utf8ByteSize = stop

/-- Where a part of a text ends, there is a valid position. -/
theorem isValid_byteLength {src : String} {before after : List Char} (h : src.toList = before ++ after) :
    (⟨byteLength before⟩ : String.Pos.Raw).IsValid src := by
  refine String.Pos.Raw.isValid_iff_exists_append.mpr ⟨String.ofList before, String.ofList after, ?_, ?_⟩
  · rw [← String.ofList_append, ← h, String.ofList_toList]
  · rw [byteLength_eq]
    rfl

/-- A part of a text is what its positions cut out. -/
theorem slice_byteLength {src : String} {before part after : List Char} (h : src.toList = before ++ (part ++ after)) :
    Slice src (byteLength before) (byteLength before + byteLength part) (String.ofList part) := by
  refine ⟨String.ofList before, String.ofList after, ?_, (byteLength_eq before).symm, by rw [byteLength_eq part]⟩
  rw [← String.ofList_append, ← String.ofList_append, List.append_assoc, ← h, String.ofList_toList]

/-- The first characters of a rest are what their positions cut out. -/
theorem slice_takeWhile {src : String} {before after : List Char} (h : src.toList = before ++ after) (p : Char → Bool) :
    Slice src (byteLength before) (byteLength before + byteLength (after.takeWhile p)) (String.ofList (after.takeWhile p)) := by
  have hsplit : src.toList = before ++ (after.takeWhile p ++ after.dropWhile p) := by rw [List.takeWhile_append_dropWhile, h]
  exact slice_byteLength hsplit

/-- Characters take bytes. -/
theorem byteLength_pos {s : List Char} (h : s ≠ []) : 0 < byteLength s := by
  obtain ⟨c, s, rfl⟩ := List.exists_cons_of_ne_nil h
  exact Nat.add_pos_left (Char.utf8Size_pos c) _

end Text

/-! ## Tokens and faults of a text -/

namespace Lexer

/-- The token of a piece starts where its spelling does. -/
theorem exists_of_mem_placed {offset : Nat} {ps : List Piece} (tail : List Char) (hps : ∀ p ∈ ps, Reads p.token p.text) {t : Spanned}
    (ht : t ∈ placed offset ps) :
    ∃ before text after, layout ps tail = before ++ (text ++ after) ∧ t.offset = offset + Text.byteLength before ∧ Reads t.token text := by
  induction ps generalizing offset with
  | nil => cases ht
  | cons p ps ih =>
    obtain ⟨hp, hps⟩ := List.forall_mem_cons.mp hps
    rcases List.mem_cons.mp ht with rfl | ht
    · exact ⟨p.gap, p.text, layout ps tail, rfl, rfl, hp⟩
    · obtain ⟨before, text, after, hlayout, hoffset, hreads⟩ := ih hps ht
      refine ⟨p.gap ++ (p.text ++ before), text, after, ?_, ?_, hreads⟩
      · rw [List.append_assoc, List.append_assoc, ← hlayout]
        rfl
      · rw [hoffset, Text.byteLength_append, Text.byteLength_append]
        omega

/-- The offsets of tokens that are placed one after the other increase. -/
theorem pairwise_placed {offset : Nat} {ps : List Piece} (hps : ∀ p ∈ ps, Reads p.token p.text) :
    ((placed offset ps).map (·.offset)).Pairwise (· < ·) := by
  induction ps generalizing offset with
  | nil => exact List.Pairwise.nil
  | cons p ps ih =>
    obtain ⟨hp, hps⟩ := List.forall_mem_cons.mp hps
    refine List.pairwise_cons.mpr ⟨?_, ih hps⟩
    intro o ho
    obtain ⟨t, ht, rfl⟩ := List.mem_map.mp ho
    obtain ⟨before, -, -, -, hoffset, -⟩ := exists_of_mem_placed [] hps ht
    have hpos := Text.byteLength_pos hp.ne_nil
    dsimp only
    omega

/-- A text has no tokens because of a place in it where none begins. -/
theorem exists_of_tokensFrom_error {offset : Nat} {s : List Char} {flaw : Flaw} (h : tokensFrom offset s = .error flaw) :
    ∃ before c rest fault, s = before ++ c :: rest ∧ flaw = .fault (offset + Text.byteLength before) fault ∧
      lexeme c rest = .error fault := by
  fun_induction tokensFrom offset s generalizing flaw with
  | case1 => cases h
  | case2 offset c rest _ ih =>
    obtain ⟨before, c', rest', fault, rfl, rfl, hfault⟩ := ih h
    exact ⟨c :: before, c', rest', fault, rfl, by rw [Text.byteLength_cons, Nat.add_assoc], hfault⟩
  | case3 offset c rest _ fault hfault =>
    cases h
    exact ⟨[], c, rest, fault, rfl, rfl, hfault⟩
  | case4 => cases h
  | case5 offset c rest _ token n _ flaw' hflaw ih =>
    obtain rfl := Except.error.inj h
    obtain ⟨before, c', rest', fault, hrest, rfl, hfault⟩ := ih hflaw
    refine ⟨c :: (rest.take n ++ before), c', rest', fault, ?_, ?_, hfault⟩
    · rw [List.cons_append, List.append_assoc, ← hrest, List.take_append_drop]
    · rw [Text.byteLength_cons, Text.byteLength_cons, Text.byteLength_append]
      congr 1
      omega

/-- A number that is out of range is spelled by digits and maybe a fraction. -/
theorem exists_numeral {c : Char} {s : List Char} (h : lexeme c s = .error .numberOutOfRange) :
    ∃ digits places rest, s = digits ++ (Json.fractionText places ++ rest) ∧ numberOf? (c :: digits) places = none := by
  unfold lexeme at h
  split at h
  · cases h
  · split at h
    · split at h <;> cases h
    · dsimp only at h
      split at h
      · split at h
        · cases h
        · rename_i hnumber
          obtain ⟨-, rest, hrest⟩ := exists_fraction (s.dropWhile Char.isDigit)
          exact ⟨_, _, rest, by rw [← hrest, List.takeWhile_append_dropWhile], hnumber⟩
      · split at h
        · cases h
        · split at h
          · cases h
          · split at h <;> cases h

end Lexer

/-- An error of tokens is a flaw in the text. -/
theorem tokenize_eq_error {src : String} {err : ExprError} (h : tokenize src = .error err) :
    ∃ flaw, Lexer.tokensFrom 0 src.toList = .error flaw ∧ err = ⟨src, flaw⟩ := by
  unfold tokenize at h
  cases htokens : Lexer.tokensFrom 0 src.toList with
  | error flaw =>
    rw [htokens] at h
    exact ⟨flaw, rfl, (Except.error.inj h).symm⟩
  | ok ts =>
    rw [htokens] at h
    cases h

/-- A token stands at its offset. -/
theorem exists_of_mem_tokens {src : String} {ts : List Spanned} (h : tokenize src = .ok ts) {t : Spanned} (ht : t ∈ ts) :
    ∃ before text after, src.toList = before ++ (text ++ after) ∧ t.offset = Text.byteLength before ∧ Lexer.Reads t.token text := by
  obtain ⟨ps, tail, hsrc, rfl, -, hps⟩ := Lexer.exists_layout (tokenize_eq_ok.mp h)
  obtain ⟨before, text, after, hlayout, hoffset, hreads⟩ := Lexer.exists_of_mem_placed tail (fun p hp => (hps p hp).2) ht
  exact ⟨before, text, after, hsrc.trans hlayout, hoffset.trans (Nat.zero_add _), hreads⟩

/-! ## Where a parser fails -/

/-- A flaw is at a token or at the end of the text, or is a segment of a path: nothing, an opening bracket with or without a number, or what
the text has from a token on, with or without an opening bracket. -/
def Flaw.Placed (src : List Char) (ts : List Spanned) : Flaw → Prop
  | .fault offset _ => offset = Text.byteLength src ∨ ∃ t ∈ ts, t.offset = offset
  | .segment text => (text = "" ∨ text = "[" ∨ ∃ i : Nat, text = s!"[{i}") ∨
      ∃ t ∈ ts, text = Parser.segmentText src t.offset ∨ text = "[" ++ Parser.segmentText src t.offset

namespace Parser

variable {src : List Char} {ts rest : List Spanned}

/-- A parser leaves some of its tokens, or fails at one of them or at the end of the text. -/
def Stays (src : List Char) (ts : List Spanned) : Except Flaw (Parsed α) → Prop
  | .ok (_, rest) => rest ⊆ ts
  | .error flaw => flaw.Placed src ts

/-- A fault is placed where the rest of the tokens begins, or at the end. -/
theorem placed_faultAt (h : rest ⊆ ts) (fault : Fault) : (faultAt src rest fault).Placed src ts := by
  cases rest with
  | nil => exact Or.inl rfl
  | cons t rest => exact Or.inr ⟨t, h List.mem_cons_self, rfl⟩

/-- A parser that is given fewer tokens stays among all of them. -/
theorem Stays.mono {x : Except Flaw (Parsed α)} (hx : Stays src rest x) (h : rest ⊆ ts) : Stays src ts x := by
  rcases x with flaw | ⟨a, rest'⟩
  · cases flaw with
    | fault offset fault => exact hx.imp_right fun ⟨t, ht, hoffset⟩ => ⟨t, h ht, hoffset⟩
    | segment text => exact hx.imp_right fun ⟨t, ht, htext⟩ => ⟨t, h ht, htext⟩
  · exact fun t ht => h (hx ht)

/-- Two steps of a parser stay in the text if each of them does. -/
theorem Stays.bind {x : Except Flaw (Parsed α)} {f : Parsed α → Except Flaw (Parsed β)} (hx : Stays src ts x)
    (hf : ∀ a rest, rest ⊆ ts → Stays src ts (f (a, rest))) : Stays src ts (x.bind f) := by
  rcases x with flaw | ⟨a, rest⟩
  · exact hx
  · exact hf a rest hx

/-- The errors of segments stay in the text. -/
theorem segments_stays (src : List Char) (ts : List Spanned) : Stays src ts (segments src ts) := by
  fun_induction segments src ts with
  | case1 _ name _ rest ih => exact (ih.mono fun t ht => by simp [ht]).bind fun path rest' h => h
  | case2 _ t rest _ => exact Or.inr ⟨t, by simp, Or.inl rfl⟩
  | case3 => exact Or.inl (Or.inl rfl)
  | case4 _ n offset rest => exact Or.inr ⟨⟨.number n, offset⟩, by simp, Or.inl rfl⟩
  | case5 _ n offset i _ rest _ ih => exact (ih.mono fun t ht => by simp [ht]).bind fun path rest' h => h
  | case6 _ n offset rest i => exact Or.inl (Or.inr (Or.inr ⟨i, rfl⟩))
  | case7 _ t rest => exact Or.inr ⟨t, by simp, Or.inr rfl⟩
  | case8 => exact Or.inl (Or.inr (Or.inl rfl))
  | case9 => exact List.Subset.refl _

/-- The errors of leaves stay in the text. -/
theorem leaf_stays (src : List Char) (ts : List Spanned) : Stays src ts (leaf src ts) := by
  unfold leaf
  split
  · exact Or.inl rfl
  case h_8 rest _ _ _ _ => exact ((segments_stays src rest).mono (List.subset_cons_self _ _)).bind fun path rest' h => h
  case h_9 token offset rest _ _ _ _ _ _ _ => exact Or.inr ⟨⟨token, offset⟩, by simp, rfl⟩
  all_goals exact List.subset_cons_self _ _

/-- With some room, operands and chains leave some of their tokens or fail at them. -/
structure Steps (src : List Char) (room : Nat) : Prop where
  operand : ∀ ts, Stays src ts (operand src room ts)
  chain : ∀ r left ts, Stays src ts (chain src room r left ts)

/-- What holds of operands and chains holds of the levels that they make up. -/
theorem Steps.atLevel {room : Nat} (hs : Steps src room) (r : Rung) :
    (∀ ts, Stays src ts (atLevel src room r.operands ts)) ∧ ∀ ts, Stays src ts (Parser.atLevel src room (.rung r) ts) := by
  refine Level.climbing (P := fun level => ∀ ts, Stays src ts (Parser.atLevel src room level ts)) ?_ ?_ r
  · intro ts
    rw [atLevel_unary]
    exact hs.operand ts
  · intro r ih ts
    rw [atLevel_rung]
    exact (ih ts).bind fun left rest h => (hs.chain r left rest).mono h

/-- What is nested is parsed with less room. -/
theorem Steps.of_nested {room : Nat} (hs : ∀ less, room = less + 1 → Steps src less) : Steps src room := by
  constructor
  · intro ts
    rcases operand_cases src ts with ⟨offset, ts, rfl⟩ | ⟨offset, ts, rfl⟩ | hleaf
    · cases room with
      | zero =>
        rw [Parser.operand]
        exact placed_faultAt (List.subset_cons_self _ _) .tooDeep
      | succ room =>
        rw [operand_not]
        exact (((hs room rfl).operand ts).mono (List.subset_cons_self _ _)).bind fun e rest h => h
    · cases room with
      | zero =>
        rw [Parser.operand]
        exact placed_faultAt (List.subset_cons_self _ _) .tooDeep
      | succ room =>
        rw [operand_group]
        refine ((((hs room rfl).atLevel .disjunction).2 ts).mono (List.subset_cons_self _ _)).bind fun e rest h => ?_
        split
        · rename_i hsplit
          obtain ⟨-, rfl⟩ := Prod.mk.inj hsplit
          exact (List.cons_subset.mp h).2
        · rename_i t _ _ hsplit
          obtain ⟨-, rfl⟩ := Prod.mk.inj hsplit
          exact Or.inr ⟨t, h List.mem_cons_self, rfl⟩
        · exact Or.inl rfl
    · rw [hleaf]
      exact leaf_stays src ts
  · intro r left ts
    rcases chain_cases src r ts with ⟨symbol, op, offset, ts, hop, rfl⟩ | hend
    · cases room with
      | zero =>
        rw [Parser.chain, Rung.operator?_eq_some.mpr hop]
        exact placed_faultAt (List.subset_cons_self _ _) .tooDeep
      | succ room =>
        rw [chain_operator hop]
        exact ((((hs room rfl).atLevel r).1 ts).mono (List.subset_cons_self _ _)).bind fun right rest h =>
          ((hs room rfl).chain r _ rest).mono h
    · rw [hend]
      exact List.Subset.refl _

/-- The errors of every level stay in the text. -/
theorem steps (src : List Char) (room : Nat) : Steps src room := by
  induction room with
  | zero => exact .of_nested nofun
  | succ room ih => exact .of_nested fun less h => Nat.succ.inj h ▸ ih

/-- Tokens that are no expression have a flaw at one of them or at an end of the text. -/
theorem placed_of_parseTokens {flaw : Flaw} (h : parseTokens src ts = .error flaw) : flaw = .fault 0 .empty ∨ flaw.Placed src ts := by
  cases ts with
  | nil => exact Or.inl (Except.error.inj h).symm
  | cons t ts =>
    have hstays := ((steps src maxNesting).atLevel .disjunction).2 (t :: ts)
    rw [parseTokens_eq] at h
    refine Or.inr ?_
    cases hparsed : atLevel src maxNesting (.rung .disjunction) (t :: ts) with
    | error flaw' =>
      rw [hparsed] at h hstays
      obtain rfl := Except.error.inj h
      exact hstays
    | ok p =>
      obtain ⟨e, rest⟩ := p
      rw [hparsed] at h hstays
      cases rest with
      | nil => cases h
      | cons t' rest =>
        obtain rfl := Except.error.inj h
        exact Or.inr ⟨t', hstays List.mem_cons_self, rfl⟩

/-- The text of a segment is cut out of the source from the token on. -/
theorem slice_segmentText {src : String} {before after : List Char} (h : src.toList = before ++ after) :
    ∃ stop, Text.Slice src (Text.byteLength before) stop (segmentText src.toList (Text.byteLength before)) := by
  unfold segmentText
  rw [h, Text.fromByte_byteLength]
  exact ⟨_, Text.slice_takeWhile h _⟩

end Parser

/-- An offset that a fault may have: the boundary of a character, the end of the text among them. -/
def Text.Boundary (src : String) (offset : Nat) : Prop := (⟨offset⟩ : String.Pos.Raw).IsValid src ∧ offset ≤ src.utf8ByteSize

/-- Where a part of a text ends, there is a boundary. -/
theorem Text.boundary_byteLength {src : String} {before after : List Char} (h : src.toList = before ++ after) :
    Text.Boundary src (Text.byteLength before) := by
  refine ⟨Text.isValid_byteLength h, ?_⟩
  rw [← Text.byteLength_toList, h, Text.byteLength_append]
  exact Nat.le_add_right _ _

/-- A placed fault is at a boundary when the tokens are. -/
theorem Flaw.Placed.boundary {src : String} {ts : List Spanned} (h : tokenize src = .ok ts) {offset : Nat} {fault : Fault}
    (hplaced : Flaw.Placed src.toList ts (.fault offset fault)) : Text.Boundary src offset := by
  rcases hplaced with rfl | ⟨t, ht, rfl⟩
  · exact Text.boundary_byteLength (List.append_nil _).symm
  · obtain ⟨before, text, after, hsrc, hoffset, -⟩ := exists_of_mem_tokens h ht
    exact hoffset ▸ Text.boundary_byteLength hsrc

/-- A text that is no expression has no tokens, or its tokens are no expression. -/
theorem parse_eq_error {src : String} {err : ExprError} (h : Expr.parse src = .error err) :
    tokenize src = .error err ∨ ∃ ts flaw, tokenize src = .ok ts ∧ Parser.parseTokens src.toList ts = .error flaw ∧ err = ⟨src, flaw⟩ := by
  unfold Expr.parse at h
  cases htokens : tokenize src with
  | error err' =>
    rw [htokens] at h
    obtain rfl := Except.error.inj h
    exact Or.inl rfl
  | ok ts =>
    rw [htokens] at h
    change (Parser.parseTokens src.toList ts).mapError _ = _ at h
    cases hparsed : Parser.parseTokens src.toList ts with
    | ok e =>
      rw [hparsed] at h
      cases h
    | error flaw =>
      rw [hparsed] at h
      exact Or.inr ⟨ts, flaw, rfl, hparsed, (Except.error.inj h).symm⟩

/-- The fault of a text without tokens is at the boundary of a character; a number out of range is cut out of the text. -/
theorem exists_of_tokenize_error {src : String} {err : ExprError} (h : tokenize src = .error err) :
    ∃ offset fault, err = ⟨src, .fault offset fault⟩ ∧ Text.Boundary src offset ∧
      (fault = .numberOutOfRange → ∃ stop digits places, Lexer.numberOf? digits places = none ∧
        Text.Slice src offset stop (String.ofList (digits ++ Json.fractionText places))) := by
  obtain ⟨flaw, hflaw, rfl⟩ := tokenize_eq_error h
  obtain ⟨before, c, rest, fault, hsrc, rfl, hfault⟩ := Lexer.exists_of_tokensFrom_error hflaw
  rw [Nat.zero_add]
  refine ⟨_, fault, rfl, Text.boundary_byteLength hsrc, ?_⟩
  rintro rfl
  obtain ⟨digits, places, tail, rfl, hnumber⟩ := Lexer.exists_numeral hfault
  have hcut : src.toList = before ++ ((c :: digits ++ Json.fractionText places) ++ tail) := by
    rw [hsrc, List.append_assoc, List.cons_append]
  exact ⟨_, c :: digits, places, hnumber, Text.slice_byteLength hcut⟩

/-- Tokens start at boundaries below the length, one behind the other, and what is cut out for one is its spelling. Every fault is at a
boundary up to the length, and the text of a malformed segment is cut out of the source. -/
theorem offsets_at_boundaries (src : String) :
    (∀ ts, tokenize src = .ok ts → (ts.map (·.offset)).Pairwise (· < ·) ∧ ∀ t ∈ ts,
      Text.Boundary src t.offset ∧ t.offset < src.utf8ByteSize ∧
      (∃ stop text, Text.Slice src t.offset stop text ∧ tokenize text = .ok [⟨t.token, 0⟩]) ∧
      ∃ stop, Text.Slice src t.offset stop (Parser.segmentText src.toList t.offset)) ∧
    (∀ err, tokenize src = .error err → ∃ offset fault, err = ⟨src, .fault offset fault⟩ ∧ Text.Boundary src offset ∧
      (fault = .numberOutOfRange → ∃ stop digits places, Lexer.numberOf? digits places = none ∧
        Text.Slice src offset stop (String.ofList (digits ++ Json.fractionText places)))) ∧
    ∀ err, Expr.parse src = .error err → err.expression = src ∧
      (∀ offset fault, err.flaw = .fault offset fault → Text.Boundary src offset) ∧
      ∀ text, err.flaw = .segment text → (text = "" ∨ text = "[" ∨ ∃ i : Nat, text = s!"[{i}") ∨
        ∃ ts, tokenize src = .ok ts ∧ ∃ t ∈ ts,
          text = Parser.segmentText src.toList t.offset ∨ text = "[" ++ Parser.segmentText src.toList t.offset := by
  refine ⟨?_, fun err => exists_of_tokenize_error, ?_⟩
  · intro ts h
    refine ⟨?_, ?_⟩
    · obtain ⟨ps, tail, -, rfl, -, hps⟩ := Lexer.exists_layout (tokenize_eq_ok.mp h)
      exact Lexer.pairwise_placed fun p hp => (hps p hp).2
    · intro t ht
      obtain ⟨before, text, after, hsrc, hoffset, hreads⟩ := exists_of_mem_tokens h ht
      rw [hoffset]
      refine ⟨Text.boundary_byteLength hsrc, ?_, ⟨_, _, Text.slice_byteLength hsrc, hreads.tokenize⟩, Parser.slice_segmentText hsrc⟩
      have hpos := Text.byteLength_pos hreads.ne_nil
      rw [← Text.byteLength_toList, hsrc, Text.byteLength_append, Text.byteLength_append]
      omega
  · intro err h
    rcases parse_eq_error h with herr | ⟨ts, flaw, hts, hflaw, rfl⟩
    · obtain ⟨offset, fault, rfl, hboundary, -⟩ := exists_of_tokenize_error herr
      refine ⟨rfl, ?_, nofun⟩
      rintro _ _ ⟨⟩
      exact hboundary
    · have hplaced := Parser.placed_of_parseTokens hflaw
      refine ⟨rfl, ?_, ?_⟩
      · rintro offset fault rfl
        rcases hplaced with hempty | hplaced
        · obtain ⟨rfl, -⟩ := Flaw.fault.inj hempty
          exact Text.boundary_byteLength (List.nil_append _).symm
        · exact hplaced.boundary hts
      · rintro text rfl
        rcases hplaced with hempty | hplaced
        · cases hempty
        · exact hplaced.imp_right fun htext => ⟨ts, hts, htext⟩

/-- The second text in quotes is the eighth character and starts at byte nine, and it is no segment of a path; a name does not begin with an
accent. -/
theorem offsets_at_boundaries_of_accents :
    Text.Boundary "'é' + a.\"é\"" 9 ∧
    (∃ stop text, Text.Slice "'é' + a.\"é\"" 9 stop text ∧ tokenize text = .ok [⟨.text "é", 0⟩]) ∧
    Expr.parse "'é' + a.\"é\"" = .error ⟨"'é' + a.\"é\"", .segment "\"é\""⟩ ∧
    tokenize "'é' é" = .error ⟨"'é' é", .fault 5 (.unexpectedChar 'é')⟩ ∧ Text.Boundary "'é' é" 5 := by
  have htokens : tokenize "'é' + a.\"é\"" =
      .ok [⟨.text "é", 0⟩, ⟨.symbol .plus, 5⟩, ⟨.ident "a", 7⟩, ⟨.symbol .dot, 8⟩, ⟨.text "é", 9⟩] := by cbv
  have hparse : Expr.parse "'é' + a.\"é\"" = .error ⟨"'é' + a.\"é\"", .segment "\"é\""⟩ := by cbv
  have hfault : tokenize "'é' é" = .error ⟨"'é' é", .fault 5 (.unexpectedChar 'é')⟩ := by cbv
  have hnone : Expr.parse "'é' é" = .error ⟨"'é' é", .fault 5 (.unexpectedChar 'é')⟩ := by cbv
  obtain ⟨hboundary, -, hcut, -⟩ := ((offsets_at_boundaries "'é' + a.\"é\"").1 _ htokens).2 ⟨.text "é", 9⟩ (by simp)
  exact ⟨hboundary, hcut, hparse, hfault, ((offsets_at_boundaries "'é' é").2.2 _ hnone).2.1 5 _ rfl⟩

end Runbook
