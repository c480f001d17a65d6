import Mathlib.Data.List.Basic
import Runbook.Proofs.Grammar

/-!
# What is parsed is spelled

The parser follows the levels of the grammar: a level parses its operands and goes on with its chain. What it returns is what the
tokens that it took spell, and with more room it does what it did, unless it had failed for want of room.
-/

namespace Runbook

/-- The tokens without their offsets. -/
def words (ts : List Spanned) : List Token := ts.map (·.token)

@[simp] theorem words_nil : words [] = [] := rfl

@[simp] theorem words_cons (t : Spanned) (ts : List Spanned) : words (t :: ts) = t.token :: words ts := rfl

@[simp] theorem words_append (ts us : List Spanned) : words (ts ++ us) = words ts ++ words us := List.map_append

/-- Where the words begin with a token, the tokens begin with it at some offset. -/
theorem words_eq_cons {ts : List Spanned} {t : Token} {us : List Token} (h : words ts = t :: us) :
    ∃ offset rest, ts = ⟨t, offset⟩ :: rest ∧ words rest = us := by
  obtain ⟨⟨_, offset⟩, rest, rfl, rfl, hrest⟩ := List.map_eq_cons_iff.mp h
  exact ⟨offset, rest, rfl, hrest⟩

/-- The integers among the tokens are of 64 bits. -/
def Fits (ts : List Spanned) : Prop := ∀ t ∈ ts, ∀ n : Nat, t.token = .number (.int n) → n < 2 ^ 64

theorem Fits.right {ts us : List Spanned} (h : Fits (ts ++ us)) : Fits us := fun t ht => h t (List.mem_append_right _ ht)

theorem Fits.tail {t : Spanned} {ts : List Spanned} (h : Fits (t :: ts)) : Fits ts := fun u hu => h u (List.mem_cons_of_mem _ hu)

/-- What goes on with a result has it. -/
theorem ok_of_bind {x : Except ε α} {f : α → Except ε β} {b : β} (h : x.bind f = .ok b) : ∃ a, x = .ok a ∧ f a = .ok b := by
  cases x with
  | error err => cases h
  | ok a => exact ⟨a, rfl, h⟩

namespace Parser

variable {src : List Char}

/-- What a level of the grammar parses to. -/
abbrev atLevel (src : List Char) (room : Nat) (level : Level) : List Spanned → Except Flaw (Parsed Expr) :=
  climb (operand src room) (chain src room) level.rungs

/-- Without rungs there are operands only. -/
theorem climb_nil (operand : List Spanned → Except Flaw (Parsed Expr))
    (chain : Rung → Expr → List Spanned → Except Flaw (Parsed Expr)) (ts : List Spanned) : climb operand chain [] ts = operand ts := by
  unfold climb
  cases operand ts <;> rfl

/-- To climb one rung more is to go on with its chain. -/
theorem climb_concat (operand : List Spanned → Except Flaw (Parsed Expr))
    (chain : Rung → Expr → List Spanned → Except Flaw (Parsed Expr)) (rungs : List Rung) (r : Rung) (ts : List Spanned) :
    climb operand chain (rungs ++ [r]) ts = (climb operand chain rungs ts).bind fun (left, rest) => chain r left rest := by
  have hgo (p : Parsed Expr) : (rungs ++ [r]).foldlM (fun (left, rest) rung => chain rung left rest) p =
      (rungs.foldlM (fun (left, rest) rung => chain rung left rest) p).bind fun (left, rest) => chain r left rest := by
    rw [List.foldlM_append]
    refine bind_congr ?_
    intro q
    simp
  unfold climb
  cases operand ts with
  | error flaw => rfl
  | ok first => exact hgo first

/-- On the unary level an operand is read. -/
theorem atLevel_unary (room : Nat) (ts : List Spanned) : atLevel src room .unary ts = operand src room ts := climb_nil ..

/-- On a rung an operand is read, and then its chain. -/
theorem atLevel_rung (room : Nat) (r : Rung) (ts : List Spanned) :
    atLevel src room (.rung r) ts = (atLevel src room r.operands ts).bind fun (left, rest) => chain src room r left rest := by
  show climb _ _ (r.tighter ++ [r]) ts = (climb _ _ r.operands.rungs ts).bind _
  rw [climb_concat, Level.rungs_operands]

/-- A negation is read with one room less. -/
theorem operand_not (src : List Char) (room offset : Nat) (rest : List Spanned) :
    operand src (room + 1) (⟨.symbol .not, offset⟩ :: rest) =
      (operand src room rest).bind fun (e, rest) => .ok (.not e, rest) := by
  rw [operand]
  rfl

/-- A group is read with one room less, up to its parenthesis. -/
theorem operand_group (src : List Char) (room offset : Nat) (rest : List Spanned) :
    operand src (room + 1) (⟨.symbol .openParen, offset⟩ :: rest) =
      (atLevel src room (.rung .disjunction) rest).bind fun
        | (e, ⟨.symbol .closeParen, _⟩ :: rest) => .ok (e, rest)
        | (_, t :: _) => .error (.fault t.offset (.unclosed t.token))
        | (_, []) => .error (faultAt src [] .unexpectedEnd) := by
  rw [operand]
  rfl

/-- A chain goes on with the operand behind its operator, with one room less. -/
theorem chain_operator {r : Rung} {s : Symbol} {op : BinaryOp} (h : r.Operator s op) (room offset : Nat) (left : Expr)
    (rest : List Spanned) :
    chain src (room + 1) r left (⟨.symbol s, offset⟩ :: rest) =
      (atLevel src room r.operands rest).bind fun (right, rest) => chain src room r (.binary op left right) rest := by
  rw [chain, Rung.operator?_eq_some.mpr h]
  show (climb _ _ r.tighter rest).bind _ = (climb _ _ r.operands.rungs rest).bind _
  rw [Level.rungs_operands]

/-- Tokens begin with a negation, with a group, or with neither: then an operand is a leaf. -/
theorem operand_cases (src : List Char) (ts : List Spanned) :
    (∃ offset rest, ts = ⟨.symbol .not, offset⟩ :: rest) ∨ (∃ offset rest, ts = ⟨.symbol .openParen, offset⟩ :: rest) ∨
      ∀ room, operand src room ts = leaf src ts := by
  by_cases hnot : ∃ offset rest, ts = ⟨.symbol .not, offset⟩ :: rest
  · exact Or.inl hnot
  · by_cases hgroup : ∃ offset rest, ts = ⟨.symbol .openParen, offset⟩ :: rest
    · exact Or.inr (Or.inl hgroup)
    · refine Or.inr (Or.inr ?_)
      intro room
      rw [operand]
      · exact fun offset rest h => hnot ⟨offset, rest, h⟩
      · exact fun offset rest h => hgroup ⟨offset, rest, h⟩

/-- Tokens begin with an operator of a rung, or its chain is at its end. -/
theorem chain_cases (src : List Char) (r : Rung) (ts : List Spanned) :
    (∃ symbol op offset rest, r.Operator symbol op ∧ ts = ⟨.symbol symbol, offset⟩ :: rest) ∨
      ∀ room left, chain src room r left ts = .ok (left, ts) := by
  by_cases hop : ∃ symbol op offset rest, r.Operator symbol op ∧ ts = ⟨.symbol symbol, offset⟩ :: rest
  · exact Or.inl hop
  · refine Or.inr ?_
    intro room left
    rw [chain.eq_def]
    split
    · rename_i symbol offset rest
      split
      · rfl
      · rename_i op hsome
        exact absurd ⟨symbol, op, offset, rest, Rung.operator?_eq_some.mp hsome, rfl⟩ hop
    · rfl

/-! ## What is parsed is spelled -/

/-- The first of the tokens spell an expression at a level, and others are left. -/
def Takes (level : Level) (ts : List Spanned) (e : Expr) (rest : List Spanned) : Prop :=
  ∃ taken, ts = taken ++ rest ∧ Expr.Spelled level (words taken) e

/-- The segments of a path are spelled by the tokens that they take. -/
theorem segments_takes {ts rest : List Spanned} {path : List Segment} (hfits : Fits ts) (h : segments src ts = .ok (path, rest)) :
    ∃ taken, ts = taken ++ rest ∧ Segment.Spelled (words taken) path := by
  fun_induction segments src ts generalizing path rest with
  | case1 _ name _ ts ih =>
    obtain ⟨⟨path', rest'⟩, hrest, hpath⟩ := ok_of_bind h
    obtain ⟨rfl, rfl⟩ := Prod.mk.inj (Except.ok.inj hpath)
    obtain ⟨taken, rfl, hspelled⟩ := ih hfits.tail.tail hrest
    exact ⟨_ :: _ :: taken, rfl, .key name hspelled⟩
  | case5 offset n offset' i _ ts hn ih =>
    obtain rfl := Number.nat?_eq_some.mp hn
    obtain ⟨⟨path', rest'⟩, hrest, hpath⟩ := ok_of_bind h
    obtain ⟨rfl, rfl⟩ := Prod.mk.inj (Except.ok.inj hpath)
    obtain ⟨taken, rfl, hspelled⟩ := ih hfits.tail.tail.tail hrest
    exact ⟨_ :: _ :: _ :: taken, rfl, .index (hfits ⟨.number (.int i), offset'⟩ (by simp) i rfl) hspelled⟩
  | case9 ts _ _ _ _ _ _ =>
    obtain ⟨rfl, rfl⟩ := Prod.mk.inj (Except.ok.inj h)
    exact ⟨[], rfl, .nil⟩
  | case2 | case3 | case4 | case6 | case7 | case8 => cases h

/-- A leaf is spelled by the tokens that it takes. -/
theorem leaf_takes {ts rest : List Spanned} {e : Expr} (hfits : Fits ts) (h : leaf src ts = .ok (e, rest)) :
    Takes .primary ts e rest := by
  have hword {t : Spanned} {ts : List Spanned} {e' : Expr} (hspelled : Expr.Spelled .primary [t.token] e')
      (h : (.ok (e', ts) : Except Flaw (Parsed Expr)) = .ok (e, rest)) : Takes .primary (t :: ts) e rest := by
    obtain ⟨rfl, rfl⟩ := Prod.mk.inj (Except.ok.inj h)
    exact ⟨[t], rfl, hspelled⟩
  unfold leaf at h
  split at h
  · cases h
  · exact hword (.number _) h
  · exact hword (.text _) h
  · exact hword .true h
  · exact hword .false h
  · exact hword .null h
  · exact hword .undefined h
  · rename_i name _ ts htrue hfalse hnull hundefined
    obtain ⟨⟨path, rest'⟩, hrest, hpath⟩ := ok_of_bind h
    obtain ⟨rfl, rfl⟩ := Prod.mk.inj (Except.ok.inj hpath)
    obtain ⟨taken, rfl, hspelled⟩ := segments_takes hfits.tail hrest
    have hname : name ∉ Expr.literalNames := by
      simpa [Expr.literalNames] using ⟨htrue, hfalse, hnull, hundefined⟩
    exact ⟨_ :: taken, rfl, .path hname hspelled⟩
  · cases h

/-- With some room, operands and chains take what spells them. -/
structure Sound (src : List Char) (room : Nat) : Prop where
  operand : ∀ ts e rest, Fits ts → operand src room ts = .ok (e, rest) → Takes .unary ts e rest
  chain : ∀ r left ts e rest before, Fits ts → Expr.Spelled (.rung r) before left → chain src room r left ts = .ok (e, rest) →
    ∃ taken, ts = taken ++ rest ∧ Expr.Spelled (.rung r) (before ++ words taken) e

/-- What holds of operands and chains holds of the levels that they make up. -/
theorem Sound.takes {room : Nat} (hs : Sound src room) (r : Rung) :
    (∀ ts e rest, Fits ts → atLevel src room r.operands ts = .ok (e, rest) → Takes r.operands ts e rest) ∧
      ∀ ts e rest, Fits ts → atLevel src room (.rung r) ts = .ok (e, rest) → Takes (.rung r) ts e rest := by
  refine Level.climbing (P := fun level => ∀ ts e rest, Fits ts → atLevel src room level ts = .ok (e, rest) →
    Takes level ts e rest) ?_ ?_ r
  · intro ts e rest hfits h
    exact hs.operand ts e rest hfits (atLevel_unary room ts ▸ h)
  · intro r ih ts e rest hfits h
    rw [atLevel_rung] at h
    obtain ⟨⟨left, rest'⟩, hleft, hchain⟩ := ok_of_bind h
    obtain ⟨taken, rfl, hspelled⟩ := ih ts left rest' hfits hleft
    obtain ⟨taken', rfl, hspelled'⟩ := hs.chain r left rest' e rest _ hfits.right (.operand hspelled) hchain
    exact ⟨taken ++ taken', by simp, by simpa using hspelled'⟩

/-- What is nested is parsed with less room. -/
theorem Sound.of_nested {room : Nat} (hs : ∀ less, room = less + 1 → Sound src less) : Sound src room := by
  refine ⟨?_, ?_⟩
  · intro ts e rest hfits h
    rcases operand_cases src ts with ⟨offset, ts, rfl⟩ | ⟨offset, ts, rfl⟩ | hleaf
    · cases room with
      | zero =>
        rw [Parser.operand] at h
        cases h
      | succ room =>
        rw [operand_not] at h
        obtain ⟨⟨e', rest'⟩, he, heq⟩ := ok_of_bind h
        obtain ⟨rfl, rfl⟩ := Prod.mk.inj (Except.ok.inj heq)
        obtain ⟨taken, rfl, hspelled⟩ := (hs room rfl).operand ts e' rest' hfits.tail he
        exact ⟨_ :: taken, rfl, .not hspelled⟩
    · cases room with
      | zero =>
        rw [Parser.operand] at h
        cases h
      | succ room =>
        rw [operand_group] at h
        obtain ⟨⟨e', rest'⟩, he, heq⟩ := ok_of_bind h
        obtain ⟨taken, rfl, hspelled⟩ := ((hs room rfl).takes .disjunction).2 ts e' rest' hfits.tail he
        split at heq
        · rename_i e'' offset' rest'' hsplit
          obtain ⟨rfl, rfl⟩ := Prod.mk.inj hsplit
          obtain ⟨rfl, rfl⟩ := Prod.mk.inj (Except.ok.inj heq)
          exact ⟨⟨.symbol .openParen, offset⟩ :: (taken ++ [⟨.symbol .closeParen, offset'⟩]), by simp,
            by simpa using .primary (.group hspelled)⟩
        · cases heq
        · cases heq
    · obtain ⟨taken, htaken, hspelled⟩ := leaf_takes hfits (hleaf room ▸ h)
      exact ⟨taken, htaken, .primary hspelled⟩
  · intro r left ts e rest before hfits hbefore h
    rcases chain_cases src r ts with ⟨symbol, op, offset, ts, hop, rfl⟩ | hend
    · cases room with
      | zero =>
        rw [Parser.chain, Rung.operator?_eq_some.mpr hop] at h
        cases h
      | succ room =>
        rw [chain_operator hop] at h
        obtain ⟨⟨right, rest'⟩, hright, hchain⟩ := ok_of_bind h
        obtain ⟨taken, rfl, hspelled⟩ := ((hs room rfl).takes r).1 ts right rest' hfits.tail hright
        obtain ⟨taken', rfl, hspelled'⟩ :=
          (hs room rfl).chain r _ rest' e rest _ hfits.tail.right (.chain hbefore hop hspelled) hchain
        exact ⟨⟨.symbol symbol, offset⟩ :: (taken ++ taken'), by simp, by simpa using hspelled'⟩
    · obtain ⟨rfl, rfl⟩ := Prod.mk.inj (Except.ok.inj ((hend room left).symm.trans h))
      exact ⟨[], rfl, by simpa using hbefore⟩

/-- With any room, operands and chains take what spells them. -/
theorem sound (room : Nat) : Sound src room := by
  induction room with
  | zero => exact .of_nested nofun
  | succ room ih => exact .of_nested fun less h => Nat.succ.inj h ▸ ih

/-! ## More room -/

/-- The second result is the first, unless that is a failure for want of room. -/
def Steady (x y : Except Flaw α) : Prop := (∃ offset, x = .error (.fault offset .tooDeep)) ∨ y = x

theorem Steady.refl (x : Except Flaw α) : Steady x x := Or.inr rfl

theorem Steady.trans {x y z : Except Flaw α} (h : Steady x y) (h' : Steady y z) : Steady x z := by
  rcases h with hdeep | rfl
  · exact Or.inl hdeep
  · exact h'

theorem Steady.bind {x y : Except Flaw α} {f g : α → Except Flaw β} (h : Steady x y) (hf : ∀ a, Steady (f a) (g a)) :
    Steady (x.bind f) (y.bind g) := by
  rcases h with ⟨offset, rfl⟩ | rfl
  · exact Or.inl ⟨offset, rfl⟩
  · cases y with
    | error flaw => exact .refl _
    | ok a => exact hf a

/-- Operands and chains are steady when they get more room. -/
structure Grows (src : List Char) (room : Nat) : Prop where
  operand : ∀ ts, Steady (operand src room ts) (operand src (room + 1) ts)
  chain : ∀ r left ts, Steady (chain src room r left ts) (chain src (room + 1) r left ts)

/-- A rung is steady if what is nested in it is. -/
theorem Grows.atLevel {room : Nat} (hg : Grows src room) (r : Rung) :
    (∀ ts, Steady (atLevel src room r.operands ts) (atLevel src (room + 1) r.operands ts)) ∧
      ∀ ts, Steady (atLevel src room (.rung r) ts) (atLevel src (room + 1) (.rung r) ts) := by
  refine Level.climbing (P := fun level => ∀ ts, Steady (Parser.atLevel src room level ts) (Parser.atLevel src (room + 1) level ts))
    ?_ ?_ r
  · intro ts
    rw [atLevel_unary, atLevel_unary]
    exact hg.operand ts
  · intro r ih ts
    rw [atLevel_rung, atLevel_rung]
    exact (ih ts).bind fun p => hg.chain r p.1 p.2

/-- What is nested gets more room too. -/
theorem Grows.of_nested {room : Nat} (hg : ∀ less, room = less + 1 → Grows src less) : Grows src room := by
  refine ⟨?_, ?_⟩
  · intro ts
    rcases operand_cases src ts with ⟨offset, ts, rfl⟩ | ⟨offset, ts, rfl⟩ | hleaf
    · cases room with
      | zero => exact Or.inl ⟨_, by rw [Parser.operand]; rfl⟩
      | succ room =>
        rw [operand_not, operand_not]
        exact ((hg room rfl).operand ts).bind fun _ => .refl _
    · cases room with
      | zero => exact Or.inl ⟨_, by rw [Parser.operand]; rfl⟩
      | succ room =>
        rw [operand_group, operand_group]
        exact (((hg room rfl).atLevel .disjunction).2 ts).bind fun _ => .refl _
    · rw [hleaf, hleaf]
      exact .refl _
  · intro r left ts
    rcases chain_cases src r ts with ⟨symbol, op, offset, ts, hop, rfl⟩ | hend
    · cases room with
      | zero => exact Or.inl ⟨_, by rw [Parser.chain, Rung.operator?_eq_some.mpr hop]; rfl⟩
      | succ room =>
        rw [chain_operator hop, chain_operator hop]
        exact (((hg room rfl).atLevel r).1 ts).bind fun p => (hg room rfl).chain r _ p.2
    · rw [hend, hend]
      exact .refl _

/-- With more room, parsing goes on where it ended for want of it, and else stays as it was. -/
theorem grows (room : Nat) : Grows src room := by
  induction room with
  | zero => exact .of_nested nofun
  | succ room ih => exact .of_nested fun less h => Nat.succ.inj h ▸ ih

/-- With more room a level parses to the same, unless it had failed for want of room. -/
theorem atLevel_steady (src : List Char) (r : Rung) (ts : List Spanned) {room more : Nat} (h : room ≤ more) :
    Steady (atLevel src room (.rung r) ts) (atLevel src more (.rung r) ts) := by
  induction h with
  | refl => exact .refl _
  | step _ ih => exact ih.trans (((grows _).atLevel r).2 ts)

end Parser

end Runbook
