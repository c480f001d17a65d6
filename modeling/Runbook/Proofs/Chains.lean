import Runbook.Expr.Eval
import Runbook.Proofs.Nesting

/-!
# Chains of connectives

What `||`, `&&` and `+` make of a chain of operands depends on the operands and their order only, and not on how the chain is grouped: the
first operand that `||` takes, the first that is false for `&&`, each time the last one if there is none, and for `+` the texts of all of
them. However parentheses are put around the parts of a chain in a text, the text is parsed to one of its groupings.
-/

namespace Runbook

namespace Value

/-- The values that `||` passes over. -/
def Empty (v : Option Value) : Prop := v ∈ [none, some .null, some (.bool false), some (.str "")]

/-- The values that `&&` ends at: those that `||` passes over, and zero. -/
def Falsy (v : Option Value) : Prop := Empty v ∨ ∃ n, v = some (.num n) ∧ n.order = 0

/-- What is not present is empty. -/
theorem present_eq_false {v : Option Value} : present v = false ↔ Empty v := by
  rcases v with _ | _ | (_ | _) | n | s | items | fields <;> simp [present, Empty]

/-- What is not truthy is falsy. -/
theorem truthy_eq_false {v : Option Value} : truthy v = false ↔ Falsy v := by
  rcases v with _ | _ | b | n | s | items | fields <;> simp [truthy, Falsy, Empty]

end Value

/-- The first of some values that ends a chain, or the last one if none of them does. -/
def EndsAt (ends : Option Value → Prop) (vs : List (Option Value)) (v : Option Value) : Prop :=
  ∃ before after, vs = before ++ v :: after ∧ (∀ u ∈ before, ¬ends u) ∧ (ends v ∨ after = [])

namespace EndsAt

variable {ends : Option Value → Prop} {us vs : List (Option Value)} {u v : Option Value}

theorem single (v : Option Value) : EndsAt ends [v] v := ⟨[], [], rfl, nofun, Or.inr rfl⟩

/-- A chain that has ended does not look at what is behind it. -/
theorem append_left (h : EndsAt ends us u) (hu : ends u) (vs : List (Option Value)) : EndsAt ends (us ++ vs) u := by
  obtain ⟨before, after, rfl, hbefore, -⟩ := h
  exact ⟨before, after ++ vs, by simp, hbefore, Or.inl hu⟩

/-- A chain that has not ended goes on with what is behind it. -/
theorem append_right (h : EndsAt ends us u) (hu : ¬ends u) (h' : EndsAt ends vs v) : EndsAt ends (us ++ vs) v := by
  obtain ⟨before, after, rfl, hbefore, hafter⟩ := h
  obtain rfl := hafter.resolve_left hu
  obtain ⟨before', after', rfl, hbefore', hend⟩ := h'
  refine ⟨before ++ u :: before', after', by simp, ?_, hend⟩
  intro w hw
  rcases List.mem_append.mp hw with hw | hw
  · exact hbefore w hw
  · rcases List.mem_cons.mp hw with rfl | hw
    · exact hu
    · exact hbefore' w hw

end EndsAt

/-- The operators whose chains may be grouped in any way. -/
inductive Connective where
  | or | and | plus

namespace Connective

def op : Connective → BinaryOp
  | or => .or
  | and => .and
  | plus => .concat

def symbol : Connective → Symbol
  | or => .or
  | and => .and
  | plus => .plus

def rung : Connective → Rung
  | or => .disjunction
  | and => .conjunction
  | plus => .concatenation

theorem operator (c : Connective) : c.rung.Operator c.symbol c.op := by
  cases c <;> constructor

/-- An expression that is a chain of some operands, grouped in some way. -/
inductive Chained (c : Connective) : List Expr → Expr → Prop
  | operand (e : Expr) : Chained c [e] e
  | join {es fs : List Expr} {left right : Expr} (hleft : Chained c es left) (hright : Chained c fs right) :
      Chained c (es ++ fs) (.binary c.op left right)

/-- What a chain makes of the values of its operands. -/
def Answers : Connective → List (Option Value) → Option Value → Prop
  | or, vs, v => EndsAt (¬Value.Empty ·) vs v
  | and, vs, v => EndsAt Value.Falsy vs v
  | plus, vs, v => v = some (.str (String.join (vs.map Value.toText)))

/-! ## Values of chains -/

/-- A chain of alternatives ends at the first of their values that is not empty. -/
theorem Chained.eval_or {es : List Expr} {e : Expr} (h : or.Chained es e) (scope : Scope) :
    EndsAt (¬Value.Empty ·) (es.map (·.eval scope)) (e.eval scope) := by
  induction h with
  | operand e => exact .single _
  | @join es fs left right _ _ ihleft ihright =>
    have heval : (Expr.binary or.op left right).eval scope =
        if Value.present (left.eval scope) then left.eval scope else right.eval scope := rfl
    rw [heval, List.map_append]
    cases hpresent : Value.present (left.eval scope) with
    | true => exact ihleft.append_left (fun hempty => Bool.false_ne_true (Value.present_eq_false.mpr hempty ▸ hpresent)) _
    | false => exact ihleft.append_right (not_not.mpr (Value.present_eq_false.mp hpresent)) ihright

/-- A chain of conditions ends at the first of their values that is falsy. -/
theorem Chained.eval_and {es : List Expr} {e : Expr} (h : and.Chained es e) (scope : Scope) :
    EndsAt Value.Falsy (es.map (·.eval scope)) (e.eval scope) := by
  induction h with
  | operand e => exact .single _
  | @join es fs left right _ _ ihleft ihright =>
    have heval : (Expr.binary and.op left right).eval scope =
        if Value.truthy (left.eval scope) then right.eval scope else left.eval scope := rfl
    rw [heval, List.map_append]
    cases htruthy : Value.truthy (left.eval scope) with
    | true => exact ihleft.append_right (fun hfalsy => Bool.false_ne_true (Value.truthy_eq_false.mpr hfalsy ▸ htruthy)) ihright
    | false => exact ihleft.append_left (Value.truthy_eq_false.mp htruthy) _

/-- The text of a chain is that of its operands, also of a chain of one operand, whose value need not be a text. -/
theorem Chained.toText {es : List Expr} {e : Expr} (h : plus.Chained es e) (scope : Scope) :
    Value.toText (e.eval scope) = String.join (es.map fun e => Value.toText (e.eval scope)) := by
  induction h with
  | operand e => simp [String.join_cons]
  | @join es fs left right _ _ ihleft ihright =>
    have heval : Value.toText ((Expr.binary plus.op left right).eval scope) =
        Value.toText (left.eval scope) ++ Value.toText (right.eval scope) := rfl
    rw [heval, ihleft, ihright, List.map_append, String.join_append]

/-- A chain of sums is the text of its parts, one after the other: a sum is a text, so it is the text that it has. -/
theorem Chained.eval_plus {es : List Expr} {e : Expr} (h : plus.Chained es e) (hes : 2 ≤ es.length) (scope : Scope) :
    e.eval scope = some (.str (String.join ((es.map (·.eval scope)).map Value.toText))) := by
  have htext := h.toText scope
  rw [List.map_map]
  cases h with
  | operand e => simp at hes
  | join =>
    exact congrArg (some ∘ Value.str) htext

/-- A chain comes to what its connective answers to the values of its parts. -/
theorem Chained.answers {c : Connective} {es : List Expr} {e : Expr} (h : c.Chained es e) (hes : 2 ≤ es.length) (scope : Scope) :
    c.Answers (es.map (·.eval scope)) (e.eval scope) := by
  cases c with
  | or => exact h.eval_or scope
  | and => exact h.eval_and scope
  | plus => exact h.eval_plus hes scope

/-! ## Texts of chains -/

/-- The tokens are those of the operands with the connective between them, and with parentheses around any parts of the chain. An operand
with an operator that is not tighter stands in parentheses of its own. -/
inductive Grouped (c : Connective) : List Expr → List Token → Prop
  | operand {e : Expr} {ts : List Token} (h : Expr.Spelled c.rung.operands ts e) : Grouped c [e] ts
  | group {es : List Expr} {ts : List Token} (h : Grouped c es ts) :
      Grouped c es (.symbol .openParen :: (ts ++ [.symbol .closeParen]))
  | join {es fs : List Expr} {ts us : List Token} (hleft : Grouped c es ts) (hright : Grouped c fs us) :
      Grouped c (es ++ fs) (ts ++ .symbol c.symbol :: us)

/-- What is spelled on the rung of a connective is spelled on the widest one. -/
theorem spelled_disjunction {c : Connective} {ts : List Token} {e : Expr} (h : Expr.Spelled (.rung c.rung) ts e) :
    Expr.Spelled (.rung .disjunction) ts e := by
  cases c with
  | or => exact h
  | and => exact .operand h
  | plus => exact .operand (r := .disjunction) (.operand (r := .conjunction) (.operand (r := .equality) (.operand (r := .comparison) h)))

/-- What is spelled as an operand of negation is spelled as an operand of any rung. -/
theorem spelled_operands {ts : List Token} {e : Expr} (h : Expr.Spelled .unary ts e) (r : Rung) : Expr.Spelled r.operands ts e := by
  cases r with
  | concatenation => exact h
  | _ => exact Parser.spelled_rung h _

/-- Grouped tokens spell a chain, alone and as what a chain goes on with. -/
theorem Grouped.spells {c : Connective} {es : List Expr} {ts : List Token} (h : c.Grouped es ts) :
    (∃ e, Expr.Spelled (.rung c.rung) ts e ∧ c.Chained es e) ∧
      ∀ {fs us left}, Expr.Spelled (.rung c.rung) us left → c.Chained fs left →
        ∃ e, Expr.Spelled (.rung c.rung) (us ++ .symbol c.symbol :: ts) e ∧ c.Chained (fs ++ es) e := by
  induction h with
  | operand h =>
    exact ⟨⟨_, .operand h, .operand _⟩, fun hleft hchained => ⟨_, .chain hleft c.operator h, hchained.join (.operand _)⟩⟩
  | group _ ih =>
    obtain ⟨e, hspelled, hchained⟩ := ih.1
    have hgroup := Expr.Spelled.primary (.group (spelled_disjunction hspelled))
    exact ⟨⟨e, Parser.spelled_rung hgroup _, hchained⟩,
      fun hleft hchained' => ⟨_, .chain hleft c.operator (spelled_operands hgroup _), hchained'.join hchained⟩⟩
  | join _ _ ihleft ihright =>
    constructor
    · obtain ⟨e, hspelled, hchained⟩ := ihleft.1
      exact ihright.2 hspelled hchained
    · intro fs us left hleft hchained
      obtain ⟨e, hspelled, hchained'⟩ := ihleft.2 hleft hchained
      obtain ⟨e', hspelled', hchained''⟩ := ihright.2 hspelled hchained'
      exact ⟨e', by simpa using hspelled', by simpa using hchained''⟩

/-- A text of grouped tokens is parsed to a chain of the operands, unless it is nested too deeply. -/
theorem Grouped.parsed {c : Connective} {es : List Expr} {src : String} {tokens : List Spanned} (htokens : tokenize src = .ok tokens)
    (h : c.Grouped es (words tokens)) :
    (∀ e, Expr.parse src = .ok e → c.Chained es e) ∧ (nestings (words tokens) ≤ 128 → ∃ e, Expr.parse src = .ok e) := by
  obtain ⟨⟨chain, hspelled, hchained⟩, -⟩ := h.spells
  have hspelled := spelled_disjunction hspelled
  constructor
  · intro e he
    obtain ⟨tokens', htokens', hparsed⟩ := Expr.parse_eq_ok.mp he
    obtain rfl := Except.ok.inj (htokens.symm.trans htokens')
    rwa [Parser.spelled_unique (Parser.spelled_of_parseTokens (tokenize_fits htokens) hparsed) hspelled]
  · intro hroom
    rcases Parser.parseTokens_of_spelled src.toList hspelled with hparsed | ⟨hdeep, -⟩
    · exact ⟨chain, Expr.parse_eq_ok.mpr ⟨tokens, htokens, hparsed⟩⟩
    · exact absurd hroom (Nat.not_le_of_lt hdeep)

/-- Whatever its grouping, a chain of two or more operands has the value that the connective makes of those of the operands: the first that
is not empty for `||`, the first that is falsy for `&&`, or else the last, and for `+` the text of all of them. This is so of the chains that
texts with parentheses anywhere are parsed to, which they are unless they are nested too deeply. -/
theorem chains_regroup (c : Connective) {es : List Expr} (hes : 2 ≤ es.length) (scope : Scope) :
    (∀ e, c.Chained es e → c.Answers (es.map (·.eval scope)) (e.eval scope)) ∧
      ∀ src tokens, tokenize src = .ok tokens → c.Grouped es (words tokens) →
        (∀ e, Expr.parse src = .ok e → c.Answers (es.map (·.eval scope)) (e.eval scope)) ∧
          (nestings (words tokens) ≤ 128 → ∃ e, Expr.parse src = .ok e) := by
  refine ⟨fun e h => h.answers hes scope, fun src tokens htokens hgrouped => ?_⟩
  obtain ⟨hparsed, hroom⟩ := hgrouped.parsed htokens
  exact ⟨fun e he => (hparsed e he).answers hes scope, hroom⟩

/-- A name with two defaults, the second of which is zero: `||` takes it, however the chain is grouped. -/
theorem chains_regroup_of_defaults : ∃ e, Expr.parse "x || ('' || 0)" = .ok e ∧
    EndsAt (¬Value.Empty ·) [none, some (.str ""), some (.num (.int 0))] (e.eval fun _ => none) := by
  have htokens : tokenize "x || ('' || 0)" = .ok [⟨.ident "x", 0⟩, ⟨.symbol .or, 2⟩, ⟨.symbol .openParen, 5⟩, ⟨.text "", 6⟩,
      ⟨.symbol .or, 9⟩, ⟨.number (.int 0), 12⟩, ⟨.symbol .closeParen, 13⟩] := by
    cbv
  have hword {t : Token} {e : Expr} (h : Expr.Spelled .primary [t] e) : or.Grouped [e] [t] :=
    .operand (spelled_operands (.primary h) _)
  have hname : Expr.Spelled .primary [.ident "x"] (.path ⟨"x", []⟩) := .path (by decide) .nil
  have hgrouped := (hword hname).join (.group ((hword (.text "")).join (hword (.number (.int 0)))))
  obtain ⟨hparsed, hroom⟩ := (chains_regroup .or (by decide) fun _ => none).2 _ _ htokens hgrouped
  obtain ⟨e, he⟩ := hroom (by decide)
  exact ⟨e, he, hparsed e he⟩

end Connective

end Runbook
