import Runbook.Proofs.Integers

/-!
# Comparisons agree with each other

Both equalities are reflexive and symmetric, and what is strictly equal is loosely equal. Of two numbers and of two texts the order decides
every comparison, so one of them is less than the other or they are strictly equal, never two of this. Nothing else is in any order.
-/

namespace Runbook

namespace Value

/-! ## Structural equality -/

mutual

theorem beq_comm : (a b : Value) → a.beq b = b.beq a
  | .null, b => by cases b <;> rfl
  | .bool x, b => by
    cases b with
    | bool y => exact Bool.beq_comm
    | _ => rfl
  | .num m, b => by
    cases b with
    | num n => exact Number.same_comm m n
    | _ => rfl
  | .str s, b => by
    cases b with
    | str t => exact BEq.comm
    | _ => rfl
  | .arr items, b => by
    cases b with
    | arr items' => exact beqItems_comm items items'
    | _ => rfl
  | .obj fields, b => by
    cases b with
    | obj fields' => exact beqFields_comm fields fields'
    | _ => rfl

theorem beqItems_comm : (as bs : List Value) → beqItems as bs = beqItems bs as
  | [], [] | [], _ :: _ | _ :: _, [] => rfl
  | a :: as, b :: bs => by rw [beqItems, beqItems, beq_comm a b, beqItems_comm as bs]

theorem beqFields_comm : (fs gs : List (String × Value)) → beqFields fs gs = beqFields gs fs
  | [], [] | [], _ :: _ | _ :: _, [] => rfl
  | (k, a) :: fs, (l, b) :: gs => by
    have hkey : (k == l) = (l == k) := BEq.comm
    rw [beqFields, beqFields, hkey, beq_comm a b, beqFields_comm fs gs]

end

/-! ## The two equalities -/

theorem looseScalar_self (a : Value) : looseScalar a a = true := by
  cases a with
  | num n => exact decide_eq_true rfl
  | _ => exact beq_refl _

theorem looseScalar_comm (a b : Value) : looseScalar a b = looseScalar b a := by
  cases a with
  | num m =>
    cases b with
    | num n => exact decide_eq_decide.mpr eq_comm
    | str t => rfl
    | _ => exact beq_comm _ _
  | str s =>
    cases b with
    | num n => rfl
    | _ => exact beq_comm _ _
  | _ => cases b <;> exact beq_comm _ _

/-- A value, where null is taken for undefined. -/
def known? : Option Value → Option Value
  | some .null => none
  | a => a

/-- Loose equality of what is known: two values are compared as scalars, and what is undefined equals nothing else. -/
def looseKnown : Option Value → Option Value → Bool
  | none, none => true
  | some a, some b => looseScalar a.unbool b.unbool
  | none, some _ | some _, none => false

/-- Loose equality sees only what is known of its sides. -/
theorem looseEq_eq (a b : Option Value) : looseEq a b = looseKnown (known? a) (known? b) := by
  cases a with
  | none =>
    cases b with
    | none => rfl
    | some b => cases b <;> rfl
  | some a =>
    cases b with
    | none => cases a <;> rfl
    | some b => cases a <;> cases b <;> rfl

/-- Everything loosely equals itself, what is undefined too. -/
theorem looseEq_self (a : Option Value) : looseEq a a = true := by
  rw [looseEq_eq]
  cases known? a with
  | none => rfl
  | some a => exact looseScalar_self a.unbool

theorem looseEq_comm (a b : Option Value) : looseEq a b = looseEq b a := by
  rw [looseEq_eq, looseEq_eq]
  cases known? a with
  | none => cases known? b <;> rfl
  | some a =>
    cases known? b with
    | none => rfl
    | some b => exact looseScalar_comm a.unbool b.unbool

/-- Everything strictly equals itself, what is undefined too. -/
theorem strictEq_self (a : Option Value) : strictEq a a = true := by
  cases a with
  | none => rfl
  | some a =>
    cases a with
    | num n => exact decide_eq_true rfl
    | _ => exact beq_refl _

theorem strictEq_comm (a b : Option Value) : strictEq a b = strictEq b a := by
  cases a with
  | none =>
    cases b with
    | none => rfl
    | some b => cases b <;> rfl
  | some a =>
    cases b with
    | none => cases a <;> rfl
    | some b =>
      cases a with
      | num m =>
        cases b with
        | num n => exact decide_eq_decide.mpr eq_comm
        | _ => exact beq_comm _ _
      | _ => cases b <;> exact beq_comm _ _

/-- What is strictly equal is of one kind, and values of one kind are compared in the same way or as the numbers they stand for. -/
theorem looseEq_of_strictEq {a b : Option Value} (h : strictEq a b = true) : looseEq a b = true := by
  cases a with
  | none =>
    cases b with
    | none => rfl
    | some b => cases b <;> cases h
  | some a =>
    cases b with
    | none => cases a <;> cases h
    | some b =>
      cases a with
      | bool x =>
        cases b with
        | bool y =>
          obtain rfl : x = y := eq_of_beq h
          exact looseEq_self _
        | _ => cases h
      | _ => cases b <;> first | rfl | exact h | cases h

/-! ## The order of numbers and texts -/

/-- Pairs that have an order: two numbers, or two texts. -/
inductive Ordered : Option Value → Option Value → Prop
  | numbers (m n : Number) : Ordered (some (.num m)) (some (.num n))
  | texts (s t : String) : Ordered (some (.str s)) (some (.str t))

/-- What can be ordered has an order. -/
theorem Ordered.exists_ordering {a b : Option Value} (h : Ordered a b) : ∃ o, ordering? a b = some o := by
  cases h with
  | numbers m n => exact ⟨_, rfl⟩
  | texts s t => exact ⟨_, rfl⟩

/-- What cannot be ordered has none. -/
theorem ordering?_eq_none {a b : Option Value} (h : ¬Ordered a b) : ordering? a b = none := by
  unfold ordering?
  split
  · exact absurd (.numbers _ _) h
  · exact absurd (.texts _ _) h
  · rfl

/-- How the comparisons of two possibly undefined values agree with each other. -/
structure Coherent (a b : Option Value) : Prop where
  loose_refl : compareBy .looseEq a a = true
  loose_comm : compareBy .looseEq a b = compareBy .looseEq b a
  strict_refl : compareBy .strictEq a a = true
  strict_comm : compareBy .strictEq a b = compareBy .strictEq b a
  loose_of_strict : compareBy .strictEq a b = true → compareBy .looseEq a b = true
  loose_ne : compareBy .looseNe a b = !compareBy .looseEq a b
  strict_ne : compareBy .strictNe a b = !compareBy .strictEq a b
  trichotomy : Ordered a b → ∃! op, op ∈ [BinaryOp.lt, .strictEq, .gt] ∧ compareBy op a b = true
  le_iff : Ordered a b → (compareBy .le a b = true ↔ compareBy .lt a b = true ∨ compareBy .strictEq a b = true)
  ge_iff : Ordered a b → (compareBy .ge a b = true ↔ compareBy .gt a b = true ∨ compareBy .strictEq a b = true)
  unordered : ¬Ordered a b → ∀ op ∈ [BinaryOp.lt, .le, .gt, .ge], compareBy op a b = false

/-- Of two that can be ordered, one is less, equal or greater, and only one of these holds. -/
theorem Ordered.trichotomy {a b : Option Value} (h : Ordered a b) :
    ∃! op, op ∈ [BinaryOp.lt, .strictEq, .gt] ∧ compareBy op a b = true := by
  obtain ⟨o, ho⟩ := h.exists_ordering
  have hlt := compareBy_of_ordering? ho (rfl : BinaryOp.lt.holds? = some _)
  have heq := compareBy_of_ordering? ho (rfl : BinaryOp.strictEq.holds? = some _)
  have hgt := compareBy_of_ordering? ho (rfl : BinaryOp.gt.holds? = some _)
  cases o with
  | lt => exact ⟨.lt, by simp [hlt], by simp [heq, hgt]⟩
  | eq => exact ⟨.strictEq, by simp [heq], by simp [hlt, hgt]⟩
  | gt => exact ⟨.gt, by simp [hgt], by simp [hlt, heq]⟩

/-- To be at most is to be less or equal. -/
theorem Ordered.le_iff {a b : Option Value} (h : Ordered a b) :
    compareBy .le a b = true ↔ compareBy .lt a b = true ∨ compareBy .strictEq a b = true := by
  obtain ⟨o, ho⟩ := h.exists_ordering
  have hle := compareBy_of_ordering? ho (rfl : BinaryOp.le.holds? = some _)
  have hlt := compareBy_of_ordering? ho (rfl : BinaryOp.lt.holds? = some _)
  have heq := compareBy_of_ordering? ho (rfl : BinaryOp.strictEq.holds? = some _)
  rw [hle, hlt, heq]
  cases o <;> decide

/-- To be at least is to be greater or equal. -/
theorem Ordered.ge_iff {a b : Option Value} (h : Ordered a b) :
    compareBy .ge a b = true ↔ compareBy .gt a b = true ∨ compareBy .strictEq a b = true := by
  obtain ⟨o, ho⟩ := h.exists_ordering
  have hge := compareBy_of_ordering? ho (rfl : BinaryOp.ge.holds? = some _)
  have hgt := compareBy_of_ordering? ho (rfl : BinaryOp.gt.holds? = some _)
  have heq := compareBy_of_ordering? ho (rfl : BinaryOp.strictEq.holds? = some _)
  rw [hge, hgt, heq]
  cases o <;> decide

/-- What has no order is neither less nor greater. -/
theorem compareBy_unordered {a b : Option Value} (h : ¬Ordered a b) {op : BinaryOp} (hop : op ∈ [BinaryOp.lt, .le, .gt, .ge]) :
    compareBy op a b = false := by
  have hnone := ordering?_eq_none h
  simp only [List.mem_cons, List.not_mem_nil, or_false] at hop
  rcases hop with rfl | rfl | rfl | rfl <;> simp [compareBy, hnone]

/-- Any two possibly undefined values are compared coherently, and a comparison in an expression says what the comparison of the values of
its sides does. -/
theorem comparisons_coherent (a b : Option Value) :
    Coherent a b ∧ ∀ (scope : Scope) (left right : Expr), left.eval scope = a → right.eval scope = b →
      ∀ op, op.holds?.isSome → (Expr.binary op left right).eval scope = some (.bool (compareBy op a b)) := by
  constructor
  · exact {
      loose_refl := looseEq_self a
      loose_comm := looseEq_comm a b
      strict_refl := strictEq_self a
      strict_comm := strictEq_comm a b
      loose_of_strict := looseEq_of_strictEq
      loose_ne := rfl
      strict_ne := rfl
      trichotomy := Ordered.trichotomy
      le_iff := Ordered.le_iff
      ge_iff := Ordered.ge_iff
      unordered := fun h _ hop => compareBy_unordered h hop }
  · rintro scope left right rfl rfl op hop
    obtain ⟨holds, hholds⟩ := Option.isSome_iff_exists.mp hop
    exact Expr.eval_comparison hholds scope left right

end Value

end Runbook
