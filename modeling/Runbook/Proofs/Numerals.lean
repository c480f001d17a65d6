import Runbook.Json.Reader
import Runbook.Proofs.Digits

/-!
# Numerals

The text of a number is a numeral of JSON. A numeral ends where neither a digit nor a point nor an exponent follows, and it is read by its
parts. An integer that a document can hold is read back from its text; what becomes of a floating-point number depends on its digits.
-/

namespace Runbook

/-! ## Digits -/

namespace Decimal

/-- Digits only. -/
def Digits (s : List Char) : Prop := ∀ c ∈ s, c.isDigit = true

theorem digits_nil : Digits [] := fun _ hc => nomatch hc

theorem Digits.append {s t : List Char} (hs : Digits s) (ht : Digits t) : Digits (s ++ t) :=
  fun c hc => (List.mem_append.mp hc).elim (hs c) (ht c)

theorem digits_replicate_zero (n : Nat) : Digits (List.replicate n '0') := by
  intro c hc
  rw [List.eq_of_mem_replicate hc]
  decide

theorem digits_toDigits (n : Nat) : Digits (Nat.toDigits 10 n) := fun _ hc => Nat.isDigit_of_mem_toDigits (by decide) (by decide) hc

/-- The digits at the beginning of a text are those before anything else. -/
theorem spanDigits_append {s rest : List Char} (hs : Digits s) (hrest : ∀ c ∈ rest.head?, c.isDigit = false) :
    spanDigits (s ++ rest) = (s, rest) := by
  have hend : rest.takeWhile Char.isDigit = [] ∧ rest.dropWhile Char.isDigit = rest := by
    cases rest with
    | nil => exact ⟨rfl, rfl⟩
    | cons c rest => simp [hrest c rfl]
  rw [spanDigits, List.span_eq_takeWhile_dropWhile, List.takeWhile_append_of_pos hs, List.dropWhile_append_of_pos hs, hend.1, hend.2,
    List.append_nil]

/-- Digits are read as the number that they stand for. -/
theorem natOfDigits_eq (s : List Char) : natOfDigits s = Nat.ofDigitChars 10 s 0 := by
  rw [natOfDigits, Nat.ofDigitChars_eq_foldl]

/-- The digits of a number are read as the number. -/
theorem natOfDigits_toDigits (n : Nat) : natOfDigits (Nat.toDigits 10 n) = n := by
  rw [natOfDigits_eq, Nat.ofDigitChars_toDigits (by decide) (by decide)]

/-- Zeros behind digits multiply by powers of ten. -/
theorem natOfDigits_append_zeros (s : List Char) (n : Nat) : natOfDigits (s ++ List.replicate n '0') = natOfDigits s * 10 ^ n := by
  rw [natOfDigits_eq, natOfDigits_eq, Nat.ofDigitChars_append, Nat.ofDigitChars_replicate_zero, Nat.mul_comm]

/-- Zeros before digits change nothing. -/
theorem natOfDigits_zeros_append (n : Nat) (s : List Char) : natOfDigits (List.replicate n '0' ++ s) = natOfDigits s := by
  rw [natOfDigits_eq, natOfDigits_eq, Nat.ofDigitChars_append, Nat.ofDigitChars_replicate_zero, Nat.mul_zero]

end Decimal

/-- A number that a document can hold: any float, or an integer in range. -/
def Number.Held : Number → Prop
  | .int i => Number.inRange i = true
  | .float _ => True

/-! ## Numerals -/

namespace Json

/-- What ends a numeral: the text is at its end, or no character follows that the numeral could go on with. -/
def EndsNumeral (rest : List Char) : Prop := ∀ c ∈ rest.head?, c.isDigit = false ∧ c ∉ ['.', 'e', 'E']

theorem endsNumeral_nil : EndsNumeral [] := nofun

def signText (negative : Bool) : List Char := if negative then ['-'] else []

/-- A point and the digits behind it, if there are any. -/
def fractionText : List Char → List Char
  | [] => []
  | c :: cs => '.' :: c :: cs

def exponentText : Option Int → List Char
  | none => []
  | some k => 'e' :: (if k < 0 then '-' else '+') :: Nat.toDigits 10 k.natAbs

open Decimal (Digits)

/-- An exponent is read back from its text. -/
theorem spanExponent_exponentText (exponent : Option Int) {rest : List Char} (hrest : EndsNumeral rest) :
    Decimal.spanExponent (exponentText exponent ++ rest) = some (exponent.getD 0, rest) := by
  cases exponent with
  | none =>
    cases rest with
    | nil => rfl
    | cons c rest =>
      have hc := (hrest c rfl).2
      have hmark : (decide (c = 'e') || decide (c = 'E')) = false := by
        simp only [List.mem_cons, List.not_mem_nil, or_false, not_or] at hc
        simp [hc]
      unfold exponentText Decimal.spanExponent
      simp [hmark]
  | some k =>
    have hspan := Decimal.spanDigits_append (Decimal.digits_toDigits k.natAbs) fun c hc => (hrest c hc).1
    have hne : (Nat.toDigits 10 k.natAbs).isEmpty = false := by simp [Nat.toDigits_ne_nil]
    unfold exponentText Decimal.spanExponent
    by_cases hneg : k < 0
    · simp [hneg, hspan, hne, Decimal.natOfDigits_toDigits, abs_of_neg hneg]
    · simp [hneg, hspan, hne, Decimal.natOfDigits_toDigits, not_lt.mp hneg]

/-! ## Reading a numeral -/

/-- The sign of a numeral, and what follows it. -/
def splitSign (s : List Char) : Bool × List Char :=
  match s with
  | '-' :: r => (true, r)
  | r => (false, r)

/-- The digits behind a point, if there is a point, and what follows them. -/
def splitFraction (s : List Char) : Option (List Char) × List Char :=
  match s with
  | '.' :: r => (some (Decimal.spanDigits r).1, (Decimal.spanDigits r).2)
  | r => (none, r)

def startsExponent (s : List Char) : Bool :=
  match s with
  | c :: _ => c = 'e' || c = 'E'
  | [] => false

/-- The parts that a numeral is read by. -/
theorem readNumber_eq (s : List Char) : readNumber s =
    let (negative, s) := splitSign s
    let (whole, rest) := Decimal.spanDigits s
    if whole.isEmpty || (whole.length > 1 && whole.head? = some '0') then none
    else
      let (fraction, rest) := splitFraction rest
      match fraction, Decimal.spanExponent rest with
      | some [], _ => none
      | _, none => none
      | fraction, some (exponent, tail) =>
        (if fraction.isNone && !startsExponent rest then integer? negative whole
          else float? negative whole (fraction.getD []) exponent).map (·, tail) := by
  unfold readNumber splitSign splitFraction startsExponent
  rfl

/-- A sign is read back from its text. -/
theorem splitSign_signText (negative : Bool) {s : List Char} (hs : ∀ c ∈ s.head?, c.isDigit = true) :
    splitSign (signText negative ++ s) = (negative, s) := by
  cases negative with
  | true => rfl
  | false =>
    unfold splitSign
    split
    · rename_i r heq
      have hminus := hs '-' (by rw [show s = '-' :: r from heq]; rfl)
      exact absurd hminus (by decide)
    · rfl

/-- A fraction is read back from its text. -/
theorem splitFraction_fractionText {fraction rest : List Char} (hfraction : Digits fraction)
    (hrest : ∀ c ∈ rest.head?, c.isDigit = false ∧ c ≠ '.') :
    splitFraction (fractionText fraction ++ rest) = (if fraction.isEmpty then none else some fraction, rest) := by
  cases fraction with
  | nil =>
    unfold splitFraction
    split
    · rename_i r heq
      exact absurd rfl (hrest '.' (by rw [show rest = '.' :: r from heq]; rfl)).2
    · rfl
  | cons c cs =>
    have hspan := Decimal.spanDigits_append hfraction fun c hc => (hrest c hc).1
    simp only [fractionText, List.cons_append] at hspan ⊢
    rw [splitFraction, hspan]
    rfl

/-- A text starts with an exponent exactly if one is written. -/
theorem startsExponent_exponentText (exponent : Option Int) {rest : List Char} (hrest : EndsNumeral rest) :
    startsExponent (exponentText exponent ++ rest) = exponent.isSome := by
  cases exponent with
  | none =>
    cases rest with
    | nil => rfl
    | cons c rest =>
      have hc := (hrest c rfl).2
      simp only [List.mem_cons, List.not_mem_nil, or_false, not_or] at hc
      simp [exponentText, startsExponent, hc]
  | some k => rfl

/-- The digits before the point: at least one, and no zero before another. -/
structure WholeDigits (s : List Char) : Prop where
  digits : Digits s
  ne_nil : s ≠ []
  noZero : s.head? = some '0' → s.length = 1

/-- A numeral is read by its parts: without a point and an exponent it is an integer. -/
theorem readNumber_numeral (negative : Bool) {whole fraction : List Char} (exponent : Option Int) {rest : List Char}
    (hwhole : WholeDigits whole) (hfraction : Digits fraction) (hrest : EndsNumeral rest) :
    readNumber (signText negative ++ (whole ++ (fractionText fraction ++ (exponentText exponent ++ rest)))) =
      (if fraction.isEmpty && exponent.isNone then integer? negative whole
        else float? negative whole fraction (exponent.getD 0)).map (·, rest) := by
  have htail : ∀ c ∈ (exponentText exponent ++ rest).head?, c.isDigit = false ∧ c ≠ '.' := by
    cases exponent with
    | none => exact fun c hc => ⟨(hrest c hc).1, fun heq => (hrest c hc).2 (heq ▸ List.mem_cons_self)⟩
    | some k =>
      rintro _ ⟨⟩
      decide
  have hbehind : ∀ c ∈ (fractionText fraction ++ (exponentText exponent ++ rest)).head?, c.isDigit = false := by
    cases fraction with
    | nil => exact fun c hc => (htail c hc).1
    | cons c cs =>
      rintro _ ⟨⟩
      rfl
  have hhead : ∀ c ∈ (whole ++ (fractionText fraction ++ (exponentText exponent ++ rest))).head?, c.isDigit = true := by
    obtain ⟨c, cs, rfl⟩ := List.exists_cons_of_ne_nil hwhole.ne_nil
    rintro _ ⟨⟩
    exact hwhole.digits c List.mem_cons_self
  have hlead : (whole.isEmpty || (decide (whole.length > 1) && decide (whole.head? = some '0'))) = false := by
    rw [List.isEmpty_eq_false_iff.mpr hwhole.ne_nil, Bool.false_or, Bool.and_eq_false_iff, decide_eq_false_iff_not, decide_eq_false_iff_not]
    by_cases hzero : whole.head? = some '0'
    · exact Or.inl (by rw [hwhole.noZero hzero]; decide)
    · exact Or.inr hzero
  rw [readNumber_eq, splitSign_signText negative hhead]
  dsimp only
  rw [Decimal.spanDigits_append hwhole.digits hbehind]
  dsimp only
  rw [hlead, splitFraction_fractionText hfraction htail]
  dsimp only
  rw [spanExponent_exponentText exponent hrest, startsExponent_exponentText exponent hrest]
  cases fraction with
  | nil => cases exponent <;> rfl
  | cons c cs => rfl

/-! ## The text of a number -/

/-- A natural number other than zero is not written with a zero in front. -/
theorem head?_toDigits {n : Nat} (hn : 0 < n) : (Nat.toDigits 10 n).head? ≠ some '0' := by
  induction n using Nat.strongRecOn with
  | ind n ih =>
    rw [Nat.toDigits_eq_if (by decide)]
    split
    · rename_i hlt
      rw [List.head?_singleton, ne_eq, Option.some.injEq, Nat.digitChar_eq_zero]
      omega
    · rw [List.head?_append_of_ne_nil _ Nat.toDigits_ne_nil]
      exact ih (n / 10) (by omega) (by omega)

/-- The digits of a number are those of a whole part. -/
theorem wholeDigits_toDigits (n : Nat) : WholeDigits (Nat.toDigits 10 n) := by
  refine ⟨Decimal.digits_toDigits n, Nat.toDigits_ne_nil, ?_⟩
  intro hzero
  rcases Nat.eq_zero_or_pos n with rfl | hn
  · rfl
  · exact absurd hzero (head?_toDigits hn)

/-- A fraction with digits is written behind a point. -/
theorem fractionText_of_ne_nil {s : List Char} (h : s ≠ []) : fractionText s = '.' :: s := by
  cases s with
  | nil => exact absurd rfl h
  | cons c cs => rfl

/-- A text that is a numeral with a point or an exponent. Its digits are those of a decimal number, with zeros behind them that the exponent
makes up for: none, or those before the point and one behind it. -/
structure Spells (s : List Char) (d : Decimal) (whole fraction : List Char) (exponent : Option Int) (zeros : Nat) : Prop where
  text : s = whole ++ (fractionText fraction ++ exponentText exponent)
  before : WholeDigits whole
  behind : Digits fraction
  marked : (fraction.isEmpty && exponent.isNone) = false
  digits : Decimal.natOfDigits (whole ++ fraction) = d.digits * 10 ^ zeros
  power : exponent.getD 0 - fraction.length + zeros = d.exponent
  filled : zeros = 0 ∨ (zeros : ℤ) = d.exponent + 1

/-- The digits of a decimal without a fraction stand before the point, with zeros behind them. -/
theorem spells_whole {digits : List Char} (hdigits : WholeDigits digits) {n : Nat} (hfirst : digits.head? ≠ some '0') :
    Spells (digits ++ List.replicate n '0' ++ ['.', '0']) ⟨Decimal.natOfDigits digits, n⟩ (digits ++ List.replicate n '0') ['0'] none
      (n + 1) where
  text := by simp [fractionText, exponentText]
  before := by
    refine ⟨hdigits.digits.append (Decimal.digits_replicate_zero _), by simp [hdigits.ne_nil], ?_⟩
    rw [List.head?_append_of_ne_nil _ hdigits.ne_nil]
    exact fun hzero => absurd hzero hfirst
  behind := Decimal.digits_replicate_zero 1
  marked := rfl
  digits := by rw [List.append_assoc, ← List.replicate_succ', Decimal.natOfDigits_append_zeros]
  power := by simp
  filled := Or.inr rfl

/-- The point stands between two digits. -/
theorem spells_between {digits : List Char} (hdigits : WholeDigits digits) {n : Nat} (hfirst : digits.head? ≠ some '0') (hn : 0 < n)
    (hlt : n < digits.length) :
    Spells (digits.take n ++ '.' :: digits.drop n) ⟨Decimal.natOfDigits digits, (n : ℤ) - digits.length⟩ (digits.take n) (digits.drop n)
      none 0 where
  text := by
    rw [fractionText_of_ne_nil (by simpa using hlt)]
    simp [exponentText]
  before := by
    refine ⟨fun c hc => hdigits.digits c (List.mem_of_mem_take hc), ?_, ?_⟩
    · simp only [ne_eq, List.take_eq_nil_iff, hdigits.ne_nil, or_false]
      omega
    · rw [List.head?_take, if_neg (by omega)]
      exact fun hzero => absurd hzero hfirst
  behind := fun c hc => hdigits.digits c (List.mem_of_mem_drop hc)
  marked := by simpa using hlt
  digits := by rw [List.take_append_drop, pow_zero, mul_one]
  power := by
    simp only [Option.getD_none, List.length_drop]
    omega
  filled := Or.inl rfl

/-- Zeros stand between the point and the digits. -/
theorem spells_behind {digits : List Char} (hdigits : WholeDigits digits) (n : Nat) :
    Spells ('0' :: '.' :: List.replicate n '0' ++ digits) ⟨Decimal.natOfDigits digits, -((n : ℤ) + digits.length)⟩ ['0']
      (List.replicate n '0' ++ digits) none 0 where
  text := by
    rw [fractionText_of_ne_nil (by simp [hdigits.ne_nil])]
    simp [exponentText]
  before := wholeDigits_toDigits 0
  behind := (Decimal.digits_replicate_zero _).append hdigits.digits
  marked := by simp [hdigits.ne_nil]
  digits := by
    rw [← List.append_assoc, pow_zero, mul_one]
    exact Decimal.natOfDigits_zeros_append (n + 1) digits
  power := by simp
  filled := Or.inl rfl

/-- One digit stands before the point, and an exponent behind the digits. -/
theorem spells_scientific {c : Char} {cs : List Char} (hdigits : Digits (c :: cs)) (k : ℤ) :
    Spells (c :: (fractionText cs ++ exponentText (some k))) ⟨Decimal.natOfDigits (c :: cs), k - cs.length⟩ [c] cs (some k) 0 where
  text := rfl
  before := ⟨fun c' hc' => hdigits c' (List.mem_singleton.mp hc' ▸ List.mem_cons_self), by simp, by simp⟩
  behind := fun c' hc' => hdigits c' (List.mem_cons_of_mem _ hc')
  marked := by simp
  digits := by rw [List.singleton_append, pow_zero, mul_one]
  power := by simp
  filled := Or.inl rfl

/-- The text of a decimal is a numeral with a point or an exponent. -/
theorem exists_spells {d : Decimal} (hd : 0 < d.digits) :
    ∃ whole fraction exponent zeros, Spells (Number.decimalText d) d whole fraction exponent zeros := by
  obtain ⟨n, k⟩ := d
  have hvalue := Decimal.natOfDigits_toDigits n
  have hdigits := wholeDigits_toDigits n
  have hfirst := head?_toDigits hd
  unfold Number.decimalText Number.digitText
  dsimp only
  generalize Nat.toDigits 10 n = digits at *
  obtain rfl := hvalue
  have hlength := List.length_pos_of_ne_nil hdigits.ne_nil
  split
  · split
    · rename_i hexponent
      have hspells := spells_whole hdigits (n := k.toNat) hfirst
      rw [Int.toNat_of_nonneg hexponent] at hspells
      exact ⟨_, _, _, _, hspells⟩
    · split
      · rename_i hlead
        have hspells := spells_between hdigits (n := (k + digits.length - 1 + 1).toNat) hfirst (by omega) (by omega)
        rw [show (((k + digits.length - 1 + 1).toNat : ℕ) : ℤ) - digits.length = k by omega] at hspells
        exact ⟨_, _, _, _, hspells⟩
      · have hspells := spells_behind hdigits (-(k + digits.length - 1) - 1).toNat
        rw [show -((((-(k + digits.length - 1) - 1).toNat : ℕ) : ℤ) + digits.length) = k by omega] at hspells
        exact ⟨_, _, _, _, hspells⟩
  · obtain ⟨c, cs, rfl⟩ := List.exists_cons_of_ne_nil hdigits.ne_nil
    have hspells := spells_scientific hdigits.digits (k + (c :: cs).length - 1)
    rw [show k + (c :: cs).length - 1 - (cs.length : ℤ) = k by simp only [List.length_cons]; omega] at hspells
    cases cs with
    | nil => exact ⟨_, _, _, _, hspells⟩
    | cons c' cs => exact ⟨_, _, _, _, hspells⟩

/-- The text of a magnitude is a numeral with a point or an exponent. -/
theorem magnitudeText_numeral (magnitude : Nat) : ∃ whole fraction exponent,
    Number.magnitudeText magnitude = whole ++ (fractionText fraction ++ exponentText exponent) ∧ WholeDigits whole ∧ Digits fraction ∧
      (fraction.isEmpty && exponent.isNone) = false := by
  unfold Number.magnitudeText
  split
  · exact ⟨['0'], ['0'], none, rfl, wholeDigits_toDigits 0, Decimal.digits_replicate_zero 1, rfl⟩
  · rename_i hne
    obtain ⟨whole, fraction, exponent, _, h⟩ := exists_spells (Shortest.digits_pos (Nat.pos_of_ne_zero hne))
    exact ⟨whole, fraction, exponent, h.text, h.before, h.behind, h.marked⟩

/-- A float is written as its sign and its magnitude. -/
theorem text_float (x : Binary64) : (Number.float x).text.toList = signText x.negative ++ Number.magnitudeText x.magnitude := by
  rw [Number.text, String.toList_ofList]
  cases x.negative <;> rfl

/-- An integer is written as its sign and its digits. -/
theorem text_int (i : Int) : (Number.int i).text.toList = signText (decide (i < 0)) ++ Nat.toDigits 10 i.natAbs := by
  rw [Number.text, String.toList_ofList]
  unfold Number.intText Number.digitText signText
  by_cases hneg : i < 0 <;> simp [hneg]

/-- An integer of 64 bits is read back from its text. -/
theorem readNumber_int {i : Int} (hi : Number.inRange i = true) {rest : List Char} (hrest : EndsNumeral rest) :
    readNumber ((Number.int i).text.toList ++ rest) = some (.int i, rest) := by
  have hvalue : (if decide (i < 0) = true then -(i.natAbs : ℤ) else i.natAbs) = i := by
    by_cases hneg : i < 0
    · rw [if_pos (decide_eq_true hneg)]
      omega
    · rw [if_neg (by simp [hneg])]
      omega
  have hzero : (decide (i < 0) && decide (i.natAbs = 0)) = false := by
    rw [Bool.and_eq_false_iff, decide_eq_false_iff_not, decide_eq_false_iff_not]
    omega
  have hinteger : integer? (decide (i < 0)) (Nat.toDigits 10 i.natAbs) = some (.int i) := by
    unfold integer?
    rw [Decimal.natOfDigits_toDigits]
    dsimp only
    rw [hvalue, hi, hzero]
    rfl
  have hread := readNumber_numeral (decide (i < 0)) none (wholeDigits_toDigits i.natAbs) Decimal.digits_nil hrest
  rw [hinteger] at hread
  simpa [text_int, fractionText, exponentText] using hread

/-- A float is read by the digits of its text, whatever stands behind it. -/
theorem exists_readNumber_float (x : Binary64) : ∃ whole fraction exponent, ∀ rest, EndsNumeral rest →
    readNumber ((Number.float x).text.toList ++ rest) = (float? x.negative whole fraction exponent).map (·, rest) := by
  obtain ⟨whole, fraction, exponent, htext, hwhole, hfraction, hmarked⟩ := magnitudeText_numeral x.magnitude
  refine ⟨whole, fraction, exponent.getD 0, fun rest hrest => ?_⟩
  rw [text_float, htext, List.append_assoc, List.append_assoc, List.append_assoc,
    readNumber_numeral _ exponent hwhole hfraction hrest, hmarked]
  rfl

end Json

/-- The number that the text of a number is read as. An integer comes back, a float may come back as a neighbour. -/
def Number.reread? (n : Number) : Option Number := (Json.readNumber n.text.toList).map (·.1)

namespace Json

/-- A number is read from its text as it is read from its text alone, if nothing follows that the numeral could go on with. -/
theorem readNumber_text {n : Number} (hn : n.Held) {rest : List Char} (hrest : EndsNumeral rest) :
    readNumber (n.text.toList ++ rest) = n.reread?.map (·, rest) := by
  cases n with
  | int i =>
    have hread := readNumber_int hn endsNumeral_nil
    rw [List.append_nil] at hread
    rw [readNumber_int hn hrest, Number.reread?, hread]
    rfl
  | float x =>
    obtain ⟨whole, fraction, exponent, hread⟩ := exists_readNumber_float x
    have htext := hread [] endsNumeral_nil
    rw [List.append_nil] at htext
    rw [hread rest hrest, Number.reread?, htext, Option.map_map, Option.map_map]
    rfl

/-- An integer that a document can hold comes back from its text. -/
theorem reread?_int {i : Int} (hi : Number.inRange i = true) : (Number.int i).reread? = some (.int i) := by
  have hread := readNumber_int hi endsNumeral_nil
  rw [List.append_nil] at hread
  rw [Number.reread?, hread]
  rfl

/-- The text of a number begins with a minus sign or a digit. -/
theorem text_head (n : Number) : ∃ c s, n.text.toList = c :: s ∧ (c = '-' ∨ c.isDigit = true) := by
  have hsigned (negative : Bool) (tail : List Char) {whole : List Char} (h : WholeDigits whole) :
      ∃ c s, signText negative ++ (whole ++ tail) = c :: s ∧ (c = '-' ∨ c.isDigit = true) := by
    obtain ⟨c, cs, rfl⟩ := List.exists_cons_of_ne_nil h.ne_nil
    cases negative with
    | true => exact ⟨'-', c :: cs ++ tail, rfl, Or.inl rfl⟩
    | false => exact ⟨c, cs ++ tail, rfl, Or.inr (h.digits c List.mem_cons_self)⟩
  cases n with
  | int i => simpa [text_int] using hsigned (decide (i < 0)) [] (wholeDigits_toDigits i.natAbs)
  | float x =>
    obtain ⟨whole, fraction, exponent, htext, hwhole, -⟩ := magnitudeText_numeral x.magnitude
    rw [text_float, htext]
    exact hsigned x.negative _ hwhole

end Json

end Runbook
