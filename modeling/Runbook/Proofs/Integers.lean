import Runbook.Expr.Eval
import Runbook.Expr.Parser
import Runbook.Proofs.Rounding

/-!
# Comparing integers

Integers are compared by the 64-bit numbers that they round to. Rounding keeps the order, so a comparison of integers is exact but for
integers that round to the same number: they compare as equal. Such integers have the same sign, have 54 bits or more, and are near to each
other.
-/

namespace Runbook

namespace Binary64

/-! ## What a quotient rounds to -/

/-- A magnitude has one significand and exponent. -/
theorem parts_of_sum {magnitude m : Nat} {e : ℤ} (hlowest : -1074 ≤ e) (hlt : m < 2 ^ 53) (hfull : -1074 < e → 2 ^ 52 ≤ m)
    (hsum : magnitude = (e + 1074).toNat * 2 ^ 52 + m) : Parts magnitude m e := by
  obtain ⟨m', e', hp⟩ := exists_parts magnitude
  have hlowest' := hp.lowest
  have hlt' := hp.lt
  have hfull' := hp.full
  have hsum' := hp.sum
  obtain rfl : e' = e := by
    rcases lt_trichotomy e' e with h | rfl | h
    · have := hfull (by omega)
      omega
    · rfl
    · have := hfull' (by omega)
      omega
  obtain rfl : m' = m := by omega
  exact hp

/-- What lies half a place or less from the middle of its parts rounds to the magnitude. -/
theorem Parts.roundsTo {x : ℚ} {magnitude m : Nat} {e : ℤ} (hp : Parts magnitude m e) (hlow : ((m : ℚ) - reach magnitude) * 2 ^ e ≤ x)
    (hhigh : x ≤ (m + 1 / 2) * 2 ^ e)
    (hodd : m % 2 = 1 → ((m : ℚ) - reach magnitude) * 2 ^ e < x ∧ x < (m + 1 / 2) * 2 ^ e) : RoundsTo x magnitude := by
  unfold RoundsTo
  rw [hp.unpack_eq]
  dsimp only
  split
  · exact ⟨hlow, hhigh⟩
  · rename_i heven
    exact hodd (by omega)

/-- A rounded quotient is half a unit from the quotient at most, and even if it is just half a unit. -/
theorem roundDiv_near {n d : Nat} (hd : 0 < d) :
    2 * (roundDiv n d * d) ≤ 2 * n + d ∧ 2 * n ≤ 2 * (roundDiv n d * d) + d ∧
      (roundDiv n d % 2 = 1 → 2 * (roundDiv n d * d) < 2 * n + d ∧ 2 * n < 2 * (roundDiv n d * d) + d) := by
  have hn : n = n / d * d + n % d := (Nat.div_add_mod' n d).symm
  have hrem : n % d < d := Nat.mod_lt n hd
  unfold roundDiv
  generalize n / d = q at *
  generalize n % d = rem at *
  subst hn
  simp only [Bool.or_eq_true, Bool.and_eq_true, decide_eq_true_eq]
  split
  · omega
  · have hstep : (q + 1) * d = q * d + d := Nat.succ_mul q d
    omega

/-- A rounded quotient is next to it. -/
theorem roundDiv_near_rat {n d : Nat} (hd : 0 < d) :
    (roundDiv n d : ℚ) - 1 / 2 ≤ n / d ∧ (n / d : ℚ) ≤ roundDiv n d + 1 / 2 ∧
      (roundDiv n d % 2 = 1 → (roundDiv n d : ℚ) - 1 / 2 < n / d ∧ (n / d : ℚ) < roundDiv n d + 1 / 2) := by
  have hpos : (0 : ℚ) < d := by exact_mod_cast hd
  obtain ⟨hlow, hhigh, hodd⟩ := roundDiv_near (n := n) hd
  generalize roundDiv n d = r at *
  have hlow' : 2 * ((r : ℚ) * d) ≤ 2 * n + d := by exact_mod_cast hlow
  have hhigh' : 2 * (n : ℚ) ≤ 2 * (r * d) + d := by exact_mod_cast hhigh
  rw [le_div_iff₀ hpos, div_le_iff₀ hpos, lt_div_iff₀ hpos, div_lt_iff₀ hpos]
  refine ⟨by linarith, by linarith, ?_⟩
  intro hone
  obtain ⟨hlt, hgt⟩ := hodd hone
  have hlt' : 2 * ((r : ℚ) * d) < 2 * n + d := by exact_mod_cast hlt
  have hgt' : 2 * (n : ℚ) < 2 * (r * d) + d := by exact_mod_cast hgt
  exact ⟨by linarith, by linarith⟩

/-- The significand `r` at the last place `e` is next to the number, half way to a neighbour only if it is even. -/
structure Near (x : ℚ) (r : Nat) (e : ℤ) : Prop where
  low : ((r : ℚ) - 1 / 2) * 2 ^ e ≤ x
  high : x ≤ (r + 1 / 2) * 2 ^ e
  odd : r % 2 = 1 → ((r : ℚ) - 1 / 2) * 2 ^ e < x ∧ x < (r + 1 / 2) * 2 ^ e

/-- What is near a number of places is near it, measured in places. -/
theorem near_of_div {x : ℚ} {r : Nat} {e : ℤ} (hlow : (r : ℚ) - 1 / 2 ≤ x / 2 ^ e) (hhigh : x / 2 ^ e ≤ (r : ℚ) + 1 / 2)
    (hodd : r % 2 = 1 → (r : ℚ) - 1 / 2 < x / 2 ^ e ∧ x / 2 ^ e < (r : ℚ) + 1 / 2) : Near x r e := by
  rw [le_div_iff₀ (two_zpow_pos e)] at hlow
  rw [div_le_iff₀ (two_zpow_pos e)] at hhigh
  rw [lt_div_iff₀ (two_zpow_pos e), div_lt_iff₀ (two_zpow_pos e)] at hodd
  exact ⟨hlow, hhigh, hodd⟩

/-- Of one last place, a greater number has a significand that is no less: if both are half way between the same two neighbours, only one
of these is even. -/
theorem Near.mono {x y : ℚ} {r r' : Nat} {e : ℤ} (h : Near x r e) (h' : Near y r' e) (hle : x ≤ y) : r ≤ r' := by
  by_contra hgt
  have hstep : ((r' + 1 : ℕ) : ℚ) ≤ r := by exact_mod_cast not_le.mp hgt
  push_cast at hstep
  have hmid : ((r' : ℚ) + 1 / 2) * 2 ^ e ≤ (r - 1 / 2) * 2 ^ e :=
    mul_le_mul_of_nonneg_right (by linarith) (two_zpow_pos e).le
  have hsame : ((r' : ℚ) + 1 / 2) * 2 ^ e = (r - 1 / 2) * 2 ^ e := le_antisymm hmid (h.low.trans (hle.trans h'.high))
  have hnext : r = r' + 1 := by
    have heq := mul_right_cancel₀ (two_zpow_pos e).ne' hsame
    have hcast : (r : ℚ) = ((r' + 1 : ℕ) : ℚ) := by
      push_cast
      linarith
    exact_mod_cast hcast
  rcases Nat.mod_two_eq_zero_or_one r with heven | hodd
  · have hlt := (h'.odd (by omega)).2
    exact absurd (h.low.trans hle) (not_le.mpr (hsame ▸ hlt))
  · have hlt := (h.odd hodd).1
    exact absurd (hle.trans h'.high) (not_le.mpr (hsame ▸ hlt))

/-- A positive quotient has a binade; its last place is that of the binade or the lowest of all, and it is rounded to a significand there. -/
structure Rounded (x : ℚ) (magnitude : Nat) (k e : ℤ) (r : Nat) : Prop where
  binade : (2 : ℚ) ^ k ≤ x
  binade' : x < 2 ^ (k + 1)
  place : e = max (k - 52) (-1074)
  near : Near x r e
  sum : magnitude = (e + 1074).toNat * 2 ^ 52 + r

/-- A quotient is rounded at some place. -/
theorem exists_rounded {n d : Nat} (hn : 0 < n) (hd : 0 < d) : ∃ k e r, Rounded (n / d) (roundQuotient n d) k e r := by
  have hpos : (0 : ℚ) < n / d := div_pos (by exact_mod_cast hn) (by exact_mod_cast hd)
  obtain ⟨k, hk, hk'⟩ := exists_mem_Ico_zpow hpos (by norm_num : (1 : ℚ) < 2)
  refine ⟨k, max (k - 52) (-1074), _, hk, hk', rfl, ?_, by unfold roundQuotient; rw [if_neg hn.ne', lastPlace_eq hn hd hk hk']⟩
  generalize max (k - 52) (-1074) = e
  have hscale : (n / d / 2 ^ e : ℚ) = ((n * 2 ^ (-e).toNat : ℕ) : ℚ) / ((d * 2 ^ e.toNat : ℕ) : ℚ) := by
    rw [zpow_eq_div, div_div_eq_mul_div, div_mul_eq_mul_div, div_div]
    push_cast
    rfl
  split
  · rename_i he
    have hplace : (n / d / 2 ^ e : ℚ) = (n : ℚ) / ((d * 2 ^ e.toNat : ℕ) : ℚ) := by
      rw [hscale, show (-e).toNat = 0 by omega, pow_zero, mul_one]
    obtain ⟨hlow, hhigh, hodd⟩ := roundDiv_near_rat (n := n) (d := d * 2 ^ e.toNat) (by positivity)
    rw [← hplace] at hlow hhigh hodd
    exact near_of_div hlow hhigh hodd
  · rename_i he
    have hplace : (n / d / 2 ^ e : ℚ) = ((n * 2 ^ (-e).toNat : ℕ) : ℚ) / (d : ℚ) := by
      rw [hscale, show e.toNat = 0 by omega, pow_zero, mul_one]
    obtain ⟨hlow, hhigh, hodd⟩ := roundDiv_near_rat (n := n * 2 ^ (-e).toNat) hd
    rw [← hplace] at hlow hhigh hodd
    exact near_of_div hlow hhigh hodd

namespace Rounded

variable {x y : ℚ} {magnitude magnitude' r r' : Nat} {k k' e e' : ℤ}

/-- Nothing is rounded below the lowest place. -/
theorem lowest (h : Rounded x magnitude k e r) : -1074 ≤ e := by
  have := h.place
  omega

/-- What is rounded is below the top of its binade. -/
theorem lt_top (h : Rounded x magnitude k e r) : x < 2 ^ (53 : ℤ) * 2 ^ e := by
  refine h.binade'.trans_le ?_
  rw [← zpow_add₀ (by norm_num)]
  exact zpow_le_zpow_right₀ (by norm_num) (by have := h.place; omega)

/-- The digits of what is rounded fill 53 bits at most. -/
theorem le_top (h : Rounded x magnitude k e r) : r ≤ 2 ^ 53 := by
  have hlt := lt_of_mul_lt_mul_right (h.near.low.trans_lt h.lt_top) (two_zpow_pos e).le
  have hlt' : (r : ℚ) < ((2 ^ 53 + 1 : ℕ) : ℚ) := by
    push_cast
    linarith
  exact Nat.lt_succ_iff.mp (by exact_mod_cast hlt')

/-- Above the lowest place a number is no less than the first of its binade. -/
theorem first_le (h : Rounded x magnitude k e r) (he : -1074 < e) : 2 ^ (52 : ℤ) * 2 ^ e ≤ x := by
  refine le_trans (le_of_eq ?_) h.binade
  rw [← zpow_add₀ (by norm_num)]
  congr 1
  have := h.place
  omega

/-- The digits of what is rounded above the lowest place fill 53 bits. -/
theorem full (h : Rounded x magnitude k e r) (he : -1074 < e) : 2 ^ 52 ≤ r := by
  have hle := le_of_mul_le_mul_right ((h.first_le he).trans h.near.high) (two_zpow_pos e)
  have hlt : ((2 ^ 52 : ℕ) : ℚ) < ((r + 1 : ℕ) : ℚ) := by
    push_cast
    linarith
  exact Nat.lt_succ_iff.mp (by exact_mod_cast hlt)

/-- The significand after all those of a binade is the first of the next one, where the last place is twice as high. -/
theorem parts_next (h : Rounded x magnitude k e (2 ^ 53)) : Parts magnitude (2 ^ 52) (e + 1) := by
  have hlowest := h.lowest
  refine parts_of_sum (by omega) (by norm_num) (fun _ => le_rfl) ?_
  rw [h.sum, show (e + 1 + 1074).toNat = (e + 1074).toNat + 1 by omega]
  omega

/-- A number rounds to the magnitude that it is rounded to. -/
theorem roundsTo (h : Rounded x magnitude k e r) : RoundsTo x magnitude := by
  have hlowest := h.lowest
  have hunit := two_zpow_pos e
  rcases h.le_top.lt_or_eq with hlt | rfl
  · have hp := parts_of_sum hlowest hlt h.full h.sum
    by_cases hfirst : r = 2 ^ 52 ∧ -1074 < e
    · obtain ⟨rfl, he⟩ := hfirst
      refine hp.roundsTo (le_trans ?_ (h.first_le he)) h.near.high (by norm_num)
      refine mul_le_mul_of_nonneg_right ?_ hunit.le
      have := (reach_pos magnitude).le
      push_cast
      linarith
    · have hreach : reach magnitude = 1 / 2 := by
        unfold reach
        rw [hp.unpack_eq, if_neg]
        rintro ⟨hr, hlarge⟩
        exact hfirst ⟨hr, by have := h.sum; omega⟩
      have hnear := h.near
      refine hp.roundsTo ?_ hnear.high ?_
      · rw [hreach]
        exact hnear.low
      · rw [hreach]
        exact hnear.odd
  · have hdouble : (2 : ℚ) ^ (e + 1) = 2 * 2 ^ e := by rw [two_zpow_add, zpow_one]
    have hp := h.parts_next
    refine hp.roundsTo ?_ ?_ (by norm_num)
    · rw [hp.reach_first (by omega), hdouble]
      refine le_trans (le_of_eq ?_) h.near.low
      push_cast
      ring
    · rw [hdouble]
      refine h.lt_top.le.trans ?_
      rw [← mul_assoc]
      exact mul_le_mul_of_nonneg_right (by norm_num) hunit.le

/-- Rounding keeps the order: the greatest significand of a place is worth no more than the first of the next. -/
theorem mono (h : Rounded x magnitude k e r) (h' : Rounded y magnitude' k' e' r') (hle : x ≤ y) : magnitude ≤ magnitude' := by
  have hk : k ≤ k' := by
    have hlt := (zpow_lt_zpow_iff_right₀ (by norm_num : (1 : ℚ) < 2)).mp ((h.binade.trans hle).trans_lt h'.binade')
    omega
  have hplace := h.place
  have hplace' := h'.place
  rw [h.sum, h'.sum]
  rcases (show e ≤ e' by omega).lt_or_eq with hlt | rfl
  · have hfull := h'.full (by omega)
    have htop := h.le_top
    have hstep := Nat.mul_le_mul_right (2 ^ 52) (show (e + 1074).toNat + 1 ≤ (e' + 1074).toNat by omega)
    omega
  · have hr : r ≤ r' := h.near.mono h'.near hle
    omega

end Rounded

/-! ## What an integer rounds to -/

/-- A natural number rounds to the magnitude that it is rounded to. -/
theorem roundsTo_roundQuotient (n : Nat) : RoundsTo n (roundQuotient n 1) := by
  rcases Nat.eq_zero_or_pos n with rfl | hn
  · exact_mod_cast roundsTo_zero
  · obtain ⟨k, e, r, h⟩ := exists_rounded hn (d := 1) Nat.one_pos
    simpa using h.roundsTo

/-- A natural number is rounded to the one magnitude that it rounds to. -/
theorem roundQuotient_eq_iff {n magnitude : Nat} : roundQuotient n 1 = magnitude ↔ RoundsTo n magnitude := by
  refine ⟨fun h => h ▸ roundsTo_roundQuotient n, ?_⟩
  intro h
  rcases Nat.eq_zero_or_pos n with rfl | hn
  · by_contra hne
    have hge := h.ge_of_pos (Nat.pos_of_ne_zero (Ne.symm hne))
    rw [Nat.cast_zero] at hge
    exact absurd (two_zpow_pos _) (not_lt.mpr hge)
  · exact roundQuotient_of_roundsTo hn Nat.one_pos (by simpa using h)

/-- Larger natural numbers are rounded to magnitudes no smaller. -/
theorem roundQuotient_mono {m n : Nat} (h : m ≤ n) : roundQuotient m 1 ≤ roundQuotient n 1 := by
  rcases Nat.eq_zero_or_pos m with rfl | hm
  · exact Nat.zero_le _
  · obtain ⟨k, e, r, hround⟩ := exists_rounded hm (d := 1) Nat.one_pos
    obtain ⟨k', e', r', hround'⟩ := exists_rounded (hm.trans_le h) (d := 1) Nat.one_pos
    refine hround.mono hround' ?_
    simpa using h

/-- No positive number is rounded to zero. -/
theorem roundQuotient_pos {n : Nat} (h : 0 < n) : 0 < roundQuotient n 1 := by
  have hone : roundQuotient 1 1 = 1023 * 2 ^ 52 := by decide +kernel
  exact (by rw [hone]; norm_num : 0 < roundQuotient 1 1).trans_le (roundQuotient_mono h)

/-- What rounds to a magnitude above the lowest place is no less than what rounds to the first of its binade. -/
theorem Parts.first_le {x : ℚ} {magnitude m : Nat} {e : ℤ} (hp : Parts magnitude m e) (he : -1074 < e) (h : RoundsTo x magnitude) :
    ((2 : ℚ) ^ (52 : ℤ) - 1 / 4) * 2 ^ e ≤ x := by
  refine le_trans (mul_le_mul_of_nonneg_right ?_ (two_zpow_pos e).le) (h.near hp).1
  rcases (hp.full he).eq_or_lt with rfl | hlarge
  · rw [hp.reach_first he]
    norm_num
  · have hstep : ((2 ^ 52 + 1 : ℕ) : ℚ) ≤ m := by exact_mod_cast hlarge
    have hreach := reach_le magnitude
    have hcast : (2 : ℚ) ^ (52 : ℤ) = 2 ^ 52 := rfl
    push_cast at hstep
    linarith

/-- What rounds to the same magnitude is no further apart than a last place. -/
theorem Parts.width {x y : ℚ} {magnitude m : Nat} {e : ℤ} (hp : Parts magnitude m e) (hx : RoundsTo x magnitude)
    (hy : RoundsTo y magnitude) : y - x ≤ 2 ^ e := by
  have hreach := reach_le magnitude
  have hsum : ((m : ℚ) + 1 / 2) * 2 ^ e - (m - reach magnitude) * 2 ^ e ≤ 1 * 2 ^ e := by
    rw [← sub_mul]
    exact mul_le_mul_of_nonneg_right (by linarith) (two_zpow_pos e).le
  have hlow := (hx.near hp).1
  have hhigh := (hy.near hp).2.1
  linarith

/-- Different whole numbers round to the same magnitude only where the last place is above one: where it is one, a whole number is next to
itself only. -/
theorem Parts.place_pos {a b magnitude m : Nat} {e : ℤ} (hp : Parts magnitude m e) (ha : RoundsTo a magnitude)
    (hb : RoundsTo b magnitude) (hlt : a < b) : 1 ≤ e := by
  have hgap : ((a + 1 : ℕ) : ℚ) ≤ b := by exact_mod_cast hlt
  push_cast at hgap
  have hzero : 0 ≤ e := by
    have hone : (2 : ℚ) ^ (0 : ℤ) ≤ 2 ^ e := by
      rw [zpow_zero]
      linarith [hp.width ha hb]
    exact (zpow_le_zpow_iff_right₀ (by norm_num)).mp hone
  have hne : e ≠ 0 := by
    rintro rfl
    have hlow := (ha.near hp).1
    have hhigh := (hb.near hp).2.1
    have hreach := reach_le magnitude
    rw [zpow_zero, mul_one] at hlow hhigh
    have hm : (m : ℚ) < ((a + 1 : ℕ) : ℚ) := by
      push_cast
      linarith
    have hm' : (b : ℚ) < ((m + 1 : ℕ) : ℚ) := by
      push_cast
      linarith
    have hle : m < a + 1 := by exact_mod_cast hm
    have hge : b < m + 1 := by exact_mod_cast hm'
    omega
  omega

/-- Different integers that round to the same magnitude have 54 bits or more, and below `2 ^ 64` they are near to each other:
only the last numbers below this round to a place higher than the eleventh. -/
theorem near_of_roundsTo {a b magnitude : Nat} (ha : RoundsTo a magnitude) (hb : RoundsTo b magnitude) (hlt : a < b)
    (hrange : b < 2 ^ 64) : 2 ^ 53 ≤ a ∧ b ≤ a + 2 ^ 11 := by
  obtain ⟨m, e, hp⟩ := exists_parts magnitude
  have hplace := hp.place_pos ha hb hlt
  have hfirst {k : ℤ} (hk : k ≤ e) : ((2 : ℚ) ^ (52 : ℤ) - 1 / 4) * 2 ^ k ≤ a :=
    le_trans (mul_le_mul_of_nonneg_left (zpow_le_zpow_right₀ (by norm_num) hk) (by norm_num)) (hp.first_le (by omega) ha)
  have htop : e ≤ 12 := by
    by_contra hlarge
    have hrange' : (a : ℚ) < ((2 ^ 64 : ℕ) : ℚ) := by exact_mod_cast hlt.trans hrange
    have hmore := (hfirst (show 13 ≤ e by omega)).trans_lt hrange'
    norm_num at hmore
  constructor
  · have hmore := hfirst hplace
    have hcast : ((2 ^ 53 : ℕ) : ℚ) < ((a + 1 : ℕ) : ℚ) := by
      push_cast
      norm_num at hmore
      linarith
    exact Nat.lt_succ_iff.mp (by exact_mod_cast hcast)
  · rcases htop.lt_or_eq with hless | rfl
    · have hle : (2 : ℚ) ^ e ≤ 2 ^ (11 : ℤ) := zpow_le_zpow_right₀ (by norm_num) (by omega)
      have hwidth := hp.width ha hb
      have hcast : (b : ℚ) ≤ ((a + 2 ^ 11 : ℕ) : ℚ) := by
        push_cast
        norm_num at hle
        linarith
      exact_mod_cast hcast
    · have hmore := hfirst le_rfl
      have hcast : ((2 ^ 64 - 2 ^ 10 : ℕ) : ℚ) ≤ a := by
        norm_num at hmore ⊢
        linarith
      have hge : 2 ^ 64 - 2 ^ 10 ≤ a := by exact_mod_cast hcast
      omega

/-! ## Integers that are rounded together -/

/-- Integers that are rounded together have the same sign and round to the same magnitude. -/
def RoundTogether (i j : Int) : Prop :=
  (i < 0 ↔ j < 0) ∧ ∃ magnitude, RoundsTo i.natAbs magnitude ∧ RoundsTo j.natAbs magnitude

/-- Different integers that round together are both large, and close to each other. -/
theorem RoundTogether.bounds {i j : Int} (h : RoundTogether i j) (hne : i ≠ j) (hi : Number.inRange i = true)
    (hj : Number.inRange j = true) : 2 ^ 53 ≤ i.natAbs ∧ 2 ^ 53 ≤ j.natAbs ∧ (i - j).natAbs ≤ 2 ^ 11 := by
  obtain ⟨hsign, magnitude, hri, hrj⟩ := h
  simp only [Number.inRange, Bool.and_eq_true, decide_eq_true_eq] at hi hj
  rcases lt_trichotomy i.natAbs j.natAbs with hlt | heq | hlt
  · have := near_of_roundsTo hri hrj hlt (by omega)
    omega
  · omega
  · have := near_of_roundsTo hrj hri hlt (by omega)
    omega

theorem orderOfInt_mono {i j : Int} (h : i ≤ j) : orderOfInt i ≤ orderOfInt j := by
  unfold orderOfInt
  split <;> split
  · have := roundQuotient_mono (show j.natAbs ≤ i.natAbs by omega)
    omega
  · omega
  · omega
  · have := roundQuotient_mono (show i.natAbs ≤ j.natAbs by omega)
    omega

/-- Integers have the same place among the numbers of 64 bits exactly when they are rounded together. -/
theorem orderOfInt_eq_iff {i j : Int} : orderOfInt i = orderOfInt j ↔ RoundTogether i j := by
  have hsame : (∃ magnitude, RoundsTo i.natAbs magnitude ∧ RoundsTo j.natAbs magnitude) ↔
      roundQuotient i.natAbs 1 = roundQuotient j.natAbs 1 := by
    simp only [← roundQuotient_eq_iff]
    exact ⟨fun ⟨_, hi, hj⟩ => hi.trans hj.symm, fun h => ⟨_, h, rfl⟩⟩
  unfold RoundTogether orderOfInt
  rw [hsame]
  split <;> split
  · rename_i hi hj
    simp [hi, hj]
  · rename_i hi hj
    have := roundQuotient_pos (show 0 < i.natAbs by omega)
    omega
  · rename_i hi hj
    have := roundQuotient_pos (show 0 < j.natAbs by omega)
    omega
  · rename_i hi hj
    simp [hi, hj]

/-- Rounding keeps the order of integers that are not rounded together. -/
theorem compare_orderOfInt (i j : Int) [Decidable (RoundTogether i j)] :
    compare (orderOfInt i) (orderOfInt j) = if RoundTogether i j then .eq else compare i j := by
  split
  · rename_i h
    rw [compare_eq_iff_eq, orderOfInt_eq_iff]
    exact h
  · rename_i h
    rw [← orderOfInt_eq_iff] at h
    rcases lt_trichotomy i j with hlt | rfl | hlt
    · rw [compare_lt_iff_lt.mpr hlt, compare_lt_iff_lt]
      exact lt_of_le_of_ne (orderOfInt_mono hlt.le) h
    · exact absurd rfl h
    · rw [compare_gt_iff_gt.mpr hlt, compare_gt_iff_gt]
      exact lt_of_le_of_ne (orderOfInt_mono hlt.le) (Ne.symm h)

end Binary64

/-! ## Comparing them -/

/-- When a comparison holds, by the order of its sides; the other operators compare nothing. -/
def BinaryOp.holds? : BinaryOp → Option (Ordering → Bool)
  | looseEq | strictEq => some (· == .eq)
  | looseNe | strictNe => some (· != .eq)
  | lt => some (· == .lt)
  | le => some (· != .gt)
  | gt => some (· == .gt)
  | ge => some (· != .lt)
  | or | and | concat => none

/-- Of a pair with an order, the order decides both equalities. -/
theorem Value.equal_of_ordering? {a b : Option Value} {o : Ordering} (h : ordering? a b = some o) :
    strictEq a b = (o == .eq) ∧ looseEq a b = (o == .eq) := by
  unfold ordering? at h
  split at h
  · rename_i m n
    obtain rfl := Option.some.inj h
    have hsame : decide (m.order = n.order) = (compare m.order n.order == .eq) := by
      rw [Bool.eq_iff_iff, decide_eq_true_iff, beq_iff_eq, compare_eq_iff_eq]
    exact ⟨hsame, hsame⟩
  · rename_i s t
    obtain rfl := Option.some.inj h
    have hsame : (s == t) = (compare s t == .eq) := by
      rw [Bool.eq_iff_iff, beq_iff_eq, beq_iff_eq, Std.LawfulEqOrd.compare_eq_iff_eq]
    exact ⟨hsame, hsame⟩
  · cases h

/-- Of a pair with an order, the order decides every comparison. -/
theorem Value.compareBy_of_ordering? {a b : Option Value} {o : Ordering} (h : ordering? a b = some o) {op : BinaryOp}
    {holds : Ordering → Bool} (hop : op.holds? = some holds) : compareBy op a b = holds o := by
  obtain ⟨hstrict, hloose⟩ := equal_of_ordering? h
  unfold compareBy
  rw [hstrict, hloose, h]
  cases op <;> cases hop <;> cases o <;> rfl

/-- Integers are compared by the numbers that they round to. -/
theorem Value.compareBy_int {op : BinaryOp} {holds : Ordering → Bool} (h : op.holds? = some holds) (i j : Int) :
    compareBy op (some (.num (.int i))) (some (.num (.int j))) =
      holds (compare (Binary64.orderOfInt i) (Binary64.orderOfInt j)) :=
  compareBy_of_ordering? rfl h

namespace Expr

open Binary64 (RoundTogether)

/-- A comparison is the comparison of the values of its sides. -/
theorem eval_comparison {op : BinaryOp} {holds : Ordering → Bool} (h : op.holds? = some holds) (scope : Scope) (left right : Expr) :
    (binary op left right).eval scope = some (.bool (Value.compareBy op (left.eval scope) (right.eval scope))) := by
  cases op <;> first | rfl | cases h

open Classical in
/-- A comparison of two integers says what is true of them, unless they are different integers that round to the same 64-bit number: it
takes these for equal. They have the same sign and 54 bits or more, and differ by no more than 2048. -/
theorem integers_compared {scope : Scope} {op : BinaryOp} {left right : Expr} {i j : Int} {holds : Ordering → Bool}
    (hop : op.holds? = some holds) (hleft : left.eval scope = some (.num (.int i))) (hright : right.eval scope = some (.num (.int j)))
    (hi : Number.inRange i = true) (hj : Number.inRange j = true) :
    (binary op left right).eval scope = some (.bool (holds (if RoundTogether i j then .eq else compare i j))) ∧
      (RoundTogether i j → i ≠ j → (i < 0 ↔ j < 0) ∧ 2 ^ 53 ≤ i.natAbs ∧ 2 ^ 53 ≤ j.natAbs ∧ (i - j).natAbs ≤ 2 ^ 11) := by
  constructor
  · rw [eval_comparison hop, hleft, hright, Value.compareBy_int hop, Binary64.compare_orderOfInt]
  · intro htogether hne
    exact ⟨htogether.1, htogether.bounds hne hi hj⟩

/-- Of two ids that differ by two, past `2 ^ 53`, the smaller is less. -/
theorem integers_compared_of_ids :
    let ids := Scope.ofValue (.obj [("a", .num (.int 9007199254740994)), ("b", .num (.int 9007199254740996))])
    (binary .lt (.path ⟨"a", []⟩) (.path ⟨"b", []⟩)).eval ids = some (.bool true) := by
  intro ids
  have hapart : ¬RoundTogether 9007199254740994 9007199254740996 := by
    rw [← Binary64.orderOfInt_eq_iff]
    decide +kernel
  have hless : BinaryOp.lt.holds? = some (· == .lt) := rfl
  have hleft : (path ⟨"a", []⟩).eval ids = some (.num (.int 9007199254740994)) := rfl
  have hright : (path ⟨"b", []⟩).eval ids = some (.num (.int 9007199254740996)) := rfl
  rw [(integers_compared hless hleft hright (by decide) (by decide)).1, if_neg hapart]
  rfl

/-- Two ids that differ by one, past `2 ^ 53`, are equal in the strict sense, but as items of a list they are not. -/
theorem neighbours_equal : ∃ e, Expr.parse "a === b" = .ok e ∧
    e.eval (Scope.ofValue (.obj [("a", .num (.int 9007199254740993)), ("b", .num (.int 9007199254740992))])) = some (.bool true) ∧
      (9007199254740993 : Int) ≠ 9007199254740992 ∧
      Value.strictEq (some (.arr [.num (.int 9007199254740993)])) (some (.arr [.num (.int 9007199254740992)])) = false := by
  refine ⟨.binary .strictEq (.path ⟨"a", []⟩) (.path ⟨"b", []⟩), by with_unfolding_all rfl, ?_, by decide, by cbv⟩
  have hsame : Binary64.orderOfInt 9007199254740993 = Binary64.orderOfInt 9007199254740992 := by decide +kernel
  have hstrict := Value.compareBy_int (show BinaryOp.strictEq.holds? = _ from rfl) 9007199254740993 9007199254740992
  rw [hsame] at hstrict
  exact congrArg (some ∘ Value.bool) (hstrict.trans (by simp))

end Expr

end Runbook
