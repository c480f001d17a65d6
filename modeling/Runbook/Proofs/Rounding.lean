import Mathlib.Algebra.Order.Archimedean.Basic
import Mathlib.Algebra.Order.Field.Power
import Mathlib.Algebra.Order.Field.Rat
import Mathlib.Tactic.FieldSimp
import Mathlib.Tactic.Linarith
import Mathlib.Tactic.NormNum
import Mathlib.Tactic.Ring
import Runbook.Numeric.Decimal

/-!
# Rounding to the nearest

Of each magnitude, the numbers that round to it lie between the points half way to its neighbours; the neighbour below the first of a
binade is only half as far away. The end points belong to the magnitudes with an even significand. A quotient of natural numbers rounds to
the magnitude that it lies next to.
-/

namespace Runbook.Binary64

/-- The least number that rounds to a magnitude is by this much of a last place smaller than its own. -/
def reach (magnitude : Nat) : ℚ := if (unpack magnitude).1 = 2 ^ 52 ∧ 2 ^ 52 < magnitude then 1 / 4 else 1 / 2

/-- The number rounds to the magnitude: it is next to it, and half way to a neighbour only if the significand is even. -/
def RoundsTo (x : ℚ) (magnitude : Nat) : Prop :=
  let low := ((unpack magnitude).1 - reach magnitude) * (2 : ℚ) ^ (unpack magnitude).2
  let high := ((unpack magnitude).1 + 1 / 2) * (2 : ℚ) ^ (unpack magnitude).2
  if (unpack magnitude).1 % 2 = 0 then low ≤ x ∧ x ≤ high else low < x ∧ x < high

/-! ## Rounding a quotient to a natural number -/

/-- What is half a unit from a quotient at most, and even if it is just half a unit, is the rounded quotient. -/
theorem roundDiv_eq {n d r : Nat} (hlow : 2 * (r * d) ≤ 2 * n + d) (hhigh : 2 * n ≤ 2 * (r * d) + d)
    (hodd : r % 2 = 1 → 2 * (r * d) < 2 * n + d ∧ 2 * n < 2 * (r * d) + d) (hd : 0 < d) : roundDiv n d = r := by
  have hn : n = n / d * d + n % d := (Nat.div_add_mod' n d).symm
  have hrem : n % d < d := Nat.mod_lt n hd
  unfold roundDiv
  generalize n / d = q at *
  generalize n % d = rem at *
  subst hn
  have hle : q ≤ r := by
    by_contra hlt
    have hstep : (r + 1) * d ≤ q * d := Nat.mul_le_mul_right d (by omega)
    rw [Nat.succ_mul] at hstep
    omega
  have hge : r ≤ q + 1 := by
    by_contra hlt
    have hstep : (q + 2) * d ≤ r * d := Nat.mul_le_mul_right d (by omega)
    rw [Nat.add_mul] at hstep
    omega
  obtain rfl | rfl : r = q ∨ r = q + 1 := by omega
  · rw [if_pos]
    rw [Bool.or_eq_true, Bool.and_eq_true, decide_eq_true_eq, decide_eq_true_eq, decide_eq_true_eq]
    omega
  · have hstep : (q + 1) * d = q * d + d := Nat.succ_mul q d
    rw [hstep] at hlow hhigh hodd
    rw [if_neg]
    rw [Bool.or_eq_true, Bool.and_eq_true, decide_eq_true_eq, decide_eq_true_eq, decide_eq_true_eq]
    omega

/-- A quotient is rounded to the natural number that it is next to. -/
theorem roundDiv_eq_of_near {n d r : Nat} (hd : 0 < d) (hlow : (r : ℚ) - 1 / 2 ≤ n / d) (hhigh : (n / d : ℚ) ≤ r + 1 / 2)
    (hodd : r % 2 = 1 → (r : ℚ) - 1 / 2 < n / d ∧ (n / d : ℚ) < r + 1 / 2) : roundDiv n d = r := by
  have hpos : (0 : ℚ) < d := by exact_mod_cast hd
  rw [le_div_iff₀ hpos] at hlow
  rw [div_le_iff₀ hpos] at hhigh
  rw [lt_div_iff₀ hpos, div_lt_iff₀ hpos] at hodd
  have hle : 2 * ((r : ℚ) * d) ≤ 2 * n + d := by linarith
  have hge : 2 * (n : ℚ) ≤ 2 * (r * d) + d := by linarith
  refine roundDiv_eq (by exact_mod_cast hle) (by exact_mod_cast hge) ?_ hd
  intro hone
  obtain ⟨hlt, hgt⟩ := hodd hone
  have hlt' : 2 * ((r : ℚ) * d) < 2 * n + d := by linarith
  have hgt' : 2 * (n : ℚ) < 2 * (r * d) + d := by linarith
  exact ⟨by exact_mod_cast hlt', by exact_mod_cast hgt'⟩

/-! ## The place of the last digit -/

theorem two_zpow_pos (k : ℤ) : (0 : ℚ) < 2 ^ k := zpow_pos (by norm_num) k

theorem two_zpow_add (e i : ℤ) : (2 : ℚ) ^ (e + i) = 2 ^ i * 2 ^ e := by rw [add_comm, zpow_add₀ (by norm_num)]

/-- A power with an integer as exponent, as a quotient of which one part is one. -/
theorem zpow_eq_div (b : ℚ) (k : ℤ) : b ^ k = b ^ k.toNat / b ^ (-k).toNat := by
  rcases le_total 0 k with h | h
  · obtain ⟨n, rfl⟩ := Int.eq_ofNat_of_zero_le h
    simp
  · obtain ⟨n, rfl⟩ := Int.exists_eq_neg_ofNat h
    simp

/-- Whether a quotient is below a power of two, found without fractions. -/
theorem below_iff {n d : Nat} (hd : 0 < d) (k : ℤ) :
    (if 0 ≤ k then decide (n < d * 2 ^ k.toNat) else decide (n * 2 ^ (-k).toNat < d)) = true ↔ (n / d : ℚ) < 2 ^ k := by
  have hpos : (0 : ℚ) < d := by exact_mod_cast hd
  have hpow : (0 : ℚ) < 2 ^ (-k).toNat := by positivity
  rw [zpow_eq_div, div_lt_div_iff₀ hpos hpow]
  norm_cast
  split
  · rename_i h
    rw [show (-k).toNat = 0 by omega, decide_eq_true_eq, pow_zero, mul_one, mul_comm d]
  · rename_i h
    rw [show k.toNat = 0 by omega, decide_eq_true_eq, pow_zero, one_mul]

/-- The last place of a quotient is the 53rd place of its binade, or the lowest of all. -/
theorem lastPlace_eq {n d : Nat} (hn : 0 < n) (hd : 0 < d) {k : ℤ} (hlow : (2 : ℚ) ^ k ≤ n / d) (hhigh : (n / d : ℚ) < 2 ^ (k + 1)) :
    lastPlace n d = max (k - 52) (-1074) := by
  have hdpos : (0 : ℚ) < d := by exact_mod_cast hd
  have hnpos : (0 : ℚ) < n := by exact_mod_cast hn
  have hdlow : (2 : ℚ) ^ (d.log2 : ℤ) ≤ d := by exact_mod_cast Nat.log2_self_le hd.ne'
  have hdhigh : (d : ℚ) < 2 ^ ((d.log2 : ℤ) + 1) := by exact_mod_cast Nat.lt_log2_self (n := d)
  have hnlow : (2 : ℚ) ^ (n.log2 : ℤ) ≤ n := by exact_mod_cast Nat.log2_self_le hn.ne'
  have hnhigh : (n : ℚ) < 2 ^ ((n.log2 : ℤ) + 1) := by exact_mod_cast Nat.lt_log2_self (n := n)
  have hupper : (n / d : ℚ) < 2 ^ ((n.log2 : ℤ) - d.log2 + 1) := by
    rw [div_lt_iff₀ hdpos]
    calc (n : ℚ) < 2 ^ ((n.log2 : ℤ) + 1) := hnhigh
      _ = 2 ^ ((n.log2 : ℤ) - d.log2 + 1) * 2 ^ (d.log2 : ℤ) := by
        rw [← zpow_add₀ (by norm_num)]
        ring_nf
      _ ≤ 2 ^ ((n.log2 : ℤ) - d.log2 + 1) * d := mul_le_mul_of_nonneg_left hdlow (two_zpow_pos _).le
  have hlower : (2 : ℚ) ^ ((n.log2 : ℤ) - d.log2 - 1) < n / d := by
    rw [lt_div_iff₀ hdpos]
    calc (2 : ℚ) ^ ((n.log2 : ℤ) - d.log2 - 1) * d < 2 ^ ((n.log2 : ℤ) - d.log2 - 1) * 2 ^ ((d.log2 : ℤ) + 1) :=
          mul_lt_mul_of_pos_left hdhigh (two_zpow_pos _)
      _ = 2 ^ (n.log2 : ℤ) := by
        rw [← zpow_add₀ (by norm_num)]
        ring_nf
      _ ≤ n := hnlow
  have hle : k ≤ (n.log2 : ℤ) - d.log2 := by
    have := (zpow_lt_zpow_iff_right₀ (by norm_num : (1 : ℚ) < 2)).mp (hlow.trans_lt hupper)
    omega
  have hge : (n.log2 : ℤ) - d.log2 ≤ k + 1 := by
    have := (zpow_lt_zpow_iff_right₀ (by norm_num : (1 : ℚ) < 2)).mp (hlower.trans hhigh)
    omega
  unfold lastPlace
  simp only [below_iff hd]
  split
  · rename_i hbelow
    have hlt := (zpow_lt_zpow_iff_right₀ (by norm_num : (1 : ℚ) < 2)).mp (hlow.trans_lt hbelow)
    rw [show (n.log2 : ℤ) - d.log2 - 1 = k by omega]
  · rename_i habove
    have hlt := (zpow_lt_zpow_iff_right₀ (by norm_num : (1 : ℚ) < 2)).mp ((not_lt.mp habove).trans_lt hhigh)
    rw [show (n.log2 : ℤ) - d.log2 = k by omega]

/-- Rounding a quotient in units of a place. -/
theorem roundDiv_place {n d r : Nat} (hd : 0 < d) (e : ℤ) (hlow : ((r : ℚ) - 1 / 2) * 2 ^ e ≤ n / d)
    (hhigh : (n / d : ℚ) ≤ (r + 1 / 2) * 2 ^ e)
    (hodd : r % 2 = 1 → ((r : ℚ) - 1 / 2) * 2 ^ e < n / d ∧ (n / d : ℚ) < (r + 1 / 2) * 2 ^ e) :
    (if 0 ≤ e then roundDiv n (d * 2 ^ e.toNat) else roundDiv (n * 2 ^ (-e).toNat) d) = r := by
  rw [← le_div_iff₀ (two_zpow_pos e)] at hlow
  rw [← div_le_iff₀ (two_zpow_pos e)] at hhigh
  rw [← lt_div_iff₀ (two_zpow_pos e), ← div_lt_iff₀ (two_zpow_pos e)] at hodd
  have hscale : (n / d / 2 ^ e : ℚ) = ((n * 2 ^ (-e).toNat : ℕ) : ℚ) / ((d * 2 ^ e.toNat : ℕ) : ℚ) := by
    rw [zpow_eq_div, div_div_eq_mul_div, div_mul_eq_mul_div, div_div]
    push_cast
    rfl
  rw [hscale] at hlow hhigh hodd
  split
  · rename_i he
    rw [show (-e).toNat = 0 by omega, pow_zero, mul_one] at hlow hhigh hodd
    exact roundDiv_eq_of_near (by positivity) hlow hhigh hodd
  · rename_i he
    rw [show e.toNat = 0 by omega, pow_zero, mul_one] at hlow hhigh hodd
    exact roundDiv_eq_of_near hd hlow hhigh hodd

/-- A quotient whose binade and significand are known is rounded to the magnitude that they make up. -/
theorem roundQuotient_eq {n d r : Nat} (hn : 0 < n) (hd : 0 < d) {k : ℤ} (hbinade : (2 : ℚ) ^ k ≤ n / d)
    (hbinade' : (n / d : ℚ) < 2 ^ (k + 1)) {e : ℤ} (he : max (k - 52) (-1074) = e) (hlow : ((r : ℚ) - 1 / 2) * 2 ^ e ≤ n / d)
    (hhigh : (n / d : ℚ) ≤ (r + 1 / 2) * 2 ^ e)
    (hodd : r % 2 = 1 → ((r : ℚ) - 1 / 2) * 2 ^ e < n / d ∧ (n / d : ℚ) < (r + 1 / 2) * 2 ^ e) :
    roundQuotient n d = (e + 1074).toNat * 2 ^ 52 + r := by
  unfold roundQuotient
  rw [if_neg hn.ne', lastPlace_eq hn hd hbinade hbinade', he]
  simp only [roundDiv_place hd e hlow hhigh hodd]

/-! ## Rounding to a magnitude -/

/-- The significand and the exponent of a magnitude: the significand has 53 bits, or fewer at the lowest exponent. -/
structure Parts (magnitude m : Nat) (e : ℤ) : Prop where
  unpack_eq : unpack magnitude = (m, e)
  lowest : -1074 ≤ e
  lt : m < 2 ^ 53
  full : -1074 < e → 2 ^ 52 ≤ m
  sum : magnitude = (e + 1074).toNat * 2 ^ 52 + m

/-- Every magnitude has its parts. -/
theorem exists_parts (magnitude : Nat) : ∃ m e, Parts magnitude m e := by
  have hsplit : magnitude = magnitude / 2 ^ 52 * 2 ^ 52 + magnitude % 2 ^ 52 := (Nat.div_add_mod' magnitude (2 ^ 52)).symm
  have hlt : magnitude % 2 ^ 52 < 2 ^ 52 := Nat.mod_lt _ (by norm_num)
  have hunpack : unpack magnitude = if magnitude / 2 ^ 52 = 0 then (magnitude % 2 ^ 52, -1074)
      else (magnitude % 2 ^ 52 + 2 ^ 52, ((magnitude / 2 ^ 52 : ℕ) : ℤ) - 1075) := rfl
  generalize magnitude / 2 ^ 52 = field at *
  generalize magnitude % 2 ^ 52 = fraction at *
  cases field with
  | zero => exact ⟨fraction, -1074, hunpack, le_rfl, by omega, nofun, hsplit⟩
  | succ field =>
    refine ⟨fraction + 2 ^ 52, ((field + 1 : ℕ) : ℤ) - 1075, hunpack, by omega, by omega, by omega, ?_⟩
    rw [show (((field + 1 : ℕ) : ℤ) - 1075 + 1074).toNat = field by omega, hsplit]
    ring

namespace RoundsTo

variable {x : ℚ} {magnitude m : Nat} {e : ℤ}

/-- What rounds to a magnitude is at most half a last place away. -/
theorem near (h : RoundsTo x magnitude) (hp : Parts magnitude m e) :
    ((m : ℚ) - reach magnitude) * 2 ^ e ≤ x ∧ x ≤ (m + 1 / 2) * 2 ^ e ∧
      (m % 2 = 1 → ((m : ℚ) - reach magnitude) * 2 ^ e < x ∧ x < (m + 1 / 2) * 2 ^ e) := by
  unfold RoundsTo at h
  rw [hp.unpack_eq] at h
  dsimp only at h
  split at h
  · exact ⟨h.1, h.2, fun hone => by omega⟩
  · exact ⟨h.1.le, h.2.le, fun _ => h⟩

end RoundsTo

theorem Parts.pos {magnitude m : Nat} {e : ℤ} (hp : Parts magnitude m e) (h : 0 < magnitude) : 0 < m := by
  by_contra hzero
  have he : e = -1074 := by
    by_contra hne
    have hfull := hp.full (by have := hp.lowest; omega)
    omega
  have hsum := hp.sum
  rw [he] at hsum
  simp at hsum
  omega

/-- The digits of a magnitude and a half are below 53 bits. -/
theorem Parts.add_half_lt {magnitude m : Nat} {e : ℤ} (hp : Parts magnitude m e) : (m : ℚ) + 1 / 2 < 2 ^ (53 : ℤ) := by
  have hle : (m : ℚ) + 1 ≤ 2 ^ 53 := by exact_mod_cast hp.lt
  norm_num at hle ⊢
  linarith

/-- No magnitude reaches down by more than half a place. -/
theorem reach_le (magnitude : Nat) : reach magnitude ≤ 1 / 2 := by
  unfold reach
  split <;> norm_num

theorem reach_pos (magnitude : Nat) : 0 < reach magnitude := by
  unfold reach
  split <;> norm_num

theorem roundsTo_zero : RoundsTo 0 0 := by
  have hunpack : unpack 0 = (0, -1074) := rfl
  have hunit := two_zpow_pos (-1074)
  unfold RoundsTo
  rw [hunpack]
  constructor
  · rw [Nat.cast_zero, zero_sub, neg_mul, neg_nonpos]
    exact mul_nonneg (reach_pos 0).le hunit.le
  · positivity

namespace RoundsTo

variable {x : ℚ} {magnitude : Nat}

/-- What rounds to a positive magnitude is no smaller than half of the least. -/
theorem ge_of_pos (h : RoundsTo x magnitude) (hpos : 0 < magnitude) : (2 : ℚ) ^ (-1075 : ℤ) ≤ x := by
  obtain ⟨m, e, hp⟩ := exists_parts magnitude
  have hm : (1 : ℚ) ≤ m := by exact_mod_cast hp.pos hpos
  calc (2 : ℚ) ^ (-1075 : ℤ) = 1 / 2 * 2 ^ (-1074 : ℤ) := by
        rw [show (-1075 : ℤ) = -1 + -1074 by norm_num, zpow_add₀ (by norm_num), zpow_neg_one, one_div]
    _ ≤ (m - reach magnitude) * 2 ^ e := by
        refine mul_le_mul ?_ (zpow_le_zpow_right₀ (by norm_num) hp.lowest) (two_zpow_pos _).le ?_ <;> linarith [reach_le magnitude]
    _ ≤ x := (h.near hp).1

end RoundsTo

/-! ## The first magnitude of a binade -/

/-- What is less than a binade and still next to a magnitude of it is next to the first one. -/
theorem Parts.eq_first {magnitude m : Nat} {e : ℤ} (hp : Parts magnitude m e) (he : -1074 < e)
    (h : ((m : ℚ) - 1 / 2) * 2 ^ e < 2 ^ (e + 52)) : m = 2 ^ 52 := by
  rw [two_zpow_add] at h
  have hlt : (m : ℚ) - 1 / 2 < 2 ^ (52 : ℤ) := lt_of_mul_lt_mul_right h (two_zpow_pos e).le
  have hlt' : (m : ℚ) < ((2 ^ 52 + 1 : ℕ) : ℚ) := by
    have hcast : ((2 ^ 52 + 1 : ℕ) : ℚ) = 2 ^ (52 : ℤ) + 1 := by norm_num
    linarith
  have hle : m < 2 ^ 52 + 1 := by exact_mod_cast hlt'
  have hge := hp.full he
  omega

/-- The first magnitude of a binade reaches down by a quarter of a place. -/
theorem Parts.reach_first {magnitude : Nat} {e : ℤ} (hp : Parts magnitude (2 ^ 52) e) (he : -1074 < e) : reach magnitude = 1 / 4 := by
  have hlt : 2 ^ 52 < magnitude := by
    have hle := Nat.mul_le_mul_right (2 ^ 52) (show 1 ≤ (e + 1074).toNat by omega)
    rw [hp.sum]
    omega
  rw [reach, hp.unpack_eq, if_pos ⟨rfl, hlt⟩]

/-- Below the first magnitude of a binade the last place is only half as high: what rounds to this magnitude from below is rounded to the
significand after all those of the binade before. -/
theorem roundQuotient_first {n d magnitude : Nat} (hn : 0 < n) (hd : 0 < d) {e : ℤ} (hp : Parts magnitude (2 ^ 52) e) (he : -1074 < e)
    (h : RoundsTo (n / d) magnitude) (hbelow : (n / d : ℚ) < 2 ^ (e + 52)) : roundQuotient n d = magnitude := by
  have hunit := two_zpow_pos (e - 1)
  have hplace : (2 : ℚ) ^ e = 2 * 2 ^ (e - 1) := by
    rw [sub_eq_add_neg, two_zpow_add, zpow_neg_one]
    ring
  have hreach : ((2 : ℚ) ^ (52 : ℤ) - 1 / 4) * (2 * 2 ^ (e - 1)) ≤ n / d := by
    have hnear := (h.near hp).1
    rw [hp.reach_first he, hplace] at hnear
    exact_mod_cast hnear
  rw [two_zpow_add, hplace] at hbelow
  have hdown : (2 : ℚ) ^ (e + 51) ≤ n / d := by
    refine le_trans ?_ hreach
    rw [two_zpow_add, hplace, ← mul_assoc, ← mul_assoc]
    exact mul_le_mul_of_nonneg_right (by norm_num) hunit.le
  have hup : (n / d : ℚ) < 2 ^ (e + 51 + 1) := by
    rw [add_assoc, two_zpow_add, hplace]
    exact hbelow
  have hlow : (((2 ^ 53 : ℕ) : ℚ) - 1 / 2) * 2 ^ (e - 1) ≤ n / d := by
    refine le_trans (le_of_eq ?_) hreach
    rw [← mul_assoc]
    norm_num
  have hhigh : (n / d : ℚ) ≤ (((2 ^ 53 : ℕ) : ℚ) + 1 / 2) * 2 ^ (e - 1) := by
    refine hbelow.le.trans ?_
    rw [← mul_assoc]
    exact mul_le_mul_of_nonneg_right (by norm_num) hunit.le
  rw [roundQuotient_eq hn hd hdown hup (e := e - 1) (by omega) hlow hhigh (by norm_num), hp.sum,
    show (e + 1074).toNat = (e - 1 + 1074).toNat + 1 by omega]
  ring

/-- A quotient is rounded to the magnitude that it rounds to. At the lowest exponent the last place is the lowest of all, whatever
the binade. -/
theorem roundQuotient_of_roundsTo {n d magnitude : Nat} (hn : 0 < n) (hd : 0 < d) (h : RoundsTo (n / d) magnitude) :
    roundQuotient n d = magnitude := by
  obtain ⟨m, e, hp⟩ := exists_parts magnitude
  obtain ⟨hreach, hhigh, hodd⟩ := h.near hp
  have hunit := two_zpow_pos e
  have hhalf : ((m : ℚ) - 1 / 2) * 2 ^ e ≤ (m - reach magnitude) * 2 ^ e :=
    mul_le_mul_of_nonneg_right (by linarith [reach_le magnitude]) hunit.le
  have hlow := hhalf.trans hreach
  have hodd' : m % 2 = 1 → ((m : ℚ) - 1 / 2) * 2 ^ e < n / d ∧ (n / d : ℚ) < (m + 1 / 2) * 2 ^ e :=
    fun hone => ⟨hhalf.trans_lt (hodd hone).1, (hodd hone).2⟩
  rcases lt_or_ge (n / d : ℚ) (2 ^ (e + 52)) with hbelow | habove
  · rcases hp.lowest.eq_or_lt with he | he
    · have hpos : (0 : ℚ) < n / d := div_pos (by exact_mod_cast hn) (by exact_mod_cast hd)
      obtain ⟨k, hk, hk'⟩ := exists_mem_Ico_zpow hpos (by norm_num : (1 : ℚ) < 2)
      have hlt := (zpow_lt_zpow_iff_right₀ (by norm_num : (1 : ℚ) < 2)).mp (hk.trans_lt hbelow)
      rw [roundQuotient_eq hn hd hk hk' (e := e) (by omega) hlow hhigh hodd', hp.sum]
    · obtain rfl := hp.eq_first he (hlow.trans_lt hbelow)
      exact roundQuotient_first hn hd hp he h hbelow
  · have hhigh' : (n / d : ℚ) < 2 ^ (e + 52 + 1) := by
      rw [add_assoc, two_zpow_add]
      exact hhigh.trans_lt (mul_lt_mul_of_pos_right hp.add_half_lt hunit)
    rw [roundQuotient_eq hn hd habove hhigh' (e := e) (by have := hp.lowest; omega) hlow hhigh hodd', hp.sum]

end Runbook.Binary64

namespace Runbook.Decimal

open Binary64 (RoundsTo)

/-! ## Decimal numbers -/

/-- The number that a decimal stands for. -/
def exact (d : Decimal) : ℚ := d.digits * 10 ^ d.exponent

/-- A number is smaller than the power of ten with as many places as it has digits. -/
theorem lt_pow_digitCount (n : Nat) : n < 10 ^ digitCount n :=
  (Nat.length_toDigits_le_iff (by norm_num) Nat.length_toDigits_pos).mp le_rfl

/-- A number with so many digits is at least the power of ten with one place less. -/
theorem pow_le_of_pos {n : Nat} (hn : 0 < n) : 10 ^ (digitCount n - 1) ≤ n := by
  rcases Nat.eq_zero_or_pos (digitCount n - 1) with hzero | hpos
  · rw [hzero]
    exact hn
  · by_contra hlt
    have hle : digitCount n ≤ digitCount n - 1 := (Nat.length_toDigits_le_iff (by norm_num) hpos).mpr (not_le.mp hlt)
    have hcount : 0 < digitCount n := Nat.length_toDigits_pos
    omega

end Runbook.Decimal
