import Mathlib.Data.Nat.Cast.Order.Field
import Runbook.Numeric.Shortest
import Runbook.Proofs.Rounding

/-!
# The fewest digits read back

The digits of a magnitude are looked for on grids of powers of ten, from the coarsest on. A point that is found rounds to the magnitude. On
the grid of the seventeenth digit one of the two points around the number always does, so the search ends with digits that read back.
-/

namespace Runbook.Shortest

open Binary64 (RoundsTo Parts exists_parts reach two_zpow_pos zpow_eq_div)

namespace Interval

/-- The number lies in the interval. -/
def Has (i : Interval) (x : ℚ) : Prop :=
  if i.closed = true then (i.low : ℚ) ≤ x * i.den ∧ x * i.den ≤ i.high else (i.low : ℚ) < x * i.den ∧ x * i.den < i.high

/-- The check of an interval says whether a number is in it. -/
theorem contains_iff (i : Interval) (c : Nat) : i.contains c = true ↔ i.Has c := by
  unfold contains Has
  split
  · rw [Bool.and_eq_true, decide_eq_true_eq, decide_eq_true_eq]
    norm_cast
  · rw [Bool.and_eq_true, decide_eq_true_eq, decide_eq_true_eq]
    norm_cast

/-- A point of a grid lies in the interval there if the number that it stands for lies in the interval. -/
theorem onGrid_has (i : Interval) (k : ℤ) (x : ℚ) : (i.onGrid k).Has x ↔ i.Has (x * 10 ^ k) := by
  have hup : (0 : ℚ) < ((10 ^ (-k).toNat : ℕ) : ℚ) := by positivity
  have hscale : x * ((i.den * 10 ^ k.toNat : ℕ) : ℚ) = x * 10 ^ k * i.den * ((10 ^ (-k).toNat : ℕ) : ℚ) := by
    rw [zpow_eq_div]
    push_cast
    field_simp
  have hlow : ((i.low * 10 ^ (-k).toNat : ℕ) : ℚ) = i.low * ((10 ^ (-k).toNat : ℕ) : ℚ) := by push_cast; rfl
  have hhigh : ((i.high * 10 ^ (-k).toNat : ℕ) : ℚ) = i.high * ((10 ^ (-k).toNat : ℕ) : ℚ) := by push_cast; rfl
  unfold Has onGrid
  dsimp only
  rw [hscale, hlow, hhigh, mul_le_mul_iff_left₀ hup, mul_le_mul_iff_left₀ hup, mul_lt_mul_iff_left₀ hup, mul_lt_mul_iff_left₀ hup]

/-- The point of a grid below the number, and the one above it. -/
theorem onGrid_floor (i : Interval) (k : ℤ) (hden : 0 < i.den) :
    (((i.onGrid k).value / (i.onGrid k).den : ℕ) : ℚ) * 10 ^ k ≤ i.value / i.den ∧
      (i.value / i.den : ℚ) < (((i.onGrid k).value / (i.onGrid k).den + 1 : ℕ) : ℚ) * 10 ^ k := by
  have hunit : (0 : ℚ) < 10 ^ k := zpow_pos (by norm_num) k
  have hpos : 0 < (i.onGrid k).den := Nat.mul_pos hden (by positivity)
  have hgrid : ((i.onGrid k).value : ℚ) / (i.onGrid k).den = i.value / i.den / 10 ^ k := by
    unfold onGrid
    dsimp only
    rw [zpow_eq_div]
    push_cast
    field_simp
  constructor
  · rw [← le_div_iff₀ hunit, ← hgrid]
    exact Nat.cast_div_le
  · rw [← div_lt_iff₀ hunit, ← hgrid, div_lt_iff₀ (by exact_mod_cast hpos)]
    have hlt := Nat.lt_mul_div_succ (i.onGrid k).value hpos
    rw [mul_comm] at hlt
    exact_mod_cast hlt

/-- The point next to the number is in the interval. -/
theorem has_of_nearest? {i : Interval} {c : Nat} (h : i.nearest? = some c) : i.Has c := by
  rw [← contains_iff]
  unfold nearest? at h
  dsimp only at h
  split at h
  · rename_i hfloor hnext
    obtain rfl := Option.some.inj h
    split
    · exact hfloor
    · exact hnext
  · rename_i hfloor _
    obtain rfl := Option.some.inj h
    exact hfloor
  · rename_i _ hnext
    obtain rfl := Option.some.inj h
    exact hnext
  · cases h

/-- There is a point next to the number if one of the two around it is in the interval. -/
theorem nearest?_ne_none {i : Interval} (h : i.Has (i.value / i.den : ℕ) ∨ i.Has (i.value / i.den + 1 : ℕ)) : i.nearest? ≠ none := by
  rw [← contains_iff, ← contains_iff] at h
  unfold nearest?
  dsimp only
  split <;> simp_all

end Interval

/-! ## The interval of a magnitude -/

/-- The bounds of the interval of a magnitude in units of its last place. -/
structure Bounds (magnitude m : Nat) (e : ℤ) : Prop where
  low : ((interval magnitude).low : ℚ) = (m - reach magnitude) * 2 ^ e * (interval magnitude).den
  value : ((interval magnitude).value : ℚ) = m * 2 ^ e * (interval magnitude).den
  high : ((interval magnitude).high : ℚ) = (m + 1 / 2) * 2 ^ e * (interval magnitude).den
  den : 0 < (interval magnitude).den
  closed : (interval magnitude).closed = true ↔ m % 2 = 0

/-- The parts of a magnitude bound it from both sides. -/
theorem bounds {magnitude m : Nat} {e : ℤ} (hp : Parts magnitude m e) (hpos : 0 < magnitude) : Bounds magnitude m e := by
  have hm := hp.pos hpos
  have hinterval : interval magnitude =
      ⟨(if m = 2 ^ 52 && magnitude > 2 ^ 52 then 4 * m - 1 else 4 * m - 2) * 2 ^ (e - 2).toNat, 4 * m * 2 ^ (e - 2).toNat,
        (4 * m + 2) * 2 ^ (e - 2).toNat, 2 ^ (2 - e).toNat, m % 2 = 0⟩ := by
    rw [interval, hp.unpack_eq]
  have hup : (2 : ℚ) ^ (e - 2).toNat = 2 ^ e / 4 * 2 ^ (2 - e).toNat := by
    have hquarter : (2 : ℚ) ^ (e - 2) = 2 ^ e / 4 := by
      rw [sub_eq_add_neg, zpow_add₀ (by norm_num)]
      norm_num
      ring
    rw [← hquarter, zpow_eq_div, show (-(e - 2)).toNat = (2 - e).toNat by congr 1; ring]
    exact (div_mul_cancel₀ _ (by positivity)).symm
  have hbelow : (((if m = 2 ^ 52 && magnitude > 2 ^ 52 then 4 * m - 1 else 4 * m - 2 : ℕ)) : ℚ) = 4 * (m - reach magnitude) := by
    rw [reach, hp.unpack_eq]
    simp only [Bool.and_eq_true, decide_eq_true_eq, gt_iff_lt]
    split
    · push_cast [show 1 ≤ 4 * m by omega]
      ring
    · push_cast [show 2 ≤ 4 * m by omega]
      ring
  constructor
  · rw [hinterval, Nat.cast_mul, hbelow]
    push_cast
    rw [hup]
    ring
  · rw [hinterval]
    push_cast
    rw [hup]
    ring
  · rw [hinterval]
    push_cast
    rw [hup]
    ring
  · rw [hinterval]
    positivity
  · rw [hinterval, decide_eq_true_eq]

/-- The interval of a magnitude has the numbers that round to it. -/
theorem interval_has {magnitude : Nat} (hpos : 0 < magnitude) (x : ℚ) : (interval magnitude).Has x ↔ RoundsTo x magnitude := by
  obtain ⟨m, e, hp⟩ := exists_parts magnitude
  have hb := bounds hp hpos
  have hden : (0 : ℚ) < (interval magnitude).den := by exact_mod_cast hb.den
  unfold Interval.Has RoundsTo
  simp only [hb.closed, hb.low, hb.high, hp.unpack_eq, mul_le_mul_iff_left₀ hden, mul_lt_mul_iff_left₀ hden]

/-! ## Seventeen digits suffice -/

/-- Of two neighbouring points around the number of a magnitude, no further from each other than its sixteenth digit allows, one rounds to the
magnitude. -/
theorem roundsTo_floor_or_next {magnitude m : Nat} {e : ℤ} (hp : Parts magnitude m e) {low high : ℚ} (hlow : low ≤ m * 2 ^ e)
    (hhigh : (m : ℚ) * 2 ^ e < high) (hnear : (high - low) * 10 ^ 16 ≤ m * 2 ^ e) : RoundsTo low magnitude ∨ RoundsTo high magnitude := by
  have hunit := two_zpow_pos e
  have hroundsTo {x : ℚ} (h : (m - reach magnitude) * 2 ^ e < x) (h' : x < (m + 1 / 2) * 2 ^ e) : RoundsTo x magnitude := by
    unfold RoundsTo
    rw [hp.unpack_eq]
    dsimp only
    split
    · exact ⟨h.le, h'.le⟩
    · exact ⟨h, h'⟩
  have hgap : high - low < (1 / 2 + reach magnitude) * 2 ^ e := by
    unfold reach
    rw [hp.unpack_eq]
    split
    · rename_i hfirst
      have hm : (m : ℚ) * 2 ^ e = 4503599627370496 * 2 ^ e := by
        rw [show m = 2 ^ 52 from hfirst.1]
        norm_num
      linarith
    · have hm : (m : ℚ) * 2 ^ e ≤ 9007199254740992 * 2 ^ e :=
        mul_le_mul_of_nonneg_right (by exact_mod_cast hp.lt.le) hunit.le
      linarith
  rcases lt_or_ge ((m - reach magnitude) * 2 ^ e) low with hclose | hfar
  · exact Or.inl (hroundsTo hclose (by linarith))
  · exact Or.inr (hroundsTo (by nlinarith [Binary64.reach_pos magnitude]) (by linarith))

/-- The power of ten of the leading digit is no greater than the number. -/
theorem ten_zpow_leadingPower_le {value den : Nat} (hv : 0 < value) (hd : 0 < den) : (10 : ℚ) ^ leadingPower value den ≤ value / den := by
  have hden : (0 : ℚ) < den := by exact_mod_cast hd
  unfold leadingPower
  split
  · rename_i hle
    have hq : 0 < value / den := Nat.div_pos hle hd
    have hcount : 0 < Decimal.digitCount (value / den) := Nat.length_toDigits_pos
    have hpow : ((10 ^ (Decimal.digitCount (value / den) - 1) : ℕ) : ℚ) ≤ ((value / den : ℕ) : ℚ) := by
      exact_mod_cast Decimal.pow_le_of_pos hq
    rw [show (Decimal.digitCount (value / den) : ℤ) - 1 = ((Decimal.digitCount (value / den) - 1 : ℕ) : ℤ) by omega, zpow_natCast]
    push_cast at hpow
    exact hpow.trans Nat.cast_div_le
  · rename_i hlt
    have hpower {n : Nat} (h : den ≤ value * 10 ^ n) : (10 : ℚ) ^ (-(n : ℤ)) ≤ value / den := by
      have hle : (den : ℚ) ≤ value * 10 ^ n := by exact_mod_cast h
      rw [zpow_neg, zpow_natCast, le_div_iff₀ hden, inv_mul_le_iff₀ (by positivity), mul_comm]
      exact hle
    have hcounts : Decimal.digitCount value ≤ Decimal.digitCount den :=
      (Nat.length_toDigits_le_iff (by norm_num) Nat.length_toDigits_pos).mpr ((not_le.mp hlt).trans (Decimal.lt_pow_digitCount den))
    obtain ⟨n, hn⟩ := Nat.exists_eq_add_of_le hcounts
    have hdigits : (Decimal.digitCount den : ℤ) - Decimal.digitCount value = n := by omega
    rw [hdigits]
    dsimp only
    split
    · rename_i hle
      exact hpower hle
    · rw [show -(n : ℤ) - 1 = -((n + 1 : ℕ) : ℤ) by push_cast; ring]
      refine hpower ?_
      have hcount : 0 < Decimal.digitCount value := Nat.length_toDigits_pos
      calc den ≤ 10 ^ Decimal.digitCount den := (Decimal.lt_pow_digitCount den).le
        _ = 10 ^ (Decimal.digitCount value - 1) * 10 ^ (n + 1) := by
          rw [← pow_add]
          congr 1
          omega
        _ ≤ value * 10 ^ (n + 1) := Nat.mul_le_mul_right _ (Decimal.pow_le_of_pos hv)

/-! ## The search -/

/-- The search comes to a point of the interval if some grid on its way has one next to the number. -/
theorem search_has {i : Interval} {lead : ℤ} {fuel digits j : Nat} (hj : digits ≤ j) (hj' : j < digits + fuel)
    (hgrid : (i.onGrid (lead + 1 - j)).nearest? ≠ none) : i.Has (search i lead fuel digits).exact := by
  induction fuel generalizing digits with
  | zero => omega
  | succ fuel ih =>
    unfold search
    dsimp only
    split
    · rename_i c hc
      exact (i.onGrid_has _ _).mp (Interval.has_of_nearest? hc)
    · rename_i hnone
      rcases hj.eq_or_lt with rfl | hlt
      · exact absurd hnone hgrid
      · exact ih hlt (by omega)

/-- To drop zeros at the end of the digits does not change the number. -/
theorem exact_stripZeros (fuel : Nat) (d : Decimal) : (stripZeros fuel d).exact = d.exact := by
  induction fuel generalizing d with
  | zero => rfl
  | succ fuel ih =>
    unfold stripZeros
    split
    · rename_i hzero
      rw [Bool.and_eq_true, decide_eq_true_eq] at hzero
      rw [ih, Decimal.exact, Decimal.exact]
      dsimp only
      have hdigits : (d.digits : ℚ) = 10 * ((d.digits / 10 : ℕ) : ℚ) := by
        exact_mod_cast (Nat.mul_div_cancel' (Nat.dvd_of_mod_eq_zero hzero.1)).symm
      rw [hdigits, zpow_add₀ (by norm_num), zpow_one]
      ring
    · rfl

/-- The digits of a magnitude round to it. -/
theorem roundsTo_digits {magnitude : Nat} (hpos : 0 < magnitude) : RoundsTo (digits magnitude).exact magnitude := by
  obtain ⟨m, e, hp⟩ := exists_parts magnitude
  have hb := bounds hp hpos
  have hden : (0 : ℚ) < (interval magnitude).den := by exact_mod_cast hb.den
  have hvalue : ((interval magnitude).value : ℚ) / (interval magnitude).den = m * 2 ^ e := by
    rw [hb.value, mul_div_assoc, div_self hden.ne', mul_one]
  have hvaluePos : (0 : ℚ) < (interval magnitude).value := by
    rw [hb.value]
    have hm : (0 : ℚ) < m := by exact_mod_cast hp.pos hpos
    have hunit := two_zpow_pos e
    positivity
  rw [digits, exact_stripZeros, ← interval_has hpos]
  refine search_has (j := 17) (by norm_num) (by norm_num) (Interval.nearest?_ne_none ?_)
  generalize hlead : leadingPower (interval magnitude).value (interval magnitude).den = lead
  have hleading := ten_zpow_leadingPower_le (by exact_mod_cast hvaluePos) hb.den
  obtain ⟨hlow, hhigh⟩ := (interval magnitude).onGrid_floor (lead + 1 - (17 : ℕ)) hb.den
  rw [hlead, hvalue] at hleading
  rw [hvalue] at hlow hhigh
  rw [Interval.onGrid_has, Interval.onGrid_has, interval_has hpos, interval_has hpos]
  refine roundsTo_floor_or_next hp hlow hhigh ?_
  have hsixteen : (10 : ℚ) ^ (lead + 1 - (17 : ℕ)) * 10 ^ 16 = 10 ^ lead := by
    rw [← zpow_natCast, ← zpow_add₀ (by norm_num)]
    congr 1
    push_cast
    ring
  push_cast
  rw [← sub_mul, add_sub_cancel_left, one_mul]
  exact_mod_cast hsixteen ▸ hleading

/-- A magnitude above zero has a digit. -/
theorem digits_pos {magnitude : Nat} (hpos : 0 < magnitude) : 0 < (digits magnitude).digits := by
  by_contra hzero
  have hge := (roundsTo_digits hpos).ge_of_pos hpos
  rw [Decimal.exact, Nat.eq_zero_of_not_pos hzero, Nat.cast_zero, zero_mul] at hge
  exact absurd (two_zpow_pos (-1075)) (not_lt.mpr hge)

end Runbook.Shortest
