import Runbook.Proofs.Numerals
import Runbook.Proofs.Seconds

/-!
# Numerals with few digits

A significand of 53 bits and a power of ten up to the twenty-second are exact, so that a single operation rounds: a numeral with few digits
is read as the number nearest to it. In particular a number whose text has no more than fifteen digits comes back from its text.
-/

namespace Runbook

open Binary64 (RoundsTo value)

namespace Extended

/-- A quotient is the finite number that it rounds to. -/
theorem ofQuotient_of_roundsTo {n d magnitude : Nat} (hd : 0 < d) (hfinite : magnitude < Binary64.limit)
    (h : RoundsTo (n / d) magnitude) : ofQuotient n d = finite magnitude := by
  have hround : Binary64.roundQuotient n d = magnitude := by
    rcases Nat.eq_zero_or_pos n with rfl | hn
    · rw [Nat.cast_zero, zero_div] at h
      rw [Binary64.roundQuotient, if_pos rfl]
      by_contra hne
      exact absurd (Binary64.two_zpow_pos _) (not_lt.mpr (h.ge_of_pos (Nat.pos_of_ne_zero (Ne.symm hne))))
    · exact Binary64.roundQuotient_of_roundsTo hn hd h
  rw [ofQuotient, ofMagnitude, hround, if_pos hfinite]

/-- A product is the exact product, rounded once. -/
theorem mul_finite (a b : Nat) : ∃ n d : Nat, 0 < d ∧ (n / d : ℚ) = value a * value b ∧ (finite a).mul (finite b) = ofQuotient n d := by
  unfold value
  generalize hx : Binary64.unpack a = x
  generalize hy : Binary64.unpack b = y
  obtain ⟨m, e⟩ := x
  obtain ⟨n, f⟩ := y
  refine ⟨m * n * 2 ^ (e + f).toNat, 2 ^ (-(e + f)).toNat, by positivity, ?_, by simp only [mul, hx, hy, ofScaled]⟩
  push_cast
  rw [mul_div_assoc, ← Binary64.zpow_eq_div, zpow_add₀ (by norm_num)]
  ring

/-- A quotient is the exact quotient, rounded once. -/
theorem div_finite (a : Nat) {b : Nat} (hb : 0 < value b) :
    ∃ n d : Nat, 0 < d ∧ (n / d : ℚ) = value a / value b ∧ (finite a).div (finite b) = ofQuotient n d := by
  obtain ⟨b, rfl⟩ : ∃ c, b = c + 1 := Nat.exists_eq_add_one_of_ne_zero fun hzero => by
    rw [hzero, Binary64.value_zero] at hb
    exact lt_irrefl _ hb
  unfold value at hb ⊢
  generalize hx : Binary64.unpack a = x
  generalize hy : Binary64.unpack (b + 1) = y at hb
  obtain ⟨m, e⟩ := x
  obtain ⟨n, f⟩ := y
  have hn : 0 < n := Nat.pos_of_ne_zero fun hzero => by simp [hzero] at hb
  refine ⟨m * 2 ^ (e - f).toNat, n * 2 ^ (f - e).toNat, by positivity, ?_, by simp only [div, hx, hy]⟩
  have hplace : (2 : ℚ) ^ e / 2 ^ f = 2 ^ (e - f).toNat / 2 ^ (f - e).toNat := by
    rw [← zpow_sub₀ (by norm_num), Binary64.zpow_eq_div, neg_sub]
  push_cast
  rw [mul_div_mul_comm, mul_div_mul_comm, hplace]

end Extended

namespace Json

/-! ## Significands -/

/-- More digits do not make a number smaller. -/
theorem le_ofDigitChars (n : Nat) (s : List Char) : n ≤ Nat.ofDigitChars 10 s n := by
  induction s generalizing n with
  | nil => exact Nat.ofDigitChars_nil.ge
  | cons c rest ih =>
    rw [Nat.ofDigitChars_cons]
    exact le_trans (by omega) (ih _)

/-- Digits that make up no more than 64 bits are all taken into the significand. -/
theorem takeIn_of_lt {n : Nat} {s : List Char} (h : Nat.ofDigitChars 10 s n < 2 ^ 64) : takeIn n s = (Nat.ofDigitChars 10 s n, []) := by
  induction s generalizing n with
  | nil => rw [takeIn, Nat.ofDigitChars_nil]
  | cons c rest ih =>
    rw [Nat.ofDigitChars_cons] at h ⊢
    rw [takeIn, if_pos ((le_ofDigitChars _ rest).trans_lt h), ih h]

/-- Digits that fit make up the number that they spell. -/
theorem significand_of_lt {whole fraction : List Char} (h : Decimal.natOfDigits (whole ++ fraction) < 2 ^ 64) (exponent : Int) :
    significand whole fraction exponent = Decimal.ofDigits whole fraction exponent := by
  rw [Decimal.natOfDigits_eq, Nat.ofDigitChars_append] at h
  have hwhole := takeIn_of_lt ((le_ofDigitChars _ fraction).trans_lt h)
  have hfraction := takeIn_of_lt h
  simp [significand, hwhole, hfraction, Decimal.ofDigits, Decimal.natOfDigits_eq, Nat.ofDigitChars_append]

/-! ## Scaling -/

/-- The powers of ten below the 23rd are in range, and are unpacked as themselves. -/
theorem unpack_power : ∀ k < 23, Binary64.roundQuotient (10 ^ k) 1 < Binary64.limit ∧
    (Binary64.unpack (Binary64.roundQuotient (10 ^ k) 1)).1 * 2 ^ (Binary64.unpack (Binary64.roundQuotient (10 ^ k) 1)).2.toNat =
      10 ^ k * 2 ^ (-(Binary64.unpack (Binary64.roundQuotient (10 ^ k) 1)).2).toNat := by decide +kernel

/-- The first powers of ten are exact. -/
theorem powerOfTen_exact {k : Nat} (hk : k ≤ 22) : ∃ magnitude, powerOfTen k = .finite magnitude ∧ value magnitude = 10 ^ k := by
  obtain ⟨hfinite, hparts⟩ := unpack_power k (Nat.lt_succ_of_le hk)
  refine ⟨_, if_pos hfinite, ?_⟩
  rw [value, Binary64.zpow_eq_div, mul_div_assoc', div_eq_iff (by positivity)]
  exact_mod_cast hparts

/-- A significand of 53 bits is exact. -/
theorem ofNat_exact {n : Nat} (h : n < 2 ^ 53) : ∃ magnitude, Extended.ofNat n = .finite magnitude ∧ value magnitude = n := by
  refine ⟨_, Extended.ofQuotient_eq Nat.one_pos ?_, Binary64.value_roundQuotient_one h⟩
  rw [Nat.cast_one, div_one]
  calc (n : ℚ) < ((2 ^ 53 : ℕ) : ℚ) := by exact_mod_cast h
    _ = 2 ^ (53 : ℤ) := by norm_num
    _ ≤ 2 ^ (1023 : ℤ) := zpow_le_zpow_right₀ (by norm_num) (by norm_num)

/-- A significand of 53 bits with an exponent of no more than twenty-two is scaled to the number nearest to the decimal. -/
theorem scale_of_few {d : Decimal} (hdigits : d.digits < 2 ^ 53) (hlow : -22 ≤ d.exponent) (hhigh : d.exponent ≤ 22) {magnitude : Nat}
    (hfinite : magnitude < Binary64.limit) (h : RoundsTo d.exact magnitude) : scale d = .finite magnitude := by
  obtain ⟨n, exponent⟩ := d
  obtain ⟨a, ha, hvalue⟩ := ofNat_exact hdigits
  cases exponent with
  | ofNat k =>
    have hk : k ≤ 22 := Int.ofNat_le.mp hhigh
    obtain ⟨b, hb, hpower⟩ := powerOfTen_exact hk
    obtain ⟨p, q, hq, hexact, hmul⟩ := Extended.mul_finite a b
    have hle : k ≤ maxPower := by unfold maxPower; omega
    simp only [scale, ha, if_pos hle, hb, hmul]
    refine Extended.ofQuotient_of_roundsTo hq hfinite ?_
    rw [hexact, hvalue, hpower]
    exact h
  | negSucc k =>
    have hk : k + 1 ≤ 22 := by
      dsimp only at hlow
      omega
    obtain ⟨b, hb, hpower⟩ := powerOfTen_exact hk
    obtain ⟨p, q, hq, hexact, hdiv⟩ := Extended.div_finite a (b := b) (by rw [hpower]; positivity)
    have hsteps : k / maxPower = 0 := Nat.div_eq_of_lt (by unfold maxPower; omega)
    simp only [scale, ha, hsteps, scaleDown, hb, hdiv]
    refine Extended.ofQuotient_of_roundsTo hq hfinite ?_
    rw [hexact, hvalue, hpower]
    rwa [Decimal.exact, zpow_negSucc, ← div_eq_mul_inv] at h

/-! ## Numbers that come back -/

variable {s : List Char} {d : Decimal} {whole fraction : List Char} {exponent : Option Int} {zeros : Nat}

/-- The digits of a numeral make up the number that it is for. -/
theorem Spells.exact (h : Spells s d whole fraction exponent zeros) :
    (Decimal.ofDigits whole fraction (exponent.getD 0)).exact = d.exact := by
  rw [Decimal.ofDigits, Decimal.exact, Decimal.exact, h.digits, ← h.power, zpow_add₀ (by norm_num), zpow_natCast]
  push_cast
  ring

/-- A number with few digits: no more than 53 bits with the zeros up to the point and one behind it, and no more than twenty-two places
behind the point. -/
structure Few (d : Decimal) : Prop where
  digits : d.digits * 10 ^ (d.exponent + 1).toNat < 2 ^ 53
  places : -22 ≤ d.exponent

/-- A numeral for a number with few digits has few digits as well. -/
theorem Spells.few (h : Spells s d whole fraction exponent zeros) (hpos : 0 < d.digits) (hfew : Few d) :
    Decimal.natOfDigits (whole ++ fraction) < 2 ^ 53 ∧ -22 ≤ exponent.getD 0 - fraction.length ∧
      exponent.getD 0 - fraction.length ≤ 22 := by
  have hdigits := hfew.digits
  have hplaces := hfew.places
  have hpower := h.power
  have hexponent : (d.exponent + 1).toNat < 16 := by
    by_contra hlarge
    have hten := Nat.mul_le_mul hpos (Nat.pow_le_pow_right (by norm_num : 0 < 10) (not_lt.mp hlarge))
    omega
  rw [h.digits]
  rcases h.filled with rfl | hfilled
  · refine ⟨lt_of_le_of_lt ?_ hdigits, by omega, by omega⟩
    exact Nat.mul_le_mul_left _ (Nat.pow_le_pow_right (by norm_num) (Nat.zero_le _))
  · rw [show (d.exponent + 1).toNat = zeros by omega] at hdigits
    exact ⟨hdigits, by omega, by omega⟩

end Json

/-- A float with few digits comes back from its text. -/
theorem Number.reread?_of_few {x : Binary64} (hpos : 0 < x.magnitude) (h : Json.Few (Shortest.digits x.magnitude)) :
    (Number.float x).reread? = some (.float x) := by
  have hdigits := Shortest.digits_pos hpos
  obtain ⟨whole, fraction, exponent, zeros, hspells⟩ := Json.exists_spells hdigits
  obtain ⟨hfew, hlow, hhigh⟩ := hspells.few hdigits h
  have hscale : Json.scale (Decimal.ofDigits whole fraction (exponent.getD 0)) = .finite x.magnitude :=
    Json.scale_of_few hfew hlow hhigh x.finite (hspells.exact ▸ Shortest.roundsTo_digits hpos)
  have hfloat : Json.float? x.negative whole fraction (exponent.getD 0) = some (.float x) := by
    rw [Json.float?, Json.significand_of_lt (by omega), hscale, Json.signed?, Binary64.ofMagnitude?, dif_pos x.finite]
    rfl
  have htext : (Number.float x).text.toList =
      Json.signText x.negative ++ (whole ++ (Json.fractionText fraction ++ (Json.exponentText exponent ++ []))) := by
    rw [Json.text_float, Number.magnitudeText, if_neg hpos.ne', hspells.text, List.append_nil]
  rw [Number.reread?, htext, Json.readNumber_numeral x.negative exponent hspells.before hspells.behind Json.endsNumeral_nil,
    hspells.marked]
  simp [hfloat]

end Runbook
