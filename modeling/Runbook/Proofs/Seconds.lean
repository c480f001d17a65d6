import Runbook.Proofs.Integers
import Runbook.Time.Seconds

/-!
# Lengths of time as seconds

A length of time that is turned into floating-point seconds and back is rounded three times on the way there and once on the way back.
Below `2 ^ 23` seconds all of this is less than half a nanosecond, so the length stays what it is; above, it changes by no more than one part
in `2 ^ 51`.
-/

namespace Runbook

namespace Binary64

/-! ## The number of a magnitude -/

/-- The number that a magnitude stands for. -/
def value (magnitude : Nat) : ℚ := (unpack magnitude).1 * 2 ^ (unpack magnitude).2

/-- The value of a magnitude is that of its parts. -/
theorem Parts.value_eq {magnitude m : Nat} {e : ℤ} (hp : Parts magnitude m e) : value magnitude = m * 2 ^ e := by
  rw [value, hp.unpack_eq]

/-- The greatest significand of a place is worth no more than the first of the next. -/
theorem Parts.value_le_of_lt {a b m m' : Nat} {e e' : ℤ} (hp : Parts a m e) (hp' : Parts b m' e') (hlt : e < e') :
    (m : ℚ) * 2 ^ e ≤ m' * 2 ^ e' := by
  have hm : (m : ℚ) ≤ 2 * 2 ^ 52 := by
    have hle : m ≤ 2 * 2 ^ 52 := hp.lt.le
    exact_mod_cast hle
  have hm' : (2 : ℚ) ^ 52 ≤ m' := by exact_mod_cast hp'.full (by have := hp.lowest; omega)
  have hplace : (2 : ℚ) * 2 ^ e ≤ 2 ^ e' := by
    rw [← zpow_one_add₀ (by norm_num)]
    exact zpow_le_zpow_right₀ (by norm_num) (by omega)
  have hunit := two_zpow_pos e
  have hunit' := two_zpow_pos e'
  calc (m : ℚ) * 2 ^ e ≤ 2 * 2 ^ 52 * 2 ^ e := mul_le_mul_of_nonneg_right hm hunit.le
    _ = 2 ^ 52 * (2 * 2 ^ e) := by ring
    _ ≤ 2 ^ 52 * 2 ^ e' := mul_le_mul_of_nonneg_left hplace (by norm_num)
    _ ≤ m' * 2 ^ e' := mul_le_mul_of_nonneg_right hm' hunit'.le

/-- A greater magnitude stands for a greater number. -/
theorem value_mono {a b : Nat} (h : a ≤ b) : value a ≤ value b := by
  obtain ⟨m, e, hp⟩ := exists_parts a
  obtain ⟨m', e', hp'⟩ := exists_parts b
  rw [hp.value_eq, hp'.value_eq]
  have hsum := hp.sum
  have hsum' := hp'.sum
  rcases lt_trichotomy e e' with hlt | rfl | hgt
  · exact hp.value_le_of_lt hp' hlt
  · have hm : (m : ℚ) ≤ m' := by
      have hle : m ≤ m' := by omega
      exact_mod_cast hle
    exact mul_le_mul_of_nonneg_right hm (two_zpow_pos e).le
  · have hstep := Nat.mul_le_mul_right (2 ^ 52) (show (e' + 1074).toNat + 1 ≤ (e + 1074).toNat by have := hp'.lowest; omega)
    have hfull := hp.full (by have := hp'.lowest; omega)
    have hlt' := hp'.lt
    omega

namespace Rounded

variable {x : ℚ} {magnitude r : Nat} {k e : ℤ}

/-- The value of what is rounded is that of its places. -/
theorem value_eq (h : Rounded x magnitude k e r) : value magnitude = r * 2 ^ e := by
  rcases h.le_top.lt_or_eq with hlt | rfl
  · exact (parts_of_sum h.lowest hlt h.full h.sum).value_eq
  · rw [h.parts_next.value_eq, two_zpow_add, zpow_one]
    push_cast
    ring

/-- A number is rounded by no more than half of its last place. -/
theorem abs_sub_le (h : Rounded x magnitude k e r) : |value magnitude - x| ≤ 2 ^ (e - 1) := by
  have hhalf : (2 : ℚ) ^ (e - 1) = 1 / 2 * 2 ^ e := by
    rw [sub_eq_add_neg, two_zpow_add, zpow_neg_one]
    ring
  have hlow := h.near.low
  have hhigh := h.near.high
  rw [h.value_eq, hhalf, abs_le]
  constructor <;> linarith

end Rounded

theorem value_zero : value 0 = 0 := by
  have hunpack : unpack 0 = (0, -1074) := rfl
  simp [value, hunpack]

/-- A quotient below a power of two is rounded by no more than half of a last place there. -/
theorem abs_value_sub_le {n d : Nat} (hd : 0 < d) {k : ℤ} (hk : -1021 ≤ k) (h : (n / d : ℚ) < 2 ^ k) :
    |value (roundQuotient n d) - n / d| ≤ 2 ^ (k - 54) := by
  rcases Nat.eq_zero_or_pos n with rfl | hn
  · simpa [roundQuotient, value_zero] using (two_zpow_pos (k - 54)).le
  · obtain ⟨k', e, r, hround⟩ := exists_rounded hn hd
    have hlt := (zpow_lt_zpow_iff_right₀ (by norm_num : (1 : ℚ) < 2)).mp (hround.binade.trans_lt h)
    have hplace := hround.place
    exact hround.abs_sub_le.trans (zpow_le_zpow_right₀ (by norm_num) (by omega))

/-- A quotient that is zero or not very small is rounded by no more than one part in `2 ^ 53`. -/
theorem abs_value_sub_le_mul {n d : Nat} (hd : 0 < d) (h : 0 < n → (2 : ℚ) ^ (-1022 : ℤ) ≤ n / d) :
    |value (roundQuotient n d) - n / d| ≤ n / d * 2 ^ (-53 : ℤ) := by
  rcases Nat.eq_zero_or_pos n with rfl | hn
  · simp [roundQuotient, value_zero]
  · obtain ⟨k, e, r, hround⟩ := exists_rounded hn hd
    have hlt := (zpow_lt_zpow_iff_right₀ (by norm_num : (1 : ℚ) < 2)).mp ((h hn).trans_lt hround.binade')
    have hplace := hround.place
    calc |value (roundQuotient n d) - n / d| ≤ 2 ^ (e - 1) := hround.abs_sub_le
      _ = 2 ^ k * 2 ^ (-53 : ℤ) := by
        rw [← zpow_add₀ (by norm_num)]
        congr 1
        omega
      _ ≤ n / d * 2 ^ (-53 : ℤ) := mul_le_mul_of_nonneg_right hround.binade (two_zpow_pos _).le

/-- A quotient far below the end of the range is rounded to a finite magnitude. -/
theorem roundQuotient_lt_limit {n d : Nat} (hd : 0 < d) (h : (n / d : ℚ) < 2 ^ (1023 : ℤ)) : roundQuotient n d < limit := by
  rcases Nat.eq_zero_or_pos n with rfl | hn
  · rw [roundQuotient, if_pos rfl, limit]
    norm_num
  · obtain ⟨k, e, r, hround⟩ := exists_rounded hn hd
    have hlt := (zpow_lt_zpow_iff_right₀ (by norm_num : (1 : ℚ) < 2)).mp (hround.binade.trans_lt h)
    have hplace := hround.place
    have htop := hround.le_top
    have hstep := Nat.mul_le_mul_right (2 ^ 52) (show (e + 1074).toNat ≤ 2044 by omega)
    rw [hround.sum, limit]
    omega

/-- A whole number of no more than 53 bits is not changed by rounding: in units of its last place it is whole as well, and so next to
itself only. -/
theorem value_roundQuotient_one {n : Nat} (h : n < 2 ^ 53) : value (roundQuotient n 1) = n := by
  rcases Nat.eq_zero_or_pos n with rfl | hn
  · simp [roundQuotient, value_zero]
  · obtain ⟨k, e, r, hround⟩ := exists_rounded hn (d := 1) Nat.one_pos
    have hplace := hround.place
    have he : e ≤ 0 := by
      have hlt : (2 : ℚ) ^ k < 2 ^ (53 : ℤ) := by
        refine hround.binade.trans_lt ?_
        rw [Nat.cast_one, div_one]
        exact_mod_cast h
      have := (zpow_lt_zpow_iff_right₀ (by norm_num : (1 : ℚ) < 2)).mp hlt
      omega
    obtain ⟨i, rfl⟩ := Int.exists_eq_neg_ofNat he
    have hunit := two_zpow_pos (-(i : ℤ))
    have hscale : (n : ℚ) = ((n * 2 ^ i : ℕ) : ℚ) * 2 ^ (-(i : ℤ)) := by
      push_cast
      rw [zpow_neg, zpow_natCast, mul_assoc, mul_inv_cancel₀ (by positivity), mul_one]
    have hlow := hround.near.low
    have hhigh := hround.near.high
    rw [Nat.cast_one, div_one, hscale] at hlow hhigh
    have hlow' := le_of_mul_le_mul_right hlow hunit
    have hhigh' := le_of_mul_le_mul_right hhigh hunit
    have hr : r = n * 2 ^ i := by
      have hlt : (r : ℚ) < ((n * 2 ^ i + 1 : ℕ) : ℚ) := by
        push_cast at hlow' ⊢
        linarith
      have hlt' : ((n * 2 ^ i : ℕ) : ℚ) < ((r + 1 : ℕ) : ℚ) := by
        push_cast at hhigh' ⊢
        linarith
      have hle : r < n * 2 ^ i + 1 := by exact_mod_cast hlt
      have hge : n * 2 ^ i < r + 1 := by exact_mod_cast hlt'
      omega
    rw [hround.value_eq, hr, ← hscale]

end Binary64

open Binary64

namespace Extended

/-- A quotient in range is the float that it is rounded to. -/
theorem ofQuotient_eq {n d : Nat} (hd : 0 < d) (h : (n / d : ℚ) < 2 ^ (1023 : ℤ)) : ofQuotient n d = finite (roundQuotient n d) :=
  if_pos (roundQuotient_lt_limit hd h)

/-- A sum is the exact sum, rounded once. -/
theorem add_finite (a b : Nat) :
    ∃ n d : Nat, 0 < d ∧ (n / d : ℚ) = value a + value b ∧ (finite a).add (finite b) = ofQuotient n d := by
  unfold value
  generalize hx : unpack a = x
  generalize hy : unpack b = y
  obtain ⟨m, e⟩ := x
  obtain ⟨n, f⟩ := y
  refine ⟨(m * 2 ^ (e - min e f).toNat + n * 2 ^ (f - min e f).toNat) * 2 ^ (min e f).toNat, 2 ^ (-min e f).toNat, by positivity, ?_, ?_⟩
  · have hplace (i : ℤ) (hi : min e f ≤ i) : (2 : ℚ) ^ (i - min e f).toNat * 2 ^ min e f = 2 ^ i := by
      rw [← zpow_natCast, Int.toNat_of_nonneg (by omega), ← zpow_add₀ (by norm_num), sub_add_cancel]
    push_cast
    rw [mul_div_assoc, ← zpow_eq_div, add_mul, mul_assoc, mul_assoc, hplace e (min_le_left e f), hplace f (min_le_right e f)]
  · simp only [add, hx, hy, ofScaled]

end Extended

namespace Duration

theorem nanosPerSecond_eq : nanosPerSecond = 10 ^ 9 := rfl

/-- So many seconds are rounded to the nearest number of nanoseconds. -/
theorem near_ofFloatSeconds (a : Nat) : Near (value a * 10 ^ 9) (ofFloatSeconds (.finite a)).nanos 0 := by
  unfold value
  generalize hx : unpack a = x
  obtain ⟨m, e⟩ := x
  have hnanos : (ofFloatSeconds (.finite a)).nanos = roundDiv (m * 2 ^ e.toNat * nanosPerSecond) (2 ^ (-e).toNat) := by
    simp only [ofFloatSeconds, hx]
  have hexact : (m * 2 ^ e * 10 ^ 9 : ℚ) = ((m * 2 ^ e.toNat * nanosPerSecond : ℕ) : ℚ) / ((2 ^ (-e).toNat : ℕ) : ℚ) := by
    rw [zpow_eq_div, nanosPerSecond_eq]
    push_cast
    ring
  obtain ⟨hlow, hhigh, hodd⟩ :=
    roundDiv_near_rat (n := m * 2 ^ e.toNat * nanosPerSecond) (d := 2 ^ (-e).toNat) (by positivity)
  rw [hnanos, hexact]
  exact near_of_div (by simpa using hlow) (by simpa using hhigh) (by simpa using hodd)

/-- More seconds are no fewer nanoseconds. -/
theorem ofFloatSeconds_mono {a b : Nat} (h : a ≤ b) : (ofFloatSeconds (.finite a)).nanos ≤ (ofFloatSeconds (.finite b)).nanos :=
  (near_ofFloatSeconds a).mono (near_ofFloatSeconds b) (mul_le_mul_of_nonneg_right (value_mono h) (by norm_num))

/-- The longest time that can be held is below so many nanoseconds. -/
def range : Nat := 2 ^ 64 * nanosPerSecond

/-- A length in seconds: its whole seconds are rounded to `a`, the rest to `b`, and the sum of both to a magnitude. -/
structure InSeconds (d : Duration) (a b : ℚ) (magnitude : Nat) : Prop where
  seconds : d.seconds = .finite magnitude
  exact : d.nanos / nanosPerSecond < 2 ^ 53 → a = (d.nanos / nanosPerSecond : ℕ)
  whole : |a - (d.nanos / nanosPerSecond : ℕ)| ≤ (d.nanos / nanosPerSecond : ℕ) * 2 ^ (-53 : ℤ)
  rest : |b - (d.nanos % nanosPerSecond : ℕ) / 10 ^ 9| ≤ 2 ^ (-54 : ℤ)
  sum : ∀ k : ℤ, -1021 ≤ k → a + b < 2 ^ k → |value magnitude - (a + b)| ≤ 2 ^ (k - 54)
  sum_mul : (2 : ℚ) ^ (-1022 : ℤ) ≤ a + b → |value magnitude - (a + b)| ≤ (a + b) * 2 ^ (-53 : ℤ)

/-- Every duration in range is so many seconds. -/
theorem exists_inSeconds {d : Duration} (h : d.nanos < range) : ∃ a b magnitude, d.InSeconds a b magnitude := by
  have hS : d.nanos / nanosPerSecond < 2 ^ 64 := Nat.div_lt_of_lt_mul (by rwa [mul_comm])
  have hf : d.nanos % nanosPerSecond < 10 ^ 9 := Nat.mod_lt _ (by norm_num [nanosPerSecond])
  have hseconds : d.seconds = (Extended.ofQuotient (d.nanos / nanosPerSecond) 1).add
      (.ofQuotient (d.nanos % nanosPerSecond) nanosPerSecond) := rfl
  have hpowers {i j : ℤ} (hij : i ≤ j) : (2 : ℚ) ^ i ≤ 2 ^ j := zpow_le_zpow_right₀ (by norm_num) hij
  have hwhole : ((d.nanos / nanosPerSecond : ℕ) / (1 : ℕ) : ℚ) < 2 ^ (64 : ℤ) := by
    rw [Nat.cast_one, div_one]
    exact_mod_cast hS
  have hrest : ((d.nanos % nanosPerSecond : ℕ) / (nanosPerSecond : ℕ) : ℚ) < 2 ^ (0 : ℤ) := by
    rw [zpow_zero, div_lt_one (by norm_num [nanosPerSecond])]
    exact_mod_cast hf
  rw [Extended.ofQuotient_eq Nat.one_pos (hwhole.trans_le (hpowers (by norm_num))),
    Extended.ofQuotient_eq (by norm_num [nanosPerSecond]) (hrest.trans_le (hpowers (by norm_num)))] at hseconds
  have hsmall : 0 < d.nanos / nanosPerSecond → (2 : ℚ) ^ (-1022 : ℤ) ≤ (d.nanos / nanosPerSecond : ℕ) / (1 : ℕ) := by
    intro hpos
    rw [Nat.cast_one, div_one]
    refine (hpowers (show (-1022 : ℤ) ≤ 0 by norm_num)).trans ?_
    rw [zpow_zero]
    exact_mod_cast hpos
  have hS' : ((d.nanos / nanosPerSecond : ℕ) : ℚ) ≤ 2 ^ 64 := by exact_mod_cast hS.le
  have hwhole' := abs_value_sub_le_mul Nat.one_pos hsmall
  have hrest' := abs_value_sub_le (by norm_num [nanosPerSecond]) (by norm_num) hrest
  obtain ⟨n, e, he, hsum, hadd⟩ := Extended.add_finite (roundQuotient (d.nanos / nanosPerSecond) 1)
    (roundQuotient (d.nanos % nanosPerSecond) nanosPerSecond)
  have hrange : (n / e : ℚ) < 2 ^ (1023 : ℤ) := by
    refine lt_of_lt_of_le ?_ (hpowers (show (66 : ℤ) ≤ 1023 by norm_num))
    rw [abs_le] at hwhole' hrest'
    rw [hsum]
    rw [zpow_zero] at hrest
    norm_num at hrest hwhole' hrest' hS' ⊢
    linarith
  refine ⟨value (roundQuotient (d.nanos / nanosPerSecond) 1), value (roundQuotient (d.nanos % nanosPerSecond) nanosPerSecond),
    roundQuotient n e, hseconds.trans (hadd.trans (Extended.ofQuotient_eq he hrange)), value_roundQuotient_one, ?_, ?_, ?_, ?_⟩
  · simpa using hwhole'
  · rw [zero_sub] at hrest'
    exact_mod_cast hrest'
  · intro k hk hlt
    rw [← hsum] at hlt ⊢
    exact abs_value_sub_le he hk hlt
  · intro hge
    rw [← hsum] at hge ⊢
    exact abs_value_sub_le_mul he fun _ => hge

/-- A length below `2 ^ 23` seconds, which is more than three months, is what it was in seconds. -/
theorem ofFloatSeconds_seconds {d : Duration} (h : d.nanos < 2 ^ 23 * nanosPerSecond) : ofFloatSeconds d.seconds = d := by
  obtain ⟨a, b, magnitude, hd⟩ := exists_inSeconds (h.trans (by norm_num [range, nanosPerSecond]))
  have hS : d.nanos / nanosPerSecond < 2 ^ 23 := Nat.div_lt_of_lt_mul (by rwa [mul_comm])
  have hf : d.nanos % nanosPerSecond < 10 ^ 9 := Nat.mod_lt _ (by norm_num [nanosPerSecond])
  have hnanos : d.nanos / nanosPerSecond * 10 ^ 9 + d.nanos % nanosPerSecond = d.nanos := Nat.div_add_mod' d.nanos nanosPerSecond
  have hwhole := hd.exact (by omega)
  have hrest := hd.rest
  have hsum := hd.sum 23 (by norm_num)
  have hnear := near_ofFloatSeconds magnitude
  rw [hd.seconds]
  generalize d.nanos / nanosPerSecond = S at *
  generalize d.nanos % nanosPerSecond = f at *
  subst hwhole
  have hS' : (S : ℚ) + 1 ≤ 2 ^ 23 := by exact_mod_cast hS
  have hf' : (f : ℚ) + 1 ≤ 10 ^ 9 := by exact_mod_cast hf
  have hnanos' : (d.nanos : ℚ) = S * 10 ^ 9 + f := by exact_mod_cast hnanos.symm
  rw [abs_le] at hrest
  norm_num at hrest hS' hf' hnanos'
  have hsum' := hsum (by norm_num; linarith)
  rw [abs_le] at hsum'
  norm_num at hsum'
  have hlow := hnear.low
  have hhigh := hnear.high
  rw [zpow_zero, mul_one] at hlow hhigh
  have hle : ((ofFloatSeconds (.finite magnitude)).nanos : ℚ) < ((d.nanos + 1 : ℕ) : ℚ) := by
    push_cast
    linarith
  have hge : (d.nanos : ℚ) < (((ofFloatSeconds (.finite magnitude)).nanos + 1 : ℕ) : ℚ) := by
    push_cast
    linarith
  have hle' : (ofFloatSeconds (.finite magnitude)).nanos < d.nanos + 1 := by exact_mod_cast hle
  have hge' : d.nanos < (ofFloatSeconds (.finite magnitude)).nanos + 1 := by exact_mod_cast hge
  have hsame : (ofFloatSeconds (.finite magnitude)).nanos = d.nanos := by omega
  cases d
  exact congrArg Duration.mk hsame

/-- A length grows by no more than one part in `2 ^ 51`. -/
theorem nanos_seconds_le {d : Duration} (h : d.nanos < range) : (ofFloatSeconds d.seconds).nanos * 2 ^ 51 ≤ d.nanos * (2 ^ 51 + 1) := by
  rcases lt_or_ge d.nanos (2 ^ 23 * nanosPerSecond) with hsmall | hlarge
  · rw [ofFloatSeconds_seconds hsmall]
    omega
  · obtain ⟨a, b, magnitude, hd⟩ := exists_inSeconds h
    have hS : 2 ^ 23 ≤ d.nanos / nanosPerSecond := (Nat.le_div_iff_mul_le (by norm_num [nanosPerSecond])).mpr hlarge
    have hf : d.nanos % nanosPerSecond < 10 ^ 9 := Nat.mod_lt _ (by norm_num [nanosPerSecond])
    have hnanos : d.nanos / nanosPerSecond * 10 ^ 9 + d.nanos % nanosPerSecond = d.nanos := Nat.div_add_mod' d.nanos nanosPerSecond
    have hwhole := hd.whole
    have hrest := hd.rest
    have hsum := hd.sum_mul
    have hnear := (near_ofFloatSeconds magnitude).low
    rw [hd.seconds]
    generalize d.nanos / nanosPerSecond = S at *
    generalize d.nanos % nanosPerSecond = f at *
    have hS' : (2 : ℚ) ^ 23 ≤ S := by exact_mod_cast hS
    have hf' : (0 : ℚ) ≤ f := Nat.cast_nonneg f
    have hnanos' : (d.nanos : ℚ) = S * 10 ^ 9 + f := by exact_mod_cast hnanos.symm
    rw [abs_le] at hwhole hrest
    rw [zpow_zero, mul_one] at hnear
    have hfirst : (2 : ℚ) ^ (-1022 : ℤ) ≤ 1 := by
      rw [← zpow_zero (2 : ℚ)]
      exact zpow_le_zpow_right₀ (by norm_num) (by norm_num)
    norm_num at hwhole hrest
    have hsum' := hsum (hfirst.trans (by linarith))
    rw [abs_le] at hsum'
    norm_num at hsum' hnear
    have hgoal : ((ofFloatSeconds (.finite magnitude)).nanos : ℚ) * 2 ^ 51 ≤ d.nanos * (2 ^ 51 + 1) := by
      norm_num
      linarith
    exact_mod_cast hgoal

end Duration

end Runbook
