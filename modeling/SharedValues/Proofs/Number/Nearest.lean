import SharedValues.Proofs.Number.Spelling

/-!
# The nearest six-digit decimal

A magnitude is written with the decimal of six significant digits that is nearest to it.  From the
decimal that is written, other decimals are at least one last digit away, but for those below a
power of ten, which are a tenth as far from each other.  As every magnitude is written with a
nearest decimal, and with the same one every time, larger magnitudes are written with larger
decimals.

## Main definitions

* `IsSixDigit` — a decimal of six significant digits at most, of either sign.
* `Binary64.toRat` — the number that a finite double-precision number is.
* `SixDigits.written` — the decimal that a magnitude is written with, zero included.

## Main results

* `SixDigits.IsNear.nearest` — **no decimal of six digits is nearer** than the one that is near.
* `SixDigits.written_mono` — larger magnitudes are written with larger decimals.
-/

namespace SharedValues

open SixDigits

/-- A decimal of six significant digits at most, of either sign. -/
def IsSixDigit (q : ℚ) : Prop := ∃ m k : ℤ, |m| < 10 ^ 6 ∧ q = m * 10 ^ k

theorem IsSixDigit.neg {q : ℚ} (hq : IsSixDigit q) : IsSixDigit (-q) := by
  obtain ⟨m, k, hm, rfl⟩ := hq
  refine ⟨-m, k, by rwa [abs_neg], ?_⟩
  push_cast
  ring

/-! ### Decimals other than the one that is near -/

namespace SixDigits

variable {u v : ℕ} {d : SixDigits} {q : ℚ}

theorem magnitude_mul (d : SixDigits) :
    d.magnitude * unitsOfOne = d.digits * unit d.exponent := by
  unfold magnitude unit
  ring

theorem isSixDigit_magnitude (hd : d.digits < 10 ^ 6) : IsSixDigit d.magnitude :=
  ⟨d.digits, d.exponent - 5, by rw [Nat.abs_cast]; exact_mod_cast hd, rfl⟩

/-- A decimal whose last digit has the same place or a higher one is a whole number of last
digits. -/
theorem exists_mul_unit (m : ℤ) {k e : ℤ} (hk : e - 5 ≤ k) :
    ∃ n : ℤ, m * 10 ^ k * unitsOfOne = n * unit e := by
  obtain ⟨j, hj⟩ := Int.le.dest hk
  refine ⟨m * 10 ^ j, ?_⟩
  rw [← hj, zpow_add₀ (by norm_num), zpow_natCast, unit]
  push_cast
  ring

/-- A decimal whose last digit has a lower place is below the power of ten by one of these last
digits, at least. -/
theorem mul_le_of_lt {m k e : ℤ} (hm : |m| < 10 ^ 6) (hk : k < e - 5) :
    m * 10 ^ k * unitsOfOne ≤ 10 ^ 5 * unit e - unit e / 10 := by
  -- even six nines at that place are one short of the next power of ten
  have hm' : (m : ℚ) ≤ 10 ^ 6 - 1 := by exact_mod_cast Int.le_sub_one_of_lt (abs_lt.mp hm).2
  have hpow : (10 : ℚ) ^ k ≤ 10 ^ (e - 5 - 1) := zpow_le_zpow_right₀ (by norm_num) (by omega)
  have hpow' : 10 ^ k * unitsOfOne ≤ unit e / 10 := by
    calc 10 ^ k * unitsOfOne ≤ 10 ^ (e - 5 - 1) * unitsOfOne :=
          mul_le_mul_of_nonneg_right hpow unitsOfOne_pos.le
      _ = unit e / 10 := by
          rw [zpow_sub_one₀ (by norm_num), unit]
          ring
  have hnonneg : (0 : ℚ) ≤ 10 ^ k * unitsOfOne :=
    mul_nonneg (zpow_nonneg (by norm_num) _) unitsOfOne_pos.le
  rw [mul_assoc]
  calc m * (10 ^ k * unitsOfOne) ≤ (10 ^ 6 - 1) * (10 ^ k * unitsOfOne) :=
        mul_le_mul_of_nonneg_right hm' hnonneg
    _ ≤ (10 ^ 6 - 1) * (unit e / 10) := mul_le_mul_of_nonneg_left hpow' (by norm_num)
    _ = 10 ^ 5 * unit e - unit e / 10 := by ring

/-- **Other decimals are apart**: they are a last digit away, or below the power of ten by a tenth
of it. -/
theorem IsSixDigit.apart (hq : IsSixDigit q) (d : SixDigits) :
    q * unitsOfOne = d.digits * unit d.exponent ∨
      unit d.exponent ≤ |q * unitsOfOne - d.digits * unit d.exponent| ∨
      q * unitsOfOne ≤ 10 ^ 5 * unit d.exponent - unit d.exponent / 10 := by
  obtain ⟨m, k, hm, rfl⟩ := hq
  -- with a last digit further right, the decimal is below all those that six digits can reach
  rcases lt_or_ge k (d.exponent - 5) with hk | hk
  · exact .inr (.inr (mul_le_of_lt hm hk))
  obtain ⟨n, hn⟩ := exists_mul_unit m hk
  -- both are multiples of the last digit's unit now
  rw [hn]
  by_cases heq : n = d.digits
  · left
    rw [heq, Int.cast_natCast]
  · right
    left
    -- different multiples of the unit are at least one unit apart
    have hone : (1 : ℚ) ≤ |((n - d.digits : ℤ) : ℚ)| := by
      rw [← Int.cast_abs]
      exact_mod_cast Int.one_le_abs (sub_ne_zero.mpr heq)
    have hunit := unit_pos d.exponent
    calc unit d.exponent ≤ |((n - d.digits : ℤ) : ℚ)| * unit d.exponent :=
          le_mul_of_one_le_left hunit.le hone
      _ = |n * unit d.exponent - d.digits * unit d.exponent| := by
          rw [← sub_mul, abs_mul, abs_of_pos hunit]
          push_cast
          rfl

/-! ### The nearest decimal -/

/-- In units, no decimal is nearer to a magnitude than the one that is near. -/
theorem IsNear.nearest_units (h : d.IsNear u) (hq : IsSixDigit q) :
    |d.digits * unit d.exponent - u| ≤ |q * unitsOfOne - u| := by
  have hnear := h.near
  rw [abs_sub_comm] at hnear
  have hunit := unit_pos d.exponent
  obtain ⟨hge, -⟩ := h.digits_mem
  obtain ⟨hlow, hhigh⟩ := abs_le.mp hnear
  rcases IsSixDigit.apart hq d with heq | happart | hbelow
  · rw [heq]
  · -- a last digit away from the decimal is half of one away from the magnitude
    have htriangle := abs_sub_le (q * unitsOfOne) u (d.digits * unit d.exponent)
    rw [abs_sub_comm (u : ℚ)] at htriangle
    linarith
  · -- the other decimal is below the power of ten
    have habove : |d.digits * unit d.exponent - u| ≤ u - q * unitsOfOne := by
      rcases le_or_gt (d.digits * unit d.exponent) u with hle | hgt
      · rw [abs_of_nonpos (by linarith)]
        linarith
      rw [abs_of_pos (by linarith)]
      by_cases hpower : d.digits = 10 ^ 5
      · have hclose := h.below hgt hpower
        linarith
      · have hmore : (10 ^ 5 + 1 : ℚ) ≤ d.digits := by
          have hsix := h.six.1
          exact_mod_cast (show 10 ^ 5 + 1 ≤ d.digits by omega)
        have := mul_le_mul_of_nonneg_right hmore hunit.le
        linarith
    rw [abs_sub_comm (q * unitsOfOne)]
    exact habove.trans (le_abs_self _)

/-- **No decimal of six digits is nearer to a magnitude** than the one that is near. -/
theorem IsNear.nearest (h : d.IsNear u) (hq : IsSixDigit q) :
    |d.magnitude - u / unitsOfOne| ≤ |q - u / unitsOfOne| := by
  have hone := unitsOfOne_pos
  have hscale : ∀ r : ℚ, |r - u / unitsOfOne| * unitsOfOne = |r * unitsOfOne - u| := by
    intro r
    rw [← abs_of_pos hone, ← abs_mul, abs_of_pos hone, sub_mul, div_mul_cancel₀ _ hone.ne']
  refine le_of_mul_le_mul_right ?_ hone
  rw [hscale, hscale, magnitude_mul]
  exact h.nearest_units hq

/-! ### Larger magnitudes -/

/-- The decimal that a magnitude is written with. -/
def written (u : ℕ) : ℚ := if u = 0 then 0 else (ofUnits u).magnitude

theorem written_of_pos (hu : 0 < u) : written u = (ofUnits u).magnitude := if_neg hu.ne'

theorem IsNear.magnitude_pos (h : d.IsNear u) : 0 < d.magnitude := by
  have hdigits : (0 : ℚ) < d.digits := by
    have hsix := h.six.1
    exact_mod_cast (show 0 < d.digits by omega)
  exact mul_pos hdigits (zpow_pos (by norm_num) _)

/-- What is nearest to the larger magnitude is no less than what is nearest to the smaller one. -/
theorem le_of_nearest {a b s t : ℚ} (hst : s < t) (ha : |a - s| ≤ |b - s|)
    (hb : |b - t| ≤ |a - t|) : a ≤ b := by
  by_contra hlt
  rw [not_le] at hlt
  have hfirst : (a - s) ^ 2 ≤ (b - s) ^ 2 := sq_le_sq.mpr ha
  have hsecond : (b - t) ^ 2 ≤ (a - t) ^ 2 := sq_le_sq.mpr hb
  have hpos : 0 < (a - b) * (t - s) := mul_pos (sub_pos.mpr hlt) (sub_pos.mpr hst)
  linarith

/-- **Larger magnitudes are written with larger decimals.** -/
theorem written_mono (huv : u ≤ v) : written u ≤ written v := by
  rcases huv.eq_or_lt with rfl | hlt
  · exact le_rfl
  have hv : 0 < v := by omega
  have hnearV := isNear_ofUnits hv
  rw [written_of_pos hv]
  -- zero is written as zero, which no other number is below
  rcases Nat.eq_zero_or_pos u with rfl | hu
  · rw [written, if_pos rfl]
    exact hnearV.magnitude_pos.le
  rw [written_of_pos hu]
  have hnearU := isNear_ofUnits hu
  -- both decimals are the nearest ones, so they cannot be the other way round
  generalize ofUnits u = a, ofUnits v = b at hnearU hnearV ⊢
  have hsmaller : (u / unitsOfOne : ℚ) < v / unitsOfOne :=
    div_lt_div_of_pos_right (by exact_mod_cast hlt) unitsOfOne_pos
  exact le_of_nearest hsmaller (hnearU.nearest (isSixDigit_magnitude hnearV.six.2))
    (hnearV.nearest (isSixDigit_magnitude hnearU.six.2))

end SixDigits

/-! ### Exact values -/

namespace Binary64

variable {x y : Binary64}

/-- The number that a finite double-precision number is. -/
def toRat (x : Binary64) : ℚ := (if x.negative then -1 else 1) * (x.units / unitsOfOne)

/-- Whether this is a number, and neither of the two infinities. -/
def IsFinite (x : Binary64) : Prop := x.isNaN = false ∧ x.isInfinite = false

theorem isFinite_iff : x.IsFinite ↔ x.place.val < infinitePlace := by
  rw [IsFinite, isNaN, isInfinite, decide_eq_false_iff_not, beq_eq_false_iff_ne]
  omega

theorem toRat_nonneg (hx : x.negative = false) : 0 ≤ x.toRat := by
  rw [toRat, hx, if_neg Bool.false_ne_true, one_mul]
  exact div_nonneg (Nat.cast_nonneg _) unitsOfOne_pos.le

theorem toRat_nonpos (hx : x.negative = true) : x.toRat ≤ 0 := by
  rw [toRat, hx, if_pos rfl, neg_one_mul, neg_nonpos]
  exact div_nonneg (Nat.cast_nonneg _) unitsOfOne_pos.le

/-- Numbers of one sign are in the order of their magnitudes, or in the other one. -/
theorem toRat_le_iff (h : x.negative = y.negative) :
    x.toRat ≤ y.toRat ↔ if x.negative then y.units ≤ x.units else x.units ≤ y.units := by
  rw [toRat, toRat, ← h]
  cases x.negative with
  | false => simp [div_le_div_iff_of_pos_right unitsOfOne_pos]
  | true => simp [div_le_div_iff_of_pos_right unitsOfOne_pos]

end Binary64

end SharedValues
