import SharedValues.Number.Format
import SharedValues.Proofs.Number.Rounding

/-!
# Six-digit decimals

A magnitude is written with the six-digit decimal nearest to it.  How near it is depends on the side
on which it lies: six-digit decimals are ten times as dense below a power of ten as they are above
it, so that a magnitude just below a power of ten has to be ten times as near.

## Main definitions

* `SixDigits.unit` — the size of the last digit.
* `SixDigits.IsNear` — how near a decimal is to the magnitude it was written for.

## Main results

* `SixDigits.leadingPower_spec`, `SixDigits.leadingPower_eq` — the power of ten of the first digit.
* `SixDigits.isNear_ofUnits` — the six-digit decimal of a magnitude is near.
* `SixDigits.ofUnits_eq` — a six-digit decimal that is near enough is the one of a magnitude.
-/

namespace SharedValues

/-! ### Digits -/

namespace Numeral

/-- A number has so many digits that it is below the next power of ten. -/
theorem lt_pow_digitCount (n : ℕ) : n < 10 ^ digitCount n := by
  apply lt_pow_digitCountWithin
  set k := (n.log2 + 1).log2 + 1
  have hlog : n.log2 + 1 < 2 ^ k := Nat.lt_log2_self
  calc n < 2 ^ (n.log2 + 1) := Nat.lt_log2_self
    _ ≤ 2 ^ 2 ^ k := Nat.pow_le_pow_right (by norm_num) hlog.le
    _ ≤ 10 ^ 2 ^ k := Nat.pow_le_pow_left (by norm_num) _
    _ = Nat.pow 10 (1 <<< k) := by rw [Nat.one_shiftLeft]; rfl

theorem pow_digitCount_le {n : ℕ} (hn : 0 < n) : 10 ^ digitCount n ≤ 10 * n :=
  pow_digitCountWithin_le _ n hn

end Numeral

namespace SixDigits

open Number Numeral

variable {u v D : ℕ} {e p : ℤ}

/-! ### The size of the last digit -/

theorem cast_pow_ten (k : ℕ) : ((Nat.pow 10 k : ℕ) : ℚ) = 10 ^ k := Nat.cast_pow 10 k

theorem cast_pow_ten_pos (k : ℕ) : (0 : ℚ) < (Nat.pow 10 k : ℕ) := by
  rw [cast_pow_ten]
  positivity

theorem cast_pow_ten_toNat (hp : 0 ≤ p) : ((Nat.pow 10 p.toNat : ℕ) : ℚ) = 10 ^ p := by
  rw [cast_pow_ten, ← zpow_natCast, Int.toNat_of_nonneg hp]

/-- The number one, in units of `2 ^ -1074`. -/
def unitsOfOne : ℚ := 2 ^ 1074

theorem unitsOfOne_pos : 0 < unitsOfOne := pow_pos (by norm_num) _

theorem shiftLeft_pos : 0 < 1 <<< 1074 :=
  (Nat.two_pow_pos 1074).trans_eq (Nat.one_shiftLeft 1074).symm

theorem cast_shiftLeft (n : ℕ) : ((n <<< 1074 : ℕ) : ℚ) = n * unitsOfOne :=
  (congrArg Nat.cast (Nat.shiftLeft_eq n 1074)).trans
    ((Nat.cast_mul ..).trans (congrArg _ (Nat.cast_pow 2 1074)))

theorem cast_one_shiftLeft : ((1 <<< 1074 : ℕ) : ℚ) = unitsOfOne := by
  rw [cast_shiftLeft, Nat.cast_one, one_mul]

/-- The size of the last digit of a six-digit decimal, in units of `2 ^ -1074`. -/
def unit (exponent : ℤ) : ℚ := 10 ^ (exponent - 5) * unitsOfOne

theorem unit_pos (e : ℤ) : 0 < unit e := mul_pos (zpow_pos (by norm_num) _) unitsOfOne_pos

theorem unit_succ (e : ℤ) : unit (e + 1) = 10 * unit e := by
  unfold unit
  rw [show e + 1 - 5 = e - 5 + 1 by ring, zpow_add_one₀ (by norm_num)]
  ring

theorem unit_le_unit (h : e ≤ p) : unit e ≤ unit p := by
  unfold unit
  have hpow : (10 : ℚ) ^ (e - 5) ≤ 10 ^ (p - 5) := zpow_le_zpow_right₀ (by norm_num) (by omega)
  exact mul_le_mul_of_nonneg_right hpow unitsOfOne_pos.le

/-- A power of ten is at least ten times a smaller one. -/
theorem ten_mul_unit_le (h : e < p) : 10 * unit e ≤ unit p := by
  rw [← unit_succ]
  exact unit_le_unit h

/-! ### The first digit -/

/-- The digits of a ratio tell its size. -/
theorem digitCount_div_spec {A B : ℕ} (hB : 0 < B) (hle : B ≤ u * A) :
    10 ^ digitCount (u * A / B) * B ≤ 10 * (u * A) ∧ u * A < 10 ^ digitCount (u * A / B) * B := by
  have hq : 0 < u * A / B := Nat.div_pos hle hB
  constructor
  · calc 10 ^ digitCount (u * A / B) * B
        ≤ 10 * (u * A / B) * B := Nat.mul_le_mul_right B (pow_digitCount_le hq)
      _ = 10 * (u * A / B * B) := Nat.mul_assoc ..
      _ ≤ 10 * (u * A) := Nat.mul_le_mul_left 10 (Nat.div_mul_le_self ..)
  · exact (Nat.div_lt_iff_lt_mul hB).mp (lt_pow_digitCount _)

/-- The least magnitude has its first digit 324 places after the point. -/
theorem shiftLeft_le_pow : 1 <<< 1074 ≤ Nat.pow 10 324 := by decide +kernel

/-- The size of the last digit, counted from the place that is looked at first. -/
theorem unit_sub (c : ℕ) :
    unit ((c : ℤ) - 325) * 10 ^ 6 * (Nat.pow 10 324 : ℕ) = 10 ^ c * unitsOfOne := by
  have hpow : (10 : ℚ) ^ ((c : ℤ) - 325 - 5) * 10 ^ 6 * 10 ^ 324 = 10 ^ c := by
    rw [← zpow_natCast, ← zpow_natCast, ← zpow_natCast, ← zpow_add₀ (by norm_num),
      ← zpow_add₀ (by norm_num)]
    congr 1
    push_cast
    ring
  rw [unit, cast_pow_ten, ← hpow]
  ring

/-- **The power of ten of the first digit of a magnitude.** -/
theorem leadingPower_spec (hu : 0 < u) :
    10 ^ 5 * unit (leadingPower u) ≤ u ∧ (u : ℚ) < 10 ^ 6 * unit (leadingPower u) := by
  obtain ⟨hlow, hhigh⟩ := digitCount_div_spec (u := u) shiftLeft_pos
    (shiftLeft_le_pow.trans (Nat.le_mul_of_pos_left _ hu))
  unfold leadingPower
  have hunit := unit_sub (digitCount (u * Nat.pow 10 324 / 1 <<< 1074))
  set c := digitCount (u * Nat.pow 10 324 / 1 <<< 1074)
  have hA := cast_pow_ten_pos 324
  -- the powers of ten and of two are only compared through their ratio from here on
  have hlow' : 10 ^ c * unitsOfOne ≤ 10 * (u * (Nat.pow 10 324 : ℕ)) := by
    rw [← cast_one_shiftLeft]
    exact_mod_cast hlow
  have hhigh' : (u * (Nat.pow 10 324 : ℕ) : ℚ) < 10 ^ c * unitsOfOne := by
    rw [← cast_one_shiftLeft]
    exact_mod_cast hhigh
  rw [← hunit] at hlow' hhigh'
  constructor
  · refine le_of_mul_le_mul_right ?_ hA
    linarith
  · refine lt_of_mul_lt_mul_right ?_ hA.le
    linarith

/-- There is only one. -/
theorem leadingPower_eq (hlow : 10 ^ 5 * unit e ≤ u) (hhigh : (u : ℚ) < 10 ^ 6 * unit e) :
    leadingPower u = e := by
  have hu : 0 < u := by
    have : (0 : ℚ) < u := (mul_pos (by norm_num) (unit_pos e)).trans_le hlow
    exact_mod_cast this
  obtain ⟨hlow', hhigh'⟩ := leadingPower_spec hu
  rcases lt_trichotomy (leadingPower u) e with hlt | heq | hgt
  · linarith [ten_mul_unit_le hlt]
  · exact heq
  · linarith [ten_mul_unit_le hgt]

/-! ### All digits -/

/-- A magnitude is scaled by rounding a ratio. -/
theorem scaled_eq (u : ℕ) (e : ℤ) : ∃ num den : ℕ, 0 < den ∧
    scaled u (e - 5) = roundHalfEven num den ∧ (num / den : ℚ) = u / unit e := by
  unfold scaled unit
  split_ifs with hnonneg
  · have hden : 0 < Nat.pow 10 (e - 5).toNat := Nat.pow_pos (by norm_num)
    refine ⟨_, _, Nat.mul_pos shiftLeft_pos hden, rfl, ?_⟩
    rw [Nat.cast_mul, cast_one_shiftLeft, cast_pow_ten_toNat hnonneg, mul_comm unitsOfOne]
  · refine ⟨_, _, shiftLeft_pos, rfl, ?_⟩
    rw [Nat.cast_mul, cast_one_shiftLeft, cast_pow_ten_toNat (by omega), zpow_neg,
      ← div_eq_mul_inv, div_div]

/-- The digits are the nearest whole number of last digits. -/
theorem abs_scaled_sub_le (u : ℕ) (e : ℤ) : |(scaled u (e - 5) : ℚ) * unit e - u| ≤ unit e / 2 := by
  obtain ⟨num, den, hden, hscaled, hratio⟩ := scaled_eq u e
  have hnear := abs_roundHalfEven_sub_le num hden
  rw [← hscaled, hratio] at hnear
  have hunit := unit_pos e
  have hmul : (scaled u (e - 5) : ℚ) * unit e - u = (scaled u (e - 5) - u / unit e) * unit e := by
    field_simp
  rw [hmul, abs_mul, abs_of_pos hunit]
  linarith [mul_le_mul_of_nonneg_right hnear hunit.le]

theorem scaled_eq_of_lt (h : |(u : ℚ) - D * unit e| < unit e / 2) : scaled u (e - 5) = D := by
  obtain ⟨num, den, hden, hscaled, hratio⟩ := scaled_eq u e
  have hunit := unit_pos e
  rw [hscaled]
  apply roundHalfEven_eq hden
  rw [hratio]
  have hmul : (D : ℚ) - u / unit e = -((u - D * unit e) / unit e) := by
    field_simp
    ring
  rw [hmul, abs_neg, abs_div, abs_of_pos hunit, div_lt_iff₀ hunit]
  linarith

/-- A decimal of six digits is near to a magnitude: half of the last digit, and ten times as near
if it is a power of ten above the magnitude. -/
structure IsNear (d : SixDigits) (u : ℕ) : Prop where
  /-- There are six digits. -/
  six : 10 ^ 5 ≤ d.digits ∧ d.digits < 10 ^ 6
  /-- The magnitude is half of the last digit away at most. -/
  near : |(u : ℚ) - d.digits * unit d.exponent| ≤ unit d.exponent / 2
  /-- Decimals are ten times as dense below a power of ten. -/
  below : (u : ℚ) < d.digits * unit d.exponent → d.digits = 10 ^ 5 →
    d.digits * unit d.exponent - u ≤ unit d.exponent / 20

/-- A decimal of six digits, in units. -/
theorem IsNear.digits_mem {d : SixDigits} (h : d.IsNear u) :
    10 ^ 5 * unit d.exponent ≤ d.digits * unit d.exponent ∧
      (d.digits + 1) * unit d.exponent ≤ 10 ^ 6 * unit d.exponent := by
  have hge : (10 ^ 5 : ℚ) ≤ d.digits := by exact_mod_cast h.six.1
  have hle : (d.digits : ℚ) + 1 ≤ 10 ^ 6 := by exact_mod_cast h.six.2
  have hunit := (unit_pos d.exponent).le
  exact ⟨mul_le_mul_of_nonneg_right hge hunit, mul_le_mul_of_nonneg_right hle hunit⟩

/-- **The six-digit decimal of a magnitude is near to it.** -/
theorem isNear_ofUnits (hu : 0 < u) : (ofUnits u).IsNear u := by
  obtain ⟨hlow, hhigh⟩ := leadingPower_spec hu
  have hnear := abs_scaled_sub_le u (leadingPower u)
  have hunit := unit_pos (leadingPower u)
  unfold ofUnits
  dsimp only
  set p := leadingPower u
  set k := scaled u (p - 5)
  rw [abs_le] at hnear
  have hge : 10 ^ 5 ≤ k := by
    have : (10 ^ 5 : ℚ) * unit p < (k + 1) * unit p := by linarith
    have : (10 ^ 5 : ℚ) < k + 1 := lt_of_mul_lt_mul_right this hunit.le
    have : 10 ^ 5 < k + 1 := by exact_mod_cast this
    omega
  have hle : k ≤ 10 ^ 6 := by
    have : (k : ℚ) * unit p < (10 ^ 6 + 1) * unit p := by linarith
    have : (k : ℚ) < 10 ^ 6 + 1 := lt_of_mul_lt_mul_right this hunit.le
    have : k < 10 ^ 6 + 1 := by exact_mod_cast this
    omega
  split_ifs with hcarry
  · -- the digits are rounded up to a power of ten
    have hV : ((100000 : ℕ) : ℚ) * unit (p + 1) = k * unit p := by
      rw [unit_succ, hcarry]
      push_cast
      ring
    constructor
    · norm_num
    · dsimp only
      rw [hV, unit_succ, abs_sub_comm, abs_le]
      constructor <;> linarith
    · intro _ _
      dsimp only
      rw [hV, unit_succ]
      linarith
  · constructor
    · exact ⟨hge, by dsimp only; omega⟩
    · rw [abs_sub_comm, abs_le]
      exact hnear
    · -- a magnitude is not below the power of ten of its first digit
      intro hlt heq
      dsimp only at hlt heq
      rw [heq] at hlt
      push_cast at hlt
      linarith

/-- **A six-digit decimal that is near enough to a magnitude is its own.** -/
theorem ofUnits_eq (hD : 10 ^ 5 ≤ D ∧ D < 10 ^ 6) (hnear : |(v : ℚ) - D * unit e| < unit e / 2)
    (hbelow : (v : ℚ) < D * unit e → D = 10 ^ 5 → D * unit e - v < unit e / 20) :
    ofUnits v = ⟨D, e⟩ := by
  have hunit := unit_pos e
  obtain ⟨hlow, hhigh⟩ := abs_lt.mp hnear
  have hge : (10 ^ 5 : ℚ) ≤ D := by exact_mod_cast hD.1
  have hle : (D : ℚ) + 1 ≤ 10 ^ 6 := by exact_mod_cast hD.2
  have hmulge := mul_le_mul_of_nonneg_right hge hunit.le
  have hmulle := mul_le_mul_of_nonneg_right hle hunit.le
  unfold ofUnits
  dsimp only
  by_cases hpower : (10 ^ 5 : ℚ) * unit e ≤ v
  · -- the first digit has the same place
    rw [leadingPower_eq hpower (by linarith), scaled_eq_of_lt hnear, if_neg (by omega)]
  rw [not_le] at hpower
  -- the magnitude is just below the power of ten
  have hDeq : D = 10 ^ 5 := by
    by_contra hne
    have hgt : (10 ^ 5 : ℚ) + 1 ≤ D := by exact_mod_cast (show 10 ^ 5 + 1 ≤ D by omega)
    have := mul_le_mul_of_nonneg_right hgt hunit.le
    linarith
  have hclose := hbelow (hDeq ▸ by exact_mod_cast hpower) hDeq
  have hprev : unit e = 10 * unit (e - 1) := by rw [← unit_succ, sub_add_cancel]
  have hunit' := unit_pos (e - 1)
  have hcast : (D : ℚ) = 10 ^ 5 := by exact_mod_cast hDeq
  rw [hcast, hprev] at hclose
  rw [hprev] at hpower
  have hpower' : leadingPower v = e - 1 := leadingPower_eq (by linarith) (by linarith)
  have hdigits : scaled v (e - 1 - 5) = 1000000 := by
    apply scaled_eq_of_lt
    push_cast
    rw [abs_lt]
    constructor <;> linarith
  rw [hpower', hdigits, if_pos rfl, sub_add_cancel, hDeq]
  rfl

end SixDigits

end SharedValues
