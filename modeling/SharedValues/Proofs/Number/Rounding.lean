import Mathlib.Algebra.Order.Field.Rat
import Mathlib.Algebra.Order.Field.Power
import Mathlib.Data.Nat.Cast.Order.Field
import Mathlib.Tactic.FieldSimp
import Mathlib.Tactic.Linarith
import Mathlib.Tactic.NormNum
import Mathlib.Tactic.Positivity
import Mathlib.Tactic.Ring
import SharedValues.Number.Binary64

/-!
# How far rounding goes

A ratio that is rounded to a whole number moves by half a unit at most, and one that is rounded to a
double-precision number by half the distance of two such numbers: half a unit of `2 ^ -1074` if it
is small, and one part in `2 ^ 53` of itself otherwise.

## Main results

* `Number.abs_roundHalfEven_sub_le`, `Number.roundHalfEven_eq` — the nearest whole number.
* `Binary64.abs_unitsAt_placeOfUnits_sub_le` — the nearest magnitude is near.
* `Binary64.unitsAt_placeOfUnits_eq` — a small ratio is rounded to the nearest whole number of
  units.
* `Binary64.placeOfUnits_lt` — what is not too large is rounded to a magnitude of its size.
-/

namespace SharedValues

/-! ### Whole numbers -/

namespace Number

variable {num den k : ℕ}

/-- **A ratio is rounded by at most a half.** -/
theorem abs_roundHalfEven_sub_le (num : ℕ) (hden : 0 < den) :
    |(roundHalfEven num den : ℚ) - num / den| ≤ 1 / 2 := by
  have hden' : (0 : ℚ) < den := by exact_mod_cast hden
  have hle : (2 * (roundHalfEven num den * den) : ℚ) ≤ 2 * num + den := by
    exact_mod_cast two_mul_roundHalfEven_le num den
  have hge : (2 * num : ℚ) ≤ 2 * (roundHalfEven num den * den) + den := by
    exact_mod_cast le_two_mul_roundHalfEven num den hden
  have hscaled : ((roundHalfEven num den : ℚ) - num / den) * den =
      roundHalfEven num den * den - num := by
    field_simp
  rw [abs_le]
  constructor <;> refine le_of_mul_le_mul_right ?_ hden' <;> linarith

/-- The whole number that is less than a half away is the rounded one. -/
theorem roundHalfEven_eq (hden : 0 < den) (hk : |(k : ℚ) - num / den| < 1 / 2) :
    roundHalfEven num den = k := by
  have hnear := abs_roundHalfEven_sub_le num hden
  rw [abs_le] at hnear
  rw [abs_lt] at hk
  have hlt : (roundHalfEven num den : ℚ) < k + 1 := by linarith
  have hgt : (k : ℚ) < roundHalfEven num den + 1 := by linarith
  have hlt' : roundHalfEven num den < k + 1 := by exact_mod_cast hlt
  have hgt' : k < roundHalfEven num den + 1 := by exact_mod_cast hgt
  omega

/-- Whole bounds of a ratio are bounds of the rounded one. -/
theorem le_roundHalfEven (hden : 0 < den) (hk : k * den ≤ num) : k ≤ roundHalfEven num den := by
  have hdiv : k ≤ num / den := (Nat.le_div_iff_mul_le hden).mpr hk
  unfold roundHalfEven
  dsimp only
  split_ifs <;> omega

theorem roundHalfEven_le (hden : 0 < den) (hk : num ≤ k * den) : roundHalfEven num den ≤ k := by
  have hnear := two_mul_roundHalfEven_le num den
  by_contra hlt
  have hmul : (k + 1) * den ≤ roundHalfEven num den * den := Nat.mul_le_mul_right den (by omega)
  rw [Nat.add_mul] at hmul
  omega

end Number

/-! ### Magnitudes -/

namespace Binary64

open Number

variable {num den : ℕ}

/-- The number of binary digits that a ratio loses when it is rounded. -/
def droppedDigits (num den : ℕ) : ℕ :=
  if num / den < 1 <<< 53 then 0 else Nat.log2 (num / den) - 52

theorem placeOfUnits_eq (num den : ℕ) :
    placeOfUnits num den = droppedDigits num den * 2 ^ 52 +
      roundHalfEven num (den * 2 ^ droppedDigits num den) := by
  rw [← Nat.one_shiftLeft, ← Nat.shiftLeft_eq]
  rfl

/-- The magnitudes of one size are equally far from each other. -/
theorem unitsAt_eq {k r : ℕ} (hlow : k ≠ 0 → 2 ^ 52 ≤ r) (hhigh : r ≤ 2 ^ 53) :
    unitsAt (k * 2 ^ 52 + r) = r * 2 ^ k := by
  unfold unitsAt
  simp only [Nat.shiftLeft_eq, Nat.one_mul]
  rcases Nat.lt_or_ge r (2 ^ 52) with hr | hr
  · -- there is no power of two to be written
    obtain rfl : k = 0 := by
      by_contra hk
      exact absurd (hlow hk) (by omega)
    rw [if_pos (by omega)]
    omega
  rw [if_neg (by omega)]
  rcases Nat.lt_or_ge r (2 ^ 53) with hlt | hge
  · have hdiv : (k * 2 ^ 52 + r) / 2 ^ 52 - 1 = k := by omega
    have hmod : 2 ^ 52 + (k * 2 ^ 52 + r) % 2 ^ 52 = r := by omega
    rw [hdiv, hmod]
  · -- the next power of two
    obtain rfl : r = 2 ^ 53 := by omega
    have hdiv : (k * 2 ^ 52 + 2 ^ 53) / 2 ^ 52 - 1 = k + 1 := by omega
    have hmod : 2 ^ 52 + (k * 2 ^ 52 + 2 ^ 53) % 2 ^ 52 = 2 ^ 52 := by omega
    rw [hdiv, hmod, Nat.pow_succ]
    ring

/-- No digit of a small ratio is lost, and what is lost of a large one leaves 53 digits. -/
theorem droppedDigits_spec (num den : ℕ) :
    droppedDigits num den = 0 ∧ num / den < 2 ^ 53 ∨
      2 ^ (52 + droppedDigits num den) ≤ num / den ∧
        num / den < 2 ^ (53 + droppedDigits num den) := by
  unfold droppedDigits
  rw [Nat.one_shiftLeft]
  split_ifs with hsmall
  · exact .inl ⟨rfl, hsmall⟩
  right
  have hpos : num / den ≠ 0 := by omega
  have hlog : 53 ≤ (num / den).log2 := (Nat.le_log2 hpos).mpr (by omega)
  constructor
  · rw [show 52 + ((num / den).log2 - 52) = (num / den).log2 by omega]
    exact Nat.log2_self_le hpos
  · rw [show 53 + ((num / den).log2 - 52) = (num / den).log2 + 1 by omega]
    exact Nat.lt_log2_self

/-- A rounded ratio has 53 binary digits at most, and no fewer if some were lost. -/
theorem roundHalfEven_mem (num : ℕ) (hden : 0 < den) :
    (droppedDigits num den ≠ 0 → 2 ^ 52 ≤ roundHalfEven num (den * 2 ^ droppedDigits num den)) ∧
      roundHalfEven num (den * 2 ^ droppedDigits num den) ≤ 2 ^ 53 := by
  have hpos : 0 < den * 2 ^ droppedDigits num den := by positivity
  have hle : ∀ {k}, num / den < 2 ^ k → num ≤ 2 ^ k * den := fun h =>
    ((Nat.div_lt_iff_lt_mul hden).mp h).le
  -- either no digit is dropped, or what is left has 53 of them
  rcases droppedDigits_spec num den with ⟨hzero, hsmall⟩ | ⟨hlow, hhigh⟩
  · refine ⟨fun h => absurd hzero h, roundHalfEven_le hpos ?_⟩
    rw [hzero, Nat.pow_zero, Nat.mul_one]
    exact hle hsmall
  · refine ⟨fun _ => le_roundHalfEven hpos ?_, roundHalfEven_le hpos ?_⟩
    · calc 2 ^ 52 * (den * 2 ^ droppedDigits num den)
          = 2 ^ (52 + droppedDigits num den) * den := by ring
        _ ≤ num / den * den := Nat.mul_le_mul_right den hlow
        _ ≤ num := Nat.div_mul_le_self num den
    · calc num ≤ 2 ^ (53 + droppedDigits num den) * den := hle hhigh
        _ = 2 ^ 53 * (den * 2 ^ droppedDigits num den) := by ring

/-- The magnitude that a ratio is rounded to. -/
theorem unitsAt_placeOfUnits (num : ℕ) (hden : 0 < den) :
    unitsAt (placeOfUnits num den) =
      roundHalfEven num (den * 2 ^ droppedDigits num den) * 2 ^ droppedDigits num den := by
  obtain ⟨hlow, hhigh⟩ := roundHalfEven_mem num hden
  rw [placeOfUnits_eq, unitsAt_eq hlow hhigh]

/-- **A small ratio is rounded to the nearest whole number of units.** -/
theorem unitsAt_placeOfUnits_eq {k : ℕ} (hden : 0 < den) (hsmall : num / den < 2 ^ 53)
    (hk : |(k : ℚ) - num / den| < 1 / 2) : unitsAt (placeOfUnits num den) = k := by
  have hzero : droppedDigits num den = 0 := by
    unfold droppedDigits
    rw [Nat.one_shiftLeft, if_pos hsmall]
  rw [unitsAt_placeOfUnits num hden, hzero, Nat.pow_zero, Nat.mul_one, Nat.mul_one,
    roundHalfEven_eq hden hk]

/-- **A ratio is rounded by half a unit or by one part in `2 ^ 53` at most.** -/
theorem abs_unitsAt_placeOfUnits_sub_le (num : ℕ) (hden : 0 < den) :
    |(unitsAt (placeOfUnits num den) : ℚ) - num / den| ≤
      max (1 / 2) ((num / den : ℚ) / 2 ^ 53) := by
  set k := droppedDigits num den with hk
  have hpow : (0 : ℚ) < 2 ^ k := by positivity
  have hden' : (0 : ℚ) < den := by exact_mod_cast hden
  -- the rounded ratio is the one of the digits that are kept, which is off by a half at most
  have hkeptDen : 0 < den * 2 ^ k := by positivity
  have hkept := abs_roundHalfEven_sub_le num hkeptDen
  have hscaled : (unitsAt (placeOfUnits num den) : ℚ) - num / den =
      2 ^ k * (roundHalfEven num (den * 2 ^ k) - num / (den * 2 ^ k : ℕ)) := by
    rw [unitsAt_placeOfUnits num hden, ← hk]
    push_cast
    field_simp
  have hhalf : |(unitsAt (placeOfUnits num den) : ℚ) - num / den| ≤ 2 ^ k / 2 := by
    rw [hscaled, abs_mul, abs_of_pos hpow]
    linarith [mul_le_mul_of_nonneg_left hkept hpow.le]
  refine hhalf.trans ?_
  rcases droppedDigits_spec num den with ⟨hzero, -⟩ | ⟨hlow, -⟩
  · rw [← hk] at hzero
    rw [hzero]
    exact le_max_of_le_left (by norm_num)
  · refine le_max_of_le_right ?_
    have hfloor : ((2 ^ (52 + k) : ℕ) : ℚ) ≤ num / den := by
      refine le_trans ?_ (Nat.cast_div_le (α := ℚ))
      exact_mod_cast hlow
    push_cast at hfloor
    rw [pow_add] at hfloor
    rw [le_div_iff₀ (by positivity)]
    linarith

/-- **What does not exceed the largest magnitude of a size** is rounded to a magnitude of that size
or of a smaller one. -/
theorem placeOfUnits_lt {k : ℕ} (hden : 0 < den) (hnum : num ≤ (2 ^ 53 - 1) * 2 ^ k * den) :
    placeOfUnits num den < (k + 2) * 2 ^ 52 := by
  obtain ⟨-, hhigh⟩ := roundHalfEven_mem num hden
  rw [placeOfUnits_eq]
  have hdropped : droppedDigits num den ≤ k := by
    rcases droppedDigits_spec num den with ⟨hzero, -⟩ | ⟨hlow, -⟩
    · omega
    · have hdiv : num / den < 2 ^ (53 + k) := by
        rw [Nat.div_lt_iff_lt_mul hden]
        refine hnum.trans_lt (Nat.mul_lt_mul_of_pos_right ?_ hden)
        rw [Nat.pow_add]
        exact Nat.mul_lt_mul_of_pos_right (by norm_num) (by positivity)
      have := (Nat.pow_lt_pow_iff_right (by norm_num : 1 < 2)).mp (hlow.trans_lt hdiv)
      omega
  rcases Nat.lt_or_ge (droppedDigits num den) k with hlt | hge
  · omega
  · -- the largest of these sizes
    have heq : droppedDigits num den = k := by omega
    have hround : roundHalfEven num (den * 2 ^ k) ≤ 2 ^ 53 - 1 :=
      roundHalfEven_le (by positivity) (hnum.trans_eq (by ring))
    rw [heq]
    omega

end Binary64

end SharedValues
