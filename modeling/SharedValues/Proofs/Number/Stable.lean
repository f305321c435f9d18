import SharedValues.Proofs.Number.Spelling

/-!
# Reading a number that was written

The text of a finite number spells a number with the same text, with one exception.  The distance of
the text from the number read is half a unit of `2 ^ -1074` or one part in `2 ^ 53`, whichever is
more.  A six-digit decimal whose last digit is smaller than a unit was written for the very number
that is read, and one whose last digit is larger than ten units is near enough to be written again.
In between there is `1e-318`, whose last digit is two units: the number nearest to it is less, where
decimals are ten times as dense, and not near enough.

## Main results

* `SixDigits.IsNear.ofUnits_placeOfUnits` — the magnitude nearest to a decimal that was written is
  written in the same way, with one exception.
* `Word.formatNumber_stable_iff` — the text of a finite number is stable, with one exception.
* `Word.formatNumber_not_stable` — the exception.
-/

namespace SharedValues

/-! ### Finite magnitudes -/

namespace Binary64

variable {place k : ℕ}

theorem unitsAt_pos (hplace : place ≠ 0) : 0 < unitsAt place := by
  unfold unitsAt
  split_ifs
  · omega
  · rw [Nat.shiftLeft_eq]
    exact Nat.mul_pos (by omega) (Nat.two_pow_pos _)

/-- The first magnitudes are one unit apart. -/
theorem eq_of_unitsAt (h : unitsAt place = k) (hk : k < 2 ^ 52) : place = k := by
  unfold unitsAt at h
  simp only [Nat.shiftLeft_eq, Nat.one_mul] at h
  split_ifs at h with hsmall
  · exact h
  · have := Nat.le_mul_of_pos_right (2 ^ 52 + place % 2 ^ 52)
      (Nat.two_pow_pos (place / 2 ^ 52 - 1))
    omega

/-- No magnitude of a size exceeds the largest one of it. -/
theorem unitsAt_le (hplace : place < (k + 2) * 2 ^ 52) :
    unitsAt place ≤ (2 ^ 53 - 1) * 2 ^ k := by
  unfold unitsAt
  simp only [Nat.shiftLeft_eq, Nat.one_mul]
  split_ifs with hsmall
  · calc place ≤ (2 ^ 53 - 1) * 1 := by omega
      _ ≤ (2 ^ 53 - 1) * 2 ^ k := Nat.mul_le_mul_left _ Nat.one_le_two_pow
  · exact Nat.mul_le_mul (by omega) (Nat.pow_le_pow_right (by norm_num) (by omega))

/-- The largest finite magnitude, in units of `2 ^ -1074`. -/
def largestUnits : ℕ := (2 ^ 53 - 1) * 2 ^ 2045

end Binary64

/-! ### The number that a numeral stands for -/

namespace Numeral

open Binary64 SixDigits

variable {n : Numeral} {e : ℤ}

/-- The size of a numeral is the power of ten of its first digit, and one. -/
theorem size_eq (hlow : 10 ^ e ≤ n.magnitude) (hhigh : n.magnitude < 10 ^ (e + 1)) :
    digitCount n.digits + n.scale = e + 1 := by
  have hscale : (0 : ℚ) < 10 ^ n.scale := zpow_pos (by norm_num) _
  have hdigits : 0 < n.digits := by
    have hpos : (0 : ℚ) < n.digits * 10 ^ n.scale := (zpow_pos (by norm_num) _).trans_le hlow
    exact_mod_cast (mul_pos_iff_of_pos_right hscale).mp hpos
  -- the last digit counted and the places behind it make up the whole size
  have hpow : (10 : ℚ) ^ ((digitCount n.digits : ℤ) + n.scale) =
      (10 ^ digitCount n.digits : ℕ) * 10 ^ n.scale := by
    rw [zpow_add₀ (by norm_num), zpow_natCast, Nat.cast_pow, Nat.cast_ofNat]
  have hbelow : n.magnitude < 10 ^ ((digitCount n.digits : ℤ) + n.scale) := by
    rw [hpow]
    exact mul_lt_mul_of_pos_right (by exact_mod_cast lt_pow_digitCount n.digits) hscale
  have habove : (10 : ℚ) ^ ((digitCount n.digits : ℤ) + n.scale) ≤ 10 * n.magnitude := by
    rw [hpow, magnitude, ← mul_assoc]
    exact mul_le_mul_of_nonneg_right (by exact_mod_cast pow_digitCount_le hdigits) hscale.le
  -- so the two powers of ten are next to each other
  have hlt := hlow.trans_lt hbelow
  have hgt : (10 : ℚ) ^ ((digitCount n.digits : ℤ) + n.scale) < 10 ^ (e + 1 + 1) := by
    rw [zpow_add_one₀ (by norm_num) (e + 1)]
    linarith
  rw [zpow_lt_zpow_iff_right₀ (by norm_num)] at hlt hgt
  omega

/-- A numeral of moderate size is rounded as a ratio. -/
theorem value_eq (hdigits : n.digits ≠ 0) (hlow : -330 ≤ digitCount n.digits + n.scale)
    (hhigh : digitCount n.digits + n.scale ≤ 310) : ∃ num den : ℕ, 0 < den ∧
      (num / den : ℚ) = n.magnitude * unitsOfOne ∧
      n.value = ofPlace n.negative (placeOfUnits num den) := by
  unfold value
  dsimp only
  rw [if_neg (by omega), if_neg (by omega)]
  split_ifs with hnonneg
  · refine ⟨_, 1, Nat.one_pos, ?_, rfl⟩
    rw [cast_shiftLeft, Nat.cast_mul, cast_pow_ten_toNat hnonneg, Nat.cast_one, div_one, magnitude]
  · have hden : 0 < Nat.pow 10 (-n.scale).toNat := Nat.pow_pos (by norm_num)
    refine ⟨_, _, hden, ?_, rfl⟩
    rw [cast_shiftLeft, cast_pow_ten_toNat (by omega), zpow_neg, div_inv_eq_mul, magnitude]
    ring

end Numeral

/-! ### How large the last digit is -/

namespace SixDigits

open Binary64 Number

variable {u num den k a b : ℕ} {e : ℤ} {d : SixDigits}

/-- A last digit after the point is a unit over a power of ten, so that it is compared with units
through whole numbers. -/
theorem unit_mul_pow (he : e + k = 5) : unit e * (Nat.pow 10 k : ℕ) = unitsOfOne := by
  rw [unit, cast_pow_ten, ← zpow_natCast, mul_right_comm, ← zpow_add₀ (by norm_num),
    show e - 5 + k = 0 by omega, zpow_zero, one_mul]

theorem lt_unit (he : e + k = 5) (h : a * Nat.pow 10 k < b * 1 <<< 1074) :
    (a : ℚ) < b * unit e := by
  refine lt_of_mul_lt_mul_right ?_ (cast_pow_ten_pos k).le
  rw [mul_assoc, unit_mul_pow he, ← cast_one_shiftLeft]
  exact_mod_cast h

theorem unit_lt (he : e + k = 5) (h : b * 1 <<< 1074 < a * Nat.pow 10 k) :
    b * unit e < (a : ℚ) := by
  refine lt_of_mul_lt_mul_right ?_ (cast_pow_ten_pos k).le
  rw [mul_assoc, unit_mul_pow he, ← cast_one_shiftLeft]
  exact_mod_cast h

/-- The powers of ten near to the least number, to `1e-318` and to the largest number. -/
theorem powers_spec :
    (10 ^ 6 * 1 <<< 1074 < 1 * Nat.pow 10 330 ∧ 1 * 1 <<< 1074 < 1 * Nat.pow 10 324) ∧
      (20240225 * Nat.pow 10 323 < 10 ^ 7 * 1 <<< 1074 ∧
        10 ^ 7 * 1 <<< 1074 < 20240226 * Nat.pow 10 323) ∧
      largestUnits = (2 ^ 53 - 1) <<< 971 * 1 <<< 1074 ∧
      179769 * Nat.pow 10 303 ≤ (2 ^ 53 - 1) <<< 971 ∧
      2 * (2 ^ 53 - 1) <<< 971 < 359539 * Nat.pow 10 303 := by
  decide +kernel

/-- The least number has its first digit 324 places after the point. -/
theorem million_mul_unit_lt : 10 ^ 6 * unit (-325) < 1 := by
  exact_mod_cast unit_lt (e := -325) (k := 330) rfl powers_spec.1.1

/-- Below `1e-318`, the last digit is smaller than a unit. -/
theorem unit_lt_one : unit (-319) < 1 := by
  simpa using unit_lt (e := -319) (k := 324) rfl powers_spec.1.2

/-- From `1e-318` on, the last digit is larger than two units. -/
theorem unit_spec : 20240225 < 10 ^ 7 * unit (-318) ∧ 10 ^ 7 * unit (-318) < 20240226 := by
  obtain ⟨-, ⟨hlow, hhigh⟩, -⟩ := powers_spec
  constructor
  · exact_mod_cast lt_unit (e := -318) (k := 323) rfl hlow
  · exact_mod_cast unit_lt (e := -318) (k := 323) rfl hhigh

/-- The largest number is written `1.79769e+308`, which is rounded down. -/
theorem largestUnits_spec :
    179769 * unit 308 ≤ largestUnits ∧ 2 * largestUnits < 359539 * unit 308 := by
  obtain ⟨-, -, heq, hbelow, habove⟩ := powers_spec
  have hunit : unit 308 = (Nat.pow 10 303 : ℕ) * unitsOfOne := by
    rw [unit, cast_pow_ten, ← zpow_natCast]
    rfl
  have hlargest : (largestUnits : ℚ) = ((2 ^ 53 - 1) <<< 971 : ℕ) * unitsOfOne := by
    rw [heq, Nat.cast_mul, cast_one_shiftLeft]
  rw [hunit, hlargest, ← mul_assoc, ← mul_assoc, ← mul_assoc]
  constructor
  · refine mul_le_mul_of_nonneg_right ?_ unitsOfOne_pos.le
    exact_mod_cast hbelow
  · refine mul_lt_mul_of_pos_right ?_ unitsOfOne_pos
    exact_mod_cast habove

/-- The decimals of finite numbers are of moderate size. -/
theorem IsNear.exponent_mem (h : d.IsNear u) (hu : 0 < u) (hlargest : u ≤ largestUnits) :
    -324 ≤ d.exponent ∧ d.exponent ≤ 308 ∧ d.digits * unit d.exponent ≤ largestUnits := by
  have hunit := unit_pos d.exponent
  obtain ⟨hge, hle⟩ := h.digits_mem
  have hu' : (1 : ℚ) ≤ u := by exact_mod_cast hu
  have hlargest' : (u : ℚ) ≤ largestUnits := by exact_mod_cast hlargest
  obtain ⟨hbelow, habove⟩ := largestUnits_spec
  have h308 := unit_pos 308
  obtain ⟨hlow, hhigh⟩ := abs_le.mp h.near
  -- a smaller exponent would be below the smallest number
  have hlower : -324 ≤ d.exponent := by
    by_contra hlt
    have hmono : unit d.exponent ≤ unit (-325) := unit_le_unit (by omega)
    linarith [million_mul_unit_lt]
  -- above the largest power the six digits are those of the largest number or fewer
  rcases lt_trichotomy d.exponent 308 with hlt | heq | hgt
  · exact ⟨hlower, hlt.le, by linarith [ten_mul_unit_le hlt]⟩
  · refine ⟨hlower, heq.le, ?_⟩
    rw [heq] at hlow ⊢
    have hdigits : (d.digits : ℚ) * unit 308 < 179770 * unit 308 := by linarith
    have hdigits' : (d.digits : ℚ) < 179770 := lt_of_mul_lt_mul_right hdigits h308.le
    have hdigits'' : d.digits + 1 ≤ 179770 := by exact_mod_cast hdigits'
    refine le_trans (mul_le_mul_of_nonneg_right ?_ h308.le) hbelow
    exact_mod_cast (show d.digits ≤ 179769 by omega)
  · linarith [ten_mul_unit_le hgt]

/-- Where the last digit is smaller than a unit, a decimal was written for the magnitude nearest to
it. -/
theorem IsNear.unitsAt_placeOfUnits (h : d.IsNear u) (hunit : unit d.exponent < 1) (hden : 0 < den)
    (hratio : (num / den : ℚ) = d.digits * unit d.exponent) :
    unitsAt (placeOfUnits num den) = u := by
  have hden' : (0 : ℚ) < den := by exact_mod_cast hden
  have hlt : (d.digits : ℚ) * unit d.exponent ≤ d.digits :=
    mul_le_of_le_one_right (Nat.cast_nonneg d.digits) hunit.le
  apply unitsAt_placeOfUnits_eq hden
  -- fewer than sixteen digits in front of the point are read without rounding
  · have hnum : (num : ℚ) ≤ d.digits * den := by
      rw [← div_le_iff₀ hden', hratio]
      exact hlt
    have hnum' : num ≤ d.digits * den := by exact_mod_cast hnum
    have hsix := h.six.2
    calc num / den ≤ d.digits * den / den := Nat.div_le_div_right hnum'
      _ = d.digits := Nat.mul_div_cancel d.digits hden
      _ < 2 ^ 53 := by omega
  · rw [hratio]
    linarith [h.near]

/-- There is a single magnitude that is written as a power of ten whose last digit is two units. -/
theorem IsNear.eq_of_power (h : d.IsNear u) (hexponent : d.exponent = -318)
    (hdigits : d.digits = 10 ^ 5) : u = 202403 := by
  have hcast : (d.digits : ℚ) = 10 ^ 5 := by exact_mod_cast hdigits
  have hnear := h.near
  have hbelow := fun hlt => h.below hlt hdigits
  obtain ⟨hlow, hhigh⟩ := unit_spec
  rw [hcast, hexponent] at hnear hbelow
  obtain ⟨hfrom, hto⟩ := abs_le.mp hnear
  have hupper : (u : ℚ) < 202404 := by linarith
  have hlower : (202402 : ℚ) < u := by
    by_contra hle
    linarith [hbelow (by linarith)]
  have hupper' : u < 202404 := by exact_mod_cast hupper
  have hlower' : 202402 < u := by exact_mod_cast hlower
  omega

/-- A decimal is rounded by less than what exceeds half a unit and the twentieth part of the last
digit. -/
theorem IsNear.abs_unitsAt_sub_lt (h : d.IsNear u) (δ : ℚ) (hden : 0 < den)
    (hratio : (num / den : ℚ) = d.digits * unit d.exponent) (hhalf : 1 / 2 < δ)
    (hunit : unit d.exponent / 20 ≤ δ) :
    |(unitsAt (placeOfUnits num den) : ℚ) - d.digits * unit d.exponent| < δ := by
  have hpos := unit_pos d.exponent
  have hle := h.digits_mem.2
  rw [add_mul, ← hratio] at hle
  rw [← hratio]
  refine (abs_unitsAt_placeOfUnits_sub_le num hden).trans_lt (max_lt hhalf ?_)
  rw [div_lt_iff₀ (by norm_num)]
  linarith

/-- **The magnitude nearest to a decimal that was written is written in the same way**, unless the
decimal is `1e-318`. -/
theorem IsNear.ofUnits_placeOfUnits (h : d.IsNear u) (hu : 0 < u) (hne : u ≠ 202403)
    (hden : 0 < den) (hratio : (num / den : ℚ) = d.digits * unit d.exponent)
    (hd : ofUnits u = d) :
    0 < unitsAt (placeOfUnits num den) ∧ ofUnits (unitsAt (placeOfUnits num den)) = d := by
  obtain ⟨htwo, -⟩ := unit_spec
  rcases lt_or_ge d.exponent (-318) with hsmall | hlarge
  · -- the decimal was written for the number that is read
    have hmono : unit d.exponent ≤ unit (-319) := unit_le_unit (by omega)
    have hunit := hmono.trans_lt unit_lt_one
    rw [h.unitsAt_placeOfUnits hunit hden hratio]
    exact ⟨hu, hd⟩
  have hunit : 2 < unit d.exponent := by linarith [unit_le_unit hlarge]
  have hmoved := h.abs_unitsAt_sub_lt (unit d.exponent / 2) hden hratio (by linarith) (by linarith)
  constructor
  · have hpos : (0 : ℚ) < unitsAt (placeOfUnits num den) := by
      linarith [(abs_lt.mp hmoved).1, h.digits_mem.1]
    exact_mod_cast hpos
  refine ofUnits_eq h.six hmoved fun _ hpower => ?_
  rcases hlarge.eq_or_lt with heq | hgt
  · exact absurd (h.eq_of_power heq.symm hpower) hne
  · -- the last digit is twenty units or more
    have hten := ten_mul_unit_le hgt
    have hmoved' := h.abs_unitsAt_sub_lt (unit d.exponent / 20) hden hratio (by linarith) le_rfl
    linarith [(abs_lt.mp hmoved').1]

/-- What a decimal stands for is between two powers of ten. -/
theorem IsNear.magnitude_mem (h : d.IsNear u) :
    10 ^ d.exponent ≤ d.magnitude ∧ d.magnitude < 10 ^ (d.exponent + 1) := by
  have hpow : (0 : ℚ) < 10 ^ (d.exponent - 5) := zpow_pos (by norm_num) _
  have hge : (10 ^ 5 : ℚ) ≤ d.digits := by exact_mod_cast h.six.1
  have hlt : (d.digits : ℚ) < 10 ^ 6 := by exact_mod_cast h.six.2
  have hscale : ∀ k : ℕ, (10 : ℚ) ^ k * 10 ^ (d.exponent - 5) = 10 ^ (d.exponent - 5 + k) := by
    intro k
    rw [zpow_add₀ (by norm_num), zpow_natCast, mul_comm]
  have hfive := hscale 5
  have hsix := hscale 6
  rw [show d.exponent - 5 + (5 : ℕ) = d.exponent by push_cast; ring] at hfive
  rw [show d.exponent - 5 + (6 : ℕ) = d.exponent + 1 by push_cast; ring] at hsix
  rw [magnitude, ← hfive, ← hsix]
  exact ⟨mul_le_mul_of_nonneg_right hge hpow.le, mul_lt_mul_of_pos_right hlt hpow⟩

end SixDigits

/-! ### Numbers -/

open Binary64 Numeral SixDigits

variable {x : Binary64}

/-- The numeral of a decimal that was written stands for a finite number, the one nearest to the
decimal. -/
theorem value_of_isNear {n : Numeral} {d : SixDigits} {u : ℕ} (h : d.IsNear u) (hu : 0 < u)
    (hlargest : u ≤ largestUnits) (hn : n.magnitude = d.magnitude) : ∃ num den : ℕ, 0 < den ∧
      (num / den : ℚ) = d.digits * unit d.exponent ∧ placeOfUnits num den < infinitePlace ∧
      n.value.negative = n.negative ∧ n.value.place.val = placeOfUnits num den := by
  obtain ⟨hlow, hhigh, hlimit⟩ := h.exponent_mem hu hlargest
  obtain ⟨hfrom, hto⟩ := h.magnitude_mem
  rw [← hn] at hfrom hto
  have hsize := size_eq hfrom hto
  -- a numeral for zero has no size
  have hdigits : n.digits ≠ 0 := by
    intro hzero
    have hpos : (0 : ℚ) < n.magnitude := (zpow_pos (by norm_num) _).trans_le hfrom
    simp [Numeral.magnitude, hzero] at hpos
  obtain ⟨num, den, hden, hratio, hvalue⟩ := value_eq hdigits (by omega) (by omega)
  rw [hn, SixDigits.magnitude, mul_assoc] at hratio
  have hden' : (0 : ℚ) < den := by exact_mod_cast hden
  -- the decimal is read as no more than the largest number
  have hplace : placeOfUnits num den < infinitePlace := by
    refine placeOfUnits_lt (k := 2045) hden ?_
    have hle : (num : ℚ) ≤ largestUnits * den := (div_le_iff₀ hden').mp (hratio ▸ hlimit)
    exact_mod_cast hle
  refine ⟨num, den, hden, hratio, hplace, ?_⟩
  rw [hvalue]
  exact ⟨rfl, min_eq_left hplace.le⟩

/-- The text of a finite number other than `1e-318` spells a number with the same text. -/
theorem number?_formatNumber_eq (hfinite : x.place.val < infinitePlace) (hzero : x.place.val ≠ 0)
    (hne : x.place.val ≠ 202403) :
    ∃ y, number? (Text.revealAll (formatNumber x)) = some y ∧ formatNumber y = formatNumber x := by
  have hu : 0 < x.units := unitsAt_pos hzero
  have hlargest : x.units ≤ largestUnits := unitsAt_le (k := 2045) hfinite
  have hunits : x.units ≠ 202403 := fun h => hne (eq_of_unitsAt h (by norm_num))
  -- the six digits are near the number, so what they are read as is written with them again
  have hnear := isNear_ofUnits hu
  obtain ⟨n, hnumber, hsign, hmagnitude⟩ := number?_formatNumber hfinite hzero hu
  obtain ⟨num, den, hden, hratio, hlimit, hnegative, hplace⟩ :=
    value_of_isNear hnear hu hlargest hmagnitude
  obtain ⟨hpos, hsame⟩ := hnear.ofUnits_placeOfUnits hu hunits hden hratio rfl
  have hnonzero : placeOfUnits num den ≠ 0 := by
    intro h
    simp [h, unitsAt] at hpos
  refine ⟨n.value, hnumber, ?_⟩
  rw [formatNumber_eq (by rwa [hplace]) (by rwa [hplace]), formatNumber_eq hfinite hzero,
    hnegative, hsign, Binary64.units, hplace, hsame]

/-- The text `1e-318` spells the number before the one it was written for, which has another
text. -/
theorem number?_formatNumber_ne (negative : Bool) :
    number? (Text.revealAll (formatNumber ⟨negative, 202403⟩)) = some ⟨negative, 202402⟩ ∧
      formatNumber ⟨negative, 202402⟩ ≠ formatNumber ⟨negative, 202403⟩ := by
  revert negative
  decide +kernel

namespace Word

/-- **The text of a finite number spells a number with the same text**, but for the two numbers of
magnitude `202403 * 2 ^ -1074`, whose text is `1e-318`, the sign aside. -/
theorem formatNumber_stable_iff (special : Bool) (hnan : x.isNaN = false)
    (hinfinite : x.isInfinite = false) :
    (text (formatNumber x) special).number?.isSome = true ∧
      (formatNumber (text (formatNumber x) special).value = formatNumber x ↔
        x.place.val ≠ 202403) := by
  have hfinite : x.place.val < infinitePlace := by
    have hle := of_decide_eq_false hnan
    have hne := beq_eq_false_iff_ne.mp hinfinite
    omega
  -- zero and the one exception are looked at by themselves
  rw [value, number?]
  by_cases hzero : x.place.val = 0
  · obtain ⟨negative, place, hplace⟩ := x
    obtain rfl : place = 0 := hzero
    have hread := number?_formatNumber_zero negative
    exact hread ▸ ⟨rfl, by simp⟩
  by_cases hdent : x.place.val = 202403
  · obtain ⟨negative, place, hplace⟩ := x
    obtain rfl : place = 202403 := hdent
    obtain ⟨hread, hother⟩ := number?_formatNumber_ne negative
    exact hread ▸ ⟨rfl, by simpa using hother⟩
  · obtain ⟨y, hread, hsame⟩ := number?_formatNumber_eq hfinite hzero hdent
    rw [hread]
    exact ⟨rfl, by simp [hsame, hdent]⟩

/-- The text of a third spells a number that is less, and has the same text. -/
theorem formatNumber_third :
    let x := ofRatio false 1 3
    let w := text (formatNumber x) false
    x.isNaN = false ∧ x.isInfinite = false ∧ w.value ≠ x ∧
      formatNumber w.value = formatNumber x := by
  intro x w
  have hx : x.isNaN = false ∧ x.isInfinite = false ∧ w.value ≠ x ∧ x.place.val ≠ 202403 := by
    decide +kernel
  obtain ⟨hnan, hinfinite, hother, hdent⟩ := hx
  exact ⟨hnan, hinfinite, hother, (formatNumber_stable_iff false hnan hinfinite).2.mpr hdent⟩

/-- **The text of a finite number is not always stable**: the text `1e-318` spells another number,
whose text is `9.99999e-319`. -/
theorem formatNumber_not_stable :
    let x : Binary64 := ⟨false, 202403⟩
    let w := text (formatNumber x) false
    x.isNaN = false ∧ x.isInfinite = false ∧ formatNumber x = "1e-318" ∧
      formatNumber w.value = "9.99999e-319" ∧ formatNumber w.value ≠ formatNumber x := by
  decide +kernel

end Word

end SharedValues
