import SharedValues.Proofs.Number.Nearest
import SharedValues.Proofs.Number.Stable

/-!
# Reading in order what was written in order

Rounding keeps the order of ratios, both to whole numbers and to double-precision numbers, and so
does writing a magnitude with six digits.  A finite number is therefore read again as a finite
number of its sign, and of two finite numbers the smaller one is not read as the larger one.

## Main results

* `Number.roundHalfEven_mono`, `Binary64.placeOfUnits_mono`, `Binary64.unitsAt_mono` — rounding
  keeps the order.
* `Word.formatNumber_recognised` — **the text of a number converts exactly if the number is
  finite**, and conversion keeps sign and order.
-/

namespace SharedValues

/-! ### Rounding to whole numbers -/

namespace Number

variable {num den num' den' : ℕ}

/-- A ratio may be expanded before it is rounded. -/
theorem roundHalfEven_mul {c : ℕ} (num den : ℕ) (hc : 0 < c) :
    roundHalfEven (num * c) (den * c) = roundHalfEven num den := by
  have hbelow : 2 * (num % den * c) < den * c ↔ 2 * (num % den) < den := by
    rw [← mul_assoc, Nat.mul_lt_mul_right hc]
  have habove : den * c < 2 * (num % den * c) ↔ den < 2 * (num % den) := by
    rw [← mul_assoc, Nat.mul_lt_mul_right hc]
  unfold roundHalfEven
  simp only [Nat.mul_div_mul_right _ _ hc, Nat.mul_mod_mul_right, hbelow, habove]

/-- Equal ratios are rounded alike. -/
theorem roundHalfEven_congr (hden : 0 < den) (hden' : 0 < den') (h : num * den' = num' * den) :
    roundHalfEven num den = roundHalfEven num' den' :=
  calc roundHalfEven num den = roundHalfEven (num * den') (den * den') :=
        (roundHalfEven_mul num den hden').symm
    _ = roundHalfEven (num' * den) (den' * den) := by rw [h, Nat.mul_comm den]
    _ = roundHalfEven num' den' := roundHalfEven_mul num' den' hden

/-- **The larger ratio is not rounded to less.** -/
theorem roundHalfEven_mono (hden : 0 < den) (hden' : 0 < den') (h : num * den' ≤ num' * den) :
    roundHalfEven num den ≤ roundHalfEven num' den' := by
  by_contra hlt
  have hr : roundHalfEven num' den' + 1 ≤ roundHalfEven num den := by omega
  have hhigh := Nat.mul_le_mul_right den' (two_mul_roundHalfEven_le num den)
  have hlow := Nat.mul_le_mul_right den (le_two_mul_roundHalfEven num' den' hden')
  have hstep := Nat.mul_le_mul_right (den * den') hr
  -- both are exactly in the middle, so that they are equal
  have heq : num * den' = num' * den := by linarith
  exact hlt (roundHalfEven_congr hden hden' heq).le

end Number

/-! ### Rounding to magnitudes -/

namespace Binary64

open Number SixDigits

variable {num den num' den' p p' : ℕ}

/-- A larger ratio loses more digits. -/
theorem droppedDigits_mono (h : num / den ≤ num' / den') :
    droppedDigits num den ≤ droppedDigits num' den' := by
  by_contra hlt
  have hpow : ∀ {i j : ℕ}, i ≤ j → 2 ^ i ≤ 2 ^ j := fun hij =>
    Nat.pow_le_pow_right (by norm_num) hij
  rcases droppedDigits_spec num den with ⟨hzero, -⟩ | ⟨hlow, -⟩
  · omega
  rcases droppedDigits_spec num' den' with ⟨hzero, hhigh⟩ | ⟨-, hhigh⟩
  · have := hpow (show 53 ≤ 52 + droppedDigits num den by omega)
    omega
  · have := hpow (show 53 + droppedDigits num' den' ≤ 52 + droppedDigits num den by omega)
    omega

/-- **The larger ratio is not rounded to a smaller magnitude.** -/
theorem placeOfUnits_mono (hden : 0 < den) (hden' : 0 < den') (h : num * den' ≤ num' * den) :
    placeOfUnits num den ≤ placeOfUnits num' den' := by
  have hfloor : num / den ≤ num' / den' := by
    refine (Nat.le_div_iff_mul_le hden').mpr (Nat.le_of_mul_le_mul_right ?_ hden)
    calc num / den * den' * den = num / den * den * den' := Nat.mul_right_comm ..
      _ ≤ num * den' := Nat.mul_le_mul_right den' (Nat.div_mul_le_self num den)
      _ ≤ num' * den := h
  rw [placeOfUnits_eq, placeOfUnits_eq]
  rcases (droppedDigits_mono hfloor).eq_or_lt with heq | hlt
  · rw [← heq]
    refine Nat.add_le_add_left (roundHalfEven_mono (by positivity) (by positivity) ?_) _
    calc num * (den' * 2 ^ droppedDigits num den) = num * den' * 2 ^ droppedDigits num den :=
          (Nat.mul_assoc ..).symm
      _ ≤ num' * den * 2 ^ droppedDigits num den := Nat.mul_le_mul_right _ h
      _ = num' * (den * 2 ^ droppedDigits num den) := Nat.mul_assoc ..
  · -- magnitudes of another size are larger
    have hhigh := (roundHalfEven_mem num hden).2
    have hlow := (roundHalfEven_mem num' hden').1 (by omega)
    have hstep := Nat.mul_le_mul_right (2 ^ 52) (Nat.succ_le_of_lt hlt)
    omega

/-- **Magnitudes are in ascending order.** -/
theorem unitsAt_mono (h : p ≤ p') : unitsAt p ≤ unitsAt p' := by
  rcases lt_or_ge p' (2 ^ 53) with hsmall | hlarge
  · have hself : ∀ q < 2 ^ 53, unitsAt q = q := fun q hq => by
      simpa using unitsAt_eq (k := 0) (by simp) hq.le
    rw [hself p (by omega), hself p' hsmall]
    exact h
  -- there is a power of two to be written
  have hdiv : p' / 2 ^ 52 - 1 ≠ 0 := by omega
  have hat : ∀ q, 2 ^ 53 ≤ q →
      unitsAt q = (2 ^ 52 + q % 2 ^ 52) * 2 ^ (q / 2 ^ 52 - 1) := by
    intro q hq
    rw [← unitsAt_eq (by omega) (by omega)]
    congr 1
    omega
  rcases lt_or_ge (p / 2 ^ 52) (p' / 2 ^ 52) with hlt | hge
  · calc unitsAt p ≤ (2 ^ 53 - 1) * 2 ^ (p' / 2 ^ 52 - 2) := unitsAt_le (by omega)
      _ ≤ 2 ^ 53 * 2 ^ (p' / 2 ^ 52 - 2) := Nat.mul_le_mul_right _ (by norm_num)
      _ = 2 ^ 52 * 2 ^ (p' / 2 ^ 52 - 2 + 1) := by ring
      _ = 2 ^ 52 * 2 ^ (p' / 2 ^ 52 - 1) := by congr 2; omega
      _ ≤ unitsAt p' := by
          rw [hat p' hlarge]
          exact Nat.mul_le_mul_right _ (Nat.le_add_right ..)
  · have heq : p / 2 ^ 52 = p' / 2 ^ 52 := le_antisymm (Nat.div_le_div_right h) hge
    rw [hat p (by omega), hat p' hlarge, heq]
    exact Nat.mul_le_mul_right _ (by omega)

end Binary64

/-! ### Reading what was written -/

open Binary64 Numeral SixDigits

variable {x : Binary64}

/-- The text of what is no number, or of an infinity, is no numeral. -/
theorem number?_formatNumber_of_not_isFinite (hx : ¬x.IsFinite) :
    number? (Text.revealAll (formatNumber x)) = none := by
  -- what is not finite is written as a name, and no name is a numeral
  have hspecial : ∀ text ∈ ["nan", "inf", "-inf"], number? (Text.revealAll text) = none := by
    decide +kernel
  apply hspecial
  unfold formatNumber
  by_cases hnan : x.isNaN = true
  · rw [if_pos hnan]
    decide
  · have hinfinite : x.isInfinite = true := by
      by_contra h
      exact hx ⟨Bool.eq_false_of_not_eq_true hnan, Bool.eq_false_of_not_eq_true h⟩
    rw [if_neg hnan]
    dsimp only
    rw [if_pos hinfinite]
    cases x.negative <;> decide

/-- **The text of a finite number is read as the magnitude nearest to the decimal** that was
written, with its sign. -/
theorem exists_number?_formatNumber (hx : x.IsFinite) :
    ∃ (y : Binary64) (num den : ℕ), number? (Text.revealAll (formatNumber x)) = some y ∧
      y.negative = x.negative ∧ y.place.val < infinitePlace ∧ 0 < den ∧
      (num / den : ℚ) = written x.units * unitsOfOne ∧ y.place.val = placeOfUnits num den := by
  have hfinite := isFinite_iff.mp hx
  -- zero has no leading digit, so it is written and read by itself
  by_cases hzero : x.place.val = 0
  · obtain ⟨negative, place, hplace⟩ := x
    obtain rfl : place = 0 := hzero
    refine ⟨_, 0, 1, number?_formatNumber_zero negative, rfl, hfinite, Nat.one_pos, ?_, rfl⟩
    simp [written, units, unitsAt]
  have hu : 0 < x.units := unitsAt_pos hzero
  obtain ⟨n, hnumber, hsign, hmagnitude⟩ := number?_formatNumber hfinite hzero hu
  have hnear := isNear_ofUnits hu
  have hwritten := written_of_pos hu
  -- from here on it is enough to know that the six digits are near the number
  generalize ofUnits x.units = d at hmagnitude hnear hwritten
  obtain ⟨num, den, hden, hratio, hlimit, hnegative, hplace⟩ :=
    value_of_isNear hnear hu (unitsAt_le (k := 2045) hfinite) hmagnitude
  refine ⟨n.value, num, den, hnumber, hnegative.trans hsign, hplace ▸ hlimit, hden, ?_, hplace⟩
  rw [hratio, hwritten, magnitude_mul]

/-- Of two magnitudes the smaller one is not read as the larger one. -/
theorem placeOfUnits_written_mono {u v num den num' den' : ℕ} (hden : 0 < den) (hden' : 0 < den')
    (hratio : (num / den : ℚ) = written u * unitsOfOne)
    (hratio' : (num' / den' : ℚ) = written v * unitsOfOne) (h : u ≤ v) :
    placeOfUnits num den ≤ placeOfUnits num' den' := by
  have hle := mul_le_mul_of_nonneg_right (written_mono h) unitsOfOne_pos.le
  rw [← hratio, ← hratio', div_le_div_iff₀ (by exact_mod_cast hden) (by exact_mod_cast hden')]
    at hle
  exact placeOfUnits_mono hden hden' (by exact_mod_cast hle)

namespace Word

/-- **The text of a number converts to a number exactly if the number is finite**, whatever its bit
pattern; it is then read as a finite number of the same sign, and of two finite numbers the smaller
one is not read as the larger one. -/
theorem formatNumber_recognised (x y : Binary64) (special : Bool) :
    let v := text (formatNumber x) special
    let w := text (formatNumber y) special
    (v.number?.isSome = true ↔ x.IsFinite) ∧
      (x.IsFinite → ∃ z, v.number? = some z ∧ z.IsFinite ∧ z.negative = x.negative) ∧
      (x.IsFinite → y.IsFinite → x.toRat < y.toRat → v.value.toRat ≤ w.value.toRat) := by
  intro v w
  have hread : x.IsFinite → ∃ z, v.number? = some z ∧ z.IsFinite ∧ z.negative = x.negative := by
    intro hx
    obtain ⟨z, -, -, hz, hnegative, hfinite, -⟩ := exists_number?_formatNumber hx
    exact ⟨z, hz, isFinite_iff.mpr hfinite, hnegative⟩
  refine ⟨⟨fun hsome => ?_, fun hx => ?_⟩, hread, fun hx hy hlt => ?_⟩
  · by_contra hx
    rw [show v.number? = none from number?_formatNumber_of_not_isFinite hx] at hsome
    exact absurd hsome Bool.false_ne_true
  · obtain ⟨z, hz, -⟩ := hread hx
    rw [hz]
    rfl
  obtain ⟨a, num, den, ha, hxa, -, hden, hratio, hplace⟩ := exists_number?_formatNumber hx
  obtain ⟨b, num', den', hb, hyb, -, hden', hratio', hplace'⟩ := exists_number?_formatNumber hy
  have hv : v.value = a := by rw [value, show v.number? = some a from ha, Option.getD_some]
  have hw : w.value = b := by rw [value, show w.number? = some b from hb, Option.getD_some]
  rw [hv, hw]
  by_cases hsame : x.negative = y.negative
  · have hunits := (toRat_le_iff hsame).mp hlt.le
    rw [toRat_le_iff (by rw [hxa, hyb, hsame]), hxa, units, units, hplace, hplace']
    split_ifs at hunits ⊢
    · exact unitsAt_mono (placeOfUnits_written_mono hden' hden hratio' hratio hunits)
    · exact unitsAt_mono (placeOfUnits_written_mono hden hden' hratio hratio' hunits)
  · -- the smaller number has the minus sign
    cases hxs : x.negative with
    | false =>
      have hys : y.negative = true := by simpa [hxs] using hsame
      linarith [toRat_nonneg hxs, toRat_nonpos hys]
    | true =>
      have hys : y.negative = false := by simpa [hxs] using hsame
      exact (toRat_nonpos (hxa.trans hxs)).trans (toRat_nonneg (hyb.trans hys))

/-- Two numbers just below a million, of which the larger one is written with a power of ten. -/
theorem formatNumber_across_notations :
    let x := ofRatio false 9999994 10
    let y := ofRatio false 9999996 10
    formatNumber x = "999999" ∧ formatNumber y = "1e+06" ∧
      (text (formatNumber x) false).value.toRat ≤ (text (formatNumber y) false).value.toRat := by
  intro x y
  have hxy : x.IsFinite ∧ y.IsFinite ∧ x.negative = false ∧ y.negative = false ∧
      x.units < y.units ∧ formatNumber x = "999999" ∧ formatNumber y = "1e+06" := by
    unfold IsFinite
    decide +kernel
  obtain ⟨hx, hy, hxs, hys, hlt, hxt, hyt⟩ := hxy
  have hless : x.toRat < y.toRat := by
    rw [← not_le, toRat_le_iff (hys.trans hxs.symm), hys, if_neg Bool.false_ne_true]
    exact not_le.mpr hlt
  exact ⟨hxt, hyt, (formatNumber_recognised x y false).2.2 hx hy hless⟩

end Word

end SharedValues
