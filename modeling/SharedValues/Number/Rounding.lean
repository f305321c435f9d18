/-!
# Rounding a ratio

A ratio of two natural numbers is rounded to the nearest natural number; a ratio halfway
between two of them goes to the even one.

## Main definitions

* `roundHalfEven` — the rounded ratio.

## Main results

* `two_mul_roundHalfEven_le`, `le_two_mul_roundHalfEven` — the result is within half a unit.
-/

namespace SharedValues.Number

/-- The natural number nearest to `num / den`, the even one of two that are equally near. -/
def roundHalfEven (num den : Nat) : Nat :=
  let q := num / den
  let r := num % den
  if 2 * r < den then q
  else if den < 2 * r then q + 1
  else q + q % 2

/-- The rounded ratio exceeds the ratio by at most a half. -/
theorem two_mul_roundHalfEven_le (num den : Nat) :
    2 * (roundHalfEven num den * den) ≤ 2 * num + den := by
  have h := Nat.div_add_mod num den
  have hc : den * (num / den) = num / den * den := Nat.mul_comm ..
  unfold roundHalfEven
  simp only []
  split
  · omega
  · split
    · rw [Nat.add_mul]; omega
    · have := Nat.mod_two_eq_zero_or_one (num / den)
      rcases this with h2 | h2 <;> rw [h2, Nat.add_mul] <;> omega

/-- The rounded ratio falls short of the ratio by at most a half. -/
theorem le_two_mul_roundHalfEven (num den : Nat) (h0 : 0 < den) :
    2 * num ≤ 2 * (roundHalfEven num den * den) + den := by
  have h := Nat.div_add_mod num den
  have hc : den * (num / den) = num / den * den := Nat.mul_comm ..
  have hr := Nat.mod_lt num h0
  unfold roundHalfEven
  simp only []
  split
  · omega
  · split
    · rw [Nat.add_mul]; omega
    · have := Nat.mod_two_eq_zero_or_one (num / den)
      rcases this with h2 | h2 <;> rw [h2, Nat.add_mul] <;> omega

end SharedValues.Number
