import SharedValues.Number.Binary64
import SharedValues.Text.Blank

/-!
# Numerals

The texts that are numbers: an optional sign, digits with an optional point, and an optional
power of ten.  A numeral is read as an exact decimal first and then rounded once.

## Main definitions

* `Numeral` — a sign, a whole number of digits and the power of ten it is scaled by.
* `Numeral.parse?` — the numeral a text spells, if it spells one.
* `Numeral.value` — the nearest double-precision number.
* `number?` — the number a text spells, blanks at its ends aside.
-/

namespace SharedValues

/-- A decimal numeral, standing for `± digits * 10 ^ scale`. -/
structure Numeral where
  /-- Whether it has a minus sign. -/
  negative : Bool
  /-- The digits before and after the point, as one natural number. -/
  digits : Nat
  /-- The power of ten that scales the digits. -/
  scale : Int
  deriving DecidableEq, Repr

namespace Numeral

/-- The value of a row of digits. -/
def digitsValue (cs : List Char) : Nat :=
  cs.foldl (fun n c => 10 * n + (c.toNat - '0'.toNat)) 0

/-- A sign at the front, and the text after it. -/
def takeSign : List Char → Bool × List Char
  | '-' :: cs => (true, cs)
  | '+' :: cs => (false, cs)
  | cs => (false, cs)

/-- The digits at the front, and the text after them. -/
def takeDigits (cs : List Char) : List Char × List Char :=
  (cs.takeWhile Char.isDigit, cs.dropWhile Char.isDigit)

/-- The digits after a point, if there is a point at the front, and the text after them. -/
def takeFraction : List Char → List Char × List Char
  | '.' :: cs => takeDigits cs
  | cs => ([], cs)

/-- The exponent that makes up the whole text; the empty text stands for the exponent zero. -/
def exponent? : List Char → Option Int
  | [] => some 0
  | c :: cs =>
    if c = 'e' ∨ c = 'E' then
      let (negative, cs) := takeSign cs
      let (digits, cs) := takeDigits cs
      if digits.isEmpty || !cs.isEmpty then none
      else if negative then some (-(digitsValue digits : Int))
      else some (digitsValue digits)
    else none

/-- The numeral that the whole text spells. -/
def parse? (cs : List Char) : Option Numeral :=
  let (negative, cs) := takeSign cs
  let (whole, cs) := takeDigits cs
  let (fraction, cs) := takeFraction cs
  if whole.isEmpty && fraction.isEmpty then none
  else
    (exponent? cs).map fun e =>
      ⟨negative, digitsValue (whole ++ fraction), e - fraction.length⟩

/-- The number of decimal digits of a natural number below `10 ^ 2 ^ k`, found by halving the
range `k` times; zero has none. -/
def digitCountWithin : Nat → Nat → Nat
  | 0, n => if n = 0 then 0 else 1
  | k + 1, n =>
    let half := Nat.pow 10 (1 <<< k)
    if n < half then digitCountWithin k n else 1 <<< k + digitCountWithin k (n / half)

/-- The number of decimal digits of a natural number; zero has none.  The number of binary digits
bounds it from above. -/
def digitCount (n : Nat) : Nat := digitCountWithin ((n.log2 + 1).log2 + 1) n

/-- A number below `10 ^ 2 ^ k` has so many digits that it is below the next power of ten. -/
theorem lt_pow_digitCountWithin (k n : Nat) (h : n < Nat.pow 10 (1 <<< k)) :
    n < Nat.pow 10 (digitCountWithin k n) := by
  induction k generalizing n with
  | zero =>
    by_cases h0 : n = 0
    · simp [digitCountWithin, h0]
    · simpa [digitCountWithin, h0] using h
  | succ k ih =>
    have hp : 0 < Nat.pow 10 (1 <<< k) := Nat.pow_pos (by decide)
    by_cases hlt : n < Nat.pow 10 (1 <<< k)
    · simpa only [digitCountWithin, hlt, if_true] using ih n hlt
    · have hdiv : n / Nat.pow 10 (1 <<< k) < Nat.pow 10 (1 <<< k) := by
        rw [Nat.div_lt_iff_lt_mul hp]
        refine Nat.lt_of_lt_of_eq h ?_
        rw [Nat.shiftLeft_succ, Nat.two_mul]
        exact Nat.pow_add 10 (1 <<< k) (1 <<< k)
      have := ih _ hdiv
      rw [Nat.div_lt_iff_lt_mul hp, Nat.mul_comm] at this
      simp only [digitCountWithin, hlt, if_false]
      exact Nat.lt_of_lt_of_eq this (Nat.pow_add 10 (1 <<< k) _).symm

/-- A positive number has so many digits that it is no less than the power of ten before. -/
theorem pow_digitCountWithin_le (k n : Nat) (h : 0 < n) :
    Nat.pow 10 (digitCountWithin k n) ≤ 10 * n := by
  induction k generalizing n with
  | zero =>
    have h0 : n ≠ 0 := by omega
    simp [digitCountWithin, h0]
    omega
  | succ k ih =>
    have hp : 0 < Nat.pow 10 (1 <<< k) := Nat.pow_pos (by decide)
    by_cases hlt : n < Nat.pow 10 (1 <<< k)
    · simpa only [digitCountWithin, hlt, if_true] using ih n h
    · have hq : 0 < n / Nat.pow 10 (1 <<< k) := Nat.div_pos (by omega) hp
      have := Nat.mul_le_mul_left (Nat.pow 10 (1 <<< k)) (ih _ hq)
      have hm : Nat.pow 10 (1 <<< k) * (n / Nat.pow 10 (1 <<< k)) ≤ n := Nat.mul_div_le ..
      simp only [digitCountWithin, hlt, if_false]
      calc Nat.pow 10 (1 <<< k + digitCountWithin k (n / Nat.pow 10 (1 <<< k)))
          = Nat.pow 10 (1 <<< k) * Nat.pow 10 (digitCountWithin k (n / Nat.pow 10 (1 <<< k))) :=
            Nat.pow_add ..
        _ ≤ Nat.pow 10 (1 <<< k) * (10 * (n / Nat.pow 10 (1 <<< k))) := this
        _ = 10 * (Nat.pow 10 (1 <<< k) * (n / Nat.pow 10 (1 <<< k))) := by ac_rfl
        _ ≤ 10 * n := Nat.mul_le_mul_left _ hm

/-- The number nearest to a numeral.  A numeral of more than 310 digits before the point is past
every finite number, and one that starts more than 330 places after the point is below half of
the least number. -/
def value (n : Numeral) : Binary64 :=
  let size : Int := digitCount n.digits + n.scale
  if n.digits = 0 ∨ size < -330 then ⟨n.negative, 0⟩
  else if 310 < size then .ofPlace n.negative Binary64.infinitePlace
  else if 0 ≤ n.scale then .ofRatio n.negative (n.digits * Nat.pow 10 n.scale.toNat) 1
  else .ofRatio n.negative n.digits (Nat.pow 10 (-n.scale).toNat)

end Numeral

/-- The number that a text spells, blanks at its two ends aside. -/
def number? (s : String) : Option Binary64 :=
  (Numeral.parse? (Text.strip s.toList)).map Numeral.value

end SharedValues
