import SharedValues.Proofs.Number.Nearest
import SharedValues.Proofs.Number.Notation
import SharedValues.Proofs.Number.Stable

/-!
# Rounding twice

The text of a number can be put together from two others: the number with six digits and a power of
ten, and the number with a fixed number of places after the point.  The first one tells the power of
ten, and with it the notation and the number of places.  Each of the two rounds the exact value.
They agree, also where the digits are rounded up to the next power of ten, since the places are
counted from the digit that is first after rounding.  Zeros are trimmed only where there is a point,
so that whole numbers keep them.

## Main definitions

* `SixDigits.mantissa`, `Binary64.fixed` — the two texts, of positive magnitudes.
* `trimFraction` — a text without the zeros at the end of its fraction.
* `formatTwice` — the text of a number, put together from the two others.

## Main results

* `formatTwice_eq` — it is the text of the number.
* `formatNumber_general` — **the text of a number is the nearest six-digit decimal** in general
  notation.
-/

namespace SharedValues

open Numeral SixDigits

/-! ### Two formats -/

/-- A positive magnitude with one digit before the point and five after it, less the power of
ten. -/
def SixDigits.mantissa (d : SixDigits) : List Char :=
  let ds := Nat.toDigits 10 d.digits
  ds.take 1 ++ '.' :: ds.drop 1

/-- A positive magnitude with a fixed number of places after the point and a digit before it, the
exact value being rounded.  There is a point only if there are places after it. -/
def Binary64.fixed (units places : ℕ) : List Char :=
  let ds := Nat.toDigits 10 (Number.roundHalfEven (units * Nat.pow 10 places) (1 <<< 1074))
  let ds := List.replicate (places + 1 - ds.length) '0' ++ ds
  if places = 0 then ds
  else ds.take (ds.length - places) ++ '.' :: ds.drop (ds.length - places)

/-- A text without the zeros at the end of its fraction.  A text without a point has none. -/
def trimFraction (cs : List Char) : List Char :=
  if '.' ∈ cs then (cs.rdropWhile (· == '0')).rdropWhile (· == '.') else cs

/-- The text of a number, from the one with a power of ten and the one with a fixed number of
places. -/
def formatTwice (x : Binary64) : String :=
  if x.isNaN then "nan"
  else if x.isInfinite then if x.negative then "-inf" else "inf"
  else if x.isZero then if x.negative then "-0" else "0"
  else
    let d := ofUnits x.units
    let sign := signChars x.negative
    String.ofList <|
      if d.exponent < -4 ∨ 6 ≤ d.exponent then
        trimFraction (sign ++ d.mantissa)
          ++ ('e' :: (if d.exponent < 0 then '-' else '+') :: exponentDigits d.exponent)
      else trimFraction (sign ++ Binary64.fixed x.units (5 - d.exponent).toNat)

/-! ### Trimming -/

section Trimming

variable {cs fs : List Char}

theorem rdropWhile_append (p : Char → Bool) (cs fs : List Char) : (cs ++ fs).rdropWhile p =
    if fs.rdropWhile p = [] then cs.rdropWhile p else cs ++ fs.rdropWhile p := by
  unfold List.rdropWhile
  rw [List.reverse_append, List.dropWhile_append]
  simp only [List.isEmpty_iff, List.reverse_eq_nil_iff]
  split_ifs
  · rfl
  · rw [List.reverse_append, List.reverse_reverse]

/-- What does not occur in a text is not dropped from its end. -/
theorem rdropWhile_eq_self {c : Char} (h : c ∉ cs) : cs.rdropWhile (· == c) = cs := by
  refine List.rdropWhile_eq_self_iff.mpr fun hne hc => h ?_
  rw [← beq_iff_eq.mp hc]
  exact List.getLast_mem hne

/-- **Only the zeros of a fraction are trimmed**, and the point if nothing is left behind it. -/
theorem trimFraction_append (hcs : '.' ∉ cs) (hfs : '.' ∉ fs) :
    trimFraction (cs ++ '.' :: fs) = cs ++ fraction fs := by
  have htrimmed : '.' ∉ trimmed fs := fun h => hfs ((List.rdropWhile_prefix _ fs).subset h)
  have hsplit : cs ++ '.' :: fs = (cs ++ ['.']) ++ fs := by simp
  rw [trimFraction, if_pos (by simp), hsplit, rdropWhile_append, fraction_eq_trimmed, ← trimmed]
  split_ifs with hnil
  · rw [List.rdropWhile_concat_neg _ _ _ (by decide), List.rdropWhile_concat_pos _ _ _ (by decide),
      rdropWhile_eq_self hcs, List.append_nil]
  · rw [rdropWhile_append, rdropWhile_eq_self htrimmed, if_neg hnil, List.append_assoc]
    rfl

/-- A text without a point is left alone. -/
theorem trimFraction_of_not_mem (hcs : '.' ∉ cs) : trimFraction cs = cs := if_neg hcs

end Trimming

/-! ### Agreement -/

namespace SixDigits

variable {u : ℕ} {d : SixDigits}

theorem not_mem_of_isDigit {ds : List Char} (h : ∀ c ∈ ds, c.isDigit = true) : '.' ∉ ds :=
  fun hmem => absurd (h '.' hmem) (by decide)

theorem not_mem_signChars (negative : Bool) : '.' ∉ signChars negative := by
  cases negative <;> decide

theorem ofUnits_def (u : ℕ) : ofUnits u =
    if scaled u (leadingPower u - 5) = 1000000 then ⟨100000, leadingPower u + 1⟩
    else ⟨scaled u (leadingPower u - 5), leadingPower u⟩ := by
  unfold ofUnits
  rfl

/-- A decimal has the digits that are rounded first, or these are rounded up to a power of ten. -/
theorem ofUnits_cases (u : ℕ) :
    (ofUnits u).exponent = leadingPower u ∧ scaled u (leadingPower u - 5) = (ofUnits u).digits ∨
      (ofUnits u).exponent = leadingPower u + 1 ∧ (ofUnits u).digits = 100000 ∧
        scaled u (leadingPower u - 5) = 1000000 := by
  have h := ofUnits_def u
  -- all but the comparison is out of sight, so that no power is worked out
  generalize ofUnits u = d at h ⊢
  generalize leadingPower u = p at h ⊢
  generalize scaled u (p - 5) = k at h ⊢
  subst h
  split_ifs with hcarry
  · exact .inr ⟨rfl, rfl, hcarry⟩
  · exact .inl ⟨rfl, rfl⟩

/-- **Rounding again gives the same digits**, also after they were rounded up to the next power of
ten. -/
theorem scaled_exponent (u : ℕ) : scaled u ((ofUnits u).exponent - 5) = (ofUnits u).digits := by
  have hnear := abs_scaled_sub_le u (leadingPower u)
  rcases ofUnits_cases u with ⟨hexponent, hdigits⟩ | ⟨hexponent, hdigits, hcarry⟩
  · rw [hexponent, hdigits]
  have hunit := unit_pos (leadingPower u)
  rw [hexponent, hdigits]
  generalize leadingPower u = p at hnear hunit hcarry ⊢
  apply scaled_eq_of_lt
  rw [unit_succ, abs_sub_comm]
  rw [hcarry] at hnear
  push_cast at hnear ⊢
  rw [abs_le] at hnear
  rw [abs_lt]
  constructor <;> linarith

/-- Without a power of ten, rounding at the last digit is rounding to a number of places. -/
theorem scaled_eq_places (u : ℕ) {e : ℤ} (he : e ≤ 5) : scaled u (e - 5) =
    Number.roundHalfEven (u * Nat.pow 10 (5 - e).toNat) (1 <<< 1074) := by
  unfold scaled
  split_ifs with h
  · obtain rfl : e = 5 := by omega
    simp only [Int.sub_self, Int.toNat_zero, Nat.pow_eq, Nat.pow_zero, Nat.mul_one]
  · rw [show -(e - 5) = 5 - e by ring]

/-- A number of places after the point is what positional notation shows, zeros at the end aside. -/
theorem trimFraction_fixed (negative : Bool) (hd : 10 ^ 5 ≤ d.digits ∧ d.digits < 10 ^ 6)
    (hexponent : ¬(d.exponent < -4 ∨ 6 ≤ d.exponent))
    (hround : scaled u (d.exponent - 5) = d.digits) :
    trimFraction (signChars negative ++ Binary64.fixed u (5 - d.exponent).toNat) =
      signChars negative ++ d.positional := by
  have hlength := length_toDigits hd
  have hdigits : ∀ c ∈ Nat.toDigits 10 d.digits, c.isDigit = true :=
    fun c => isDigit_of_mem_toDigits
  rw [scaled_eq_places u (by omega)] at hround
  unfold Binary64.fixed positional
  dsimp only
  rw [hround]
  generalize Nat.toDigits 10 d.digits = ds at hlength hdigits ⊢
  have hds := not_mem_of_isDigit hdigits
  have hsign := not_mem_signChars negative
  rcases lt_or_ge d.exponent 0 with hneg | hnonneg
  · -- there are zeros in front
    obtain ⟨k, hk⟩ : ∃ k : ℕ, d.exponent = -(k + 1) := ⟨d.exponent.natAbs - 1, by omega⟩
    have hplaces : (5 - d.exponent).toNat = k + 6 := by omega
    have hnat : d.exponent.natAbs - 1 = k := by omega
    have hzeros : '.' ∉ List.replicate k '0' ++ ds := fun h =>
      (List.mem_append.mp h).elim (fun h => absurd (List.eq_of_mem_replicate h) (by decide)) hds
    have hone : '.' ∉ signChars negative ++ ['0'] := fun h =>
      (List.mem_append.mp h).elim hsign (by decide)
    have hpad : k + 6 + 1 - 6 = k + 1 := by omega
    have hwhole : k + 1 + 6 - (k + 6) = 1 := by omega
    rw [if_pos hneg, hplaces, hnat, if_neg (by omega), List.length_append, List.length_replicate,
      hlength, hpad, hwhole, List.replicate_succ, List.cons_append, List.take_succ_cons,
      List.take_zero, List.drop_succ_cons, List.drop_zero, ← List.append_assoc,
      trimFraction_append hone hzeros, List.append_assoc, List.singleton_append]
  · obtain ⟨k, hk⟩ : ∃ k : ℕ, d.exponent = k := ⟨d.exponent.toNat, by omega⟩
    have hplaces : (5 - d.exponent).toNat = 5 - k := by omega
    have hnat : d.exponent.toNat + 1 = k + 1 := by omega
    have hpad : 5 - k + 1 - 6 = 0 := by omega
    rw [if_neg (show ¬d.exponent < 0 by omega), hplaces, hnat, hlength, hpad, List.replicate_zero,
      List.nil_append, hlength]
    split_ifs with hlast
    · -- there is no point
      rw [trimFraction_of_not_mem (fun h => (List.mem_append.mp h).elim hsign hds),
        List.take_of_length_le (by omega), List.drop_of_length_le (by omega)]
      simp [fraction]
    · have hwhole : 6 - (5 - k) = k + 1 := by omega
      have htake : '.' ∉ signChars negative ++ ds.take (k + 1) := fun h =>
        (List.mem_append.mp h).elim hsign fun h => hds (List.mem_of_mem_take h)
      rw [hwhole, ← List.append_assoc, trimFraction_append htake fun h =>
        hds (List.mem_of_mem_drop h), List.append_assoc]

/-- With a power of ten, the zeros after the point are trimmed. -/
theorem trimFraction_mantissa (negative : Bool) (d : SixDigits) :
    trimFraction (signChars negative ++ d.mantissa) ++
      ('e' :: (if d.exponent < 0 then '-' else '+') :: exponentDigits d.exponent) =
      signChars negative ++ d.scientific := by
  have hds : '.' ∉ Nat.toDigits 10 d.digits :=
    not_mem_of_isDigit fun c => isDigit_of_mem_toDigits
  have htake : '.' ∉ signChars negative ++ (Nat.toDigits 10 d.digits).take 1 := fun h =>
    (List.mem_append.mp h).elim (not_mem_signChars negative) fun h => hds (List.mem_of_mem_take h)
  rw [mantissa, scientific_eq, ← List.append_assoc, trimFraction_append htake fun h =>
    hds (List.mem_of_mem_drop h)]
  simp only [List.append_assoc, List.cons_append, List.nil_append]

end SixDigits

/-- **Both ways to round come to the same text.** -/
theorem formatTwice_eq (x : Binary64) : formatTwice x = formatNumber x := by
  unfold formatTwice formatNumber
  by_cases hnan : x.isNaN = true
  · rw [if_pos hnan, if_pos hnan]
  rw [if_neg hnan, if_neg hnan]
  dsimp only
  by_cases hinfinite : x.isInfinite = true
  · rw [if_pos hinfinite, if_pos hinfinite]
    cases x.negative <;> rfl
  rw [if_neg hinfinite, if_neg hinfinite]
  by_cases hzero : x.isZero = true
  · rw [if_pos hzero, if_pos hzero]
    cases x.negative <;> rfl
  rw [if_neg hzero, if_neg hzero]
  -- the first rounding leaves six digits, and the second starts from the exponent they have
  have hu : 0 < x.units := Binary64.unitsAt_pos fun h => hzero (beq_iff_eq.mpr h)
  have hsix := (isNear_ofUnits hu).six
  have hround := scaled_exponent x.units
  generalize ofUnits x.units = d at hsix hround ⊢
  unfold write
  by_cases hexponent : d.exponent < -4 ∨ 6 ≤ d.exponent
  · rw [if_pos hexponent, if_pos hexponent]
    exact congrArg String.ofList (trimFraction_mantissa x.negative d)
  · rw [if_neg hexponent, if_neg hexponent]
    exact congrArg String.ofList (trimFraction_fixed x.negative hsix hexponent hround)

/-! ### The text of a number -/

variable {x : Binary64}

/-- The sign of a number does not change a distance from it. -/
theorem abs_sub_toRat (x : Binary64) (q : ℚ) :
    |(if x.negative then -1 else 1) * q - x.toRat| = |q - x.units / unitsOfOne| := by
  unfold Binary64.toRat
  cases x.negative with
  | false => simp
  | true => rw [if_pos rfl, ← mul_sub, abs_mul, abs_neg, abs_one, one_mul]

theorem sign_mul_sign_mul (negative : Bool) (q : ℚ) :
    (if negative then -1 else 1) * ((if negative then -1 else 1) * q) = q := by
  cases negative <;> simp

theorem IsSixDigit.sign_mul (negative : Bool) {q : ℚ} (hq : IsSixDigit q) :
    IsSixDigit ((if negative then -1 else 1) * q) := by
  cases negative with
  | false => simpa using hq
  | true => simpa using hq.neg

/-- **The text of a number is the nearest six-digit decimal in general notation.**  It has the sign
of the number, it has an exponent exactly if its first digit stands for a power of ten below
`10 ^ -4` or from `10 ^ 6` on, and its fraction does not end with a zero.  Rounding twice comes to
the same. -/
theorem formatNumber_general (hfinite : x.IsFinite) (hzero : x.isZero = false) :
    ∃ (l : Layout) (E : ℤ), (formatNumber x).toList = l.chars ∧ l.negative = x.negative ∧
      IsSixDigit l.value ∧ (∀ q, IsSixDigit q → |l.value - x.toRat| ≤ |q - x.toRat|) ∧
      10 ^ E ≤ |l.value| ∧ |l.value| < 10 ^ (E + 1) ∧ l.IsGeneral E ∧
      formatTwice x = formatNumber x := by
  have hplace : x.place.val ≠ 0 := beq_eq_false_iff_ne.mp hzero
  have hu : 0 < x.units := Binary64.unitsAt_pos hplace
  have hnear := isNear_ofUnits hu
  -- the text is the layout of the six digits, so the bounds are those of the digits alone
  have htext := formatNumber_eq (Binary64.isFinite_iff.mp hfinite) hplace
  have htwice := formatTwice_eq x
  generalize ofUnits x.units = d at hnear htext
  have hvalue : (d.layout x.negative).value = (if x.negative then -1 else 1) * d.magnitude := by
    rw [Layout.value, magnitude_layout x.negative hnear.six, negative_layout]
  have habs : |(d.layout x.negative).value| = d.magnitude := by
    rw [hvalue, abs_mul, abs_of_pos hnear.magnitude_pos]
    cases x.negative <;> simp
  obtain ⟨hlow, hhigh⟩ := hnear.magnitude_mem
  rw [← habs] at hlow hhigh
  refine ⟨d.layout x.negative, d.exponent, ?_, negative_layout .., ?_, fun q hq => ?_, hlow, hhigh,
    isGeneral_layout x.negative hnear.six, htwice⟩
  · rw [htext, String.toList_ofList, chars_layout]
  · rw [hvalue]
    exact (isSixDigit_magnitude hnear.six.2).sign_mul x.negative
  · have hnearest := hnear.nearest (hq.sign_mul x.negative)
    -- nearness is proved without the sign, and a six-digit value keeps its six digits under it
    rwa [← abs_sub_toRat, ← abs_sub_toRat, ← hvalue, sign_mul_sign_mul] at hnearest

/-- Digits that are rounded up to a million are written with a power of ten. -/
theorem formatNumber_carried :
    let x := Binary64.ofRatio true 9999995 10
    formatNumber x = "-1e+06" ∧ formatTwice x = "-1e+06" ∧
      ∃ (l : Layout) (E : ℤ), "-1e+06".toList = l.chars ∧ l.IsGeneral E ∧
        ∀ q, IsSixDigit q → |l.value - x.toRat| ≤ |q - x.toRat| := by
  intro x
  have hx : x.IsFinite ∧ x.isZero = false ∧ formatNumber x = "-1e+06" := by
    unfold Binary64.IsFinite
    decide +kernel
  obtain ⟨hfinite, hzero, htext⟩ := hx
  obtain ⟨l, E, hchars, -, -, hnearest, -, -, hgeneral, htwice⟩ :=
    formatNumber_general hfinite hzero
  rw [htext] at hchars htwice
  exact ⟨htext, htwice, l, E, hchars, hgeneral, hnearest⟩

end SharedValues
