import Mathlib.Tactic.FieldSimp
import SharedValues.Proofs.Number.Numeral
import SharedValues.Proofs.Number.SixDigits

/-!
# The numerals of numbers

The text of a number is a numeral, whichever way it is written, and the numeral stands for the
six-digit decimal that was written: the zeros that are left out at the end of a fraction do not
change it.

## Main definitions

* `Numeral.magnitude`, `SixDigits.magnitude` — what a numeral and a six-digit decimal stand for.
* `Text.IsVisible` — a character that is neither a blank nor a control character.

## Main results

* `Numeral.parse?_append` — the numeral of a whole part, a fraction and an exponent.
* `SixDigits.parse?_write` — a decimal that is written is read again.
* `number?_formatNumber` — the text of a number other than zero spells its six-digit decimal.
-/

namespace SharedValues

/-! ### Visible characters -/

namespace Text

variable {c : Char} {cs : List Char}

/-- A character of ASCII that leaves a mark on paper. -/
def IsVisible (c : Char) : Prop := 33 ≤ c.toNat ∧ c.toNat < 127

instance : Decidable (IsVisible c) := inferInstanceAs (Decidable (_ ∧ _))

theorem IsVisible.isBlank_eq (hc : IsVisible c) : isBlank c = false := by
  obtain ⟨hlow, hhigh⟩ := hc
  simp only [isBlank, Bool.or_eq_false_iff, Bool.and_eq_false_iff, decide_eq_false_iff_not,
    beq_eq_false_iff_ne]
  omega

theorem isVisible_of_isDigit (hc : c.isDigit = true) : IsVisible c := by
  obtain ⟨hlow, hhigh⟩ := Bool.and_eq_true_iff.mp hc
  have : 48 ≤ c.toNat := UInt32.le_iff_toNat_le.mp (of_decide_eq_true hlow)
  have : c.toNat ≤ 57 := UInt32.le_iff_toNat_le.mp (of_decide_eq_true hhigh)
  exact ⟨by omega, by omega⟩

/-- A text without blanks is left as it is. -/
theorem strip_eq_self (h : ∀ c ∈ cs, IsVisible c) : strip cs = cs := by
  have hdrop : ∀ ds : List Char, (∀ c ∈ ds, IsVisible c) → ds.dropWhile isBlank = ds := by
    intro ds hds
    rw [List.dropWhile_eq_self_iff]
    intro hlength
    rw [(hds _ (List.getElem_mem hlength)).isBlank_eq]
    exact Bool.false_ne_true
  rw [strip, hdrop cs h, hdrop _ fun c hc => h c (List.mem_reverse.mp hc), List.reverse_reverse]

/-- There are no stand-ins among visible characters. -/
theorem map_reveal_eq_self (h : ∀ c ∈ cs, IsVisible c) : cs.map reveal = cs :=
  (List.map_congr_left fun _ hc => reveal_of_le (le_trans (by norm_num) (h _ hc).1)).trans
    (List.map_id cs)

end Text

/-! ### Reading numerals -/

namespace Numeral

open SixDigits (fraction)

variable {c : Char} {cs ds fs rest : List Char} {e : ℤ}

/-- The number that a numeral stands for, its sign aside. -/
def magnitude (n : Numeral) : ℚ := n.digits * 10 ^ n.scale

/-- The sign in front of a number; there is none in front of one that is not negative. -/
def signChars (negative : Bool) : List Char := if negative then ['-'] else []

/-- The digits at the front are taken, up to the first other character. -/
theorem takeDigits_append (hds : ∀ c ∈ ds, c.isDigit = true)
    (hcs : ∀ c ∈ cs.head?, c.isDigit = false) : takeDigits (ds ++ cs) = (ds, cs) := by
  unfold takeDigits
  rw [List.takeWhile_append_of_pos hds, List.dropWhile_append_of_pos hds]
  cases cs with
  | nil => simp
  | cons c cs =>
    have hc := hcs c rfl
    simp [hc]

theorem takeDigits_eq_self (hds : ∀ c ∈ ds, c.isDigit = true) : takeDigits ds = (ds, []) := by
  have hnil : ∀ c ∈ ([] : List Char).head?, c.isDigit = false := by simp
  simpa using takeDigits_append hds hnil

/-- A sign at the front is taken, and nothing is if there is none. -/
theorem takeSign_append (negative : Bool) (hc : c.isDigit = true) :
    takeSign (signChars negative ++ c :: cs) = (negative, c :: cs) := by
  cases negative with
  | true => rfl
  | false => exact takeSign_of_ne (by rintro rfl; simp at hc) (by rintro rfl; simp at hc)

/-- A fraction is written without the zeros at its end, and without a point if nothing is left. -/
theorem fraction_spec (fs : List Char) : ∃ gs k, fs = gs ++ List.replicate k '0' ∧
    fraction fs = if gs = [] then [] else '.' :: gs := by
  set zeros := fs.reverse.takeWhile (· == '0')
  have hzeros : zeros = List.replicate zeros.length '0' :=
    List.eq_replicate_iff.mpr ⟨rfl, fun c hc =>
      beq_iff_eq.mp (List.mem_takeWhile_imp (p := (· == '0')) hc)⟩
  refine ⟨(fs.reverse.dropWhile (· == '0')).reverse, zeros.length, ?_, ?_⟩
  · calc fs = (zeros ++ fs.reverse.dropWhile (· == '0')).reverse := by
          rw [List.takeWhile_append_dropWhile, List.reverse_reverse]
      _ = _ := by
          conv_lhs => rw [List.reverse_append, hzeros, List.reverse_replicate]
  · unfold fraction
    split
    · next h => rw [if_pos h]
    · next h => rw [if_neg h]

/-- The digits of a fraction but the zeros at its end. -/
theorem takeFraction_append (hfs : ∀ c ∈ fs, c.isDigit = true)
    (hrest : ∀ c ∈ rest.head?, c.isDigit = false ∧ c ≠ '.') :
    ∃ gs k, fs = gs ++ List.replicate k '0' ∧
      takeFraction (fraction fs ++ rest) = (gs, rest) ∧
      ∀ c ∈ (fraction fs ++ rest).head?, c.isDigit = false := by
  obtain ⟨gs, k, hsplit, hfraction⟩ := fraction_spec fs
  refine ⟨gs, k, hsplit, ?_⟩
  rw [hfraction]
  split_ifs with hempty
  · -- there is no point
    refine ⟨?_, fun c hc => (hrest c hc).1⟩
    rw [hempty]
    cases rest with
    | nil => rfl
    | cons c cs => exact takeFraction_of_ne (hrest c rfl).2
  · refine ⟨?_, by simp⟩
    exact takeDigits_append (fun c hc => hfs c (hsplit ▸ List.mem_append_left _ hc))
      fun c hc => (hrest c hc).1

/-- A written exponent is read again. -/
theorem exponent?_append (hds : ∀ c ∈ ds, c.isDigit = true) (hne : ds ≠ [])
    (hvalue : digitsValue ds = e.natAbs) :
    exponent? (['e', if e < 0 then '-' else '+'] ++ ds) = some e := by
  have hempty : ds.isEmpty = false := by simpa using hne
  rcases lt_or_ge e 0 with hneg | hnonneg
  · simp [exponent?, hneg, takeSign, takeDigits_eq_self hds, hempty, hvalue, abs_of_neg hneg]
  · simp [exponent?, not_lt.mpr hnonneg, takeSign, takeDigits_eq_self hds, hempty, hvalue,
      abs_of_nonneg hnonneg]

/-- Zeros at the end of a row of digits scale it. -/
theorem digitsValue_append_zeros (ds : List Char) (k : ℕ) :
    digitsValue (ds ++ List.replicate k '0') = 10 ^ k * digitsValue ds := by
  change Nat.ofDigitChars 10 _ 0 = 10 ^ k * Nat.ofDigitChars 10 ds 0
  rw [Nat.ofDigitChars_append, Nat.ofDigitChars_replicate_zero]

/-- Zeros in front of a row of digits do not count. -/
theorem digitsValue_zeros_append (k : ℕ) (ds : List Char) :
    digitsValue (List.replicate k '0' ++ ds) = digitsValue ds := by
  change Nat.ofDigitChars 10 _ 0 = Nat.ofDigitChars 10 ds 0
  rw [Nat.ofDigitChars_append, Nat.ofDigitChars_replicate_zero, Nat.mul_zero]

/-- **A sign, a whole part, a fraction and an exponent are a numeral**, and the zeros that the
fraction is written without do not change what it stands for. -/
theorem parse?_append (negative : Bool) (whole fs rest : List Char) (hne : whole ≠ [])
    (hwhole : ∀ c ∈ whole, c.isDigit = true) (hfs : ∀ c ∈ fs, c.isDigit = true)
    (hrest : ∀ c ∈ rest.head?, c.isDigit = false ∧ c ≠ '.') (hexponent : exponent? rest = some e) :
    ∃ n, parse? (signChars negative ++ (whole ++ (fraction fs ++ rest))) = some n ∧
      n.negative = negative ∧ n.magnitude = digitsValue (whole ++ fs) * 10 ^ (e - fs.length) := by
  obtain ⟨gs, k, hsplit, hfraction, hhead⟩ := takeFraction_append hfs hrest
  obtain ⟨c, whole', hcons⟩ := List.exists_cons_of_ne_nil hne
  -- the sign is told from the first digit
  have hsign : takeSign (signChars negative ++ (whole ++ (fraction fs ++ rest))) =
      (negative, whole ++ (fraction fs ++ rest)) := by
    rw [hcons, List.cons_append]
    exact takeSign_append negative (hwhole c (by simp [hcons]))
  have hempty : whole.isEmpty = false := by simpa using hne
  refine ⟨⟨negative, digitsValue (whole ++ gs), e - gs.length⟩, ?_, rfl, ?_⟩
  · simp only [parse?, hsign, takeDigits_append hwhole hhead, hfraction, hexponent, hempty,
      Bool.false_and, Bool.false_eq_true, if_false, Option.map_some]
  -- the zeros that the fraction was trimmed of are made up for by the exponent
  · rw [hsplit, ← List.append_assoc, digitsValue_append_zeros, magnitude, List.length_append,
      List.length_replicate]
    push_cast
    rw [show e - gs.length = (k : ℤ) + (e - (gs.length + k)) by ring, zpow_add₀ (by norm_num),
      zpow_natCast]
    ring

end Numeral

/-! ### Writing decimals -/

namespace SixDigits

open Numeral Text

variable {d : SixDigits} {c : Char} {fs : List Char}

/-- The number that a six-digit decimal stands for. -/
def magnitude (d : SixDigits) : ℚ := d.digits * 10 ^ (d.exponent - 5)

theorem digitsValue_toDigits (n : ℕ) : digitsValue (Nat.toDigits 10 n) = n :=
  Nat.ofDigitChars_ten_toDigits

theorem isDigit_of_mem_toDigits {n : ℕ} (hc : c ∈ Nat.toDigits 10 n) : c.isDigit = true :=
  Nat.isDigit_of_mem_toDigits (by norm_num) le_rfl hc

theorem length_toDigits {n : ℕ} (hn : 10 ^ 5 ≤ n ∧ n < 10 ^ 6) :
    (Nat.toDigits 10 n).length = 6 := by
  have hle := (Nat.length_toDigits_le_iff (b := 10) (n := n) (k := 6) (by norm_num)
    (by norm_num)).mpr hn.2
  have hge := mt (Nat.length_toDigits_le_iff (b := 10) (n := n) (k := 5) (by norm_num)
    (by norm_num)).mp (not_lt.mpr hn.1)
  omega

/-- The digits of an exponent, two at least. -/
def exponentDigits (e : ℤ) : List Char :=
  let exponent := Nat.toDigits 10 e.natAbs
  if exponent.length < 2 then '0' :: exponent else exponent

theorem exponentDigits_spec (e : ℤ) : (∀ c ∈ exponentDigits e, c.isDigit = true) ∧
    exponentDigits e ≠ [] ∧ digitsValue (exponentDigits e) = e.natAbs := by
  have hdigits : ∀ c ∈ Nat.toDigits 10 e.natAbs, c.isDigit = true :=
    fun c => isDigit_of_mem_toDigits
  unfold exponentDigits
  dsimp only
  split_ifs
  · refine ⟨List.forall_mem_cons.mpr ⟨rfl, hdigits⟩, List.cons_ne_nil _ _, ?_⟩
    exact (digitsValue_zeros_append 1 _).trans (digitsValue_toDigits _)
  · exact ⟨hdigits, Nat.toDigits_ne_nil, digitsValue_toDigits _⟩

theorem scientific_eq (d : SixDigits) :
    d.scientific = (Nat.toDigits 10 d.digits).take 1 ++
      (fraction ((Nat.toDigits 10 d.digits).drop 1) ++
        (['e', if d.exponent < 0 then '-' else '+'] ++ exponentDigits d.exponent)) := by
  simp only [scientific, exponentDigits, List.append_assoc]

theorem parse?_scientific (negative : Bool) (hd : 10 ^ 5 ≤ d.digits ∧ d.digits < 10 ^ 6) :
    ∃ n, parse? (signChars negative ++ d.scientific) = some n ∧
      n.negative = negative ∧ n.magnitude = d.magnitude := by
  have hlength := length_toDigits hd
  obtain ⟨hdigits, hne, hvalue⟩ := exponentDigits_spec d.exponent
  obtain ⟨n, hparse, hsign, hmagnitude⟩ := parse?_append negative
    ((Nat.toDigits 10 d.digits).take 1) ((Nat.toDigits 10 d.digits).drop 1) _
    (List.ne_nil_of_length_pos (by simp [hlength]))
    (fun c hc => isDigit_of_mem_toDigits (List.mem_of_mem_take hc))
    (fun c hc => isDigit_of_mem_toDigits (List.mem_of_mem_drop hc)) (by simp)
    (exponent?_append hdigits hne hvalue)
  refine ⟨n, (scientific_eq d).symm ▸ hparse, hsign, ?_⟩
  rw [hmagnitude, List.take_append_drop, digitsValue_toDigits, List.length_drop, hlength, magnitude]
  rfl

theorem parse?_positional (negative : Bool) (hd : 10 ^ 5 ≤ d.digits ∧ d.digits < 10 ^ 6)
    (hexponent : d.exponent < 6) :
    ∃ n, parse? (signChars negative ++ d.positional) = some n ∧
      n.negative = negative ∧ n.magnitude = d.magnitude := by
  have hlength := length_toDigits hd
  unfold positional
  dsimp only
  split_ifs with hneg
  · -- the whole part is a zero
    obtain ⟨n, hparse, hsign, hmagnitude⟩ := parse?_append negative ['0']
      (List.replicate (d.exponent.natAbs - 1) '0' ++ Nat.toDigits 10 d.digits) [] (by simp)
      (by simp) (fun c hc => by
        rcases List.mem_append.mp hc with hc | hc
        · rw [List.eq_of_mem_replicate hc]
          rfl
        · exact isDigit_of_mem_toDigits hc) (by simp) rfl
    refine ⟨n, by simpa using hparse, hsign, ?_⟩
    have hzeros := digitsValue_zeros_append (1 + (d.exponent.natAbs - 1)) (Nat.toDigits 10 d.digits)
    rw [List.replicate_add, List.append_assoc] at hzeros
    rw [hmagnitude, show ['0'] = List.replicate 1 '0' from rfl, hzeros, digitsValue_toDigits,
      List.length_append, List.length_replicate, hlength, magnitude]
    congr 2
    omega
  · obtain ⟨n, hparse, hsign, hmagnitude⟩ := parse?_append negative
      ((Nat.toDigits 10 d.digits).take (d.exponent.toNat + 1))
      ((Nat.toDigits 10 d.digits).drop (d.exponent.toNat + 1)) []
      (List.ne_nil_of_length_pos (by simp [hlength]))
      (fun c hc => isDigit_of_mem_toDigits (List.mem_of_mem_take hc))
      (fun c hc => isDigit_of_mem_toDigits (List.mem_of_mem_drop hc)) (by simp) rfl
    refine ⟨n, by simpa using hparse, hsign, ?_⟩
    rw [hmagnitude, List.take_append_drop, digitsValue_toDigits, List.length_drop, hlength,
      magnitude]
    congr 2
    omega

/-- **A decimal that is written is read again**, in either notation. -/
theorem parse?_write (negative : Bool) (hd : 10 ^ 5 ≤ d.digits ∧ d.digits < 10 ^ 6) :
    ∃ n, parse? (signChars negative ++ d.write) = some n ∧
      n.negative = negative ∧ n.magnitude = d.magnitude := by
  unfold write
  split_ifs with hexponent
  · exact parse?_scientific negative hd
  · exact parse?_positional negative hd (by omega)

/-- The zeros at the end of a fraction are dropped, and nothing else. -/
theorem isVisible_fraction (hfs : ∀ c ∈ fs, c.isDigit = true) : ∀ c ∈ fraction fs, IsVisible c := by
  have hsub : ∀ c ∈ (fs.reverse.dropWhile (· == '0')).reverse, IsVisible c := fun c hc =>
    isVisible_of_isDigit (hfs c (by
      rw [List.mem_reverse] at hc
      exact List.mem_reverse.mp ((List.dropWhile_sublist _).subset hc)))
  unfold fraction
  split
  · simp
  · exact List.forall_mem_cons.mpr ⟨by decide, hsub⟩

/-- A decimal is written in visible characters. -/
theorem isVisible_write (d : SixDigits) : ∀ c ∈ d.write, IsVisible c := by
  have hdigits : ∀ c ∈ Nat.toDigits 10 d.digits, c.isDigit = true :=
    fun c => isDigit_of_mem_toDigits
  have htake : ∀ k, ∀ c ∈ (Nat.toDigits 10 d.digits).take k, IsVisible c := fun k c hc =>
    isVisible_of_isDigit (hdigits c (List.mem_of_mem_take hc))
  have hdrop : ∀ k, ∀ c ∈ fraction ((Nat.toDigits 10 d.digits).drop k), IsVisible c := fun k =>
    isVisible_fraction fun c hc => hdigits c (List.mem_of_mem_drop hc)
  unfold write
  -- with an exponent
  split_ifs
  · rw [scientific_eq]
    refine List.forall_mem_append.mpr ⟨htake 1, List.forall_mem_append.mpr ⟨hdrop 1, ?_⟩⟩
    refine List.forall_mem_append.mpr ⟨List.forall_mem_cons.mpr ⟨by decide, ?_⟩, fun c hc => ?_⟩
    · rw [List.forall_mem_singleton]
      split_ifs <;> decide
    · exact isVisible_of_isDigit ((exponentDigits_spec d.exponent).1 c hc)
  -- or without one, with zeros behind the point if the number is below one
  unfold positional
  dsimp only
  split_ifs
  · refine List.forall_mem_cons.mpr ⟨by decide, isVisible_fraction ?_⟩
    refine List.forall_mem_append.mpr ⟨fun c hc => ?_, hdigits⟩
    rw [List.eq_of_mem_replicate hc]
    rfl
  · exact List.forall_mem_append.mpr ⟨htake _, hdrop _⟩

end SixDigits

/-! ### Writing numbers -/

open Numeral SixDigits Text

variable {x : Binary64}

theorem isVisible_signChars (negative : Bool) : ∀ c ∈ signChars negative, IsVisible c := by
  cases negative with
  | false => simp [signChars]
  | true => exact List.forall_mem_singleton.mpr (by decide)

/-- A text of visible characters is read as it stands. -/
theorem number?_of_isVisible {cs : List Char} (h : ∀ c ∈ cs, IsVisible c) :
    number? (revealAll (String.ofList cs)) = (parse? cs).map Numeral.value := by
  rw [number?, toList_revealAll, String.toList_ofList, map_reveal_eq_self h, strip_eq_self h]

/-- The text of a number other than zero. -/
theorem formatNumber_eq (hfinite : x.place.val < Binary64.infinitePlace) (hx : x.place.val ≠ 0) :
    formatNumber x =
      String.ofList (signChars x.negative ++ (ofUnits x.units).write) := by
  have hnan : x.isNaN = false := decide_eq_false (by omega)
  have hinfinite : x.isInfinite = false := beq_eq_false_iff_ne.mpr (by omega)
  have hzero : x.isZero = false := beq_eq_false_iff_ne.mpr hx
  simp [formatNumber, signChars, hnan, hinfinite, hzero]

/-- **The text of a number other than zero spells its six-digit decimal.** -/
theorem number?_formatNumber (hfinite : x.place.val < Binary64.infinitePlace)
    (hx : x.place.val ≠ 0) (hunits : 0 < x.units) :
    ∃ n : Numeral, number? (revealAll (formatNumber x)) = some n.value ∧
      n.negative = x.negative ∧ n.magnitude = (ofUnits x.units).magnitude := by
  obtain ⟨n, hparse, hsign, hmagnitude⟩ := parse?_write x.negative (isNear_ofUnits hunits).six
  refine ⟨n, ?_, hsign, hmagnitude⟩
  rw [formatNumber_eq hfinite hx, number?_of_isVisible, hparse, Option.map_some]
  exact List.forall_mem_append.mpr ⟨isVisible_signChars _, isVisible_write _⟩

/-- A zero of either sign is read again. -/
theorem number?_formatNumber_zero (negative : Bool) :
    number? (revealAll (formatNumber ⟨negative, 0⟩)) = some ⟨negative, 0⟩ := by
  revert negative
  decide +kernel

end SharedValues
