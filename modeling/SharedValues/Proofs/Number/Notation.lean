import Mathlib.Data.List.DropRight
import SharedValues.Proofs.Number.Grammar

/-!
# The general notation

A decimal of six digits is written with a power of ten if its first digit stands for a small power
of ten or for a large one, and in positional notation otherwise.  In neither notation does the
fraction end with a zero, and where nothing is left of it there is no point.  What is written is
told by the parts of the numeral, and the parts are what a reader finds in it.

## Main definitions

* `Numeral.Layout` — a numeral by its parts, with the text and the number that it stands for.
* `Numeral.Layout.IsGeneral` — the general notation.
* `SixDigits.layout` — the parts that a decimal is written in.

## Main results

* `Numeral.Layout.IsGeneral.parse?_chars` — a numeral in general notation is read as what its parts
  stand for.
* `SixDigits.chars_layout`, `SixDigits.isGeneral_layout` — decimals are written in general notation.
* `SixDigits.magnitude_layout` — the parts of a decimal stand for it.
-/

namespace SharedValues

/-! ### Fractions -/

namespace SixDigits

variable {fs : List Char}

/-- A fraction without the zeros at its end. -/
def trimmed (fs : List Char) : List Char := fs.rdropWhile (· == '0')

theorem fraction_eq_trimmed (fs : List Char) :
    fraction fs = if trimmed fs = [] then [] else '.' :: trimmed fs := by
  unfold fraction trimmed List.rdropWhile
  split
  · next h => rw [if_pos h]
  · next h => rw [if_neg h]

theorem trimmed_spec (hfs : ∀ c ∈ fs, c.isDigit = true) :
    (∀ c ∈ trimmed fs, c.isDigit = true) ∧ ∀ c ∈ (trimmed fs).getLast?, c ≠ '0' := by
  refine ⟨fun c hc => hfs c ((List.rdropWhile_prefix _ fs).subset hc), fun c hc => ?_⟩
  obtain ⟨hne, rfl⟩ := List.mem_getLast?_eq_getLast hc
  have hlast := List.rdropWhile_last_not (· == '0') fs hne
  rwa [beq_iff_eq] at hlast

/-- Nothing is left out of a fraction that does not end with a zero. -/
theorem trimmed_eq_self (hlast : ∀ c ∈ fs.getLast?, c ≠ '0') : trimmed fs = fs := by
  refine List.rdropWhile_eq_self_iff.mpr fun hne => ?_
  rw [beq_iff_eq]
  exact hlast _ (List.getLast_mem_getLast? hne)

end SixDigits

namespace Numeral

/-! ### Numerals by their parts -/

/-- A numeral by its parts. -/
structure Layout where
  /-- Whether there is a minus sign. -/
  negative : Bool
  /-- The digits before the point. -/
  whole : List Char
  /-- The digits after the point.  There is a point only if there are some. -/
  fraction : List Char
  /-- The exponent, if there is one: whether its sign is a minus sign, and its digits. -/
  exponent? : Option (Bool × List Char)

namespace Layout

variable {l : Layout} {E : ℤ}

/-- The power of ten that the exponent stands for. -/
def power (l : Layout) : ℤ :=
  match l.exponent? with
  | none => 0
  | some (negative, ds) => if negative then -digitsValue ds else digitsValue ds

/-- The exponent as it is written, with a sign in any case. -/
def exponentChars (l : Layout) : List Char :=
  match l.exponent? with
  | none => []
  | some (negative, ds) => 'e' :: (if negative then '-' else '+') :: ds

/-- The text of a numeral. -/
def chars (l : Layout) : List Char :=
  signChars l.negative ++
    (l.whole ++ ((if l.fraction = [] then [] else '.' :: l.fraction) ++ l.exponentChars))

/-- The number that a numeral stands for, its sign aside. -/
def magnitude (l : Layout) : ℚ :=
  digitsValue (l.whole ++ l.fraction) * 10 ^ (l.power - l.fraction.length)

/-- The number that a numeral stands for. -/
def value (l : Layout) : ℚ := (if l.negative then -1 else 1) * l.magnitude

/-- **The general notation** of a number whose first digit stands for `10 ^ E`. -/
structure IsGeneral (l : Layout) (E : ℤ) : Prop where
  /-- There is a digit before the point. -/
  whole : IsDigits l.whole
  /-- No zero is in front of other digits. -/
  first : l.whole.head? = some '0' → l.whole = ['0']
  /-- There are digits after the point. -/
  digits : ∀ c ∈ l.fraction, c.isDigit = true
  /-- The last one is no zero. -/
  last : ∀ c ∈ l.fraction.getLast?, c ≠ '0'
  /-- Small and large numbers have an exponent. -/
  isSome_exponent? : l.exponent?.isSome = true ↔ E < -4 ∨ 6 ≤ E
  /-- Where there is an exponent, it stands for the power of ten of the first digit, which is the
  one before the point, and has two digits at least. -/
  scientific : ∀ negative ds, l.exponent? = some (negative, ds) →
    l.whole.length = 1 ∧ IsDigits ds ∧ 2 ≤ ds.length ∧ l.power = E

/-! ### Reading numerals -/

/-- An exponent is read as the power of ten that it stands for. -/
theorem exponent?_exponentChars
    (hds : ∀ negative ds, l.exponent? = some (negative, ds) → IsDigits ds) :
    Numeral.exponent? l.exponentChars = some l.power := by
  unfold exponentChars power
  cases h : l.exponent? with
  | none => rfl
  | some e =>
    obtain ⟨negative, ds⟩ := e
    obtain ⟨hne, hdigits⟩ := hds negative ds h
    have hempty : ds.isEmpty = false := by simpa using hne
    cases negative <;> simp [Numeral.exponent?, takeSign, takeDigits_eq_self hdigits, hempty]

/-- **A numeral in general notation is read as what its parts stand for.** -/
theorem IsGeneral.parse?_chars (h : l.IsGeneral E) :
    ∃ n, parse? l.chars = some n ∧ n.negative = l.negative ∧ n.magnitude = l.magnitude := by
  have hrest : ∀ c ∈ l.exponentChars.head?, c.isDigit = false ∧ c ≠ '.' := by
    unfold exponentChars
    split
    · simp
    · simp only [List.head?_cons, Option.mem_some_iff, forall_eq']
      decide
  have hexponent := exponent?_exponentChars fun negative ds he => (h.scientific negative ds he).2.1
  have hfraction := SixDigits.fraction_eq_trimmed l.fraction
  rw [SixDigits.trimmed_eq_self h.last] at hfraction
  rw [chars, ← hfraction]
  exact parse?_append l.negative l.whole l.fraction _ h.whole.1 h.whole.2 h.digits hrest hexponent

end Layout

end Numeral

/-! ### Decimals by their parts -/

namespace SixDigits

open Numeral

variable {d : SixDigits} {negative : Bool}

/-- The parts that a decimal is written in. -/
def layout (negative : Bool) (d : SixDigits) : Layout :=
  let ds := Nat.toDigits 10 d.digits
  if d.exponent < -4 ∨ 6 ≤ d.exponent then
    ⟨negative, ds.take 1, trimmed (ds.drop 1), some (d.exponent < 0, exponentDigits d.exponent)⟩
  else if d.exponent < 0 then
    ⟨negative, ['0'], trimmed (List.replicate (d.exponent.natAbs - 1) '0' ++ ds), none⟩
  else
    ⟨negative, ds.take (d.exponent.toNat + 1), trimmed (ds.drop (d.exponent.toNat + 1)), none⟩

theorem negative_layout (negative : Bool) (d : SixDigits) :
    (d.layout negative).negative = negative := by
  unfold layout
  dsimp only
  split_ifs <;> rfl

/-- The text of a decimal is the one of its parts. -/
theorem chars_layout (negative : Bool) (d : SixDigits) :
    (d.layout negative).chars = signChars negative ++ d.write := by
  unfold layout write positional
  dsimp only
  split_ifs with hexponent hneg
  · rw [scientific_eq, fraction_eq_trimmed]
    simp [Layout.chars, Layout.exponentChars]
  · rw [fraction_eq_trimmed]
    simp [Layout.chars, Layout.exponentChars]
  · rw [fraction_eq_trimmed]
    simp [Layout.chars, Layout.exponentChars]

/-- A positive number does not begin with a zero. -/
theorem head?_toDigits {n : ℕ} (hn : 0 < n) : (Nat.toDigits 10 n).head? ≠ some '0' := by
  induction n using Nat.strongRecOn with
  | ind n ih =>
    rcases lt_or_ge n 10 with hlt | hge
    · have hone : ∀ m < 10, 0 < m → [Nat.digitChar m].head? ≠ some '0' := by decide
      rw [Nat.toDigits_of_lt_base hlt]
      exact hone n hlt hn
    · have hdiv : 0 < n / 10 := Nat.div_pos hge (by norm_num)
      rw [Nat.toDigits_of_base_le (by norm_num) hge, List.head?_append_of_ne_nil _
        Nat.toDigits_ne_nil]
      exact ih (n / 10) (by omega) hdiv

/-- The digits of an exponent are two at least. -/
theorem two_le_length_exponentDigits (e : ℤ) : 2 ≤ (exponentDigits e).length := by
  have hpos := Nat.length_toDigits_pos (b := 10) (n := e.natAbs)
  unfold exponentDigits
  dsimp only
  split_ifs
  · rw [List.length_cons]
    omega
  · omega

/-- **A decimal is written in general notation.** -/
theorem isGeneral_layout (negative : Bool) (hd : 10 ^ 5 ≤ d.digits ∧ d.digits < 10 ^ 6) :
    (d.layout negative).IsGeneral d.exponent := by
  have hlength := length_toDigits hd
  have hdigits : ∀ c ∈ Nat.toDigits 10 d.digits, c.isDigit = true :=
    fun c => isDigit_of_mem_toDigits
  have hhead := head?_toDigits (show 0 < d.digits by omega)
  obtain ⟨hexponentDigits, hexponentNe, hexponentValue⟩ := exponentDigits_spec d.exponent
  unfold layout
  -- the digits matter by their number, and by the first one, which is not zero
  generalize Nat.toDigits 10 d.digits = ds at hlength hdigits hhead ⊢
  have htake : ∀ k, IsDigits (ds.take (k + 1)) := fun k =>
    ⟨List.ne_nil_of_length_pos (by simp [hlength]), fun c hc => hdigits c (List.mem_of_mem_take hc)⟩
  have hfirst : ∀ k, (ds.take (k + 1)).head? ≠ some '0' := fun k => by
    rwa [List.head?_take, if_neg k.succ_ne_zero]
  have hdrop : ∀ k, ∀ c ∈ ds.drop k, c.isDigit = true := fun k c hc =>
    hdigits c (List.mem_of_mem_drop hc)
  dsimp only
  split_ifs with hexponent hneg
  -- with an exponent: one digit in front of the point, trimmed digits behind it
  · obtain ⟨hfraction, hlast⟩ := trimmed_spec (hdrop 1)
    refine ⟨htake 0, fun h => absurd h (hfirst 0), hfraction, hlast, by simpa using hexponent, ?_⟩
    intro negative' ds' heq
    obtain ⟨rfl, rfl⟩ := Prod.mk.inj (Option.some.inj heq)
    refine ⟨by simp [hlength], ⟨hexponentNe, hexponentDigits⟩,
      two_le_length_exponentDigits d.exponent, ?_⟩
    simp only [Layout.power, hexponentValue, decide_eq_true_eq]
    split_ifs <;> omega
  -- below one: zeros follow the point before the digits do
  · have hzeros : ∀ c ∈ List.replicate (d.exponent.natAbs - 1) '0' ++ ds, c.isDigit = true := by
      refine List.forall_mem_append.mpr ⟨fun c hc => ?_, hdigits⟩
      rw [List.eq_of_mem_replicate hc]
      rfl
    obtain ⟨hfraction, hlast⟩ := trimmed_spec hzeros
    exact ⟨⟨by simp, by simp⟩, fun _ => rfl, hfraction, hlast, by simpa using hexponent, by simp⟩
  -- otherwise all digits of the whole part stand in front of the point
  · obtain ⟨hfraction, hlast⟩ := trimmed_spec (hdrop (d.exponent.toNat + 1))
    exact ⟨htake _, fun h => absurd h (hfirst _), hfraction, hlast, by simpa using hexponent,
      by simp⟩

/-- **The parts of a decimal stand for it.** -/
theorem magnitude_layout (negative : Bool) (hd : 10 ^ 5 ≤ d.digits ∧ d.digits < 10 ^ 6) :
    (d.layout negative).magnitude = d.magnitude := by
  obtain ⟨n, hparse, -, hmagnitude⟩ := (isGeneral_layout negative hd).parse?_chars
  obtain ⟨n', hparse', -, hmagnitude'⟩ := parse?_write negative hd
  rw [chars_layout, hparse'] at hparse
  rw [← hmagnitude, ← hmagnitude', Option.some.inj hparse]

end SixDigits

end SharedValues
