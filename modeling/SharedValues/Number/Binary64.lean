import SharedValues.Number.Rounding

/-!
# Double-precision numbers

A number of the IEEE 754 format `binary64` is a sign and a magnitude.  The magnitudes form one
ascending row: zero, the finite ones in order of size, infinity, and after it the places
that hold no number.  A number is kept as its place in that row, which is the bit pattern
without its sign bit, and every finite magnitude is a whole multiple of the least one, so
all computing is done on natural numbers.

## Main definitions

* `Binary64` — a sign and a place in the row of magnitudes.
* `Binary64.units` — a finite magnitude as a multiple of the least one, `2 ^ -1074`.
* `Binary64.ofRatio` — the number nearest to a ratio.
* `Binary64.ofBits`, `Binary64.toBits` — the interchange encoding.
* `Binary64.equals` — numeric equality.
-/

namespace SharedValues

/-- A double-precision number: a sign, and the place of its magnitude in ascending order. -/
structure Binary64 where
  /-- Whether the sign bit is set. -/
  negative : Bool
  /-- The place of the magnitude: zero first, infinity at `2047 * 2 ^ 52`, no number after it. -/
  place : Fin (1 <<< 63)
  deriving DecidableEq, Repr

namespace Binary64

/-- The place of infinity. -/
def infinitePlace : Nat := 2047 * 1 <<< 52

/-- Whether this is no number. -/
def isNaN (x : Binary64) : Bool := infinitePlace < x.place.val

/-- Whether this is one of the two infinities. -/
def isInfinite (x : Binary64) : Bool := x.place.val == infinitePlace

/-- Whether this is a zero of either sign. -/
def isZero (x : Binary64) : Bool := x.place.val == 0

/-- The zero with the plus sign. -/
def zero : Binary64 := ⟨false, ⟨0, by decide⟩⟩

/-- The number at a place of the row; places past infinity are cut down to it. -/
def ofPlace (negative : Bool) (place : Nat) : Binary64 :=
  ⟨negative, ⟨min place infinitePlace, by unfold infinitePlace; omega⟩⟩

/-- The finite magnitude at a place, in units of `2 ^ -1074`.  The first `2 ^ 53` magnitudes are
one unit apart, and the distance doubles after every further `2 ^ 52` of them. -/
def unitsAt (place : Nat) : Nat :=
  if place < 1 <<< 52 then place
  else (1 <<< 52 + place % 1 <<< 52) <<< (place / 1 <<< 52 - 1)

/-- The magnitude of a finite number, in units of `2 ^ -1074`. -/
def units (x : Binary64) : Nat := unitsAt x.place.val

/-- The place of the magnitude nearest to `num / den` units.  The significand has 53 bits, so a
magnitude of more bits is rounded to a multiple of a power of two. -/
def placeOfUnits (num den : Nat) : Nat :=
  let whole := num / den
  let dropped := if whole < 1 <<< 53 then 0 else Nat.log2 whole - 52
  dropped * 1 <<< 52 + Number.roundHalfEven num (den <<< dropped)

/-- The number nearest to the ratio `num / den`, a tie going to the even significand.  Ratios past
the largest finite number become infinite. -/
def ofRatio (negative : Bool) (num den : Nat) : Binary64 :=
  ofPlace negative (placeOfUnits (num <<< 1074) den)

/-- The number nearest to an integer. -/
def ofInt (n : Int) : Binary64 := ofRatio (n < 0) n.natAbs 1

/-- The number nearest to a natural number. -/
def ofNat (n : Nat) : Binary64 := ofRatio false n 1

/-- The number with the given bit pattern. -/
def ofBits (bits : UInt64) : Binary64 :=
  ⟨1 <<< 63 ≤ bits.toNat, ⟨bits.toNat % 1 <<< 63, Nat.mod_lt _ (by decide)⟩⟩

/-- The bit pattern of a number. -/
def toBits (x : Binary64) : UInt64 :=
  UInt64.ofNat ((if x.negative then 1 <<< 63 else 0) + x.place.val)

/-- Numeric equality: the two zeros are equal, and what is no number equals nothing. -/
def equals (x y : Binary64) : Bool :=
  !x.isNaN && !y.isNaN && (x == y || x.isZero && y.isZero)

end Binary64

end SharedValues
