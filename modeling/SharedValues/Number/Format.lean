import SharedValues.Number.Numeral

/-!
# Writing numbers

A number is written with at most six significant digits.  The exact value is rounded once, to
the nearest six-digit decimal; small and large numbers are written with a power of ten, all
others in positional notation, and zeros at the end of a fraction are left out.

## Main definitions

* `SixDigits` — a six-digit decimal and the power of ten of its first digit.
* `SixDigits.ofUnits` — the six-digit decimal nearest to a magnitude.
* `formatNumber` — the text of a number.
-/

namespace SharedValues

/-- A decimal of six significant digits, standing for `digits * 10 ^ (exponent - 5)`. -/
structure SixDigits where
  /-- The digits, as a natural number from `100000` to `999999`. -/
  digits : Nat
  /-- The power of ten of the first digit. -/
  exponent : Int
  deriving DecidableEq, Repr

namespace SixDigits

/-- The power of ten of the first digit of a positive magnitude given in units of `2 ^ -1074`.
The least magnitude has its first digit 324 places after the point. -/
def leadingPower (units : Nat) : Int :=
  (Numeral.digitCount (units * Nat.pow 10 324 / 1 <<< 1074) : Int) - 325

/-- The nearest whole number to a magnitude divided by `10 ^ power`. -/
def scaled (units : Nat) (power : Int) : Nat :=
  if 0 ≤ power then Number.roundHalfEven units (1 <<< 1074 * Nat.pow 10 power.toNat)
  else Number.roundHalfEven (units * Nat.pow 10 (-power).toNat) (1 <<< 1074)

/-- The six-digit decimal nearest to a positive magnitude, a tie going to the even last digit. -/
def ofUnits (units : Nat) : SixDigits :=
  let power := leadingPower units
  let digits := scaled units (power - 5)
  -- rounding up may carry into a seventh digit
  if digits = 1000000 then ⟨100000, power + 1⟩ else ⟨digits, power⟩

/-- The fraction written after a whole part: a point and the digits less the zeros at their end,
or nothing if no other digit is left. -/
def fraction (ds : List Char) : List Char :=
  match (ds.reverse.dropWhile (· == '0')).reverse with
  | [] => []
  | ds => '.' :: ds

/-- Scientific notation: one digit before the point, and an exponent with a sign and at least two
digits. -/
def scientific (d : SixDigits) : List Char :=
  let ds := Nat.toDigits 10 d.digits
  let exponent := Nat.toDigits 10 d.exponent.natAbs
  ds.take 1 ++ fraction (ds.drop 1)
    ++ ['e', if d.exponent < 0 then '-' else '+']
    ++ (if exponent.length < 2 then '0' :: exponent else exponent)

/-- Positional notation. -/
def positional (d : SixDigits) : List Char :=
  let ds := Nat.toDigits 10 d.digits
  if d.exponent < 0 then
    '0' :: fraction (List.replicate (d.exponent.natAbs - 1) '0' ++ ds)
  else
    let whole := d.exponent.toNat + 1
    ds.take whole ++ fraction (ds.drop whole)

/-- The written form: scientific when the exponent is below -4 or above 5. -/
def write (d : SixDigits) : List Char :=
  if d.exponent < -4 ∨ 6 ≤ d.exponent then d.scientific else d.positional

end SixDigits

/-- The text of a number. -/
def formatNumber (x : Binary64) : String :=
  if x.isNaN then "nan"
  else
    let sign := if x.negative then ['-'] else []
    String.ofList <| sign ++
      (if x.isInfinite then ['i', 'n', 'f']
       else if x.isZero then ['0']
       else (SixDigits.ofUnits x.units).write)

end SharedValues
