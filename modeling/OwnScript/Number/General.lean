import OwnScript.Number.Binary64

/-!
The general notation of a float: a fixed number of significant digits, rounded from the exact
value, with trailing zeros dropped. Very large and very small numbers are written with a power
of ten.
-/

namespace OwnScript.Number

/-- The decisions of the notation. -/
structure GeneralStyle where
  /-- Significant digits before trailing zeros are dropped. -/
  digits : Nat
  /-- The least power of ten that is written without an exponent. -/
  leastPositional : Int
  /-- The least number of digits in an exponent. -/
  exponentDigits : Nat

/-- Floats are written with six significant digits, positionally from `0.0001` up to six digits
before the point, and with at least two digits in an exponent. -/
def floatStyle : GeneralStyle where
  digits := 6
  leastPositional := -4
  exponentDigits := 2

/-- The quotient rounded to the nearest integer, a half going to the even neighbour. -/
def roundDiv (num den : Nat) : Nat :=
  let quotient := num / den
  let twice := 2 * (num % den)
  if twice < den then quotient
  else if den < twice then quotient + 1
  else quotient + quotient % 2

/-- The number of decimal digits of a positive number; zero has none. -/
def digitCount (n : Nat) : Nat :=
  if n = 0 then 0 else (Nat.toDigits 10 n).length

/-- A positive magnitude as a fraction of natural numbers. -/
def Magnitude.fraction (m : Magnitude) : Nat × Nat :=
  if m.exponent < 0 then (m.mantissa, 1 <<< (-m.exponent).toNat)
  else (m.mantissa <<< m.exponent.toNat, 1)

/-- The power of ten of the leading digit of `num / den`, for a positive fraction. -/
def leadingPower (num den : Nat) : Int :=
  if den ≤ num then (digitCount (num / den) : Int) - 1
  else -(digitCount ((den - 1) / num) : Int)

/-- The first `digits` digits of a positive fraction as one number, and the power of ten of the
leading one. Rounding up to the next power of ten moves the point. -/
def roundedDigits (digits num den : Nat) : Nat × Int :=
  let power := leadingPower num den
  let shift := (digits : Int) - 1 - power
  let rounded := if shift < 0 then roundDiv num (den * Nat.pow 10 (-shift).toNat)
    else roundDiv (num * Nat.pow 10 shift.toNat) den
  if rounded = Nat.pow 10 digits then (Nat.pow 10 (digits - 1), power + 1) else (rounded, power)

/-- The digits of `n`, padded with zeros in front. -/
def fixedDigits (width n : Nat) : List Char :=
  let ds := Nat.toDigits 10 n
  List.replicate (width - ds.length) '0' ++ ds

/-- Drops the zeros at the end of a list of digits. -/
def dropTrailingZeros (ds : List Char) : List Char :=
  (ds.reverse.dropWhile (· == '0')).reverse

/-- A whole part and its fractional digits, the point only if there are any. -/
def withPoint (whole fractional : List Char) : String :=
  match dropTrailingZeros fractional with
  | [] => String.ofList whole
  | ds => String.ofList (whole ++ '.' :: ds)

/-- The text of rounded digits whose leading one stands at `power`. -/
def GeneralStyle.place (style : GeneralStyle) (ds : List Char) (power : Int) : String :=
  if power < style.leastPositional ∨ (style.digits : Int) ≤ power then
    let mark := if power < 0 then "e-" else "e+"
    withPoint (ds.take 1) (ds.drop 1) ++ mark
      ++ String.ofList (fixedDigits style.exponentDigits power.natAbs)
  else if power < 0 then
    withPoint ['0'] (List.replicate (power.natAbs - 1) '0' ++ ds)
  else
    withPoint (ds.take (power.toNat + 1)) (ds.drop (power.toNat + 1))

/-- The text of a magnitude. -/
def GeneralStyle.magnitude (style : GeneralStyle) (m : Magnitude) : String :=
  if m.mantissa = 0 then "0"
  else
    let (num, den) := m.fraction
    let (rounded, power) := roundedDigits style.digits num den
    style.place (fixedDigits style.digits rounded) power

/-- The text of a float. A negative zero keeps its sign. Which sign and which payload the NaN of an operation has is
up to the processor. They are not kept: there is only one NaN here, and it is written without a sign. -/
def floatText (f : Float) : String :=
  let sign := if signBit f.toBits then "-" else ""
  match content f.toBits with
  | .nan => "nan"
  | .infinite => sign ++ "inf"
  | .finite m => sign ++ floatStyle.magnitude m

end OwnScript.Number
